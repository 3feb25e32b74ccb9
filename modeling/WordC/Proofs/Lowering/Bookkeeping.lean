import Mathlib
import WordC.Proofs.Lowering.Held
import WordC.Proofs.Lowering.Quiet
/-!
# The books of the register file

The register file keeps more than what its registers hold: the state of each register, how many
are in each state, which variables are newer than memory, and where the pushed results lie.
`Consistent` says that these books agree with each other, `Distinct` that no value is in two
places. Each change of the register file keeps both, the first without any condition on when it is
made and the second as long as a value that is put into a register was `Absent`.
-/

namespace WordC

/-- A change of state takes one register from the old count to the new one. -/
theorem StateCounts.get_move {c : StateCounts} {old : RegisterState} (h : 0 < c.get old)
    (new state : RegisterState) :
    (c.move old new).get state + (if old = state then 1 else 0) =
      c.get state + if new = state then 1 else 0 := by
  cases old <;> cases new <;> cases state <;> simp [move, get] at h ⊢ <;> omega

namespace RegisterFile

/-- **The books agree with the registers.** -/
structure Consistent (f : RegisterFile) : Prop where
  counts : ∀ state, f.counts.get state = f.registers.countP (·.state = state)
  empty : f.All fun r => r.state = .empty ↔ r.binding = none
  written : f.All Register.WrittenVariable

/-- The results in pushed words that were not read yet. -/
def live (f : RegisterFile) : List Nat :=
  f.spills.filterMap SpillSlot.value

/-- **No value is in two places.** -/
structure Distinct (f : RegisterFile) : Prop where
  registers : ∀ i j b, f.bindingAt i = some b → f.bindingAt j = some b → i = j
  live : f.live.Nodup
  apart : ∀ i n, f.bindingAt i = some (.intermediate n) → n ∉ f.live

/-- The value is in no register and, if it is a result, in no pushed word. -/
structure Absent (b : Binding) (f : RegisterFile) : Prop where
  registers : ∀ i, f.bindingAt i ≠ some b
  live : ∀ n, b = .intermediate n → n ∉ f.live

theorem absent_iff {b : Binding} {f : RegisterFile} : f.Absent b ↔ f.find? b = none ∧
    (match b with
      | .intermediate n => n ∉ f.live
      | _ => True) := by
  constructor
  · rintro ⟨hregisters, hlive⟩
    refine ⟨?_, ?_⟩
    · cases h : f.find? b with
      | none => rfl
      | some i => exact absurd (bindingAt_of_find? h) (hregisters i)
    · split
      · exact hlive _ rfl
      · trivial
  · rintro ⟨hnone, hlive⟩
    refine ⟨bindingAt_of_find?_none hnone, ?_⟩
    rintro n rfl
    exact hlive

instance (b : Binding) (f : RegisterFile) : Decidable (f.Absent b) :=
  match b with
  | .intermediate n =>
    decidable_of_iff (f.find? (.intermediate n) = none ∧ n ∉ f.live) absent_iff.symm
  | .var v => decidable_of_iff (f.find? (.var v) = none ∧ True) absent_iff.symm
  | .constant k => decidable_of_iff (f.find? (.constant k) = none ∧ True) absent_iff.symm

/-- Register `i` holds variable `v`, which is newer than in memory. -/
def HoldsWritten (f : RegisterFile) (i : Nat) (v : Variable) : Prop :=
  f.bindingAt i = some (.var v) ∧ f.writtenAt i = true

variable {f f' : RegisterFile} {i : Nat} {b : Binding}

/-! ## Counting -/

/-- There is a register in the state of each register. -/
theorem Consistent.get_pos (h : f.Consistent) {r : Register} (hr : f.registers[i]? = some r) :
    0 < f.counts.get r.state := by
  rw [h.counts, List.countP_pos_iff]
  exact ⟨r, List.mem_of_getElem? hr, by simp⟩

/-- Changing one register changes the number of those in a state by one at most. -/
theorem countP_modify {rs : List Register} {g : Register → Register} {r : Register}
    (hr : rs[i]? = some r) (state : RegisterState) :
    (rs.modify i g).countP (·.state = state) + (if r.state = state then 1 else 0) =
      rs.countP (·.state = state) + if (g r).state = state then 1 else 0 := by
  induction rs generalizing i with
  | nil => cases hr
  | cons s rs ih =>
    cases i with
    | zero =>
      cases hr
      simp [List.countP_cons]
      omega
    | succ i =>
      have := ih hr
      simp [List.countP_cons]
      omega

/-- Changing one register and moving it in the books. -/
theorem Consistent.modify (h : f.Consistent) {g : Register → Register}
    (hregisters : f'.registers = f.registers.modify i g)
    (hcounts : ∀ r, f.registers[i]? = some r → f'.counts = f.counts.move r.state (g r).state)
    (hnone : f.registers[i]? = none → f'.counts = f.counts)
    (hempty : ∀ r, f.registers[i]? = some r → ((g r).state = .empty ↔ (g r).binding = none))
    (hwritten : ∀ r, f.registers[i]? = some r → r.WrittenVariable → (g r).WrittenVariable) :
    f'.Consistent where
  counts state := by
    cases hr : f.registers[i]? with
    | none =>
      have hsame : f'.registers = f.registers := by
        rw [hregisters, List.modify_eq_self (List.getElem?_eq_none_iff.1 hr)]
      rw [hnone hr, hsame, h.counts]
    | some r =>
      -- one register leaves its state for another, in the counts as in the list
      have hmove := StateCounts.get_move (h.get_pos hr) (g r).state state
      have hcount := countP_modify (g := g) hr state
      rw [hcounts r hr, hregisters]
      rw [h.counts state] at hmove
      omega
  empty := h.empty.modify hregisters fun r hr _ => hempty r hr
  written := h.written.modify hregisters hwritten

/-- A change that leaves the registers and their counts. -/
theorem Consistent.of_same (h : f.Consistent) (hregisters : f'.registers = f.registers)
    (hcounts : f'.counts = f.counts) : f'.Consistent where
  counts state := by rw [hcounts, hregisters, h.counts]
  empty := by simpa only [All, hregisters] using h.empty
  written := by simpa only [All, hregisters] using h.written

/-! ## Consistent books -/

theorem modify_of_getElem? {rs : List Register} {g : Register → Register} {r : Register}
    (hr : rs[i]? = some r) : rs.modify i g = rs.set i (g r) := by
  apply List.ext_getElem?
  intro j
  rw [List.getElem?_modify, List.getElem?_set]
  by_cases hj : i = j
  · subst hj
    obtain ⟨hi, rfl⟩ := List.getElem?_eq_some_iff.1 hr
    simp [hi]
  · simp [hj]

theorem registers_setState (f : RegisterFile) (i : Nat) (state : RegisterState) :
    (f.setState i state).registers = f.registers.modify i fun r => { r with state := state } := by
  unfold setState
  cases hr : f.registers[i]? with
  | none => exact (List.modify_eq_self (List.getElem?_eq_none_iff.1 hr)).symm
  | some r => exact (modify_of_getElem? (g := fun r => { r with state := state }) hr).symm

theorem counts_setState {r : Register} (hr : f.registers[i]? = some r) (state : RegisterState) :
    (f.setState i state).counts = f.counts.move r.state state := by
  unfold setState
  rw [hr]

theorem counts_setState_none (hr : f.registers[i]? = none) (state : RegisterState) :
    (f.setState i state).counts = f.counts := by
  unfold setState
  rw [hr]

theorem registers_clear (f : RegisterFile) (i : Nat) :
    (f.clear i).registers = f.registers.modify i Register.cleared := by
  unfold clear
  cases hr : f.registers[i]? with
  | none => exact (List.modify_eq_self (List.getElem?_eq_none_iff.1 hr)).symm
  | some r => exact (modify_of_getElem? hr).symm

theorem Consistent.clear (h : f.Consistent) (i : Nat) : (f.clear i).Consistent := by
  refine h.modify (registers_clear f i) (fun r hr => ?_) (fun hr => ?_) (fun r _ => ?_)
    fun r _ _ => WrittenVariable.cleared r
  · unfold RegisterFile.clear
    rw [hr]
    rfl
  · unfold RegisterFile.clear
    rw [hr]
  · exact iff_of_true rfl rfl

/-- A register that holds a value is put into another state than that of an empty one. -/
theorem Consistent.setState (h : f.Consistent) {state : RegisterState} (hstate : state ≠ .empty)
    (hb : f.bindingAt i = some b) : (f.setState i state).Consistent := by
  refine h.modify (registers_setState f i state) (fun r hr => counts_setState hr state)
    (fun hr => counts_setState_none hr state) (fun r hr => ?_) fun r _ hr => hr
  rw [bindingAt, hr] at hb
  exact iff_of_false hstate (by simp_all)

theorem Consistent.touch (h : f.Consistent) (i : Nat) : (f.touch i).Consistent where
  counts state := by
    have hcount : (f.touch i).registers.countP (·.state = state) =
        f.registers.countP (·.state = state) := by
      cases hr : f.registers[i]? with
      | none =>
        rw [RegisterFile.touch, List.modify_eq_self (List.getElem?_eq_none_iff.1 hr)]
      | some r => exact Nat.add_right_cancel (countP_modify hr state)
    rw [hcount, ← h.counts]
    rfl
  empty := h.empty.touch (fun _ _ hr => hr) i
  written := h.written.touch (fun _ _ hr => hr) i

theorem Consistent.use (h : f.Consistent) (hb : f.bindingAt i = some b) : (f.use i).Consistent :=
  (h.touch i).setState (by decide) ((bindingAt_congr (sameOutside_touch f i).held i).trans hb)

theorem Consistent.pin (h : f.Consistent) (i : Nat) : (f.pin i).Consistent := by
  unfold RegisterFile.pin
  split
  · exact h
  · exact h.of_same rfl rfl

theorem Consistent.markWritten (h : f.Consistent) {v : Variable}
    (hb : f.bindingAt i = some (.var v)) : (f.markWritten i).Consistent where
  counts state := by
    obtain ⟨r, hr, -⟩ := Option.bind_eq_some_iff.1 hb
    refine (h.counts state).trans (Nat.add_right_cancel (countP_modify hr state)).symm
  empty := h.empty.modify rfl fun _ _ hr => hr
  written := h.written.markWritten fun _ => hb

/-- A value is put into a register, whatever the register held before. -/
theorem Consistent.bind (h : f.Consistent) (i : Nat) (b : Binding) {state : RegisterState}
    (hstate : state ≠ .empty) : (f.bind i b state).Consistent := by
  have hset : ({ f with registers := f.registers.modify i fun r =>
      { r with binding := some b, written := false } }.setState i state).Consistent := by
    refine h.modify (i := i)
      (g := fun r => { r with binding := some b, written := false, state := state }) ?_ (fun r hr => ?_)
      (fun hr => ?_) (fun r _ => iff_of_false hstate nofun) fun r _ _ => nofun
    · rw [registers_setState, List.modify_modify_eq]
      rfl
    · refine counts_setState (r := { r with binding := some b, written := false }) ?_ state
      rw [List.getElem?_modify_eq, hr]
      rfl
    · exact counts_setState_none (by rw [List.getElem?_modify_eq, hr]; rfl) state
  exact hset.touch i

theorem Consistent.release (h : f.Consistent) (i : Nat) : (f.release i).Consistent := by
  unfold RegisterFile.release
  split
  · exact h.clear i
  · next hb _ => exact h.setState (by decide) ‹_›
  · exact h

/-- Registers are released one after the other. -/
theorem Consistent.releaseOperands (h : f.Consistent) : f.releaseOperands.Consistent := by
  suffices ∀ (is : List Nat) (g : RegisterFile), g.Consistent →
      (is.foldl RegisterFile.release g).Consistent from
    this f.pinned { f with pinned := [] } (h.of_same rfl rfl)
  intro is
  induction is with
  | nil => exact fun _ hg => hg
  | cons i is ih => exact fun g hg => ih _ (hg.release i)

/-- The counts follow the registers that are emptied, `m` being the counts of those that were
passed already. -/
theorem get_foldl_move (p : Register → Bool) (m : RegisterState → Nat) (rs : List Register)
    (c : StateCounts) (hc : ∀ state, c.get state = m state + rs.countP (·.state = state))
    (state : RegisterState) :
    ((rs.filter p).foldl (fun c r => c.move r.state .empty) c).get state =
      m state + (rs.map fun r => if p r then r.cleared else r).countP (·.state = state) := by
  induction rs generalizing m c with
  | nil => simpa using hc state
  | cons r rs ih =>
    -- `m` counts the registers passed so far, in the states they have now
    by_cases hp : p r = true
    · have hpos : 0 < c.get r.state := by
        rw [hc, List.countP_cons]
        simp
      have hmove := fun s => StateCounts.get_move hpos .empty s
      rw [List.filter_cons_of_pos hp, List.foldl_cons,
        ih (fun s => m s + if RegisterState.empty = s then 1 else 0)]
      · simp [List.countP_cons, hp, Register.cleared]
        omega
      · intro s
        have := hmove s
        have := hc s
        simp only [List.countP_cons, decide_eq_true_eq] at this
        omega
    · rw [List.filter_cons_of_neg hp, ih (fun s => m s + if r.state = s then 1 else 0)]
      · simp [List.countP_cons, hp]
        omega
      · intro s
        have := hc s
        simp only [List.countP_cons, decide_eq_true_eq] at this
        omega

theorem Consistent.clearWhere (h : f.Consistent) (p : Register → Bool) :
    (f.clearWhere p).Consistent where
  counts state := by
    have := get_foldl_move p (fun _ => 0) f.registers f.counts (by simpa using h.counts) state
    simpa [RegisterFile.clearWhere] using this
  empty := h.empty.clearWhere (fun _ _ => iff_of_true rfl rfl) p
  written := h.written.clearWhere (fun r _ => WrittenVariable.cleared r) p

/-- The books of a new file. -/
theorem consistent_of_ofSize {size : Nat} (h : ofSize size = .ok f) : f.Consistent := by
  unfold ofSize at h
  split at h
  · cases h
  · cases h
    refine ⟨fun state => ?_, ?_, ?_⟩
    · rw [List.countP_map]
      cases state <;> simp [StateCounts.get, Function.comp_def]
    · intro r hr
      obtain ⟨i, -, rfl⟩ := List.mem_map.1 hr
      exact iff_of_true rfl rfl
    · intro r hr
      obtain ⟨i, -, rfl⟩ := List.mem_map.1 hr
      exact nofun

/-! ## Values in one place -/

/-- Emptying registers, and dropping pushed words, leaves no value in two places. -/
theorem Distinct.of_le (h : f.Distinct)
    (hb : ∀ i b, f'.bindingAt i = some b → f.bindingAt i = some b) (hl : f'.live.Sublist f.live) :
    f'.Distinct where
  registers i j b hi hj := h.registers i j b (hb i b hi) (hb j b hj)
  live := h.live.sublist hl
  apart i n hi hn := h.apart i n (hb i _ hi) (hl.subset hn)

theorem Cleared.live_eq {q : Nat → Bool} (hc : Cleared q f f') : f'.live = f.live := by
  rw [RegisterFile.live, hc.spills, RegisterFile.live]

theorem Distinct.of_cleared (h : f.Distinct) {q : Nat → Bool} (hc : Cleared q f f') :
    f'.Distinct :=
  h.of_le (fun _ _ hi => (hc.bound hi).2) (hc.live_eq ▸ List.Sublist.refl _)

theorem Distinct.of_sameOutside (h : f.Distinct) (hs : SameOutside f f') : f'.Distinct :=
  h.of_cleared hs.cleared

/-- A value that was absent is put into a register. -/
theorem Distinct.of_given (h : f.Distinct) {written : Bool} (hg : Given i b written f f')
    (habsent : f.Absent b) : f'.Distinct := by
  have hlive : f'.live = f.live := by rw [RegisterFile.live, hg.spills, RegisterFile.live]
  refine ⟨fun j k c hj hk => ?_, hlive ▸ h.live, fun j n hj => ?_⟩
  · exact hg.unique h.registers (fun j hj => absurd hj (habsent.registers j)) hj hk
  · rw [hlive]
    rcases hg.bound hj with ⟨-, hb⟩ | ⟨-, hj⟩
    · exact habsent.live n hb.symm
    · exact h.apart j n hj

/-- A value that a register holds already stays in one place. -/
theorem Distinct.of_given_held (h : f.Distinct) {written : Bool} (hg : Given i b written f f')
    (hb : f.bindingAt i = some b) : f'.Distinct := by
  refine h.of_le (fun j c hj => ?_) ?_
  · rcases hg.bound hj with ⟨rfl, rfl⟩ | ⟨-, hj⟩
    · exact hb
    · exact hj
  · rw [RegisterFile.live, hg.spills, RegisterFile.live]

/-- In a new file every register is empty. -/
theorem distinct_of_ofSize {size : Nat} (h : ofSize size = .ok f) : f.Distinct := by
  unfold ofSize at h
  split at h
  · cases h
  · cases h
    have hnone : ∀ i b, (({ registers := (List.range size).map fun i =>
        { reg := .general (UInt8.ofNat (min (i + 1) 255)) }, counts := { empty := size } } :
        RegisterFile).bindingAt i) ≠ some b := by
      intro i b hb
      obtain ⟨r, hr, hb⟩ := Option.bind_eq_some_iff.1 hb
      obtain ⟨k, -, rfl⟩ := List.mem_map.1 (List.mem_of_getElem? hr)
      cases hb
    exact ⟨fun i _ b hi => absurd hi (hnone i b), List.nodup_nil,
      fun i n hi => absurd hi (hnone i _)⟩

/-- The registers pass the check for values that are held twice. -/
theorem Distinct.bindingsUnique (h : f.Distinct) : f.bindingsUnique = true := by
  rw [RegisterFile.bindingsUnique, decide_eq_true_eq, bindings, List.Nodup,
    List.pairwise_filterMap, List.pairwise_iff_getElem]
  rintro i j hi hj hij b hb c hc rfl
  have hij' := h.registers i j b (by simp [bindingAt, List.getElem?_eq_getElem hi, hb])
    (by simp [bindingAt, List.getElem?_eq_getElem hj, hc])
  omega

/-! ## Taking a register away -/

/-- The file after the word in register `i` was pushed, if it is a result. -/
def spilled (f : RegisterFile) (i : Nat) : RegisterFile :=
  match f.bindingAt i with
  | some (.intermediate n) =>
    { f with
      spills := f.spills ++ [⟨some n, f.stackDepth⟩]
      stackDepth := f.stackDepth + 1 }
  | _ => f

/-- The file after register `i` was emptied. -/
def evicted (f : RegisterFile) (i : Nat) : RegisterFile :=
  (f.spilled i).clear i

theorem registers_spilled (f : RegisterFile) (i : Nat) : (f.spilled i).registers = f.registers := by
  unfold spilled
  split <;> rfl

theorem counts_spilled (f : RegisterFile) (i : Nat) : (f.spilled i).counts = f.counts := by
  unfold spilled
  split <;> rfl

theorem held_spilled (f : RegisterFile) (i : Nat) : (f.spilled i).held = f.held := by
  rw [held, registers_spilled, held]

theorem pinned_evicted (f : RegisterFile) (i : Nat) : (f.evicted i).pinned = f.pinned := by
  rw [evicted, pinned_clear, spilled]
  split <;> rfl

theorem size_evicted (f : RegisterFile) (i : Nat) : (f.evicted i).size = f.size := by
  rw [evicted, (cleared_clear _ i).size, size_congr (held_spilled f i)]

theorem regAt_evicted (f : RegisterFile) (i j : Nat) : (f.evicted i).regAt j = f.regAt j := by
  rw [evicted, (cleared_clear _ i).regAt, regAt_congr (held_spilled f i)]

theorem bindingAt_evicted (f : RegisterFile) (i j : Nat) :
    (f.evicted i).bindingAt j = if j = i then none else f.bindingAt j := by
  rw [evicted, (cleared_clear _ i).bindingAt, bindingAt_congr (held_spilled f i)]
  simp only [decide_eq_true_eq]

theorem writtenAt_evicted (f : RegisterFile) (i j : Nat) :
    (f.evicted i).writtenAt j = if j = i then false else f.writtenAt j := by
  rw [evicted, (cleared_clear _ i).writtenAt, writtenAt_congr (held_spilled f i)]
  simp only [decide_eq_true_eq]

/-- The result in register `i` is the newest in a pushed word. -/
theorem live_evicted (f : RegisterFile) (i : Nat) :
    (f.evicted i).live = f.live ++ (match f.bindingAt i with
      | some (.intermediate n) => [n]
      | _ => []) := by
  rw [evicted, (cleared_clear _ i).live_eq, spilled]
  split
  · simp [live]
  · rw [List.append_nil]

theorem Consistent.evicted (h : f.Consistent) (i : Nat) : (f.evicted i).Consistent :=
  (h.of_same (registers_spilled f i) (counts_spilled f i)).clear i

/-- A result that is pushed leaves its register. -/
theorem Distinct.evicted (h : f.Distinct) (i : Nat) : (f.evicted i).Distinct := by
  have hold : ∀ {j c}, (f.evicted i).bindingAt j = some c → j ≠ i ∧ f.bindingAt j = some c := by
    intro j c hj
    rw [bindingAt_evicted] at hj
    split at hj
    · cases hj
    · exact ⟨‹_›, hj⟩
  refine ⟨fun j k c hj hk => h.registers j k c (hold hj).2 (hold hk).2, ?_, fun j n hj => ?_⟩
  · rw [live_evicted]
    split
    -- the result that is spilled was not spilled before
    · next n hn => exact List.nodup_append_comm.1 (List.nodup_cons.2 ⟨h.apart i n hn, h.live⟩)
    · simpa using h.live
  · obtain ⟨hne, hj⟩ := hold hj
    rw [live_evicted, List.mem_append, not_or]
    refine ⟨h.apart j n hj, ?_⟩
    split
    · next m hm =>
      rw [List.mem_singleton]
      rintro rfl
      exact hne (h.registers j i _ hj hm)
    · exact List.not_mem_nil

/-- A value that was absent does not appear when another one is pushed. -/
theorem Absent.evicted (h : f.Absent b) (i : Nat) : (f.evicted i).Absent b := by
  refine ⟨fun j hj => ?_, ?_⟩
  · rw [bindingAt_evicted] at hj
    split at hj
    · cases hj
    · exact h.registers j hj
  · rintro n rfl
    rw [live_evicted, List.mem_append, not_or]
    refine ⟨h.live n rfl, ?_⟩
    split
    · next m hm =>
      rw [List.mem_singleton]
      rintro rfl
      exact h.registers i hm
    · exact List.not_mem_nil

end RegisterFile

end WordC
