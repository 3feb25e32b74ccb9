import Mathlib
import WordC.Proofs.Lowering.Room
/-!
# The register file around an instruction

The values of an instruction are loaded and pinned, their use ends, and a
register is taken for the result or for the variable that is written. The
register is bound before the instruction writes it, so that what is said about
it holds for whatever word comes to be written.
-/

namespace WordC

open RegisterFile

variable {W : Type}

/-- The results among the values that a binding stands for. -/
def Binding.results : Binding → List Nat
  | intermediate n => [n]
  | _ => []

theorem Binding.mem_results {b : Binding} {n : Nat} : n ∈ b.results ↔ b = .intermediate n := by
  cases b <;> simp [results, eq_comm]

/-- The results in pinned registers are those of `R`. -/
def Pinned (R : List Nat) (f : RegisterFile) : Prop :=
  ∀ l, (∃ i ∈ f.pinned, f.bindingAt i = some (.intermediate l)) ↔ l ∈ R

theorem Pinned.nil {f : RegisterFile} (h : f.pinned = []) : Pinned [] f := by
  simp [Pinned, h]

/-- One more value is loaded. -/
theorem Assemble.Loaded.pinned {c : Nat} {b : Binding} {R : List Nat} {i : Nat}
    {f f' : RegisterFile} {m m' : Traced W} {σ σ' : List (Slot W)}
    (h : Loaded c b i f m σ f' m' σ') (hp : Pinned R f) : Pinned (b.results ++ R) f' := by
  intro l
  rw [List.mem_append, Binding.mem_results, ← hp l]
  constructor
  · rintro ⟨j, hj, hbind⟩
    rcases (h.mem_pinned j).1 hj with hj | rfl
    · exact .inr ⟨j, hj, (h.kept.pinned j hj).2.symm.trans hbind⟩
    · exact .inl (Option.some.inj (h.bindingAt.symm.trans hbind))
  · rintro (rfl | ⟨j, hj, hbind⟩)
    · exact ⟨i, (h.mem_pinned i).2 (.inr rfl), h.bindingAt⟩
    · exact ⟨j, (h.kept.pinned j hj).1, (h.kept.pinned j hj).2.trans hbind⟩

/-- The results `R` are those from `n` up to `k`. -/
def Consumes (R : List Nat) (n k : Nat) : Prop :=
  n ≤ k ∧ ∀ l, l ∈ R ↔ n ≤ l ∧ l < k

theorem Consumes.le {R : List Nat} {n k l : Nat} (h : Consumes R n k) (hl : l ∈ R) : n ≤ l :=
  ((h.2 l).1 hl).1

theorem Consumes.nil (n : Nat) : Consumes [] n n :=
  ⟨Nat.le_refl n, fun l => by simp⟩

namespace Assemble

variable {T : Target W} {known : Variable → Prop} {d : Nat} {below : List W} {base : List Pushed} {f : RegisterFile}
variable {m : Traced W} {mem : Memory W} {ρ : Nat → W} {k n : Nat} {σ : List (Slot W)}
variable {R : List Nat}

/-- **Ending the use of the values** consumes the results among them. -/
theorem releaseOperands_linked (h : Linked T known d below base f m mem ρ k σ) (hp : Pinned R f)
    (hR : Consumes R n k) : Linked T known d below base f.releaseOperands m mem ρ n σ := by
  have hc := cleared_releaseOperands f
  refine ⟨h.holds.clear hc fun i v hq hi => ?_, h.stack.congr hc.stackDepth hc.spills, h.top,
    h.results.consume hR.1 hc (fun i l hi => ?_) fun l hl hk => ?_⟩
  · simp [holdsResult, hi, Binding.isIntermediate] at hq
  · have hmem : i ∈ f.pinned ↔ l ∈ R := by
      rw [← hp l]
      refine ⟨fun hpin => ⟨i, hpin, hi⟩, ?_⟩
      rintro ⟨j, hj, hbind⟩
      rwa [h.holds.unique i j _ hi hbind]
    have hl : n ≤ l ↔ l ∈ R := by
      rw [hR.2 l]
      exact (and_iff_left (h.results.inRegister i l hi)).symm
    rw [hl, ← hmem]
    simp [holdsResult, hi, Binding.isIntermediate]
  · obtain ⟨i, -, hi⟩ := (hp l).2 ((hR.2 l).2 ⟨hl, hk⟩)
    exact ⟨i, hi⟩

/-- What the names and the pending calls are after `releaseOperands`. -/
theorem kept_releaseOperands (f : RegisterFile) :
    f.releaseOperands.size = f.size ∧ (∀ i, f.releaseOperands.regAt i = f.regAt i) ∧
      f.releaseOperands.callStarts = f.callStarts :=
  have hc := cleared_releaseOperands f
  ⟨hc.size, hc.regAt, hc.callStarts⟩

/-- A register `r` was taken to be written, with up to one word pushed. -/
structure Taken (b : Binding) (r : Reg) (f : RegisterFile) (m : Traced W) (σ : List (Slot W))
    (f' : RegisterFile) (m' : Traced W) (σ' : List (Slot W)) : Prop where
  regs : m'.regs = m.regs
  coming : m'.coming = m.coming
  heap : m'.memory.heap = m.memory.heap
  size : f'.size = f.size
  regAt : ∀ i, f'.regAt i = f.regAt i
  callStarts : f'.callStarts = f.callStarts
  pushed : ∃ ns : List Nat, σ' = ns.map .result ++ σ ∧ ns.length ≤ 1
  general : ∃ g, r = .general g
  bound : ∃ i, f'.bindingAt i = some b ∧ r = f'.regAt i

variable [DecidableEq W]

/-- **Taking a register for result `n`**, which consumes the values. -/
theorem bindResult_linked (h : Linked T known d below base f m mem ρ k σ) (hp : Pinned R f)
    (hR : Consumes R n k) (hsize : 0 < f.size) :
    ∃ r f' m' σ', Runs T (bindResult n) f m r f' m' ∧
      (∀ w, Linked T known d below base f' (m'.set r w) mem (Function.update ρ n w) (n + 1) σ') ∧
      Taken (.intermediate n) r f m σ f' m' σ' ∧ f'.pinned = [] := by
  have h₀ := releaseOperands_linked h hp hR
  obtain ⟨hsize₀, hreg₀, hstarts₀⟩ := kept_releaseOperands f
  obtain ⟨i, f₁, m₁, σ₁, htake, h₁, hroom, hi, hpin, hempty⟩ :=
    takeRegister_linked h₀ (by rw [pinned_releaseOperands, hsize₀]; exact hsize)
  have hg := given_bind hi (.intermediate n) .used
  have hheap : m₁.memory.heap = m.memory.heap := h₁.holds.heap.trans h.holds.heap.symm
  refine ⟨(f₁.bind i (.intermediate n) .used).regAt i, f₁.bind i (.intermediate n) .used, m₁, σ₁,
    ?_, fun w => ?_, ?_, ?_⟩
  · exact (Runs.ask _).bind ((Runs.onFile _).bind
      (htake.bind ((Runs.onFile _).bind (Runs.file.bind (Runs.pure _)))))
  · rw [hg.regAt]
    -- the number is new, so nothing else depends on the word
    have hregs : ∀ j l, f₁.bindingAt j = some (.intermediate l) →
        Function.update ρ n w l = ρ l := fun j l hj =>
      Function.update_of_ne (Nat.ne_of_lt (h₁.results.inRegister j l hj)) w ρ
    have hslots : ∀ l, .result l ∈ σ₁ → Function.update ρ n w l = ρ l := fun l hl =>
      Function.update_of_ne (Nat.ne_of_lt (h₁.results.onStack l (mem_spilled.2 hl))) w ρ
    have hnew : ∀ j, f₁.bindingAt j ≠ some (.intermediate n) := fun j hj =>
      Nat.lt_irrefl n (h₁.results.inRegister j n hj)
    refine ⟨((h₁.holds.set_unbound hi hempty w).results_congr hregs).give hg hempty hnew nofun ?_,
      (h₁.stack.results_congr hslots).congr hg.stackDepth hg.spills, h₁.top,
      h₁.results.produce hempty hg⟩
    rw [Machine.set_regs_self]
    simp [Target.bound]
  · refine ⟨hroom.regs, hroom.coming, hheap, hg.size.trans (hroom.kept.size.trans hsize₀),
      fun j => (hg.regAt j).trans ((hroom.kept.regAt j).trans (hreg₀ j)),
      hg.callStarts.trans (hroom.kept.callStarts.trans hstarts₀), hroom.pushed, ?_,
      i, hg.bindingAt_self, rfl⟩
    rw [hg.regAt]
    exact h₁.holds.general i hi
  · rw [pinned_bind, hroom.pinned, pinned_releaseOperands]

omit [DecidableEq W] in
/-- The register that a variable is written into. The variable is in it, or it
holds nothing. -/
theorem linked_write (h : Linked T known d below base f m mem ρ k σ) (ha : Apart W known)
    {v : Variable} (hknown : known v) (harray : v.isArray = false) {i : Nat} (hi : i < f.size)
    (hold : f.bindingAt i = none ∨ f.bindingAt i = some (.var v))
    (hnew : ∀ j, f.bindingAt j = some (.var v) → j = i) {f' : RegisterFile}
    (hg : Given i (.var v) true f f') (w : W) :
    Linked T known d below base f' (m.set (f'.regAt i) w) (mem.write v.storage w) ρ k σ := by
  rw [hg.regAt]
  refine ⟨h.holds.assign ha hg hi (fun b hb => ?_) hnew hknown harray w,
    h.stack.congr hg.stackDepth hg.spills, h.top, h.results.congr fun j n => ?_⟩
  · rcases hold with hold | hold <;> rw [hold] at hb <;> cases hb
    rfl
  · rw [hg.bindingAt]
    by_cases hj : j = i
    · subst hj
      rcases hold with hold | hold <;> simp [hold]
    · simp [hj]

omit [DecidableEq W] in
/-- What that keeps. -/
theorem loaded_write {f₀ f₁ : RegisterFile} {v : Variable} {i : Nat}
    (hb : f₁.bindingAt i = some (.var v)) (hkept : Kept f₀ f₁) (hpinned : f₁.pinned = f₀.pinned) :
    Loaded 0 (.var v) i f₀ m σ (((f₁.use i).markWritten i).pin i) m σ := by
  have hg := given_write hb
  have hmem : ∀ j, j ∈ (((f₁.use i).markWritten i).pin i).pinned ↔ j ∈ f₀.pinned ∨ j = i := by
    intro j
    rw [mem_pinned_pin, ← hpinned, ← pinned_use f₁ i]
    rfl
  have hlen := length_pinned_pin ((f₁.use i).markWritten i) i
  refine ⟨rfl, ⟨hg.size.trans hkept.size, fun j => (hg.regAt j).trans (hkept.regAt j),
    hg.callStarts.trans hkept.callStarts, fun j hj => ⟨(hmem j).2 (.inl hj), ?_⟩⟩,
    hg.bindingAt_self, hmem, ?_, fun L hL _ _ => hL, rfl, Nat.le_refl _⟩
  · rw [hg.bindingAt, ← (hkept.pinned j hj).2]
    split
    · next hji => rw [hji, hb]
    · rfl
  · rwa [← hpinned, ← pinned_use f₁ i]

/-- **Taking the register of a variable that is written.** -/
theorem bindForWrite_linked (h : Linked T known d below base f m mem ρ k σ) (ha : Apart W known)
    (hfree : f.pinned.length < f.size) {v : Variable} (hknown : known v)
    (harray : v.isArray = false) :
    ∃ i f' m' σ', Runs T (bindForWrite v) f m (f'.regAt i) f' m' ∧ m'.regs = m.regs ∧
      (∀ w, Linked T known d below base f' (m'.set (f'.regAt i) w) (mem.write v.storage w) ρ k σ') ∧
      Loaded 1 (.var v) i f m σ f' m' σ' := by
  cases hfind : f.find? (.var v) with
  | some i =>
    have hb := bindingAt_of_find? hfind
    have hloaded := loaded_write (m := m) (σ := σ) hb (Kept.refl f) rfl
    refine ⟨i, ((f.use i).markWritten i).pin i, m, σ, ?_, rfl, fun w => ?_, ?_⟩
    · refine (Runs.ask _).bind (Runs.file.bind ?_)
      rw [hfind]
      exact (Runs.pure i).bind ((Runs.onFile _).bind (Runs.file.bind (Runs.pure _)))
    · exact linked_write h ha hknown harray (lt_size_of_bindingAt hb) (.inr hb)
        (fun j hj => h.holds.unique j i _ hj hb) (given_write hb) w
    · exact { hloaded with length_le := Nat.le_succ_of_le hloaded.length_le }
  | none =>
    have hnone := bindingAt_of_find?_none hfind
    obtain ⟨i, f₁, m₁, σ₁, htake, h₁, hroom, hi, hpin, hempty⟩ := takeRegister_linked h hfree
    have hg := given_bind hi (.var v) .used
    have hb : (f₁.bind i (.var v) .used).bindingAt i = some (.var v) := by
      rw [hg.bindingAt, if_pos rfl]
    -- the register taken was not pinned, so every pinned one keeps its value
    have hkept : Kept f₁ (f₁.bind i (.var v) .used) :=
      ⟨hg.size, hg.regAt, hg.callStarts, fun j hj => ⟨by rwa [pinned_bind], by
        have hne : j ≠ i := fun heq => hpin (heq ▸ hj)
        rw [hg.bindingAt, if_neg hne]⟩⟩
    have hloaded := loaded_write (m := m₁) (σ := σ₁) hb hkept (pinned_bind _ _ _ _)
    refine ⟨i, _, m₁, σ₁, ?_, hroom.regs, fun w => ?_, hloaded.of_room hroom⟩
    · refine (Runs.ask _).bind (Runs.file.bind ?_)
      rw [hfind]
      exact htake.bind ((Runs.onFile _).bind
        ((Runs.pure i).bind ((Runs.onFile _).bind (Runs.file.bind (Runs.pure _)))))
    · exact linked_write h₁ ha hknown harray hi (.inl hempty)
        (fun j hj => absurd (hroom.bound j _ hj) (hnone j)) (hg.trans (given_write hb)) w

/-! ## Stores -/

/-- A register whose variable is to be stored. -/
theorem exists_of_pendingStore {chosen : Variable → Bool} {r : Register} {v : Variable}
    (hr : r ∈ f.registers) (hv : pendingStore? chosen r = some v) :
    ∃ i, f.registers[i]? = some r ∧ f.bindingAt i = some (.var v) ∧ f.writtenAt i = true ∧
      f.regAt i = r.reg ∧ chosen v = true := by
  obtain ⟨i, hi⟩ := List.mem_iff_getElem?.1 hr
  obtain ⟨reg, state, binding, lastUse, written⟩ := r
  cases written with
  | false => cases hv
  | true =>
    cases binding with
    | none => cases hv
    | some b =>
      cases b with
      | constant | intermediate => cases hv
      | var u =>
        simp only [pendingStore?] at hv
        split at hv
        · next hc =>
          cases hv
          exact ⟨i, hi, by simp [bindingAt, hi], by simp [writtenAt, held, hi, Register.held],
            by simp [RegisterFile.regAt, hi], hc⟩
        · cases hv

/-- Storing the variables of some registers, one after the other. What is right
in memory stays right. -/
theorem runs_stores (h : HoldsValues T known f m.toMachine mem ρ) (chosen : Variable → Bool)
    (rs : List Register) (hrs : ∀ r ∈ rs, r ∈ f.registers) :
    ∃ m', Runs T (rs.forM fun r => match pendingStore? chosen r with
        | some v => instruction .store [v.location, .reg r.reg]
        | none => pure ()) f m () f m' ∧
      HoldsValues T known f m'.toMachine mem ρ ∧ m'.regs = m.regs ∧ m'.stack = m.stack ∧
      m'.trace = m.trace ∧ m'.coming = m.coming ∧
      (∀ s, m.memory.read s = mem.read s → m'.memory.read s = mem.read s) ∧
      ∀ r ∈ rs, ∀ v, pendingStore? chosen r = some v →
        m'.memory.read v.storage = mem.read v.storage := by
  induction rs generalizing m with
  | nil => exact ⟨m, Runs.pure (), h, rfl, rfl, rfl, rfl, fun _ hs => hs, by simp⟩
  | cons r rs ih =>
    have hrest : ∀ r ∈ rs, r ∈ f.registers := fun r hr => hrs r (List.mem_cons_of_mem _ hr)
    cases hv : pendingStore? chosen r with
    | none =>
      obtain ⟨m', hrun, hholds, hregs, hstack, htrace, hcoming, hkeep, hclean⟩ := ih h hrest
      refine ⟨m', ?_, hholds, hregs, hstack, htrace, hcoming, hkeep, fun r' hr' v hv' => ?_⟩
      · refine Runs.bind (y := fun _ => rs.forM _) (r := ()) ?_ hrun
        beta_reduce
        rw [hv]
        exact Runs.pure ()
      · rcases List.mem_cons.1 hr' with rfl | hr'
        · rw [hv] at hv'; cases hv'
        · exact hclean r' hr' v hv'
    | some v =>
      obtain ⟨i, -, hi, hw, hreg, -⟩ := exists_of_pendingStore (hrs r List.mem_cons_self) hv
      obtain ⟨u, hu, harray⟩ := h.written i hw
      -- a register that is written holds a variable, and the pending store is of that variable
      have huv : u = v := by
        rw [hi] at hu
        cases hu
        rfl
      subst huv
      obtain ⟨hstore, hread⟩ := h.store hi harray
      rw [hreg] at hstore hread
      let m₁ : Traced W := { m with memory := m.memory.write u.storage (m.regs r.reg) }
      obtain ⟨m', hrun, hholds, hregs, hstack, htrace, hcoming, hkeep, hclean⟩ :=
        ih (m := m₁) hstore hrest
      refine ⟨m', ?_, hholds, hregs, hstack, htrace, hcoming, fun s hs => hkeep s ?_, fun r' hr' v hv' => ?_⟩
      · refine Runs.bind (y := fun _ => rs.forM _) (r := ()) ?_ hrun
        beta_reduce
        rw [hv]
        exact Runs.keep (keepsStack_store u r.reg none) (step_store m.toMachine u r.reg none)
      -- what was in memory already stays there: the store puts the value that is meant
      · by_cases heq : s = u.storage
        · rw [heq]; exact hread
        · exact (Memory.read_write_of_ne _ heq _).trans hs
      · rcases List.mem_cons.1 hr' with rfl | hr'
        · rw [hv] at hv'
          cases hv'
          exact hkeep _ hread
        · exact hclean r' hr' v hv'

/-- **Storing written variables** leaves what the registers hold, with the
chosen ones right in memory. -/
theorem storeWhere_linked (h : Linked T known d below base f m mem ρ k σ) (chosen : Variable → Bool) :
    ∃ f' m', Runs T (storeWhere chosen) f m () f' m' ∧ Linked T known d below base f' m' mem ρ k σ ∧
      m'.regs = m.regs ∧ m'.coming = m.coming ∧ f'.size = f.size ∧ (∀ i, f'.regAt i = f.regAt i) ∧
      (∀ i, f'.bindingAt i = f.bindingAt i) ∧ f'.pinned = f.pinned ∧
      f'.callStarts = f.callStarts ∧
      ∀ i v, f'.bindingAt i = some (.var v) → chosen v = true → f'.writtenAt i = false := by
  obtain ⟨m', hrun, hholds, hregs, hstack, htrace, hcoming, -, hclean⟩ :=
    runs_stores h.holds chosen f.registers fun r hr => hr
  -- the file after the loop, which clears the marks of all stores at once
  let f' : RegisterFile := { f with registers := f.registers.map fun r =>
    if (pendingStore? chosen r).isSome then { r with written := false } else r }
  have hat : ∀ i, f'.regAt i = f.regAt i ∧ f'.bindingAt i = f.bindingAt i ∧
      f'.writtenAt i = (f.writtenAt i &&
        !f.registers[i]?.any fun r => (pendingStore? chosen r).isSome) := by
    intro i
    simp only [RegisterFile.regAt, bindingAt, writtenAt, held, f', List.getElem?_map]
    cases f.registers[i]? with
    | none => simp
    | some r => by_cases hp : (pendingStore? chosen r).isSome <;> simp [hp, Register.held]
  -- a mark that is gone was stored
  have hpending : ∀ i v, f.bindingAt i = some (.var v) → f.writtenAt i = true →
      f'.writtenAt i = false → m'.memory.read v.storage = mem.read v.storage := by
    intro i v hi hw hw'
    rw [(hat i).2.2, hw] at hw'
    obtain ⟨r, hr, hp⟩ : ∃ r, f.registers[i]? = some r ∧ (pendingStore? chosen r).isSome := by
      simpa [Option.any_eq_true] using hw'
    obtain ⟨u, hu⟩ := Option.isSome_iff_exists.1 hp
    obtain ⟨j, hj, hbind, -, -, -⟩ := exists_of_pendingStore (List.mem_of_getElem? hr) hu
    have huv : u = v := by
      rw [bindingAt, hr] at hi
      rw [bindingAt, hj] at hbind
      rw [hi] at hbind
      cases hbind
      rfl
    exact huv ▸ hclean r (List.mem_of_getElem? hr) u hu
  refine ⟨f', m', Runs.file.bind (hrun.bind (Runs.onFile _)), ⟨?_, ?_, h.top, ?_⟩, hregs, hcoming,
    List.length_map .., fun i => (hat i).1, fun i => (hat i).2.1, rfl, rfl, fun i v hi hc => ?_⟩
  · refine hholds.forget (List.length_map ..) (fun i => (hat i).1)
      (fun i b hi => by rwa [(hat i).2.1] at hi) (fun i hi => ⟨?_, (hat i).2.1⟩) hpending
    rw [(hat i).2.2, Bool.and_eq_true] at hi
    exact hi.1
  · rw [hstack, htrace]
    exact h.stack.congr rfl rfl
  · exact h.results.congr fun i n => by rw [(hat i).2.1]
  · rw [(hat i).2.2]
    rw [(hat i).2.1] at hi
    obtain ⟨⟨reg, state, binding, lastUse, written⟩, hr, hb⟩ := Option.bind_eq_some_iff.1 hi
    simp only at hb
    subst hb
    cases written <;> simp [writtenAt, held, hr, Register.held, pendingStore?, hc]

/-! ## Calls -/

/-- Pushing the results of some registers, one after the other. -/
theorem runs_evictions (h : Linked T known d below base f m mem ρ k σ) (is : List Nat) :
    ∃ f' m' σ', Runs T (is.forM fun i => do
        let f ← file
        if !f.pinned.contains i && (f.bindingAt i).any Binding.isIntermediate then
          evict i) f m () f' m' ∧
      Linked T known d below base f' m' mem ρ k σ' ∧ MadeRoom is.length f m σ f' m' σ' ∧
      ∀ i ∈ is, ∀ n, f'.bindingAt i = some (.intermediate n) → i ∈ f'.pinned := by
  induction is generalizing f m σ with
  | nil =>
    exact ⟨f, m, σ, Runs.pure (), h, ⟨rfl, rfl, Kept.refl f, rfl, fun _ _ hi => hi, [], rfl,
      Nat.le_refl _⟩, by simp⟩
  | cons i is ih =>
    -- the first register, pushed if it holds a result that is not pinned
    obtain ⟨f₁, m₁, σ₁, hrun₁, h₁, hroom₁, hi₁⟩ : ∃ f₁ m₁ σ₁, Runs T (do
          let f ← file
          if !f.pinned.contains i && (f.bindingAt i).any Binding.isIntermediate then
            evict i) f m () f₁ m₁ ∧
        Linked T known d below base f₁ m₁ mem ρ k σ₁ ∧ MadeRoom 1 f m σ f₁ m₁ σ₁ ∧
        ∀ n, f₁.bindingAt i = some (.intermediate n) → i ∈ f₁.pinned := by
      by_cases hpin : i ∈ f.pinned
      · refine ⟨f, m, σ, Runs.bind Runs.file ?_, h, ⟨rfl, rfl, Kept.refl f, rfl, fun _ _ hi => hi,
          [], rfl, Nat.zero_le _⟩, fun _ _ => hpin⟩
        rw [if_neg (by simp [hpin])]
        exact Runs.pure ()
      · by_cases hb : ∃ n, f.bindingAt i = some (.intermediate n)
        · obtain ⟨n, hb⟩ := hb
          obtain ⟨f₁, m₁, hrun, h₁, hroom, hnone⟩ := evict_result h hpin hb
          refine ⟨f₁, m₁, _, Runs.bind Runs.file ?_, h₁, hroom, fun l hl => ?_⟩
          · rw [if_pos (by simp [hpin, hb, Binding.isIntermediate])]
            exact hrun
          · rw [hnone] at hl
            cases hl
        · refine ⟨f, m, σ, Runs.bind Runs.file ?_, h, ⟨rfl, rfl, Kept.refl f, rfl,
            fun _ _ hi => hi, [], rfl, Nat.zero_le _⟩, fun n hn => absurd ⟨n, hn⟩ hb⟩
          rw [if_neg]
          · exact Runs.pure ()
          · cases hbind : f.bindingAt i with
            | none => simp
            | some b =>
              cases b with
              | intermediate n => exact absurd ⟨n, hbind⟩ hb
              | var | constant => simp [Binding.isIntermediate]
    obtain ⟨f₂, m₂, σ₂, hrun₂, h₂, hroom₂, hi₂⟩ := ih h₁
    refine ⟨f₂, m₂, σ₂, hrun₁.bind hrun₂, h₂, ?_, fun j hj n hn => ?_⟩
    · have := hroom₁.trans hroom₂
      rwa [Nat.add_comm 1] at this
    · rcases List.mem_cons.1 hj with rfl | hj
      · rw [hroom₂.pinned]
        exact hi₁ n (hroom₂.bound _ _ hn)
      · exact hi₂ j hj n hn

/-- **Beginning the arguments of a call** pushes every result that waits. -/
theorem beginCall_linked (h : Linked T known d below base f m mem ρ k σ) :
    ∃ f' m' σ', Runs T beginCall f m ()
        { f' with callStarts := f'.stackDepth :: f'.callStarts } m' ∧
      Linked T known d below base f' m' mem ρ k σ' ∧ MadeRoom f.size f m σ f' m' σ' ∧
      ∀ i n, f'.bindingAt i = some (.intermediate n) → i ∈ f'.pinned := by
  obtain ⟨f', m', σ', hrun, h', hroom, hpinned⟩ := runs_evictions h (List.range f.size)
  rw [List.length_range] at hroom
  refine ⟨f', m', σ', Runs.file.bind (hrun.bind (Runs.onFile _)), h', hroom, fun i n hi => ?_⟩
  have hlt := lt_size_of_bindingAt hi
  rw [hroom.kept.size] at hlt
  exact hpinned i (List.mem_range.2 hlt) n hi

/-- The starts of the pending calls once `as` are passed to a call whose first
argument lies on `depth` words. A call without arguments has no start. -/
def startsWith (as : List (Nat × W)) (depth : Nat) (starts : List Nat) : List Nat :=
  if as = [] then starts else depth :: starts

/-- Ending a call takes its arguments off the account of the stack. -/
theorem runs_endCall {name : String} {as : List (Nat × W)} {starts : List Nat} {stack : List W}
    {kinds : List Pushed} (h : StackFits d below base f stack kinds ρ (as.map .passed ++ σ))
    (hstarts : f.callStarts = startsWith as (d + σ.length) starts) :
    Runs T (endCall name as.length) f m ()
      { f with callStarts := starts, stackDepth := d + σ.length } m := by
  have hend : f.endCall name as.length =
      (.ok (), { f with callStarts := starts, stackDepth := d + σ.length }) := by
    have hdepth := h.depth
    rw [List.length_append, List.length_map] at hdepth
    by_cases has : as = []
    · subst has
      rw [startsWith, if_pos rfl] at hstarts
      rw [List.length_nil, Nat.zero_add] at hdepth
      simp only [RegisterFile.endCall, List.length_nil, if_true, ← hstarts, ← hdepth]
    · rw [startsWith, if_neg has] at hstarts
      -- every spill lies below the arguments
      have hnone : f.spills.any (fun slot => d + σ.length ≤ slot.position) = false := by
        rw [h.spills, slots_passed, List.any_reverse, List.any_eq_false]
        intro slot hslot
        have := position_of_mem_slots hslot
        simp only [decide_eq_true_eq]
        omega
      have hdepth' : f.stackDepth - as.length = d + σ.length := by omega
      simp only [RegisterFile.endCall, List.length_eq_zero_iff, has, if_false, hstarts, hnone,
        Bool.false_eq_true, hdepth']
  refine Runs.bind Runs.file ?_
  rw [hend]
  exact (Runs.onFile _).bind (Runs.pure ())

omit [DecidableEq W] in
/-- A call sees the same words in the machine and for the evaluation, if the
file-scope variables are stored. -/
theorem call_eq (h : HoldsValues T known f m.toMachine mem ρ)
    (hstored : ∀ i v, f.bindingAt i = some (.var v) → v.isGlobal = true → f.writtenAt i = false) :
    m.memory.file = mem.file ∧ m.memory.heap = mem.heap := by
  refine ⟨funext fun label => ?_, h.heap⟩
  refine h.cells (.global label) fun i v hi hw hs => ?_
  have := hstored i v hi (by simp [Variable.isGlobal, hs])
  rw [hw] at this
  cases this

omit [DecidableEq W] in
/-- What the registers hold of the file scope can be forgotten once it is stored, and the callee
may then change it. -/
theorem holds_called (h : HoldsValues T known f m.toMachine mem ρ)
    (hstored : ∀ i v, f.bindingAt i = some (.var v) → v.isGlobal = true → f.writtenAt i = false)
    (w : W) (file : String → W) (heap : W → W) :
    HoldsValues T known f.invalidateGlobals
      { m.toMachine with
        regs := Function.update m.regs .eax w
        memory := { m.memory with file, heap } } { mem with file, heap } ρ := by
  have hc := cleared_invalidateGlobals f
  have hforgotten : HoldsValues T known f.invalidateGlobals m.toMachine mem ρ := by
    refine h.clear hc fun i v hq hi hw => ?_
    have hglobal : v.isGlobal = true := by simpa [hi, Binding.isGlobal] using hq
    rw [hstored i v hi hglobal] at hw
    cases hw
  refine hforgotten.call (fun i v hi => ?_) w file heap
  obtain ⟨hq, hi⟩ := hc.bound hi
  simpa [hi, Binding.isGlobal] using hq

/-- No result is of the file scope. -/
theorem results_invalidateGlobals {R : List Nat} (h : ResultsPlaced f R k) :
    ResultsPlaced f.invalidateGlobals R k := by
  have hc := cleared_invalidateGlobals f
  refine h.congr fun i n => ⟨fun hi => (hc.bound hi).2, fun hi => ?_⟩
  refine (hc.bindingAt_of_not ?_).trans hi
  rw [hi]
  rfl

/-- **A call** with the arguments `as`, the last one first. -/
theorem call_linked (name : String) {as : List (Nat × W)} {starts calls : List Nat}
    (h : Linked T known d below base f m mem ρ k (as.map .passed ++ σ)) (htop : ∀ τ, σ ≠ .read :: τ)
    (hstarts : f.callStarts = startsWith as (d + σ.length) starts)
    (hcalls : m.calls = as.length :: calls) (hdue : m.trace.calls.due = as.map Prod.fst)
    (harity : m.trace.calls.arity = as.length) :
    ∃ f₁ m₁ f₂ m₂, Runs T storeWrittenGlobals f m () f₁ m₁ ∧
      Runs T (instruction .call [.label name]) f₁ m₁ () f₁ m₂ ∧
      Runs T (endCall name as.length) f₁ m₂ () f₂ m₂ ∧
      Linked T known d below base f₂.invalidateGlobals m₂ (T.call name (as.map Prod.snd).reverse mem).2 ρ k σ ∧
      m₂.regs .eax = (T.call name (as.map Prod.snd).reverse mem).1 ∧ m₂.coming = (calls, m.trace.calls) ∧
      f₂.size = f.size ∧
      (∀ i, f₂.regAt i = f.regAt i) ∧ f₂.callStarts = starts ∧ f₂.pinned = f.pinned := by
  obtain ⟨f₁, m₁, hstore, h₁, -, hcoming, hsize, hreg, -, hpinned, hstarts₁, hclean⟩ :=
    storeWhere_linked h Variable.isGlobal
  -- with the globals stored, the callee finds in memory what the program means by it
  obtain ⟨hfile, hheap⟩ := call_eq h₁.holds hclean
  obtain ⟨hle, htake, hkinds⟩ := h₁.stack.take_passed
  have hcalls₁ : m₁.calls = as.length :: calls := (congrArg Prod.fst hcoming).trans hcalls
  have htrace₁ : m₁.trace.calls = m.trace.calls := congrArg Prod.snd hcoming
  obtain ⟨w, file, heap, hcallee⟩ : ∃ w file heap,
      T.callee name (as.map Prod.snd).reverse mem.file mem.heap = (w, file, heap) := ⟨_, _, _, rfl⟩
  let m₂ : Traced W := { m₁ with
    regs := Function.update m₁.regs .eax w
    stack := m₁.stack.drop as.length
    memory := { m₁.memory with file, heap }
    calls
    trace := { m₁.trace with words := m₁.trace.words.drop as.length } }
  -- the callee has taken its arguments off the stack, and the file follows
  let f₂ : RegisterFile := { f₁ with callStarts := starts, stackDepth := d + σ.length }
  have hcall : T.call name (as.map Prod.snd).reverse mem = (w, { mem with file, heap }) := by
    rw [Target.call, hcallee]
  have hstep : Runs T (instruction .call [.label name]) f₁ m₁ () f₁ m₂ := by
    have hcall₁ : T.call name (as.map Prod.snd).reverse m₁.memory = (w, { m₁.memory with file, heap }) := by
      rw [Target.call, hfile, hheap, hcallee]
    refine Runs.emit rfl ?_ ?_
    · change m₁.call? T name = _
      simp only [Machine.call?, hcalls₁, hle, if_true, htake, hcall₁]
      rfl
    · simp only [Line.plain, StackTrace.line, htrace₁, hdue, harity, hkinds]
      simp [m₂, htrace₁]
  have hstack₂ : StackFits d below base f₂ m₂.stack m₂.trace.words ρ σ := by
    have hspills : f₂.spills = (slots d σ).reverse := by
      rw [← slots_passed d as σ]
      exact h₁.stack.spills
    have := h₁.stack.drop (show f₂.stackDepth = d + σ.length from rfl) hspills
    rwa [List.length_map] at this
  have hend : Runs T (endCall name as.length) f₁ m₂ () f₂ m₂ :=
    runs_endCall h₁.stack (hstarts₁.trans hstarts)
  have hc := cleared_invalidateGlobals f₂
  refine ⟨f₁, m₁, f₂, m₂, hstore, hstep, hend, ⟨?_, hstack₂.congr hc.stackDepth hc.spills, htop, ?_⟩,
    ?_, congrArg (calls, ·) htrace₁, hsize, hreg, rfl, hpinned⟩
  · rw [hcall]
    have hholds₂ : HoldsValues T known f₂ m₁.toMachine mem ρ := h₁.holds.congr rfl
    exact (holds_called hholds₂ hclean w file heap).machine_congr rfl rfl
  · have hresults := h₁.results
    rw [spilled_append, spilled_map_passed, List.nil_append] at hresults
    exact results_invalidateGlobals (hresults.congr fun _ _ => Iff.rfl)
  · rw [hcall]
    simp [m₂]

end Assemble

end WordC
