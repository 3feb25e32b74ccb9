import Mathlib
import WordC.Proofs.Stateful
import WordC.Proofs.Lowering.Bookkeeping
/-!
# The register file under any row of operations

The operations on the register file may be asked for in any order, also after one has failed.
`FileOperation` lists them and `run` performs them one after the other. What an operation that takes
registers may do is said once, by `Spares`: it keeps the books, it leaves pinned registers alone, and
it stores a written variable before it takes the register. The theorem at the end puts this
together for every row of operations.
-/

namespace WordC

open RegisterFile

/-! ## What an operation leaves -/

namespace Assemble

variable {α β : Type} {R : Assembler → Assembler → Prop} {x : Assemble α} {y : α → Assemble β}
variable {a a₁ : Assembler} {Q : α → Assembler → Prop} {Q' : β → Assembler → Prop}

/-- The state that an operation leaves, also when it fails. -/
def leaves (x : Assemble α) (a : Assembler) : Assembler :=
  match x a with
  | .ok _ a' | .error _ a' => a'

/-- However the operation ends, `R` relates the state it leaves to the one before. If it gives an
answer, the answer has property `Q`. -/
def Within (R : Assembler → Assembler → Prop) (x : Assemble α) (a : Assembler)
    (Q : α → Assembler → Prop) : Prop :=
  match x a with
  | .ok r a' => R a a' ∧ Q r a'
  | .error _ a' => R a a'

theorem Within.leaves (h : Within R x a Q) : R a (x.leaves a) := by
  unfold Within at h
  unfold Assemble.leaves
  cases hx : x a with
  | ok r a' => rw [hx] at h; exact h.1
  | error e a' => rw [hx] at h; exact h

theorem Within.of_ok {r : α} (h : x a = .ok r a₁) (hR : R a a₁) (hQ : Q r a₁) : Within R x a Q := by
  rw [Within, h]
  exact ⟨hR, hQ⟩

theorem Within.of_error {e : LoweringError} (h : x a = .error e a₁) (hR : R a a₁) :
    Within R x a Q := by
  rw [Within, h]
  exact hR

/-- One operation after the other. -/
theorem Within.bind [IsTrans Assembler R] (h : Within R x a Q)
    (hy : ∀ r a₁, R a a₁ → Q r a₁ → Within R (y r) a₁ Q') : Within R (x >>= y) a Q' := by
  unfold Within at h ⊢
  rw [bind_apply]
  cases hx : x a with
  | error e a₁ => rw [hx] at h; exact h
  | ok r a₁ =>
    rw [hx] at h
    have hrest := hy r a₁ h.1 h.2
    unfold Within at hrest
    simp only
    cases hr : y r a₁ with
    | ok q a₂ =>
      rw [hr] at hrest
      exact ⟨trans_of R h.1 hrest.1, hrest.2⟩
    | error e a₂ =>
      rw [hr] at hrest
      exact trans_of R h.1 hrest

/-- One operation after another that succeeds. -/
theorem Within.bind_ok [IsTrans Assembler R] {r : α} (h : x a = .ok r a₁) (hR : R a a₁)
    (hy : Within R (y r) a₁ Q') : Within R (x >>= y) a Q' :=
  (Within.of_ok (Q := fun q a' => q = r ∧ a' = a₁) h hR ⟨rfl, rfl⟩).bind
    fun _ _ _ ⟨hr, ha⟩ => hr ▸ ha ▸ hy

theorem Within.mono {P : α → Assembler → Prop} (h : Within R x a Q) (hP : ∀ r a', Q r a' → P r a') :
    Within R x a P := by
  unfold Within at h ⊢
  cases hx : x a with
  | ok r a' =>
    rw [hx] at h
    exact ⟨h.1, hP r a' h.2⟩
  | error e a' =>
    rw [hx] at h
    exact h

/-- The same operation for each of a row. -/
theorem Within.forM [Std.Refl R] [IsTrans Assembler R] {γ : Type} {g : γ → Assemble Unit}
    (h : ∀ c a, Within R (g c) a fun _ _ => True) (cs : List γ) (a : Assembler) :
    Within R (cs.forM g) a fun _ _ => True := by
  induction cs generalizing a with
  | nil => exact .of_ok rfl (refl_of R a) trivial
  | cons c cs ih => exact (h c a).bind fun _ a₁ _ _ => ih a₁

/-- A test in front of an operation. -/
theorem Within.guard [Std.Refl R] {p : Prop} [Decidable p] {e : LoweringError}
    {g : PUnit → Assemble β} (h : ¬ p → Within R (g ⟨⟩) a Q') :
    Within R (if p then (throw e >>= g) else g ⟨⟩) a Q' := by
  split
  · exact .of_error rfl (refl_of R a)
  · exact h ‹_›

end Assemble

/-! ## Sparing what is needed -/

namespace Assembler

/-- **Registers are taken with care.** The books stay right. If the value that is put into a
register was `fresh`, no value gets into two places. Pinned registers keep what they hold, and a
written variable that loses its register is stored. -/
structure Spares (fresh : Prop) (a a' : Assembler) : Prop where
  consistent : a.file.Consistent → a'.file.Consistent
  distinct : fresh → a.file.Distinct → a'.file.Distinct
  regAt : ∀ i, a'.file.regAt i = a.file.regAt i
  pinned : ∀ i ∈ a.file.pinned, i ∈ a'.file.pinned ∧ a'.file.bindingAt i = a.file.bindingAt i
  stored : ∃ ls, a'.lines.toList = a.lines.toList ++ ls ∧ ∀ i v, a.file.HoldsWritten i v →
    a'.file.HoldsWritten i v ∨ Line.plain .store [v.location, .reg (a.file.regAt i)] ∈ ls

variable {fresh : Prop} {a a₁ a₂ : Assembler} {f : RegisterFile} {i : Nat} {b : Binding}

instance : Std.Refl (Spares fresh) where
  refl _ := ⟨id, fun _ h => h, fun _ => rfl, fun _ hi => ⟨hi, rfl⟩, [], by simp,
    fun _ _ h => .inl h⟩

instance : IsTrans Assembler (Spares fresh) where
  trans a a₁ a₂ h h' := by
    obtain ⟨ls, hls, hstored⟩ := h.stored
    obtain ⟨ls', hls', hstored'⟩ := h'.stored
    refine ⟨fun ha => h'.consistent (h.consistent ha),
      fun hf ha => h'.distinct hf (h.distinct hf ha), fun i => (h'.regAt i).trans (h.regAt i),
      fun i hi => ?_, ls ++ ls', by rw [hls', hls, List.append_assoc], fun i v hv => ?_⟩
    · obtain ⟨hi₁, hb₁⟩ := h.pinned i hi
      obtain ⟨hi₂, hb₂⟩ := h'.pinned i hi₁
      exact ⟨hi₂, hb₂.trans hb₁⟩
    · rcases hstored i v hv with hv | hmem
      · exact (hstored' i v hv).imp_right fun hmem =>
          List.mem_append_right _ (h.regAt i ▸ hmem)
      · exact .inr (List.mem_append_left _ hmem)

theorem lines_push (a : Assembler) (m : Moment) :
    ({ a with journal := a.journal.push m } : Assembler).lines.toList =
      a.lines.toList ++ m.line?.toList := by
  simp [lines]
  cases h : m.line? <;> simp [h]

/-- Only the journal has grown. -/
theorem spares_record (a : Assembler) (m : Moment) :
    Spares fresh a { a with journal := a.journal.push m } :=
  ⟨id, fun _ h => h, fun _ => rfl, fun _ hi => ⟨hi, rfl⟩, _, lines_push a _, fun _ _ h => .inl h⟩

theorem spares_note (a : Assembler) (n : Note) : Spares fresh a { a with notes := a.notes.push n } :=
  ⟨id, fun _ h => h, fun _ => rfl, fun _ hi => ⟨hi, rfl⟩, [], by simp [lines],
    fun _ _ h => .inl h⟩

/-- Only the accounts of the stack have changed, and no result was added there. -/
theorem spares_account (hregisters : f.registers = a.file.registers)
    (hcounts : f.counts = a.file.counts) (hpinned : f.pinned = a.file.pinned)
    (hlive : f.live.Sublist a.file.live) : Spares fresh a { a with file := f } := by
  have hheld : f.held = a.file.held := by rw [held, hregisters, held]
  refine ⟨fun h => h.of_same hregisters hcounts, fun _ h => ?_, regAt_congr hheld,
    fun i hi => ⟨hpinned ▸ hi, bindingAt_congr hheld i⟩, [], by simp [lines], fun i v hv => .inl ?_⟩
  · exact h.of_le (fun i b hb => bindingAt_congr hheld i ▸ hb) hlive
  · exact ⟨(bindingAt_congr hheld i).trans hv.1, (writtenAt_congr hheld i).trans hv.2⟩

/-- Only times of use, states and pins have changed. -/
theorem spares_sameOutside (hsame : SameOutside a.file f)
    (hconsistent : a.file.Consistent → f.Consistent) (hpinned : ∀ i ∈ a.file.pinned, i ∈ f.pinned) :
    Spares fresh a { a with file := f } := by
  refine ⟨hconsistent, fun _ h => h.of_sameOutside hsame, regAt_congr hsame.held,
    fun i hi => ⟨hpinned i hi, bindingAt_congr hsame.held i⟩, [], by simp [lines],
    fun i v hv => .inl ?_⟩
  exact ⟨(bindingAt_congr hsame.held i).trans hv.1, (writtenAt_congr hsame.held i).trans hv.2⟩

/-- A register that holds a value is used again. -/
theorem spares_use (hb : a.file.bindingAt i = some b) :
    Spares fresh a { a with file := (a.file.use i).pin i } := by
  refine spares_sameOutside ((sameOutside_use _ i).trans (sameOutside_pin _ i))
    (fun h => (h.use hb).pin i) fun j hj => ?_
  rw [mem_pinned_pin, pinned_use]
  exact .inl hj

theorem spares_pin (a : Assembler) (i : Nat) : Spares fresh a { a with file := a.file.pin i } :=
  spares_sameOutside (sameOutside_pin _ i) (fun h => h.pin i) fun _ hj => mem_pinned_pin.2 (.inl hj)

/-- An empty register that is not pinned is given a value. -/
theorem spares_bind (hi : i < a.file.size) (hpinned : i ∉ a.file.pinned)
    (hnone : a.file.bindingAt i = none) (hfresh : fresh → a.file.Absent b) :
    Spares fresh a { a with file := a.file.bind i b .used } := by
  have hg := given_bind hi b .used
  refine ⟨fun h => h.bind i b (by decide), fun hf h => h.of_given hg (hfresh hf), hg.regAt,
    fun j hj => ?_, [], by simp [lines], fun j v hv => .inl ?_⟩
  · have hne : j ≠ i := fun hji => hpinned (hji ▸ hj)
    exact ⟨(pinned_bind _ i b .used).symm ▸ hj, (hg.bindingAt j).trans (if_neg hne)⟩
  · have hne : j ≠ i := by
      rintro rfl
      rw [hv.1] at hnone
      cases hnone
    exact ⟨(hg.bindingAt j).trans ((if_neg hne).trans hv.1),
      (hg.writtenAt j).trans ((if_neg hne).trans hv.2)⟩

/-- The variable in a register is written. -/
theorem spares_write {v : Variable} (hb : a.file.bindingAt i = some (.var v)) :
    Spares fresh a { a with file := ((a.file.use i).markWritten i).pin i } := by
  have hg := given_write hb
  have huse : (a.file.use i).bindingAt i = some (.var v) :=
    (bindingAt_congr (sameOutside_use _ i).held i).trans hb
  refine ⟨fun h => ((h.use hb).markWritten huse).pin i, fun _ h => h.of_given_held hg hb, hg.regAt,
    fun j hj => ⟨mem_pinned_pin.2 (.inl ?_), ?_⟩, [], by simp [lines], fun j w hw => .inl ⟨?_, ?_⟩⟩
  · exact (pinned_use _ i).symm ▸ hj
  · rw [hg.bindingAt]
    split
    · next hji => rw [hji, hb]
    · rfl
  · rw [hg.bindingAt]
    split
    · next hji => rw [← hw.1, hji, hb]
    · exact hw.1
  · rw [hg.writtenAt]
    split
    · rfl
    · exact hw.2

end Assembler

/-! ## Making room -/

namespace Assemble

open Assembler

variable {fresh : Prop} {a : Assembler} {i n : Nat}

/-- **A register is emptied**: a written variable in it is stored. -/
theorem evict_apply (a : Assembler) (i : Nat) :
    ∃ a' ls, evict i a = .ok () a' ∧ a'.file = a.file.evicted i ∧
      a'.lines.toList = a.lines.toList ++ ls ∧
      ∀ v, a.file.HoldsWritten i v → Line.plain .store [v.location, .reg (a.file.regAt i)] ∈ ls := by
  have hfile : file a = .ok a.file a := rfl
  unfold evict
  rw [bind_ok hfile]
  cases hr : a.file.registers[i]? with
  | none =>
    have hbinding : a.file.bindingAt i = none := by rw [bindingAt, hr]; rfl
    refine ⟨_, [], rfl, by simp [evicted, spilled, hbinding], by simp [lines], fun v hv => ?_⟩
    rw [hv.1] at hbinding
    cases hbinding
  | some r =>
    obtain ⟨reg, state, binding, lastUse, written⟩ := r
    have hbinding : a.file.bindingAt i = binding := by rw [bindingAt, hr]; rfl
    have hwritten : a.file.writtenAt i = written := by
      simp [writtenAt, held, hr, Register.held]
    -- a line is emitted for a result and for a written variable only
    rcases binding with _ | (w | k | n)
    case some.intermediate =>
      refine ⟨_, _, rfl, by simp [evicted, spilled, hbinding], lines_push a _, fun v hv => ?_⟩
      rw [hv.1] at hbinding
      cases hbinding
    case some.var =>
      cases written with
      | false =>
        refine ⟨_, [], rfl, by simp [evicted, spilled, hbinding], by simp [lines], fun v hv => ?_⟩
        rw [hv.2] at hwritten
        cases hwritten
      | true =>
        refine ⟨_, _, rfl, by simp [evicted, spilled, hbinding], lines_push a _, fun v hv => ?_⟩
        rw [hv.1] at hbinding
        cases hbinding
        exact List.mem_singleton.2 rfl
    all_goals
      refine ⟨_, [], rfl, by simp [evicted, spilled, hbinding], by simp [lines], fun v hv => ?_⟩
      rw [hv.1] at hbinding
      cases hbinding

/-- A register that is not pinned may be emptied. -/
theorem within_evict (hpinned : i ∉ a.file.pinned) :
    Within (Spares fresh) (evict i) a fun _ a' => a'.file = a.file.evicted i := by
  obtain ⟨a', ls, hrun, hfile, hlines, hstored⟩ := evict_apply a i
  refine .of_ok hrun ⟨?_, ?_, ?_, fun j hj => ?_, ls, hlines, fun j v hv => ?_⟩ hfile <;>
    rw [hfile]
  · exact fun h => h.evicted i
  · exact fun _ h => h.evicted i
  · exact regAt_evicted _ i
  · have hne : j ≠ i := fun hji => hpinned (hji ▸ hj)
    rw [pinned_evicted, bindingAt_evicted, if_neg hne]
    exact ⟨hj, rfl⟩
  · by_cases hji : j = i
    · subst hji
      exact .inr (hstored v hv)
    · refine .inl ⟨?_, ?_⟩
      · rw [bindingAt_evicted, if_neg hji]
        exact hv.1
      · rw [writtenAt_evicted, if_neg hji]
        exact hv.2

/-- The register that is taken is one of the file, and not pinned. -/
theorem victim?_spec {f : RegisterFile} (h : f.victim? = some i) : i < f.size ∧ i ∉ f.pinned := by
  obtain ⟨⟨r, j⟩, hj, rfl⟩ := Option.map_eq_some_iff.1 h
  obtain ⟨hmem, hpinned⟩ := List.mem_filter.1 (firstTaken_mem hj)
  refine ⟨?_, by simpa using hpinned⟩
  have := List.mem_zipIdx_iff_getElem?.1 hmem
  exact (List.getElem?_eq_some_iff.1 this).1

/-- Register `i` was taken: it is empty and may be given a value. -/
structure Vacated (f : RegisterFile) (i : Nat) (f' : RegisterFile) : Prop where
  lt : i < f'.size
  notPinned : i ∉ f'.pinned
  bindingAt : f'.bindingAt i = none
  held : ∀ j b, f'.bindingAt j = some b → f.bindingAt j = some b
  absent : ∀ b, f.Absent b → f'.Absent b

theorem within_takeRegister :
    Within (Spares fresh) takeRegister a fun i a' => Vacated a.file i a'.file := by
  have hfile : file a = .ok a.file a := rfl
  refine .bind_ok hfile (refl_of _ a) ?_
  cases hvictim : a.file.victim? with
  | none => exact .of_error rfl (refl_of _ a)
  | some i =>
    obtain ⟨hlt, hpinned⟩ := victim?_spec hvictim
    refine (within_evict hpinned).bind fun _ a₁ _ hfile₁ => .of_ok rfl (refl_of _ a₁) ?_
    rw [hfile₁]
    refine ⟨(size_evicted _ i).symm ▸ hlt, (pinned_evicted _ i).symm ▸ hpinned, ?_,
      fun j b hj => ?_, fun b hb => hb.evicted i⟩
    · rw [bindingAt_evicted, if_pos rfl]
    · rw [bindingAt_evicted] at hj
      split at hj
      · cases hj
      · exact hj

/-! ## Results on the stack -/

/-- The words that are dropped held no result. -/
theorem filterMap_dropRead (slots : List SpillSlot) (depth : Nat) :
    (dropRead slots depth).1.filterMap SpillSlot.value = slots.filterMap SpillSlot.value := by
  induction slots generalizing depth with
  | nil => rfl
  | cons slot rest ih =>
    unfold dropRead
    split
    · next h =>
      obtain ⟨hnone, -⟩ : slot.value = none ∧ slot.position + 1 = depth := by simpa using h
      simp only
      rw [ih, List.filterMap_cons_none hnone]
    · rfl

/-- Only the accounts of the stack differ. -/
structure Accounted (f f' : RegisterFile) : Prop where
  registers : f'.registers = f.registers
  counts : f'.counts = f.counts
  pinned : f'.pinned = f.pinned

theorem within_dropReadSlots : Within (Spares fresh) dropReadSlots a fun _ a' =>
    Accounted a.file a'.file ∧ a'.file.live = a.file.live := by
  have hlive : ((dropRead a.file.spills.reverse a.file.stackDepth).1.reverse).filterMap
      SpillSlot.value = a.file.live := by
    rw [List.filterMap_reverse, filterMap_dropRead, ← List.filterMap_reverse, List.reverse_reverse,
      live]
  have hfile : file a = .ok a.file a := rfl
  refine .bind_ok hfile (refl_of _ a) ?_
  generalize dropRead a.file.spills.reverse a.file.stackDepth = dropped at hlive
  obtain ⟨slots, depth, count⟩ := dropped
  have hdrop : Spares fresh a
      { a with file := { a.file with spills := slots.reverse, stackDepth := depth } } :=
    spares_account rfl rfl rfl (by rw [live]; exact hlive ▸ List.Sublist.refl _)
  refine .bind_ok rfl hdrop ?_
  split
  · exact .of_ok rfl (spares_record _ _) ⟨⟨rfl, rfl, rfl⟩, hlive⟩
  · exact .of_ok rfl (refl_of _ _) ⟨⟨rfl, rfl, rfl⟩, hlive⟩

/-- The results in the other words, once the word of a result was popped or marked as read. -/
theorem filterMap_read {spills : List SpillSlot} {slot : SpillSlot} {k : Nat}
    (hk : spills[k]? = some slot) (hslot : slot.value = some n) :
    ∃ older newer, spills.filterMap SpillSlot.value = older ++ n :: newer ∧
      (spills.eraseIdx k).filterMap SpillSlot.value = older ++ newer ∧
      (spills.set k { slot with value := none }).filterMap SpillSlot.value = older ++ newer := by
  obtain ⟨hlt, rfl⟩ := List.getElem?_eq_some_iff.1 hk
  refine ⟨(spills.take k).filterMap SpillSlot.value, (spills.drop (k + 1)).filterMap SpillSlot.value,
    ?_, ?_, ?_⟩
  · nth_rewrite 1 [← List.take_append_drop k spills]
    rw [List.drop_eq_getElem_cons hlt, List.filterMap_append, List.filterMap_cons_some hslot]
  · rw [List.eraseIdx_eq_take_drop_succ, List.filterMap_append]
  · rw [List.set_eq_take_append_cons_drop, if_pos hlt, List.filterMap_append,
      List.filterMap_cons_none rfl]

/-- A result is read from its word, and is in no other one. -/
theorem within_readSlot (reg : Reg) {slot : SpillSlot} {k : Nat}
    (hk : a.file.spills[k]? = some slot) (hslot : slot.value = some n) :
    Within (Spares fresh) (readSlot reg n slot k) a fun _ a' =>
      Accounted a.file a'.file ∧ (a.file.live.Nodup → n ∉ a'.file.live) := by
  obtain ⟨older, newer, hlive, herase, hset⟩ := filterMap_read hk hslot
  -- popping the slot and reading below it leave the same results
  have hread : ∀ (l : Line) (g : RegisterFile → RegisterFile), Accounted a.file (g a.file) →
      (g a.file).live = older ++ newer →
      Within (Spares fresh) (emit l >>= fun _ => onFile g) a fun _ a' =>
        Accounted a.file a'.file ∧ (a.file.live.Nodup → n ∉ a'.file.live) := by
    intro l g hg hrest
    have hsublist : (g a.file).live.Sublist a.file.live := by
      rw [hrest, live, hlive]
      exact (List.sublist_cons_self n newer).append_left older
    refine .bind_ok rfl (spares_record a _)
      (.of_ok rfl (spares_account hg.registers hg.counts hg.pinned hsublist) ⟨hg, fun hnodup => ?_⟩)
    rw [live, hlive] at hnodup
    exact hrest ▸ (List.nodup_middle.1 hnodup).notMem
  have hfile : file a = .ok a.file a := rfl
  refine .bind_ok hfile (refl_of _ a) ?_
  split
  · exact hread _ _ ⟨rfl, rfl, rfl⟩ herase
  · split
    · exact .of_error rfl (refl_of _ a)
    · exact hread _ _ ⟨rfl, rfl, rfl⟩ hset

theorem Accounted.trans {f g h : RegisterFile} (hfg : Accounted f g) (hgh : Accounted g h) :
    Accounted f h :=
  ⟨hgh.registers.trans hfg.registers, hgh.counts.trans hfg.counts, hgh.pinned.trans hfg.pinned⟩

theorem Accounted.bindingAt {f f' : RegisterFile} (h : Accounted f f') (j : Nat) :
    f'.bindingAt j = f.bindingAt j := by
  rw [RegisterFile.bindingAt, h.registers, RegisterFile.bindingAt]

/-- A register that was taken is given a value and pinned. -/
theorem within_give {b : Binding} (hi : i < a.file.size) (hpinned : i ∉ a.file.pinned)
    (hnone : a.file.bindingAt i = none) (hfresh : fresh → a.file.Absent b) :
    Within (Spares fresh) (onFile fun f => (f.bind i b .used).pin i) a fun _ _ => True :=
  .of_ok rfl (trans_of (Spares fresh) (spares_bind hi hpinned hnone hfresh) (spares_pin _ i)) trivial

/-- **A result is taken back from the stack.** Before it is given a register it is nowhere, if it
was in one place. -/
theorem within_fill (n : Nat) (hnone : ∀ j, a.file.bindingAt j ≠ some (.intermediate n)) :
    Within (Spares a.file.Distinct) (fill n) a fun _ _ => True := by
  have hfile : ∀ a, file a = .ok a.file a := fun _ => rfl
  refine .bind_ok (hfile a) (refl_of _ a) (.guard fun _ => ?_)
  refine within_takeRegister.bind fun i a₁ h₁ htaken => ?_
  refine .bind_ok (hfile a₁) (refl_of _ a₁) ?_
  cases hfind : a₁.file.spills.zipIdx.find? (·.1.value = some n) with
  | none => exact .of_error rfl (refl_of _ a₁)
  | some found =>
    obtain ⟨slot, k⟩ := found
    have hslot : slot.value = some n := by simpa using List.find?_some hfind
    have hk : a₁.file.spills[k]? = some slot :=
      List.mem_zipIdx_iff_getElem?.1 (List.mem_of_find?_eq_some hfind)
    refine .bind_ok rfl (spares_note a₁ _) ?_
    refine Within.bind (within_readSlot (k := k) _ ?_ hslot) fun _ a₂ _ ⟨hread, hlive⟩ =>
      within_dropReadSlots.bind fun _ a₃ _ ⟨hdrop, hlive'⟩ => ?_
    · exact hk
    -- reading the slot and dropping it touch the spills alone, so the register taken is still free
    have hacc : Accounted a₁.file a₃.file := hread.trans hdrop
    refine (within_give (b := .intermediate n) ?_ ?_ ?_ fun hdistinct => ⟨fun j => ?_, ?_⟩).bind
      fun _ a₄ _ _ => .of_ok rfl (refl_of _ a₄) trivial
    · rw [size, hacc.registers]
      exact htaken.lt
    · rw [hacc.pinned]
      exact htaken.notPinned
    · rw [hacc.bindingAt]
      exact htaken.bindingAt
    · rw [hacc.bindingAt]
      -- no register held the value before, and taking one binds none
      exact fun hj => hnone j (htaken.held j _ hj)
    · rintro m ⟨⟩
      rw [hlive']
      exact hlive (h₁.distinct hdistinct hdistinct).live

/-! ## Operations that take registers -/

theorem within_loadInto (reg : Reg) (b : Binding) :
    Within (Spares fresh) (loadInto reg b) a fun _ a' => a'.file = a.file := by
  have hemit : ∀ mnemonic args, Within (Spares fresh) (instruction mnemonic args) a
      fun _ a' => a'.file = a.file := fun _ _ => .of_ok rfl (spares_record a _) rfl
  cases b with
  | constant k => exact hemit _ _
  | intermediate n => exact .of_ok rfl (refl_of _ a) rfl
  | var v =>
    simp only [loadInto]
    split
    · exact hemit _ _
    · exact hemit _ _

/-- A value that no register holds and that is no result is nowhere. -/
theorem absent_of_find? {f : RegisterFile} {b : Binding} (h : f.find? b = none)
    (hb : ∀ n, b ≠ .intermediate n) : f.Absent b :=
  ⟨bindingAt_of_find?_none h, fun n hn => absurd hn (hb n)⟩

/-- A variable or a constant is loaded into a register that is taken for it. -/
theorem within_loadCopy {b : Binding} (h : a.file.find? b = none) (hb : ∀ n, b ≠ .intermediate n) :
    Within (Spares fresh) (do
      let i ← takeRegister
      let reg := (← file).regAt i
      loadInto reg b
      onFile fun f => (f.bind i b .used).pin i
      return reg) a fun _ _ => True := by
  refine within_takeRegister.bind fun i a₁ _ htaken => ?_
  have hfile : file a₁ = .ok a₁.file a₁ := rfl
  refine .bind_ok hfile (refl_of _ a₁) ((within_loadInto _ b).bind fun _ a₂ _ hfile₂ => ?_)
  refine (within_give ?_ ?_ ?_ fun _ => ?_).bind fun _ a₃ _ _ => .of_ok rfl (refl_of _ a₃) trivial
    <;> rw [hfile₂]
  · exact htaken.lt
  · exact htaken.notPinned
  · exact htaken.bindingAt
  · exact htaken.absent b (absent_of_find? h hb)

/-- **A value is asked for.** -/
theorem within_loadOperand (b : Binding) :
    Within (Spares a.file.Distinct) (loadOperand b) a fun _ _ => True := by
  refine .bind_ok rfl (spares_record a _) (.bind_ok rfl (refl_of _ _) ?_)
  cases hfind : a.file.find? b with
  | some i =>
    exact .bind_ok rfl (spares_use (bindingAt_of_find? hfind)) (.of_ok rfl (refl_of _ _) trivial)
  | none =>
    cases b with
    | intermediate n => exact within_fill n (bindingAt_of_find?_none hfind)
    | var v => exact within_loadCopy hfind nofun
    | constant k => exact within_loadCopy hfind nofun

/-- **A register is asked for to write a variable.** -/
theorem within_bindForWrite (v : Variable) :
    Within (Spares fresh) (bindForWrite v) a fun _ _ => True := by
  have hwrite : ∀ {i : Nat} {a : Assembler}, a.file.bindingAt i = some (.var v) →
      Within (Spares fresh) (do
        onFile fun f => ((f.use i).markWritten i).pin i
        return (← file).regAt i) a fun _ _ => True := fun hb =>
    .bind_ok rfl (spares_write hb) (.of_ok rfl (refl_of _ _) trivial)
  refine .bind_ok rfl (spares_record a _) (.bind_ok rfl (refl_of _ _) ?_)
  cases hfind : a.file.find? (.var v) with
  | some i => exact hwrite (bindingAt_of_find? hfind)
  | none =>
    have htake : Within (Spares fresh) (do
        let i ← takeRegister
        onFile (·.bind i (.var v) .used)
        onFile fun f => ((f.use i).markWritten i).pin i
        return (← file).regAt i) { a with journal := a.journal.push ⟨.asks (.var v), a.file⟩ }
        fun _ _ => True := by
      refine within_takeRegister.bind fun i a₁ _ htaken => ?_
      -- making room does not bring the variable into another register
      have habsent := htaken.absent _ (absent_of_find? hfind nofun)
      refine .bind_ok rfl (spares_bind htaken.lt htaken.notPinned htaken.bindingAt fun _ => habsent)
        (hwrite ?_)
      exact ((given_bind htaken.lt _ _).bindingAt i).trans (if_pos rfl)
    exact htake

/-- **A register is asked for to hold a result**, from the point where the operands were
released. -/
theorem spares_bindResult (n : Nat) (hfresh : fresh → a.file.releaseOperands.Absent (.intermediate n)) :
    Spares fresh { a with file := a.file.releaseOperands } ((bindResult n).leaves a) := by
  have htake : Within (Spares fresh) (do
      let i ← takeRegister
      onFile (·.bind i (.intermediate n) .used)
      return (← file).regAt i)
      { a with
        file := a.file.releaseOperands
        journal := a.journal.push ⟨.asks (.intermediate n), a.file⟩ } fun _ _ => True := by
    refine within_takeRegister.bind fun i a₁ _ htaken => ?_
    refine .bind_ok rfl (spares_bind htaken.lt htaken.notPinned htaken.bindingAt fun hf =>
      htaken.absent _ (hfresh hf)) (.of_ok rfl (refl_of _ _) trivial)
  exact trans_of (Spares fresh) (spares_record _ _) htake.leaves

/-- **The arguments of a call begin.** -/
theorem within_beginCall : Within (Spares fresh) beginCall a fun _ _ => True := by
  have heach : ∀ i a, Within (Spares fresh) (do
      let f ← file
      if !f.pinned.contains i && (f.bindingAt i).any Binding.isIntermediate then
        evict i) a fun _ _ => True := by
    intro i a
    have hfile : file a = .ok a.file a := rfl
    refine .bind_ok hfile (refl_of _ a) ?_
    split
    · next h =>
      have hpinned : i ∉ a.file.pinned := by
        simp only [Bool.and_eq_true, Bool.not_eq_true', List.contains_eq_mem] at h
        simpa using h.1
      exact (within_evict hpinned).mono fun _ _ _ => trivial
    · exact .of_ok rfl (refl_of _ a) trivial
  have hfile : file a = .ok a.file a := rfl
  refine .bind_ok hfile (refl_of _ a) ((Within.forM heach _ a).bind fun _ a₁ _ _ => ?_)
  exact .of_ok rfl (spares_account rfl rfl rfl (List.Sublist.refl _)) trivial

end Assemble

/-! ## Operations that only forget, store or account -/

namespace Assembler

/-- The books stay right, and no value gets into two places. -/
structure Preserves (a a' : Assembler) : Prop where
  consistent : a.file.Consistent → a'.file.Consistent
  distinct : a.file.Distinct → a'.file.Distinct

instance : Std.Refl Preserves where
  refl _ := ⟨id, id⟩

instance : IsTrans Assembler Preserves where
  trans _ _ _ h h' := ⟨fun ha => h'.consistent (h.consistent ha), fun ha => h'.distinct (h.distinct ha)⟩

theorem Preserves.of_file {a a' : Assembler} (h : a'.file = a.file) : Preserves a a' :=
  ⟨fun ha => h ▸ ha, fun ha => h ▸ ha⟩

end Assembler

namespace Assemble

open Assembler

variable {a : Assembler}

/-- Lines may be emitted. -/
theorem within_emit (l : Line) : Within Preserves (emit l) a fun _ a' => a'.file = a.file :=
  .of_ok rfl (.of_file rfl) rfl

/-- A change of the accounts of the stack that adds no result there. -/
theorem preserves_account {f : RegisterFile} (hregisters : f.registers = a.file.registers)
    (hcounts : f.counts = a.file.counts) (hlive : f.live.Sublist a.file.live) :
    Preserves a { a with file := f } := by
  refine ⟨fun h => h.of_same hregisters hcounts, fun h => h.of_le (fun i b hb => ?_) hlive⟩
  rwa [bindingAt, ← hregisters]

/-- Forgetting what is in some registers. -/
theorem preserves_clearWhere (p : Register → Bool) :
    Preserves a { a with file := a.file.clearWhere p } := by
  refine ⟨fun h => h.clearWhere p, fun h => h.of_le (fun i b hb => ?_) (List.Sublist.refl _)⟩
  obtain ⟨r, hr, hb⟩ := Option.bind_eq_some_iff.1 hb
  rw [clearWhere, List.getElem?_map] at hr
  obtain ⟨r', hr', rfl⟩ := Option.map_eq_some_iff.1 hr
  split at hb
  · cases hb
  · rw [bindingAt, hr']
    exact hb

theorem preserves_releaseOperands : Preserves a { a with file := a.file.releaseOperands } :=
  ⟨fun h => h.releaseOperands, fun h => h.of_cleared (cleared_releaseOperands _)⟩

theorem preserves_invalidate : Preserves a { a with file := a.file.invalidate } := by
  refine trans_of Preserves (preserves_clearWhere fun _ => true) ?_
  exact preserves_account (f := a.file.invalidate) rfl rfl (List.Sublist.refl _)

theorem within_endExpression : Within Preserves endExpression a fun _ _ => True := by
  have hlast : ∀ a, Within Preserves (onFile fun f => { f with callStarts := [] }) a fun _ _ => True :=
    fun a => .of_ok rfl (preserves_account rfl rfl (List.Sublist.refl _)) trivial
  refine .bind_ok rfl (trans_of Preserves preserves_releaseOperands (preserves_clearWhere _)) ?_
  refine .bind_ok rfl (refl_of _ _) ?_
  split
  · exact .bind_ok rfl (refl_of _ _) (hlast _)
  · next first rest _ =>
    refine .guard fun _ => .bind_ok rfl (.of_file rfl) (.bind_ok rfl (.of_file rfl) ?_)
    exact .bind_ok rfl (preserves_account rfl rfl (List.nil_sublist _)) (hlast _)

/-- Accounting for a call leaves the registers and the results on the stack. -/
theorem endCall_snd (f : RegisterFile) (name : String) (arity : Nat) :
    (f.endCall name arity).2.registers = f.registers ∧
      (f.endCall name arity).2.counts = f.counts ∧ (f.endCall name arity).2.live = f.live := by
  unfold RegisterFile.endCall
  split
  · exact ⟨rfl, rfl, rfl⟩
  · split
    · exact ⟨rfl, rfl, rfl⟩
    · simp only
      split <;> exact ⟨rfl, rfl, rfl⟩

theorem within_endCall (name : String) (arity : Nat) :
    Within Preserves (endCall name arity) a fun _ _ => True := by
  obtain ⟨hregisters, hcounts, hlive⟩ := endCall_snd a.file name arity
  have hfile : file a = .ok a.file a := rfl
  refine .bind_ok hfile (refl_of _ a) ?_
  refine .bind_ok rfl (preserves_account hregisters hcounts (hlive ▸ List.Sublist.refl _)) ?_
  split
  · exact .of_ok rfl (refl_of _ _) trivial
  · exact .of_error rfl (refl_of _ _)

/-- Registers keep their copies when they are stored. -/
theorem preserves_stored (p : Register → Bool) :
    Preserves a { a with file := { a.file with
      registers := a.file.registers.map fun r => if p r then { r with written := false } else r } } := by
  refine ⟨fun h => ⟨fun state => ?_, h.empty.map rfl fun r hr => ?_, h.written.map rfl fun r hr => ?_⟩,
    fun h => h.of_le (fun i b hb => ?_) (List.Sublist.refl _)⟩
  · rw [List.countP_map, h.counts]
    refine List.countP_congr fun r _ => ?_
    simp only [Function.comp_apply]
    split <;> rfl
  · split <;> exact hr
  · split
    · exact nofun
    · exact hr
  · simp only [bindingAt, List.getElem?_map] at hb ⊢
    obtain ⟨r, hr, hb⟩ := Option.bind_eq_some_iff.1 hb
    obtain ⟨r', hr', rfl⟩ := Option.map_eq_some_iff.1 hr
    rw [hr']
    split at hb <;> exact hb

theorem within_storeWhere (chosen : Variable → Bool) :
    Within Preserves (storeWhere chosen) a fun _ _ => True := by
  have hfile : file a = .ok a.file a := rfl
  refine .bind_ok hfile (refl_of _ a) (.bind (Within.forM (fun r a => ?_) _ a) fun _ a₁ _ _ => ?_)
  · split
    · exact (within_emit _).mono fun _ _ _ => trivial
    · exact .of_ok rfl (refl_of _ a) trivial
  · exact .of_ok rfl (preserves_stored fun r => (pendingStore? chosen r).isSome) trivial

theorem within_createFrame (words : UInt64) :
    Within Preserves (createFrame words) a fun _ _ => True := by
  have hforget : ∀ a, Within Preserves (do
      instruction .pusha []
      onFile fun f => { f.invalidate with stackDepth := 0, spills := [], callStarts := [] }) a
      fun _ _ => True := by
    intro a
    refine .bind_ok rfl (.of_file rfl) (.of_ok rfl (trans_of Preserves preserves_invalidate ?_) trivial)
    refine preserves_account
      (f := { a.file.invalidate with stackDepth := 0, spills := [], callStarts := [] }) rfl rfl ?_
    exact List.nil_sublist _
  refine .bind_ok rfl (.of_file rfl) (.bind_ok rfl (.of_file rfl) ?_)
  split
  · exact .bind_ok rfl (.of_file rfl) (hforget _)
  · exact hforget _

theorem within_destroyFrame : Within Preserves destroyFrame a fun _ _ => True :=
  .bind_ok rfl (.of_file rfl) (.bind_ok rfl (.of_file rfl) (.of_ok rfl (.of_file rfl) trivial))

end Assemble

/-! ## Rows of operations -/

/-- What may be asked of the register file. -/
inductive FileOperation where
  | load (b : Binding)
  | write (v : Variable)
  | result (n : Nat)
  | release
  | endExpression
  | beginCall
  | recordPush
  | endCall (name : String) (arity : Nat)
  | storeWritten
  | storeWrittenGlobals
  | invalidate
  | invalidateGlobals
  | createFrame (words : UInt64)
  | destroyFrame

namespace FileOperation

open Assembler Assemble

/-- The operation at work. -/
def perform : FileOperation → Assemble Unit
  | load b => (fun _ => ()) <$> loadOperand b
  | write v => (fun _ => ()) <$> bindForWrite v
  | result n => (fun _ => ()) <$> bindResult n
  | release => onFile RegisterFile.releaseOperands
  | endExpression => Assemble.endExpression
  | beginCall => Assemble.beginCall
  | recordPush => onFile RegisterFile.recordPush
  | endCall name arity => Assemble.endCall name arity
  | storeWritten => Assemble.storeWritten
  | storeWrittenGlobals => Assemble.storeWrittenGlobals
  | invalidate => onFile RegisterFile.invalidate
  | invalidateGlobals => onFile RegisterFile.invalidateGlobals
  | createFrame words => Assemble.createFrame words
  | destroyFrame => Assemble.destroyFrame

/-- What an operation leaves, also when it fails. -/
def after (o : FileOperation) (a : Assembler) : Assembler :=
  o.perform.leaves a

/-- The operations one after the other. -/
def run (os : List FileOperation) (a : Assembler) : Assembler :=
  os.foldl (fun a o => o.after a) a

/-- The register file at the point of the operation where registers are taken: a result is given
one after the operands were released. -/
def asking (o : FileOperation) (f : RegisterFile) : RegisterFile :=
  match o with
  | result _ => f.releaseOperands
  | _ => f

/-- The operation takes registers away from what they hold. -/
def takes : FileOperation → Bool
  | load _ | write _ | result _ | beginCall => true
  | _ => false

/-- A result that a register is asked for is nowhere once the operands were released. -/
def Fresh (o : FileOperation) (f : RegisterFile) : Prop :=
  match o with
  | result n => f.releaseOperands.Absent (.intermediate n)
  | _ => True

/-- Every result that a register is asked for is nowhere at that point. -/
def AllFresh : List FileOperation → Assembler → Prop
  | [], _ => True
  | o :: os, a => o.Fresh a.file ∧ AllFresh os (o.after a)

instance (o : FileOperation) (f : RegisterFile) : Decidable (o.Fresh f) :=
  match o with
  | result n => inferInstanceAs (Decidable (f.releaseOperands.Absent (.intermediate n)))
  | load _ | write _ | release | endExpression | beginCall | recordPush | endCall _ _
  | storeWritten | storeWrittenGlobals | invalidate | invalidateGlobals | createFrame _
  | destroyFrame => .isTrue trivial

instance decidableAllFresh : (os : List FileOperation) → (a : Assembler) → Decidable (AllFresh os a)
  | [], _ => .isTrue trivial
  | o :: os, a =>
    have := decidableAllFresh os (o.after a)
    inferInstanceAs (Decidable (o.Fresh a.file ∧ AllFresh os (o.after a)))

variable {a : Assembler}

/-- Forgetting the answer of an operation. -/
theorem leaves_map {α β : Type} (g : α → β) (x : Assemble α) (a : Assembler) :
    Assemble.leaves (g <$> x) a = x.leaves a := by
  unfold Assemble.leaves
  rw [map_apply]
  cases x a <;> rfl

/-- **An operation that takes registers takes them with care.** -/
theorem spares_after {o : FileOperation} (h : o.takes = true) (a : Assembler) :
    Spares (o.Fresh a.file ∧ a.file.Distinct) { a with file := o.asking a.file } (o.after a) := by
  cases o with
  | load b =>
    have hload := (within_loadOperand (a := a) b).leaves
    rw [after, perform, leaves_map]
    exact ⟨hload.consistent, fun hf => hload.distinct hf.2, hload.regAt, hload.pinned, hload.stored⟩
  | write v =>
    rw [after, perform, leaves_map]
    exact (within_bindForWrite v).leaves
  | result n =>
    rw [after, perform, leaves_map]
    exact spares_bindResult n fun hf => hf.1
  | beginCall => exact within_beginCall.leaves
  | _ => cases h

/-- The variables that are written keep their registers when operands are released. -/
theorem holdsWritten_asking (o : FileOperation) {f : RegisterFile} {i : Nat} {v : Variable}
    (h : f.HoldsWritten i v) : (o.asking f).HoldsWritten i v := by
  cases o with
  | result n =>
    have hc := cleared_releaseOperands f
    have hresult : (decide (i ∈ f.pinned) && f.holdsResult i) = false := by
      simp [holdsResult, h.1, Binding.isIntermediate]
    refine ⟨(hc.bindingAt i).trans ?_, (hc.writtenAt i).trans ?_⟩
    · rw [hresult]
      exact h.1
    · rw [hresult]
      exact h.2
  | _ => exact h

theorem regAt_asking (o : FileOperation) (f : RegisterFile) (i : Nat) :
    (o.asking f).regAt i = f.regAt i := by
  cases o with
  | result n => exact (cleared_releaseOperands f).regAt i
  | _ => rfl

/-- An operation that takes no registers. -/
theorem preserves_after {o : FileOperation} (h : o.takes = false) (a : Assembler) :
    Preserves a (o.after a) := by
  cases o with
  | load | write | result | beginCall => cases h
  | release => exact preserves_releaseOperands
  | endExpression => exact within_endExpression.leaves
  | recordPush => exact preserves_account (f := a.file.recordPush) rfl rfl (List.Sublist.refl _)
  | endCall name arity => exact (within_endCall name arity).leaves
  | storeWritten | storeWrittenGlobals => exact (within_storeWhere _).leaves
  | invalidate => exact preserves_invalidate
  | invalidateGlobals => exact preserves_clearWhere _
  | createFrame words => exact (within_createFrame words).leaves
  | destroyFrame => exact within_destroyFrame.leaves

theorem preserves_asking (o : FileOperation) (a : Assembler) :
    Preserves a { a with file := o.asking a.file } := by
  cases o with
  | result n => exact preserves_releaseOperands
  | _ => exact refl_of Preserves a

/-- **Every operation keeps the books.** -/
theorem consistent_after (o : FileOperation) (h : a.file.Consistent) :
    (o.after a).file.Consistent := by
  cases ho : o.takes with
  | true => exact (spares_after ho a).consistent ((preserves_asking o a).consistent h)
  | false => exact (preserves_after ho a).consistent h

/-- **Every operation leaves values in one place**, if a result that a register is asked for was
nowhere. -/
theorem distinct_after {o : FileOperation} (hfresh : o.Fresh a.file) (h : a.file.Distinct) :
    (o.after a).file.Distinct := by
  cases ho : o.takes with
  | true => exact (spares_after ho a).distinct ⟨hfresh, h⟩ ((preserves_asking o a).distinct h)
  | false => exact (preserves_after ho a).distinct h

theorem consistent_run (os : List FileOperation) (h : a.file.Consistent) :
    (run os a).file.Consistent := by
  induction os generalizing a with
  | nil => exact h
  | cons o os ih => exact ih (consistent_after o h)

theorem distinct_run {os : List FileOperation} (hfresh : AllFresh os a) (h : a.file.Distinct) :
    (run os a).file.Distinct := by
  induction os generalizing a with
  | nil => exact h
  | cons o os ih => exact ih hfresh.2 (distinct_after hfresh.1 h)

/-- **The books of the register file are right under any row of operations**, failed ones
included. Counts, states and marks agree with what the registers hold. An operation that takes
registers leaves those alone that are pinned where it does, and stores a written variable before it
gives its register away. If each result is nowhere when a register is asked for it, no value is
ever in two registers, and no result both in a register and in a word on the stack. -/
theorem run_accounted {size : Nat} (hsize : minRegisters ≤ size) :
    ∃ f, RegisterFile.ofSize size = .ok f ∧ ∀ os a, run os { file := f } = a →
      a.file.Consistent ∧
      (∀ o : FileOperation, o.takes = true →
        (∀ i ∈ (o.asking a.file).pinned,
          (o.after a).file.bindingAt i = (o.asking a.file).bindingAt i) ∧
        ∃ ls, (o.after a).lines.toList = a.lines.toList ++ ls ∧
          ∀ i v, a.file.HoldsWritten i v → (o.after a).file.HoldsWritten i v ∨
            Line.plain .store [v.location, .reg (a.file.regAt i)] ∈ ls) ∧
      (AllFresh os { file := f } → a.file.bindingsUnique = true ∧
        ∀ i n, a.file.bindingAt i = some (.intermediate n) →
          ∀ slot ∈ a.file.spills, slot.value ≠ some n) := by
  obtain ⟨f, hf⟩ : ∃ f, RegisterFile.ofSize size = .ok f := ⟨_, if_neg (Nat.not_lt.2 hsize)⟩
  refine ⟨f, hf, ?_⟩
  rintro os a rfl
  refine ⟨consistent_run os (consistent_of_ofSize hf), fun o ho => ?_, fun hfresh => ?_⟩
  · have hspares := spares_after ho (run os { file := f })
    obtain ⟨ls, hls, hstored⟩ := hspares.stored
    refine ⟨fun i hi => (hspares.pinned i hi).2, ls, hls, fun i v hv => ?_⟩
    have := hstored i v (holdsWritten_asking o hv)
    rwa [regAt_asking] at this
  · have hdistinct := distinct_run hfresh (distinct_of_ofSize hf)
    refine ⟨hdistinct.bindingsUnique, fun i n hi slot hslot hvalue => hdistinct.apart i n hi ?_⟩
    exact List.mem_filterMap.2 ⟨slot, hslot, hvalue⟩

/-- A variable of a frame and one of the file. -/
def crowdedLocal : Variable := ⟨"x", .int, .frame 0, none⟩

def crowdedGlobal : Variable := ⟨"y", .int, .global "y", none⟩

/-- A row that spills two results for want of registers, writes a variable, fails to take a result
back while both registers are pinned, and then takes it back. -/
def crowdedRow : List FileOperation :=
  [load (.constant 1), result 0, load (.var crowdedGlobal), result 1, load (.var crowdedGlobal),
    write crowdedLocal, load (.intermediate 0), release, load (.intermediate 0)]

/-- A file of two registers. -/
def twoRegisters : RegisterFile where
  registers := [{ reg := .general 1 }, { reg := .general 2 }]
  counts := { empty := 2 }

/-- The file after that row. -/
def crowded : Assembler :=
  run crowdedRow { file := twoRegisters }

/-- The other result is then taken back into the register of the variable, which is stored. -/
theorem run_accounted_crowdedRow :
    RegisterFile.ofSize 2 = .ok twoRegisters ∧ AllFresh crowdedRow { file := twoRegisters } ∧
      crowded.file.Consistent ∧ crowded.file.bindingsUnique = true ∧
      ∃ ls, ((load (.intermediate 1)).after crowded).lines.toList = crowded.lines.toList ++ ls ∧
        Line.plain .store [crowdedLocal.location, .reg (.general 1)] ∈ ls := by
  obtain ⟨f, hf, hrun⟩ := @run_accounted 2 (by decide)
  obtain rfl : twoRegisters = f := by injection hf
  obtain ⟨hconsistent, htakes, hdistinct⟩ := hrun crowdedRow crowded rfl
  obtain ⟨-, ls, hls, hstored⟩ := htakes (load (.intermediate 1)) rfl
  have hfresh : AllFresh crowdedRow { file := twoRegisters } := by decide +kernel
  refine ⟨hf, hfresh, hconsistent, (hdistinct hfresh).1, ls, hls, ?_⟩
  have hreg : crowded.file.regAt 0 = .general 1 := by decide +kernel
  have hheld : crowded.file.HoldsWritten 0 crowdedLocal :=
    ⟨by decide +kernel, by decide +kernel⟩
  have hlost : ((load (.intermediate 1)).after crowded).file.bindingAt 0 ≠
      some (.var crowdedLocal) := by decide +kernel
  rw [← hreg]
  exact (hstored 0 crowdedLocal hheld).resolve_left fun hkept => hlost hkept.1

end FileOperation

end WordC
