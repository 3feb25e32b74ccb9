import Mathlib
import WordC.Lowering.RegisterFile
/-!
# What the registers hold

The register file seen from outside: which register has which name, what it
holds, and whether that was written. States, counts and times of use decide
only which register is taken next, and no operation here depends on them.
-/

namespace WordC

/-- A register without what only decides when it is taken. -/
structure Held where
  reg : Reg
  binding : Option Binding
  written : Bool

/-- A register seen from outside. -/
def Register.held (r : Register) : Held :=
  ⟨r.reg, r.binding, r.written⟩

namespace RegisterFile

/-- The registers seen from outside. -/
def held (f : RegisterFile) : List Held :=
  f.registers.map Register.held

/-- The variable in a register is newer than the one in memory. -/
def writtenAt (f : RegisterFile) (i : Nat) : Bool :=
  (f.held[i]?.map Held.written).getD false

theorem size_eq (f : RegisterFile) : f.size = f.held.length := by
  simp [size, held]

theorem regAt_eq (f : RegisterFile) (i : Nat) :
    f.regAt i = (f.held[i]?.map Held.reg).getD .zero := by
  simp [regAt, held, Register.held, Function.comp_def]

theorem bindingAt_eq (f : RegisterFile) (i : Nat) :
    f.bindingAt i = f.held[i]?.bind Held.binding := by
  simp only [bindingAt, held, List.getElem?_map]
  cases f.registers[i]? <;> rfl

theorem size_congr {f f' : RegisterFile} (h : f'.held = f.held) : f'.size = f.size := by
  rw [size_eq, size_eq, h]

theorem regAt_congr {f f' : RegisterFile} (h : f'.held = f.held) (i : Nat) :
    f'.regAt i = f.regAt i := by
  rw [regAt_eq, regAt_eq, h]

theorem bindingAt_congr {f f' : RegisterFile} (h : f'.held = f.held) (i : Nat) :
    f'.bindingAt i = f.bindingAt i := by
  rw [bindingAt_eq, bindingAt_eq, h]

theorem writtenAt_congr {f f' : RegisterFile} (h : f'.held = f.held) (i : Nat) :
    f'.writtenAt i = f.writtenAt i := by
  rw [writtenAt, writtenAt, h]

/-- A register that holds something is one of the file. -/
theorem lt_size_of_bindingAt {f : RegisterFile} {i : Nat} {b : Binding}
    (h : f.bindingAt i = some b) : i < f.size := by
  by_contra hi
  rw [bindingAt, List.getElem?_eq_none (Nat.not_lt.1 hi)] at h
  cases h

/-- `find?` finds a register that holds the value. -/
theorem bindingAt_of_find? {f : RegisterFile} {b : Binding} {i : Nat} (h : f.find? b = some i) :
    f.bindingAt i = some b := by
  obtain ⟨hi, hb, -⟩ := List.findIdx?_eq_some_iff_getElem.1 h
  simpa [bindingAt, List.getElem?_eq_getElem hi] using hb

/-- If `find?` finds none, there is none. -/
theorem bindingAt_of_find?_none {f : RegisterFile} {b : Binding} (h : f.find? b = none) (i : Nat) :
    f.bindingAt i ≠ some b := by
  intro hi
  obtain ⟨r, hr, hb⟩ := Option.bind_eq_some_iff.1 hi
  have := List.findIdx?_eq_none_iff.1 h r (List.mem_of_getElem? hr)
  simp [hb] at this

/-- Two files whose registers hold the same and that agree on the stack. -/
structure SameOutside (f f' : RegisterFile) : Prop where
  held : f'.held = f.held
  stackDepth : f'.stackDepth = f.stackDepth
  spills : f'.spills = f.spills
  callStarts : f'.callStarts = f.callStarts

/-- The registers chosen by `q` were emptied, and nothing else has changed. -/
structure Cleared (q : Nat → Bool) (f f' : RegisterFile) : Prop where
  size : f'.size = f.size
  regAt : ∀ i, f'.regAt i = f.regAt i
  bindingAt : ∀ i, f'.bindingAt i = if q i then none else f.bindingAt i
  writtenAt : ∀ i, f'.writtenAt i = if q i then false else f.writtenAt i
  stackDepth : f'.stackDepth = f.stackDepth
  spills : f'.spills = f.spills
  callStarts : f'.callStarts = f.callStarts

/-- Register `i` was given a value, and nothing else has changed. -/
structure Given (i : Nat) (b : Binding) (written : Bool) (f f' : RegisterFile) : Prop where
  size : f'.size = f.size
  regAt : ∀ j, f'.regAt j = f.regAt j
  bindingAt : ∀ j, f'.bindingAt j = if j = i then some b else f.bindingAt j
  writtenAt : ∀ j, f'.writtenAt j = if j = i then written else f.writtenAt j
  stackDepth : f'.stackDepth = f.stackDepth
  spills : f'.spills = f.spills
  callStarts : f'.callStarts = f.callStarts

section Inversion

variable {q : Nat → Bool} {f f' : RegisterFile} {i j : Nat} {b c : Binding} {written : Bool}

/-- What a register still holds it has held before, and the register was not chosen. -/
theorem Cleared.bound (hc : Cleared q f f') (hi : f'.bindingAt i = some b) :
    q i = false ∧ f.bindingAt i = some b := by
  rw [hc.bindingAt] at hi
  split at hi
  · cases hi
  · next hq => exact ⟨Bool.eq_false_iff.2 hq, hi⟩

/-- A register that is still marked was marked before, and it was not chosen. -/
theorem Cleared.marked (hc : Cleared q f f') (hi : f'.writtenAt i = true) :
    q i = false ∧ f.writtenAt i = true := by
  rw [hc.writtenAt] at hi
  split at hi
  · cases hi
  · next hq => exact ⟨Bool.eq_false_iff.2 hq, hi⟩

theorem Cleared.bindingAt_of_not (hc : Cleared q f f') (hq : q i = false) :
    f'.bindingAt i = f.bindingAt i := by
  rw [hc.bindingAt, hq]
  rfl

theorem Given.bindingAt_self (hg : Given i b written f f') : f'.bindingAt i = some b := by
  rw [hg.bindingAt, if_pos rfl]

theorem Given.bindingAt_of_ne (hg : Given i b written f f') (hj : j ≠ i) :
    f'.bindingAt j = f.bindingAt j := by
  rw [hg.bindingAt, if_neg hj]

/-- What a register holds is what was given, or what it has held before. -/
theorem Given.bound (hg : Given i b written f f') (hj : f'.bindingAt j = some c) :
    (j = i ∧ c = b) ∨ (j ≠ i ∧ f.bindingAt j = some c) := by
  by_cases hji : j = i
  · rw [hji, hg.bindingAt_self] at hj
    exact .inl ⟨hji, (Option.some.inj hj).symm⟩
  · rw [hg.bindingAt_of_ne hji] at hj
    exact .inr ⟨hji, hj⟩

/-- A register that is marked was marked now, or before. -/
theorem Given.marked (hg : Given i b written f f') (hj : f'.writtenAt j = true) :
    (j = i ∧ written = true) ∨ (j ≠ i ∧ f.writtenAt j = true) := by
  rw [hg.writtenAt] at hj
  split at hj
  · next hji => exact .inl ⟨hji, hj⟩
  · next hji => exact .inr ⟨hji, hj⟩

/-- A value that no other register holds stays in one register. -/
theorem Given.unique (hg : Given i b written f f')
    (hunique : ∀ j l c, f.bindingAt j = some c → f.bindingAt l = some c → j = l)
    (hnew : ∀ j, f.bindingAt j = some b → j = i) {l : Nat} (hj : f'.bindingAt j = some c)
    (hl : f'.bindingAt l = some c) : j = l := by
  rcases hg.bound hj with ⟨hji, hcb⟩ | ⟨hji, hj⟩
  · rcases hg.bound hl with ⟨hli, -⟩ | ⟨hli, hl⟩
    · rw [hji, hli]
    · exact absurd (hnew l (hcb ▸ hl)) hli
  · rcases hg.bound hl with ⟨-, hcb⟩ | ⟨-, hl⟩
    · exact absurd (hnew j (hcb ▸ hj)) hji
    · exact hunique j l c hj hl

end Inversion

namespace SameOutside

theorem refl (f : RegisterFile) : SameOutside f f :=
  ⟨rfl, rfl, rfl, rfl⟩

theorem trans {f g h : RegisterFile} (hfg : SameOutside f g) (hgh : SameOutside g h) :
    SameOutside f h :=
  ⟨hgh.held.trans hfg.held, hgh.stackDepth.trans hfg.stackDepth, hgh.spills.trans hfg.spills,
    hgh.callStarts.trans hfg.callStarts⟩

end SameOutside

/-! ## Operations that only change when a register is taken -/

theorem sameOutside_touch (f : RegisterFile) (i : Nat) : SameOutside f (f.touch i) := by
  refine ⟨?_, rfl, rfl, rfl⟩
  apply List.ext_getElem?
  intro j
  simp only [held, touch, List.getElem?_map, List.getElem?_modify]
  cases f.registers[j]? with
  | none => rfl
  | some r => by_cases hj : i = j <;> simp [hj, Register.held]

theorem sameOutside_setState (f : RegisterFile) (i : Nat) (state : RegisterState) :
    SameOutside f (f.setState i state) := by
  unfold setState
  cases hr : f.registers[i]? with
  | none => exact SameOutside.refl f
  | some r =>
    refine ⟨?_, rfl, rfl, rfl⟩
    apply List.ext_getElem?
    intro j
    simp only [held, List.getElem?_map, List.getElem?_set]
    by_cases hj : i = j
    · subst hj
      obtain ⟨hi, rfl⟩ := List.getElem?_eq_some_iff.1 hr
      simp [hi, Register.held]
    · simp [hj]

theorem sameOutside_use (f : RegisterFile) (i : Nat) : SameOutside f (f.use i) :=
  (sameOutside_touch f i).trans (sameOutside_setState _ i .used)

theorem sameOutside_pin (f : RegisterFile) (i : Nat) : SameOutside f (f.pin i) := by
  unfold pin
  split <;> exact ⟨rfl, rfl, rfl, rfl⟩

@[simp] theorem pinned_touch (f : RegisterFile) (i : Nat) : (f.touch i).pinned = f.pinned := rfl

@[simp] theorem pinned_setState (f : RegisterFile) (i : Nat) (state : RegisterState) :
    (f.setState i state).pinned = f.pinned := by
  unfold setState
  split <;> rfl

@[simp] theorem pinned_use (f : RegisterFile) (i : Nat) : (f.use i).pinned = f.pinned := by
  simp [use]

/-- A pinned register is among the pinned ones. -/
theorem mem_pinned_pin {f : RegisterFile} {i j : Nat} :
    j ∈ (f.pin i).pinned ↔ j ∈ f.pinned ∨ j = i := by
  unfold pin
  split
  · next h =>
    have : i ∈ f.pinned := by simpa using h
    grind
  · simp

theorem length_pinned_pin (f : RegisterFile) (i : Nat) :
    (f.pin i).pinned.length ≤ f.pinned.length + 1 := by
  unfold pin
  split <;> simp

/-! ## Operations that give or take a value -/

/-- Changing one register, seen from outside. -/
theorem held_modify {f : RegisterFile} {g : Register → Register} {h : Held → Held}
    (hg : ∀ r, (g r).held = h r.held) (i : Nat) :
    (f.registers.modify i g).map Register.held = f.held.modify i h := by
  apply List.ext_getElem?
  intro j
  simp only [held, List.getElem?_map, List.getElem?_modify]
  cases f.registers[j]? with
  | none => rfl
  | some r => by_cases hj : i = j <;> simp [hj, hg]

/-- A file that differs by a change of register `i` to a value. -/
theorem given_of_held {f f' : RegisterFile} {i : Nat} {b : Binding} {written : Bool}
    (hi : i < f.size) (hheld : f'.held = f.held.modify i fun r => ⟨r.reg, some b, written⟩)
    (hdepth : f'.stackDepth = f.stackDepth) (hspills : f'.spills = f.spills)
    (hstarts : f'.callStarts = f.callStarts) : Given i b written f f' := by
  rw [size_eq] at hi
  refine ⟨by simp [size_eq, hheld], ?_, ?_, ?_, hdepth, hspills, hstarts⟩ <;> intro j
  all_goals
    simp only [regAt_eq, bindingAt_eq, writtenAt, hheld, List.getElem?_modify]
    by_cases hj : j = i
    · subst hj
      simp [List.getElem?_eq_getElem hi]
    · simp [hj, Ne.symm hj]

theorem given_bind {f : RegisterFile} {i : Nat} (hi : i < f.size) (b : Binding)
    (state : RegisterState) : Given i b false f (f.bind i b state) := by
  unfold bind
  have hsame := (sameOutside_setState { f with registers := f.registers.modify i fun r =>
    { r with binding := some b, written := false } } i state).trans (sameOutside_touch _ i)
  exact given_of_held hi (hsame.held.trans (held_modify (fun r => rfl) i)) hsame.stackDepth
    hsame.spills hsame.callStarts

@[simp] theorem pinned_bind (f : RegisterFile) (i : Nat) (b : Binding) (state : RegisterState) :
    (f.bind i b state).pinned = f.pinned := by
  simp [bind]

theorem given_markWritten {f : RegisterFile} {i : Nat} {b : Binding}
    (hb : f.bindingAt i = some b) : Given i b true f (f.markWritten i) := by
  refine given_of_held (lt_size_of_bindingAt hb) ?_ rfl rfl rfl
  refine (held_modify (h := fun r => ⟨r.reg, r.binding, true⟩) (fun r => rfl) i).trans ?_
  apply List.ext_getElem?
  intro j
  simp only [List.getElem?_modify]
  by_cases hj : i = j
  · subst hj
    rw [bindingAt_eq] at hb
    cases hr : f.held[i]? with
    | none => rfl
    | some r =>
      rw [hr] at hb
      simp at hb
      simp [hb]
  · simp [hj]

/-- Giving a register a value twice. -/
theorem Given.trans {i : Nat} {b b' : Binding} {written written' : Bool} {f g h : RegisterFile}
    (hfg : Given i b written f g) (hgh : Given i b' written' g h) : Given i b' written' f h := by
  refine ⟨hgh.size.trans hfg.size, fun j => (hgh.regAt j).trans (hfg.regAt j), fun j => ?_,
    fun j => ?_, hgh.stackDepth.trans hfg.stackDepth, hgh.spills.trans hfg.spills,
    hgh.callStarts.trans hfg.callStarts⟩
  · rw [hgh.bindingAt, hfg.bindingAt]
    split <;> rfl
  · rw [hgh.writtenAt, hfg.writtenAt]
    split <;> rfl

/-- Files that look the same may be put around it. -/
theorem Given.congr {i : Nat} {b : Binding} {written : Bool} {f₀ f g g₀ : RegisterFile}
    (hf : SameOutside f₀ f) (h : Given i b written f g) (hg : SameOutside g g₀) :
    Given i b written f₀ g₀ where
  size := (size_congr hg.held).trans (h.size.trans (size_congr hf.held))
  regAt j := (regAt_congr hg.held j).trans ((h.regAt j).trans (regAt_congr hf.held j))
  bindingAt j := by rw [bindingAt_congr hg.held, h.bindingAt, bindingAt_congr hf.held]
  writtenAt j := by rw [writtenAt_congr hg.held, h.writtenAt, writtenAt_congr hf.held]
  stackDepth := hg.stackDepth.trans (h.stackDepth.trans hf.stackDepth)
  spills := hg.spills.trans (h.spills.trans hf.spills)
  callStarts := hg.callStarts.trans (h.callStarts.trans hf.callStarts)

/-- The register of a variable that an instruction writes. -/
theorem given_write {f : RegisterFile} {i : Nat} {b : Binding} (hb : f.bindingAt i = some b) :
    Given i b true f (((f.use i).markWritten i).pin i) := by
  have hsame := sameOutside_use f i
  exact (given_markWritten ((bindingAt_congr hsame.held i).trans hb)).congr hsame
    (sameOutside_pin _ i)

theorem cleared_clear (f : RegisterFile) (i : Nat) : Cleared (· = i) f (f.clear i) := by
  unfold clear
  cases hr : f.registers[i]? with
  | none =>
    have hheld : f.held[i]? = none := by simp [held, hr]
    refine ⟨rfl, fun _ => rfl, fun j => ?_, fun j => ?_, rfl, rfl, rfl⟩ <;>
      by_cases hj : j = i <;> simp [hj, bindingAt_eq, writtenAt, hheld]
  | some r =>
    obtain ⟨hi, rfl⟩ := List.getElem?_eq_some_iff.1 hr
    refine ⟨by simp [size], fun j => ?_, fun j => ?_, fun j => ?_, rfl, rfl, rfl⟩
    all_goals
      simp only [regAt_eq, bindingAt_eq, writtenAt, held, List.getElem?_map, List.getElem?_set]
      by_cases hj : j = i
      · subst hj
        simp [hi, Register.held, Register.cleared]
      · simp [hj, Ne.symm hj]

@[simp] theorem pinned_clear (f : RegisterFile) (i : Nat) : (f.clear i).pinned = f.pinned := by
  unfold clear
  split <;> rfl

/-- Files that look the same have emptied nothing. -/
theorem SameOutside.cleared {f f' : RegisterFile} (h : SameOutside f f') :
    Cleared (fun _ => false) f f' :=
  ⟨size_congr h.held, regAt_congr h.held, bindingAt_congr h.held, writtenAt_congr h.held,
    h.stackDepth, h.spills, h.callStarts⟩

theorem Cleared.congr {f f' : RegisterFile} {q q' : Nat → Bool} (h : Cleared q f f')
    (hq : ∀ i, q i = q' i) : Cleared q' f f' :=
  funext hq ▸ h

theorem Cleared.trans {f g h : RegisterFile} {q q' : Nat → Bool} (hfg : Cleared q f g)
    (hgh : Cleared q' g h) : Cleared (fun i => q i || q' i) f h := by
  refine ⟨hgh.size.trans hfg.size, fun i => (hgh.regAt i).trans (hfg.regAt i), fun i => ?_,
    fun i => ?_, hgh.stackDepth.trans hfg.stackDepth, hgh.spills.trans hfg.spills,
    hgh.callStarts.trans hfg.callStarts⟩
  · rw [hgh.bindingAt, hfg.bindingAt]
    cases q i <;> simp
  · rw [hgh.writtenAt, hfg.writtenAt]
    cases q i <;> simp

/-- Register `i` holds a result. -/
def holdsResult (f : RegisterFile) (i : Nat) : Bool :=
  (f.bindingAt i).any Binding.isIntermediate

theorem cleared_release (f : RegisterFile) (i : Nat) :
    Cleared (fun j => decide (j = i) && f.holdsResult j) f (f.release i) := by
  unfold release
  split
  · next n h =>
    refine (cleared_clear f i).congr fun j => ?_
    by_cases hj : j = i <;> simp [hj, holdsResult, h, Binding.isIntermediate]
  · next b h hb =>
    refine (sameOutside_setState f i .free).cleared.congr fun j => ?_
    by_cases hj : j = i
    · subst hj
      cases b <;> simp_all [holdsResult, Binding.isIntermediate]
    · simp [hj]
  · next h =>
    refine (SameOutside.refl f).cleared.congr fun j => ?_
    by_cases hj : j = i <;> simp [hj, holdsResult, h]

/-- Releasing one register after the other. -/
theorem cleared_foldl_release (f : RegisterFile) (is : List Nat) :
    Cleared (fun j => decide (j ∈ is) && f.holdsResult j) f (is.foldl release f) := by
  induction is generalizing f with
  | nil => exact (SameOutside.refl f).cleared.congr (by simp)
  | cons i is ih =>
    refine ((cleared_release f i).trans (ih _)).congr fun j => ?_
    simp only [holdsResult, (cleared_release f i).bindingAt]
    by_cases hj : j = i
    · subst hj
      by_cases h : Option.any Binding.isIntermediate (f.bindingAt j) = true <;> simp [h]
    · simp [hj]

theorem cleared_releaseOperands (f : RegisterFile) :
    Cleared (fun j => decide (j ∈ f.pinned) && f.holdsResult j) f f.releaseOperands := by
  have h := cleared_foldl_release { f with pinned := [] } f.pinned
  exact ⟨h.size, h.regAt, h.bindingAt, h.writtenAt, h.stackDepth, h.spills, h.callStarts⟩

/-- Where nothing is pinned there is nothing to release. -/
theorem releaseOperands_of_pinned {f : RegisterFile} (h : f.pinned = []) :
    f.releaseOperands = f := by
  rw [releaseOperands, h, List.foldl_nil, ← h]

@[simp] theorem pinned_releaseOperands (f : RegisterFile) : f.releaseOperands.pinned = [] := by
  suffices h : ∀ (is : List Nat) (g : RegisterFile), (is.foldl release g).pinned = g.pinned from
    h f.pinned { f with pinned := [] }
  intro is
  induction is with
  | nil => exact fun _ => rfl
  | cons i is ih =>
    intro g
    rw [List.foldl_cons, ih]
    unfold release
    split <;> simp

/-- Emptying the registers whose value is chosen. -/
theorem cleared_clearWhere {p : Register → Bool} {q : Option Binding → Bool}
    (hp : ∀ r, p r = q r.binding) (hq : q none = false) (f : RegisterFile) :
    Cleared (fun j => q (f.bindingAt j)) f (f.clearWhere p) := by
  have hheld : (f.clearWhere p).held =
      f.held.map fun r => if q r.binding then ⟨r.reg, none, false⟩ else r := by
    simp only [held, clearWhere, List.map_map]
    refine List.map_congr_left fun r _ => ?_
    simp only [Function.comp_apply, hp, Register.held]
    by_cases hr : q r.binding = true <;> simp [hr, Register.cleared]
  refine ⟨by simp [size_eq, hheld], fun j => ?_, fun j => ?_, fun j => ?_, rfl, rfl, rfl⟩
  all_goals
    simp only [regAt_eq, bindingAt_eq, writtenAt, hheld, List.getElem?_map]
    cases f.held[j]? with
    | none => simp [hq]
    | some r => cases h : q r.binding <;> simp [h]

theorem cleared_invalidateGlobals (f : RegisterFile) :
    Cleared (fun j => (f.bindingAt j).any Binding.isGlobal) f f.invalidateGlobals :=
  cleared_clearWhere (fun _ => rfl) rfl f

theorem cleared_clearIntermediates (f : RegisterFile) :
    Cleared f.holdsResult f f.clearIntermediates :=
  cleared_clearWhere (q := (·.any Binding.isIntermediate)) (fun _ => rfl) rfl f

/-- Forgetting everything leaves every register empty. -/
theorem bindingAt_invalidate (f : RegisterFile) (i : Nat) : f.invalidate.bindingAt i = none := by
  simp only [invalidate, clearWhere, bindingAt, List.getElem?_map]
  cases f.registers[i]? <;> rfl

theorem writtenAt_invalidate (f : RegisterFile) (i : Nat) : f.invalidate.writtenAt i = false := by
  simp only [invalidate, clearWhere, writtenAt, held, List.getElem?_map]
  cases f.registers[i]? <;> rfl

theorem regAt_invalidate (f : RegisterFile) (i : Nat) : f.invalidate.regAt i = f.regAt i := by
  simp only [invalidate, clearWhere, RegisterFile.regAt, List.getElem?_map]
  cases f.registers[i]? <;> rfl

theorem size_invalidate (f : RegisterFile) : f.invalidate.size = f.size :=
  List.length_map ..

/-! ## Taking a register -/

/-- The register to take is one of the choice. -/
theorem firstTaken_mem {rs : List (Register × Nat)} {r : Register × Nat}
    (h : firstTaken rs = some r) : r ∈ rs := by
  induction rs generalizing r with
  | nil => cases h
  | cons s rs ih =>
    unfold firstTaken at h
    cases hrest : firstTaken rs with
    | none =>
      rw [hrest] at h
      cases h
      exact List.mem_cons_self
    | some t =>
      rw [hrest] at h
      have ht := List.mem_cons_of_mem s (ih hrest)
      simp only at h
      split at h <;> cases h
      · exact ht
      · exact List.mem_cons_self

theorem firstTaken_isSome {rs : List (Register × Nat)} (h : rs ≠ []) :
    (firstTaken rs).isSome = true := by
  cases rs with
  | nil => exact absurd rfl h
  | cons s rs =>
    unfold firstTaken
    cases firstTaken rs with
    | none => rfl
    | some t => simp only; split <;> rfl

/-- **There is a register to take**, and it is not pinned, if fewer registers
are pinned than there are. -/
theorem exists_victim {f : RegisterFile} (h : f.pinned.length < f.size) :
    ∃ i, f.victim? = some i ∧ i < f.size ∧ i ∉ f.pinned := by
  obtain ⟨i, hi, hpin⟩ : ∃ i ∈ List.range f.size, i ∉ f.pinned := by
    by_contra hall
    push Not at hall
    have := (List.nodup_range (n := f.size)).length_le_of_subset hall
    rw [List.length_range] at this
    omega
  rw [List.mem_range] at hi
  have hne : f.registers.zipIdx.filter (fun p => !f.pinned.contains p.2) ≠ [] := by
    refine List.ne_nil_of_mem (a := (f.registers[i], i)) ?_
    simp [List.mem_filter, List.mem_zipIdx_iff_getElem?, List.getElem?_eq_getElem hi, hpin]
  obtain ⟨⟨r, j⟩, hj⟩ := Option.isSome_iff_exists.1 (firstTaken_isSome hne)
  have hmem := List.mem_filter.1 (firstTaken_mem hj)
  refine ⟨j, congrArg (Option.map Prod.snd) hj, ?_, by simpa using hmem.2⟩
  have := List.mem_zipIdx_iff_getElem?.1 hmem.1
  exact (List.getElem?_eq_some_iff.1 this).1

end RegisterFile

end WordC
