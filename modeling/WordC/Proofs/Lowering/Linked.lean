import Mathlib
import WordC.Proofs.Lowering.Machine
import WordC.Proofs.Lowering.Held
import WordC.Proofs.Lowering.Stack
/-!
# The register file follows the machine

`Linked` relates the register file to a machine that runs the emitted lines and
to the evaluation of the expression. It has three parts.

* `HoldsValues`: a register holds the value it is bound to, and a variable's
  word is right in memory unless a register with a newer one is marked written.
* `StackFits`: the pushed words are what the file says about them.
* `ResultsPlaced`: every result that waits is in exactly one place, a register or a
  pushed word.

The lemmas here say what each change of the file asks for to keep its part.
-/

namespace WordC

open RegisterFile

variable {W : Type}

/-- The word of a value, in memory `mem` and with results `ρ`. -/
def Target.bound (T : Target W) (mem : Memory W) (ρ : Nat → W) : Binding → W
  | .var v => T.value mem v
  | .constant n => T.imm n
  | .intermediate n => ρ n

/-- Writing one of the variables leaves the others as they are. -/
def Apart (W : Type) (known : Variable → Prop) : Prop :=
  ∀ v w, known v → known w → v ≠ w → ∀ (mem : Memory W) (x : W),
    (mem.write v.storage x).read w.storage = mem.read w.storage

/-- Words of different variables that have different storage are apart. -/
theorem Apart.of_injective {known : Variable → Prop}
    (h : ∀ v w, known v → known w → v.storage = w.storage → v = w) : Apart W known :=
  fun v w hv hw hne mem x =>
    Memory.read_write_of_ne mem (fun heq => hne (h w v hw hv heq).symm) x

/-- The word of one variable does not depend on that of another. -/
theorem Apart.value {known : Variable → Prop} (ha : Apart W known) {v w : Variable}
    (hv : known v) (hw : known w) (hne : v ≠ w) (T : Target W) (mem : Memory W) (x : W) :
    T.value (mem.write v.storage x) w = T.value mem w := by
  have := ha v w hv hw hne mem x
  unfold Target.value
  split
  · rfl
  · simpa using this

/-- **The registers hold what they are bound to.** -/
structure HoldsValues (T : Target W) (known : Variable → Prop) (f : RegisterFile) (m : Machine W)
    (mem : Memory W) (ρ : Nat → W) : Prop where
  general : ∀ i < f.size, ∃ n, f.regAt i = .general n
  names : ∀ i < f.size, ∀ j < f.size, f.regAt i = f.regAt j → i = j
  unique : ∀ i j b, f.bindingAt i = some b → f.bindingAt j = some b → i = j
  known : ∀ i v, f.bindingAt i = some (.var v) → known v
  written : ∀ i, f.writtenAt i = true → ∃ v, f.bindingAt i = some (.var v) ∧ v.isArray = false
  value : ∀ i b, f.bindingAt i = some b → m.regs (f.regAt i) = T.bound mem ρ b
  base : m.regs .ebp = T.base
  cells : ∀ s, (∀ i v, f.bindingAt i = some (.var v) → f.writtenAt i = true → v.storage ≠ s) →
    m.memory.read s = mem.read s
  heap : m.memory.heap = mem.heap

/-- **The pushed words are accounted for.** -/
structure StackFits (d : Nat) (below : List W) (base : List Pushed) (f : RegisterFile)
    (stack : List W) (kinds : List Pushed) (ρ : Nat → W) (σ : List (Slot W)) : Prop where
  depth : f.stackDepth = d + σ.length
  spills : f.spills = (slots d σ).reverse
  words : ∃ ws, stack = ws ++ below ∧ List.Forall₂ (Slot.Holds ρ) σ ws
  traced : kinds = σ.map Slot.pushed ++ base
  based : base.length = d

/-- **The first `k` results are each in one place**: in a register, or among
the words `R` on the stack. -/
structure ResultsPlaced (f : RegisterFile) (R : List Nat) (k : Nat) : Prop where
  inRegister : ∀ i n, f.bindingAt i = some (.intermediate n) → n < k
  onStack : ∀ n ∈ R, n < k
  once : R.Nodup
  apart : ∀ i n, f.bindingAt i = some (.intermediate n) → n ∉ R
  placed : ∀ n < k, (∃ i, f.bindingAt i = some (.intermediate n)) ∨ n ∈ R

/-- **The register file follows the machine and the evaluation.** -/
structure Linked (T : Target W) (known : Variable → Prop) (d : Nat) (below : List W)
    (base : List Pushed) (f : RegisterFile) (m : Traced W) (mem : Memory W) (ρ : Nat → W) (k : Nat)
    (σ : List (Slot W)) : Prop where
  holds : HoldsValues T known f m.toMachine mem ρ
  stack : StackFits d below base f m.stack m.trace.words ρ σ
  /-- The top word is of use. -/
  top : ∀ τ, σ ≠ .read :: τ
  results : ResultsPlaced f (spilled σ) k

/-- Taking up an element changes neither words nor registers. -/
theorem Linked.take {T : Target W} {known : Variable → Prop} {d k : Nat} {below : List W}
    {base : List Pushed} {f : RegisterFile} {m : Traced W} {mem : Memory W} {ρ : Nat → W}
    {σ : List (Slot W)} (h : Linked T known d below base f m mem ρ k σ) (e : Element) :
    Linked T known d below base f (m.take e) mem ρ k σ :=
  ⟨h.holds, h.stack, h.top, h.results⟩

namespace HoldsValues

variable {T : Target W} {known : Variable → Prop} {f f' : RegisterFile} {m : Machine W}
variable {mem : Memory W} {ρ : Nat → W}

/-- Forgetting values, and that they were written, where memory is up to
date. -/
theorem forget (h : HoldsValues T known f m mem ρ) (hsize : f'.size = f.size)
    (hreg : ∀ i, f'.regAt i = f.regAt i)
    (hbound : ∀ i b, f'.bindingAt i = some b → f.bindingAt i = some b)
    (hwritten : ∀ i, f'.writtenAt i = true →
      f.writtenAt i = true ∧ f'.bindingAt i = f.bindingAt i)
    (hclean : ∀ i v, f.bindingAt i = some (.var v) → f.writtenAt i = true →
      f'.writtenAt i = false → m.memory.read v.storage = mem.read v.storage) :
    HoldsValues T known f' m mem ρ where
  general i hi := by rw [hreg]; exact h.general i (hsize ▸ hi)
  names i hi j hj hij := h.names i (hsize ▸ hi) j (hsize ▸ hj) (by rwa [hreg, hreg] at hij)
  unique i j b hi hj := h.unique i j b (hbound i b hi) (hbound j b hj)
  known i v hi := h.known i v (hbound i _ hi)
  written i hi := by
    obtain ⟨hi, hb⟩ := hwritten i hi
    obtain ⟨v, hv, harray⟩ := h.written i hi
    exact ⟨v, hb.trans hv, harray⟩
  value i b hi := by rw [hreg]; exact h.value i b (hbound i b hi)
  base := h.base
  cells s hs := by
    -- a cell that a register owed is up to date now, unless the register still owes it
    by_cases hdirty : ∃ i v, f.bindingAt i = some (.var v) ∧ f.writtenAt i = true ∧ v.storage = s
    · obtain ⟨i, v, hi, hw, rfl⟩ := hdirty
      refine hclean i v hi hw (Bool.eq_false_iff.2 fun hw' => ?_)
      exact hs i v ((hwritten i hw').2.trans hi) hw' rfl
    · exact h.cells s fun i v hi hw heq => hdirty ⟨i, v, hi, hw, heq⟩
  heap := h.heap

/-- Emptying registers whose variables are right in memory. -/
theorem clear {q : Nat → Bool} (h : HoldsValues T known f m mem ρ) (hc : Cleared q f f')
    (hclean : ∀ i v, q i = true → f.bindingAt i = some (.var v) → f.writtenAt i = true →
      m.memory.read v.storage = mem.read v.storage) : HoldsValues T known f' m mem ρ := by
  refine h.forget hc.size hc.regAt (fun i b hi => (hc.bound hi).2) (fun i hi => ?_)
    fun i v hi hw hw' => ?_
  · obtain ⟨hq, hi⟩ := hc.marked hi
    exact ⟨hi, hc.bindingAt_of_not hq⟩
  · rw [hc.writtenAt] at hw'
    split at hw'
    · next hq => exact hclean i v hq hi hw
    · rw [hw] at hw'; cases hw'

/-- Files whose registers look the same hold the same. -/
theorem congr (h : HoldsValues T known f m mem ρ) (hheld : f'.held = f.held) :
    HoldsValues T known f' m mem ρ := by
  have hb := bindingAt_congr hheld
  have hw := writtenAt_congr hheld
  refine h.forget (size_congr hheld) (regAt_congr hheld) (fun i b hi => by rwa [hb] at hi)
    (fun i hi => ⟨by rwa [hw] at hi, hb i⟩) fun i v _ hi hi' => ?_
  rw [hw, hi] at hi'
  cases hi'

/-- Only the bound results matter. -/
theorem results_congr {ρ' : Nat → W} (h : HoldsValues T known f m mem ρ)
    (hρ : ∀ i n, f.bindingAt i = some (.intermediate n) → ρ' n = ρ n) :
    HoldsValues T known f m mem ρ' :=
  { h with
    value := fun i b hi => by
      rw [h.value i b hi]
      cases b with
      | intermediate n => exact (hρ i n hi).symm
      | var | constant => rfl }

/-- The stack and the coming calls do not matter. -/
theorem machine_congr {m' : Machine W} (h : HoldsValues T known f m mem ρ)
    (hregs : m'.regs = m.regs) (hmem : m'.memory = m.memory) : HoldsValues T known f m' mem ρ :=
  { h with
    value := fun i b hi => by rw [hregs]; exact h.value i b hi
    base := by rw [hregs]; exact h.base
    cells := fun s hs => by rw [hmem]; exact h.cells s hs
    heap := by rw [hmem]; exact h.heap }

/-- A register of the file is no other register of the machine. -/
theorem regAt_ne (h : HoldsValues T known f m mem ρ) {i : Nat} (hi : i < f.size) {r : Reg}
    (hr : ∀ n, r ≠ .general n) : f.regAt i ≠ r := by
  obtain ⟨n, hn⟩ := h.general i hi
  rw [hn]
  exact (hr n).symm

/-- Writing a register that holds nothing. -/
theorem set_unbound (h : HoldsValues T known f m mem ρ) {i : Nat} (hi : i < f.size)
    (hnone : f.bindingAt i = none) (w : W) :
    HoldsValues T known f (m.set (f.regAt i) w) mem ρ :=
  { h with
    value := fun j b hj => by
      have hne : f.regAt j ≠ f.regAt i := fun heq => by
        rw [h.names j (lt_size_of_bindingAt hj) i hi heq, hnone] at hj
        cases hj
      rw [Machine.set_regs_of_ne m hne]
      exact h.value j b hj
    base := by
      rw [Machine.set_regs_of_ne m (h.regAt_ne hi (by simp)).symm]
      exact h.base
    cells := h.cells
    heap := h.heap }

/-- Binding a register that holds the value already. -/
theorem give {i : Nat} {b : Binding} (h : HoldsValues T known f m mem ρ)
    (hg : Given i b false f f') (hnone : f.bindingAt i = none)
    (hnew : ∀ j, f.bindingAt j ≠ some b) (hknown : ∀ v, b = .var v → known v)
    (hvalue : m.regs (f.regAt i) = T.bound mem ρ b) : HoldsValues T known f' m mem ρ where
  general j hj := by rw [hg.regAt]; exact h.general j (hg.size ▸ hj)
  names j hj l hl hjl :=
    h.names j (hg.size ▸ hj) l (hg.size ▸ hl) (by rwa [hg.regAt, hg.regAt] at hjl)
  unique j l c hj hl := hg.unique h.unique (fun j hj => absurd hj (hnew j)) hj hl
  known j v hj := by
    rcases hg.bound hj with ⟨-, hb⟩ | ⟨-, hj⟩
    · exact hknown v hb.symm
    · exact h.known j v hj
  written j hj := by
    rcases hg.marked hj with ⟨-, hfalse⟩ | ⟨hji, hj⟩
    · cases hfalse
    · rw [hg.bindingAt_of_ne hji]
      exact h.written j hj
  value j c hj := by
    rw [hg.regAt]
    rcases hg.bound hj with ⟨rfl, rfl⟩ | ⟨-, hj⟩
    · exact hvalue
    · exact h.value j c hj
  base := h.base
  cells s hs := by
    refine h.cells s fun j v hj hw => ?_
    -- the register was empty, so it owed nothing
    have hne : j ≠ i := fun heq => by rw [heq, hnone] at hj; cases hj
    exact hs j v ((hg.bindingAt_of_ne hne).trans hj) (by rw [hg.writtenAt, if_neg hne]; exact hw)
  heap := h.heap

/-- **Assigning a variable**: its register gets the word and is marked written,
and the variable changes in memory only for the evaluation. -/
theorem assign {i : Nat} {v : Variable} (h : HoldsValues T known f m mem ρ) (ha : Apart W known)
    (hg : Given i (.var v) true f f') (hi : i < f.size)
    (hold : ∀ b, f.bindingAt i = some b → b = .var v)
    (hnew : ∀ j, f.bindingAt j = some (.var v) → j = i) (hknown : known v)
    (harray : v.isArray = false) (w : W) :
    HoldsValues T known f' (m.set (f.regAt i) w) (mem.write v.storage w) ρ where
  general j hj := by rw [hg.regAt]; exact h.general j (hg.size ▸ hj)
  names j hj l hl hjl :=
    h.names j (hg.size ▸ hj) l (hg.size ▸ hl) (by rwa [hg.regAt, hg.regAt] at hjl)
  unique j l c hj hl := hg.unique h.unique hnew hj hl
  known j u hj := by
    rcases hg.bound hj with ⟨-, hb⟩ | ⟨-, hj⟩
    · cases hb
      exact hknown
    · exact h.known j u hj
  written j hj := by
    rcases hg.marked hj with ⟨rfl, -⟩ | ⟨hji, hj⟩
    · exact ⟨v, hg.bindingAt_self, harray⟩
    · rw [hg.bindingAt_of_ne hji]
      exact h.written j hj
  value j c hj := by
    rw [hg.regAt]
    rcases hg.bound hj with ⟨rfl, rfl⟩ | ⟨hji, hj⟩
    · rw [Machine.set_regs_self]
      simp [Target.bound, Target.value, harray]
    -- another register holds another variable, which is stored elsewhere
    · have hne : f.regAt j ≠ f.regAt i := fun heq =>
        hji (h.names j (lt_size_of_bindingAt hj) i hi heq)
      rw [Machine.set_regs_of_ne m hne, h.value j c hj]
      cases c with
      | var u =>
        have hu : v ≠ u := fun heq => hji (hnew j (heq ▸ hj))
        exact (ha.value hknown (h.known j u hj) hu T mem w).symm
      | constant | intermediate => rfl
  base := by
    rw [Machine.set_regs_of_ne m (h.regAt_ne hi (by simp)).symm]
    exact h.base
  cells s hs := by
    -- the register owes `v` to memory from now on, so nothing is said about its cell
    have hs' : s ≠ v.storage := fun heq =>
      hs i v hg.bindingAt_self (by rw [hg.writtenAt, if_pos rfl]) heq.symm
    rw [Memory.read_write_of_ne mem hs']
    refine h.cells s fun j u hj hw => ?_
    by_cases hji : j = i
    · have := hold _ (hji ▸ hj)
      cases this
      exact hs'.symm
    · exact hs j u ((hg.bindingAt_of_ne hji).trans hj)
        (by rw [hg.writtenAt, if_neg hji]; exact hw)
  heap := h.heap.trans (Memory.heap_write mem _ _).symm

/-- A variable that no register holds is right in memory. -/
theorem read_of_unbound (h : HoldsValues T known f m mem ρ) (ha : Apart W known) {v : Variable}
    (hv : known v) (hnone : ∀ i, f.bindingAt i ≠ some (.var v)) :
    m.memory.read v.storage = mem.read v.storage := by
  by_cases hdirty : ∃ i u, f.bindingAt i = some (.var u) ∧ f.writtenAt i = true ∧
      u.storage = v.storage
  · -- two variables with one storage are apart only if there is one word
    obtain ⟨i, u, hi, -, hu⟩ := hdirty
    have hne : u ≠ v := fun heq => hnone i (heq ▸ hi)
    have := ha u v (h.known i u hi) hv hne mem (m.memory.read v.storage)
    rwa [hu, Memory.read_write_self] at this
  · exact h.cells _ fun i u hi hw heq => hdirty ⟨i, u, hi, hw, heq⟩

/-- Writing through an address, in the machine and for the evaluation. -/
theorem poke [DecidableEq W] (h : HoldsValues T known f m mem ρ) (address w : W) :
    HoldsValues T known f { m with memory := m.memory.poke address w } (mem.poke address w) ρ :=
  { h with
    value := fun i b hi => by
      rw [h.value i b hi]
      cases b with
      | var v => simp [Target.bound, Target.value]
      | constant | intermediate => rfl
    cells := fun s hs => by simpa using h.cells s hs
    heap := by simp [Memory.poke, h.heap] }

/-- A written variable that is stored is right in memory. -/
theorem store (h : HoldsValues T known f m mem ρ) {i : Nat} {v : Variable}
    (hi : f.bindingAt i = some (.var v)) (harray : v.isArray = false) :
    HoldsValues T known f { m with memory := m.memory.write v.storage (m.regs (f.regAt i)) } mem ρ ∧
      (m.memory.write v.storage (m.regs (f.regAt i))).read v.storage = mem.read v.storage := by
  have hword : m.regs (f.regAt i) = mem.read v.storage := by
    rw [h.value i _ hi]
    simp [Target.bound, Target.value, harray]
  refine ⟨{ h with cells := fun s hs => ?_, heap := ?_ }, by rw [Memory.read_write_self, hword]⟩
  · by_cases heq : s = v.storage
    · rw [heq, Memory.read_write_self, hword]
    · rw [Memory.read_write_of_ne _ heq]
      exact h.cells s hs
  · exact (Memory.heap_write _ _ _).trans h.heap

/-- A call, while no register holds a file-scope variable. -/
theorem call (h : HoldsValues T known f m mem ρ)
    (hlocal : ∀ i v, f.bindingAt i = some (.var v) → v.isGlobal = false)
    (w : W) (file : String → W) (heap : W → W) :
    HoldsValues T known f { m with regs := Function.update m.regs .eax w
                                   memory := { m.memory with file, heap } }
      { mem with file, heap } ρ where
  general := h.general
  names := h.names
  unique := h.unique
  known := h.known
  written := h.written
  value i b hi := by
    have hne := h.regAt_ne (lt_size_of_bindingAt hi) (r := .eax) (by simp)
    simp only [Function.update_of_ne hne, h.value i b hi]
    cases b with
    | var v =>
      have hv := hlocal i v hi
      cases hs : v.storage with
      | frame offset =>
        simp only [Target.bound, Target.value, hs]
        cases v.isArray <;> rfl
      -- no register holds a global here, so no value changes behind a register's back
      | global label => simp [Variable.isGlobal, hs] at hv
    | constant | intermediate => rfl
  base := by simp [h.base]
  cells s hs := by
    cases s with
    | frame offset => exact h.cells (.frame offset) hs
    | global label => rfl
  heap := rfl

end HoldsValues

namespace StackFits

variable {d : Nat} {below : List W} {base : List Pushed} {f f' : RegisterFile} {stack : List W}
variable {kinds : List Pushed} {ρ : Nat → W} {σ : List (Slot W)}

/-- Only what the file says about the stack matters. -/
theorem congr (h : StackFits d below base f stack kinds ρ σ) (hdepth : f'.stackDepth = f.stackDepth)
    (hspills : f'.spills = f.spills) : StackFits d below base f' stack kinds ρ σ :=
  { h with depth := hdepth.trans h.depth, spills := hspills.trans h.spills }

/-- Only the results on the stack matter. -/
theorem results_congr {ρ' : Nat → W} (h : StackFits d below base f stack kinds ρ σ)
    (hρ : ∀ n, .result n ∈ σ → ρ' n = ρ n) : StackFits d below base f stack kinds ρ' σ := by
  obtain ⟨ws, hws, hfit⟩ := h.words
  refine { h with words := ⟨ws, hws, ?_⟩ }
  clear hws h
  induction hfit with
  | nil => exact .nil
  | @cons s w σ ws hw hfit ih =>
    refine .cons ?_ (ih fun n hn => hρ n (List.mem_cons_of_mem _ hn))
    cases s with
    | result n => exact hw.trans (hρ n List.mem_cons_self).symm
    | read | passed => exact hw

/-- Pushing a result. -/
theorem push_result (h : StackFits d below base f stack kinds ρ σ) {n : Nat} {w : W} (hw : w = ρ n)
    (hdepth : f'.stackDepth = f.stackDepth + 1)
    (hspills : f'.spills = f.spills ++ [⟨some n, f.stackDepth⟩]) :
    StackFits d below base f' (w :: stack) ((Slot.result n : Slot W).pushed :: kinds) ρ
      (.result n :: σ) := by
  obtain ⟨ws, rfl, hfit⟩ := h.words
  refine ⟨by rw [hdepth, h.depth, List.length_cons, Nat.add_assoc], ?_, ⟨w :: ws, rfl, .cons hw hfit⟩,
    congrArg (_ :: ·) h.traced, h.based⟩
  rw [hspills, h.spills, h.depth]
  simp [slots, Slot.spill?]

/-- Pushing an argument. -/
theorem push_passed (h : StackFits d below base f stack kinds ρ σ) (a : Nat × W)
    (hdepth : f'.stackDepth = f.stackDepth + 1) (hspills : f'.spills = f.spills) :
    StackFits d below base f' (a.2 :: stack) (.argument a.1 :: kinds) ρ (.passed a :: σ) := by
  obtain ⟨ws, rfl, hfit⟩ := h.words
  refine ⟨by rw [hdepth, h.depth, List.length_cons, Nat.add_assoc], ?_,
    ⟨a.2 :: ws, rfl, .cons rfl hfit⟩, congrArg (_ :: ·) h.traced, h.based⟩
  rw [hspills, h.spills]
  simp [slots, Slot.spill?]

theorem length_le (h : StackFits d below base f stack kinds ρ σ) : σ.length ≤ stack.length := by
  obtain ⟨ws, rfl, hfit⟩ := h.words
  rw [List.length_append, ← hfit.length_eq]
  exact Nat.le_add_right _ _

/-- The words of a stack in two parts. -/
theorem split {σ τ : List (Slot W)} {ws : List W} (h : List.Forall₂ (Slot.Holds ρ) (σ ++ τ) ws) :
    ∃ us vs, ws = us ++ vs ∧ List.Forall₂ (Slot.Holds ρ) σ us ∧ List.Forall₂ (Slot.Holds ρ) τ vs := by
  induction σ generalizing ws with
  | nil => exact ⟨[], ws, rfl, .nil, h⟩
  | cons s σ ih =>
    obtain ⟨w, ws, hw, hrest, rfl⟩ := List.forall₂_cons_left_iff.1 h
    obtain ⟨us, vs, rfl, hus, hvs⟩ := ih hrest
    exact ⟨w :: us, vs, rfl, .cons hw hus, hvs⟩

/-- The word in a slot. -/
theorem word {A B : List (Slot W)} {s : Slot W}
    (h : StackFits d below base f stack kinds ρ (A ++ s :: B)) :
    ∃ w, stack[A.length]? = some w ∧ s.Holds ρ w := by
  obtain ⟨ws, rfl, hfit⟩ := h.words
  obtain ⟨us, vs, rfl, hus, hvs⟩ := split hfit
  cases hvs with
  | @cons _ w _ vs hw _ =>
    refine ⟨w, ?_, hw⟩
    rw [hus.length_eq, List.append_assoc, List.getElem?_append_right (Nat.le_refl _)]
    simp

/-- Dropping words from the top. -/
theorem drop {A : List (Slot W)} (h : StackFits d below base f stack kinds ρ (A ++ σ))
    (hdepth : f'.stackDepth = d + σ.length) (hspills : f'.spills = (slots d σ).reverse) :
    StackFits d below base f' (stack.drop A.length) (kinds.drop A.length) ρ σ := by
  obtain ⟨ws, rfl, hfit⟩ := h.words
  obtain ⟨us, vs, rfl, hus, hvs⟩ := split hfit
  refine ⟨hdepth, hspills, ⟨vs, ?_, hvs⟩, ?_, h.based⟩
  · rw [hus.length_eq, List.append_assoc, List.drop_left]
  · rw [h.traced, List.map_append, List.append_assoc, ← List.length_map (f := Slot.pushed),
      List.drop_left]

/-- What the word in a slot is. -/
theorem kind {A B : List (Slot W)} {s : Slot W}
    (h : StackFits d below base f stack kinds ρ (A ++ s :: B)) :
    kinds[A.length]? = some s.pushed := by
  rw [h.traced]
  simp

/-- As many words are pushed as the file says. -/
theorem length_kinds (h : StackFits d below base f stack kinds ρ σ) :
    f.stackDepth = kinds.length := by
  rw [h.depth, h.traced, List.length_append, List.length_map, h.based, Nat.add_comm]

/-- The arguments on top of the stack. -/
theorem take_passed {as : List (Nat × W)}
    (h : StackFits d below base f stack kinds ρ (as.map .passed ++ σ)) :
    as.length ≤ stack.length ∧ stack.take as.length = as.map Prod.snd ∧
      kinds.take as.length = as.map (.argument ·.1) := by
  obtain ⟨us, rfl, hfit⟩ := h.words
  obtain ⟨us, vs, rfl, hus, -⟩ := split hfit
  have heq : us = as.map Prod.snd := by
    clear hfit h
    induction as generalizing us with
    | nil => cases hus; rfl
    | cons a as ih =>
      cases hus with
      | cons hw hus => rw [hw, ih _ hus]; rfl
  subst heq
  refine ⟨by simp, by simp, ?_⟩
  rw [h.traced, List.map_append, List.map_map, List.append_assoc]
  exact List.take_left' (by simp)

/-- Giving up a word below the top. -/
theorem mark {A B : List (Slot W)} {s : Slot W}
    (h : StackFits d below base f stack kinds ρ (A ++ s :: B)) (hdepth : f'.stackDepth = f.stackDepth)
    (hspills : f'.spills = (slots d (A ++ .read :: B)).reverse) :
    StackFits d below base f' stack (kinds.set A.length .spent) ρ (A ++ .read :: B) := by
  obtain ⟨ws, hws, hfit⟩ := h.words
  obtain ⟨us, vs, rfl, hus, hvs⟩ := split hfit
  obtain ⟨w, vs, -, hrest, rfl⟩ := List.forall₂_cons_left_iff.1 hvs
  refine ⟨by rw [hdepth, h.depth]; simp, hspills, ⟨us ++ w :: vs, hws, ?_⟩, ?_, h.based⟩
  · exact List.rel_append hus (.cons trivial hrest)
  · rw [h.traced]
    simp [Slot.pushed]

end StackFits

namespace ResultsPlaced

variable {f f' : RegisterFile} {R R' : List Nat} {k : Nat}

/-- Only the results in registers matter. -/
theorem congr (h : ResultsPlaced f R k)
    (hsame : ∀ i n, f'.bindingAt i = some (.intermediate n) ↔
      f.bindingAt i = some (.intermediate n)) : ResultsPlaced f' R k where
  inRegister i n hi := h.inRegister i n ((hsame i n).1 hi)
  onStack := h.onStack
  once := h.once
  apart i n hi := h.apart i n ((hsame i n).1 hi)
  placed n hn := (h.placed n hn).imp_left fun ⟨i, hi⟩ => ⟨i, (hsame i n).2 hi⟩

/-- A result goes from its register to the stack. -/
theorem spill (h : ResultsPlaced f R k) (hunique : ∀ i j b, f.bindingAt i = some b →
    f.bindingAt j = some b → i = j) {i n : Nat} (hi : f.bindingAt i = some (.intermediate n))
    (hc : Cleared (· = i) f f') : ResultsPlaced f' (n :: R) k where
  inRegister j l hj := h.inRegister j l (hc.bound hj).2
  onStack l hl := by
    rcases List.mem_cons.1 hl with rfl | hl
    · exact h.inRegister i l hi
    · exact h.onStack l hl
  once := List.nodup_cons.2 ⟨h.apart i n hi, h.once⟩
  apart j l hj := by
    obtain ⟨hji, hj⟩ := hc.bound hj
    rw [List.mem_cons]
    rintro (rfl | hl)
    · exact of_decide_eq_false hji (hunique j i _ hj hi)
    · exact h.apart j l hj hl
  placed l hl := by
    -- the result goes from its register to the stack, and all others stay
    by_cases hln : l = n
    · exact .inr (by simp [hln])
    · refine (h.placed l hl).imp (fun ⟨j, hj⟩ => ⟨j, ?_⟩) (List.mem_cons_of_mem _)
      have hne : j ≠ i := fun heq => by
        rw [heq, hi] at hj
        cases hj
        exact hln rfl
      exact (hc.bindingAt_of_not (decide_eq_false hne)).trans hj

/-- A result comes back from the stack to an empty register. -/
theorem fill {A B : List Nat} {i n : Nat} (h : ResultsPlaced f (A ++ n :: B) k)
    (hnone : f.bindingAt i = none) (hg : Given i (.intermediate n) false f f') :
    ResultsPlaced f' (A ++ B) k := by
  have hn : n ∈ A ++ n :: B := by simp
  have hsub : ∀ l ∈ A ++ B, l ∈ A ++ n :: B := by simp +contextual [or_imp]
  have honce := h.once
  -- a result that is on the stack once is off it when it is read
  rw [List.nodup_middle, List.nodup_cons] at honce
  refine ⟨fun j l hj => ?_, fun l hl => h.onStack l (hsub l hl), honce.2, fun j l hj => ?_,
    fun l hl => ?_⟩
  · rcases hg.bound hj with ⟨-, hb⟩ | ⟨-, hj⟩
    · cases hb
      exact h.onStack n hn
    · exact h.inRegister j l hj
  · rcases hg.bound hj with ⟨-, hb⟩ | ⟨-, hj⟩
    · cases hb
      exact honce.1
    · exact fun hl => h.apart j l hj (hsub l hl)
  · by_cases hln : l = n
    · exact .inl ⟨i, hln ▸ hg.bindingAt_self⟩
    · refine (h.placed l hl).imp (fun ⟨j, hj⟩ => ⟨j, ?_⟩) (fun hl => by simpa [hln] using hl)
      have hne : j ≠ i := fun heq => by rw [heq, hnone] at hj; cases hj
      exact (hg.bindingAt_of_ne hne).trans hj

/-- A register gets a new result. -/
theorem produce {i : Nat} (h : ResultsPlaced f R k) (hnone : f.bindingAt i = none)
    (hg : Given i (.intermediate k) false f f') : ResultsPlaced f' R (k + 1) where
  inRegister j l hj := by
    rcases hg.bound hj with ⟨-, hb⟩ | ⟨-, hj⟩
    · cases hb
      exact Nat.lt_succ_self k
    · exact Nat.lt_succ_of_lt (h.inRegister j l hj)
  onStack l hl := Nat.lt_succ_of_lt (h.onStack l hl)
  once := h.once
  apart j l hj := by
    rcases hg.bound hj with ⟨-, hb⟩ | ⟨-, hj⟩
    · cases hb
      exact fun hk => Nat.lt_irrefl _ (h.onStack k hk)
    · exact h.apart j l hj
  placed l hl := by
    rcases Nat.lt_succ_iff_lt_or_eq.1 hl with hl | rfl
    · refine (h.placed l hl).imp_left fun ⟨j, hj⟩ => ⟨j, ?_⟩
      have hne : j ≠ i := fun heq => by rw [heq, hnone] at hj; cases hj
      exact (hg.bindingAt_of_ne hne).trans hj
    · exact .inl ⟨i, hg.bindingAt_self⟩

/-- The results from `n` on are consumed: the registers that held them are
emptied. -/
theorem consume {n : Nat} {q : Nat → Bool} (h : ResultsPlaced f R k) (hle : n ≤ k)
    (hc : Cleared q f f')
    (hq : ∀ i l, f.bindingAt i = some (.intermediate l) → (q i = true ↔ n ≤ l))
    (hheld : ∀ l, n ≤ l → l < k → ∃ i, f.bindingAt i = some (.intermediate l)) :
    ResultsPlaced f' R n where
  inRegister i l hi := by
    obtain ⟨hqi, hi⟩ := hc.bound hi
    exact Nat.not_le.1 fun hnl => Bool.eq_false_iff.1 hqi ((hq i l hi).2 hnl)
  onStack l hl := by
    refine Nat.not_le.1 fun hnl => ?_
    obtain ⟨i, hi⟩ := hheld l hnl (h.onStack l hl)
    exact h.apart i l hi hl
  once := h.once
  apart i l hi := h.apart i l (hc.bound hi).2
  placed l hl := by
    refine (h.placed l (hl.trans_le hle)).imp_left fun ⟨i, hi⟩ => ⟨i, ?_⟩
    have hqi : ¬ q i = true := fun hqi => Nat.not_le.2 hl ((hq i l hi).1 hqi)
    exact (hc.bindingAt_of_not (Bool.eq_false_iff.2 hqi)).trans hi

end ResultsPlaced

end WordC
