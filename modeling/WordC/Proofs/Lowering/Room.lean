import Mathlib
import WordC.Proofs.Stateful
import WordC.Proofs.Lowering.Linked
/-!
# Making room in the registers

What the operations on the register file do to a machine that runs the lines
they emit. Each keeps `Linked`; which register is taken, and what is stored or
pushed for it, does not matter to anything else.
-/

namespace WordC

open RegisterFile

variable {W : Type} [DecidableEq W] {α β : Type}

/-- With register file `f`, operation `x` succeeds with answer `r` and leaves
`f'`, and what it adds to the journal takes the machine from `m` to `m'`. -/
def Runs (T : Target W) (x : Assemble α) (f : RegisterFile) (m : Traced W) (r : α)
    (f' : RegisterFile) (m' : Traced W) : Prop :=
  ∀ a : Assembler, a.file = f → ∃ a' xs, x a = .ok r a' ∧ a'.file = f' ∧
    a'.journal.toList = a.journal.toList ++ xs ∧ Traced.Reaches T xs m m'

namespace Runs

variable {T : Target W} {x : Assemble α} {y : α → Assemble β} {f f₁ f₂ : RegisterFile}
variable {m m₁ m₂ : Traced W} {r : α} {q : β}

/-- One operation after the other. -/
theorem bind (h : Runs T x f m r f₁ m₁) (h' : Runs T (y r) f₁ m₁ q f₂ m₂) :
    Runs T (x >>= y) f m q f₂ m₂ := by
  intro a ha
  obtain ⟨a₁, xs, hx, ha₁, hjournal, hreach⟩ := h a ha
  obtain ⟨a₂, ys, hy, ha₂, hjournal', hreach'⟩ := h' a₁ ha₁
  exact ⟨a₂, xs ++ ys, (bind_ok hx).trans hy, ha₂,
    by rw [hjournal', hjournal, List.append_assoc], hreach.append hreach'⟩

/-- An operation that leaves the journal as it is. -/
theorem silent (h : ∀ a : Assembler, a.file = f →
    ∃ a', x a = .ok r a' ∧ a'.file = f₁ ∧ a'.journal = a.journal) : Runs T x f m r f₁ m := by
  intro a ha
  obtain ⟨a', hx, ha', hjournal⟩ := h a ha
  exact ⟨a', [], hx, ha', by simp [hjournal], .nil m⟩

theorem pure (r : α) : Runs T (pure r : Assemble α) f m r f m :=
  silent fun a ha => ⟨a, rfl, ha, rfl⟩

theorem file : Runs T Assemble.file f m f f m :=
  silent fun a ha => ⟨a, by rw [← ha]; rfl, ha, rfl⟩

theorem onFile (g : RegisterFile → RegisterFile) : Runs T (Assemble.onFile g) f m () (g f) m :=
  silent fun a ha => ⟨{ a with file := g a.file }, rfl, by rw [ha], rfl⟩

theorem note (level : LogLevel) (text : String) : Runs T (Assemble.note level text) f m () f m :=
  silent fun a ha => ⟨{ a with notes := a.notes.push ⟨level, text⟩ }, rfl, ha, rfl⟩

/-- An event that goes into the journal. -/
theorem record {event : Event} (h : Traced.Reaches T [⟨event, f⟩] m m₁) :
    Runs T (Assemble.record event) f m () f m₁ := by
  rintro a rfl
  exact ⟨{ a with journal := a.journal.push ⟨event, a.file⟩ }, [⟨event, a.file⟩], rfl, rfl,
    by simp, h⟩

/-- A register is asked for. -/
theorem ask (b : Binding) : Runs T (Assemble.record (.asks b)) f m () f m :=
  record (.ask b)

/-- A line that keeps the stack. -/
theorem keep {l : Line} {x : Machine W} (hl : l.keepsStack = true)
    (h : m.toMachine.step T l = some x) :
    Runs T (Assemble.emit l) f m () f { m with toMachine := x } :=
  record (.keep hl h)

/-- A line that uses the stack. -/
theorem emit {l : Line} (hl : l.keepsStack = false) (h : m.toMachine.step T l = some m₁.toMachine)
    (htrace : m.trace.line l = some m₁.trace) : Runs T (Assemble.emit l) f m () f m₁ :=
  record (.line h (by simp [StackTrace.step, hl, htrace]))

end Runs

/-- Registers that are kept: the names, the pending calls, and what the pinned
registers hold. -/
structure Kept (f f' : RegisterFile) : Prop where
  size : f'.size = f.size
  regAt : ∀ i, f'.regAt i = f.regAt i
  callStarts : f'.callStarts = f.callStarts
  pinned : ∀ i ∈ f.pinned, i ∈ f'.pinned ∧ f'.bindingAt i = f.bindingAt i

namespace Kept

theorem refl (f : RegisterFile) : Kept f f :=
  ⟨rfl, fun _ => rfl, rfl, fun _ hi => ⟨hi, rfl⟩⟩

theorem trans {f g h : RegisterFile} (hfg : Kept f g) (hgh : Kept g h) : Kept f h where
  size := hgh.size.trans hfg.size
  regAt i := (hgh.regAt i).trans (hfg.regAt i)
  callStarts := hgh.callStarts.trans hfg.callStarts
  pinned i hi := by
    obtain ⟨hg, hb⟩ := hfg.pinned i hi
    obtain ⟨hh, hb'⟩ := hgh.pinned i hg
    exact ⟨hh, hb'.trans hb⟩

end Kept

/-- Room was made: up to `c` results were pushed, and nothing else that matters
has changed. -/
structure MadeRoom (c : Nat) (f : RegisterFile) (m : Traced W) (σ : List (Slot W))
    (f' : RegisterFile) (m' : Traced W) (σ' : List (Slot W)) : Prop where
  regs : m'.regs = m.regs
  coming : m'.coming = m.coming
  kept : Kept f f'
  pinned : f'.pinned = f.pinned
  bound : ∀ i b, f'.bindingAt i = some b → f.bindingAt i = some b
  pushed : ∃ ns : List Nat, σ' = ns.map .result ++ σ ∧ ns.length ≤ c

omit [DecidableEq W] in
theorem MadeRoom.trans {c c' : Nat} {f f₁ f₂ : RegisterFile} {m m₁ m₂ : Traced W}
    {σ σ₁ σ₂ : List (Slot W)} (h : MadeRoom c f m σ f₁ m₁ σ₁) (h' : MadeRoom c' f₁ m₁ σ₁ f₂ m₂ σ₂) :
    MadeRoom (c + c') f m σ f₂ m₂ σ₂ where
  regs := h'.regs.trans h.regs
  coming := h'.coming.trans h.coming
  kept := h.kept.trans h'.kept
  pinned := h'.pinned.trans h.pinned
  bound i b hi := h.bound i b (h'.bound i b hi)
  pushed := by
    obtain ⟨ns, rfl, hns⟩ := h.pushed
    obtain ⟨ns', rfl, hns'⟩ := h'.pushed
    exact ⟨ns' ++ ns, by simp, by rw [List.length_append]; omega⟩

/-! ## Evicting -/

namespace Assemble

variable {T : Target W} {known : Variable → Prop} {d : Nat} {below : List W} {base : List Pushed} {f : RegisterFile}
variable {m : Traced W} {mem : Memory W} {ρ : Nat → W} {k : Nat} {σ : List (Slot W)}

/-- A result is pushed. -/
theorem runs_evict_result {i n : Nat} (h : f.bindingAt i = some (.intermediate n)) :
    Runs T (evict i) f m ()
      (({ f with
        spills := f.spills ++ [⟨some n, f.stackDepth⟩]
        stackDepth := f.stackDepth + 1 } : RegisterFile).clear i)
      { m with
        stack := m.regs (f.regAt i) :: m.stack
        trace := { m.trace with words := .spill (toString n).toList :: m.trace.words } } := by
  obtain ⟨⟨reg, state, binding, lastUse, written⟩, hr, hb⟩ := Option.bind_eq_some_iff.1 h
  simp only at hb
  subst hb
  refine Runs.bind Runs.file ?_
  simp only [hr]
  refine (Runs.note _ _).bind ((Runs.emit ?_ ?_ ?_).bind ((Runs.onFile _).bind (Runs.onFile _)))
  · rfl
  · rfl
  · exact StackTrace.line_spill _ _ _

/-- The line that stores a variable. -/
theorem step_store (m : Machine W) (v : Variable) (r : Reg) (comment : Option String) :
    m.step T (.instruction .store [v.location, .reg r] comment) =
      some { m with memory := m.memory.write v.storage (m.regs r) } := by
  unfold Variable.location
  cases v.storage <;> rfl

theorem keepsStack_store (v : Variable) (r : Reg) (comment : Option String) :
    (Line.instruction .store [v.location, .reg r] comment).keepsStack = true := by
  unfold Variable.location
  cases v.storage <;> rfl

/-- A written variable is stored. -/
theorem runs_evict_written {i : Nat} {v : Variable} (h : f.bindingAt i = some (.var v))
    (hw : f.writtenAt i = true) :
    Runs T (evict i) f m () (f.clear i)
      { m with memory := m.memory.write v.storage (m.regs (f.regAt i)) } := by
  obtain ⟨⟨reg, state, binding, lastUse, written⟩, hr, hb⟩ := Option.bind_eq_some_iff.1 h
  simp only at hb
  subst hb
  have hwritten : written = true := by simpa [writtenAt, held, hr, Register.held] using hw
  subst hwritten
  refine Runs.bind Runs.file ?_
  simp only [hr]
  exact (Runs.note _ _).bind
    ((Runs.keep (keepsStack_store v _ none) (step_store m.toMachine v _ none)).bind (Runs.onFile _))

/-- Anything else is dropped. -/
theorem runs_evict_copy {i : Nat} (hn : ∀ n, f.bindingAt i ≠ some (.intermediate n))
    (hw : f.writtenAt i = false) : Runs T (evict i) f m () (f.clear i) m := by
  refine Runs.bind Runs.file ?_
  cases hr : f.registers[i]? with
  | none => exact Runs.onFile _
  | some r =>
    obtain ⟨reg, state, binding, lastUse, written⟩ := r
    have hwritten : written = false := by simpa [writtenAt, held, hr, Register.held] using hw
    subst hwritten
    cases binding with
    | none => exact Runs.onFile _
    | some b =>
      cases b with
      | intermediate n => exact absurd (by simp [bindingAt, hr]) (hn n)
      | var | constant => exact Runs.onFile _

/-- Emptying a register that is not pinned makes room. -/
theorem kept_of_cleared {f f' : RegisterFile} {i : Nat} (hc : Cleared (· = i) f f')
    (hpinned : f'.pinned = f.pinned) (hi : i ∉ f.pinned) :
    Kept f f' ∧ (∀ j b, f'.bindingAt j = some b → f.bindingAt j = some b) ∧
      f'.bindingAt i = none := by
  refine ⟨⟨hc.size, hc.regAt, hc.callStarts, fun j hj => ⟨hpinned ▸ hj, ?_⟩⟩,
    fun j b hj => (hc.bound hj).2, ?_⟩
  · have hne : j ≠ i := fun heq => hi (heq ▸ hj)
    exact hc.bindingAt_of_not (decide_eq_false hne)
  · simp [hc.bindingAt]

/-- Evicting a result pushes it. -/
theorem evict_result (h : Linked T known d below base f m mem ρ k σ) {i n : Nat} (hi : i ∉ f.pinned)
    (hb : f.bindingAt i = some (.intermediate n)) :
    ∃ f' m', Runs T (evict i) f m () f' m' ∧
      Linked T known d below base f' m' mem ρ k (.result n :: σ) ∧
      MadeRoom 1 f m σ f' m' (.result n :: σ) ∧ f'.bindingAt i = none := by
  -- the file with the slot of the result, before its register is cleared
  let f₀ : RegisterFile := { f with
    spills := f.spills ++ [⟨some n, f.stackDepth⟩]
    stackDepth := f.stackDepth + 1 }
  have hc := cleared_clear f₀ i
  obtain ⟨hkept, hbound, hnone⟩ := kept_of_cleared hc (pinned_clear f₀ i) hi
  refine ⟨_, _, runs_evict_result hb, ⟨?_, ?_, by simp, ?_⟩, ⟨rfl, rfl, ⟨hkept.size, hkept.regAt,
    hkept.callStarts, hkept.pinned⟩, pinned_clear f₀ i, hbound, [n], rfl, Nat.le_refl 1⟩, hnone⟩
  · have hholds : HoldsValues T known f₀ m.toMachine mem ρ := h.holds.congr rfl
    refine (hholds.clear hc fun j v hj hv => ?_).machine_congr rfl rfl
    have hj : j = i := by simpa using hj
    subst hj
    rw [show f₀.bindingAt j = some (.intermediate n) from hb] at hv
    cases hv
  · exact h.stack.push_result (h.holds.value i _ hb) hc.stackDepth hc.spills
  · have hresults : ResultsPlaced f₀ (spilled σ) k := h.results.congr fun _ _ => Iff.rfl
    exact hresults.spill h.holds.unique hb hc

/-- Evicting anything else pushes nothing. -/
theorem evict_copy (h : Linked T known d below base f m mem ρ k σ) {i : Nat} (hi : i ∉ f.pinned)
    (hb : ∀ n, f.bindingAt i ≠ some (.intermediate n)) :
    ∃ f' m', Runs T (evict i) f m () f' m' ∧ Linked T known d below base f' m' mem ρ k σ ∧
      MadeRoom 1 f m σ f' m' σ ∧ f'.bindingAt i = none := by
  have hc := cleared_clear f i
  obtain ⟨hkept, hbound, hnone⟩ := kept_of_cleared hc (pinned_clear f i) hi
  have hresults : ResultsPlaced (f.clear i) (spilled σ) k := by
    refine h.results.congr fun j n => ?_
    rw [hc.bindingAt]
    by_cases hj : j = i
    · subst hj
      simp [hb n]
    · simp [hj]
  have hstack := h.stack.congr hc.stackDepth hc.spills
  have hroom : ∀ m' : Traced W, m'.regs = m.regs → m'.coming = m.coming →
      MadeRoom 1 f m σ (f.clear i) m' σ := fun m' hregs hcoming =>
    ⟨hregs, hcoming, hkept, pinned_clear f i, hbound, [], rfl, Nat.zero_le 1⟩
  cases hw : f.writtenAt i with
  -- what the register holds is in memory as well
  | false =>
    refine ⟨_, _, runs_evict_copy hb hw, ⟨h.holds.clear hc fun j v hj _ hwj => ?_, hstack, h.top,
      hresults⟩,
      hroom m rfl rfl, hnone⟩
    have hj : j = i := by simpa using hj
    rw [hj, hw] at hwj
    cases hwj
  -- the variable is stored first, after which its register is a copy
  | true =>
    obtain ⟨v, hv, harray⟩ := h.holds.written i hw
    obtain ⟨hstore, hclean⟩ := h.holds.store hv harray
    refine ⟨_, _, runs_evict_written hv hw, ⟨hstore.clear hc fun j u hj hu _ => ?_, hstack,
      h.top, hresults⟩, hroom _ rfl rfl, hnone⟩
    have hj : j = i := by simpa using hj
    rw [hj, hv] at hu
    cases hu
    exact hclean

/-- **Taking a register** leaves one that holds nothing. -/
theorem takeRegister_linked (h : Linked T known d below base f m mem ρ k σ)
    (hfree : f.pinned.length < f.size) :
    ∃ i f' m' σ', Runs T takeRegister f m i f' m' ∧ Linked T known d below base f' m' mem ρ k σ' ∧
      MadeRoom 1 f m σ f' m' σ' ∧ i < f'.size ∧ i ∉ f'.pinned ∧ f'.bindingAt i = none := by
  obtain ⟨i, hvictim, hi, hpin⟩ := exists_victim hfree
  have htake : ∀ {f' m'}, Runs T (evict i) f m () f' m' → Runs T takeRegister f m i f' m' := by
    intro f' m' hrun
    refine Runs.bind Runs.file ?_
    rw [hvictim]
    exact hrun.bind (Runs.pure i)
  have hdone : ∀ {f' m' σ'}, MadeRoom 1 f m σ f' m' σ' → i < f'.size ∧ i ∉ f'.pinned :=
    fun hroom => ⟨hroom.kept.size ▸ hi, hroom.pinned ▸ hpin⟩
  by_cases hb : ∃ n, f.bindingAt i = some (.intermediate n)
  · obtain ⟨n, hb⟩ := hb
    obtain ⟨f', m', hrun, hlinked, hroom, hnone⟩ := evict_result h hpin hb
    exact ⟨i, f', m', _, htake hrun, hlinked, hroom, (hdone hroom).1, (hdone hroom).2, hnone⟩
  · obtain ⟨f', m', hrun, hlinked, hroom, hnone⟩ := evict_copy h hpin (not_exists.1 hb)
    exact ⟨i, f', m', σ, htake hrun, hlinked, hroom, (hdone hroom).1, (hdone hroom).2, hnone⟩

/-! ## Results on the stack -/

/-- **Dropping the words that were read** leaves a stack whose top is of use. -/
theorem runs_dropReadSlots (h : StackFits d below base f m.stack m.trace.words ρ σ) (hlen : σ.length < 2 ^ 63) :
    ∃ f' m', Runs T dropReadSlots f m () f' m' ∧ f'.held = f.held ∧ f'.pinned = f.pinned ∧
      f'.callStarts = f.callStarts ∧ m'.regs = m.regs ∧ m'.memory = m.memory ∧
      m'.coming = m.coming ∧ StackFits d below base f' m'.stack m'.trace.words ρ (σ.dropWhile Slot.isRead) := by
  have hdrop : dropRead f.spills.reverse f.stackDepth =
      (slots d (σ.dropWhile Slot.isRead), d + (σ.dropWhile Slot.isRead).length,
        (σ.takeWhile Slot.isRead).length) := by
    rw [h.spills, h.depth, List.reverse_reverse, dropRead_slots]
  have hsplit := List.takeWhile_append_dropWhile (p := Slot.isRead) (l := σ)
  rw [← hsplit] at h
  let f' : RegisterFile := { f with
    spills := (slots d (σ.dropWhile Slot.isRead)).reverse
    stackDepth := d + (σ.dropWhile Slot.isRead).length }
  have hfits := h.drop (show f'.stackDepth = _ from rfl) rfl
  refine ⟨f', { m with
      stack := m.stack.drop (σ.takeWhile Slot.isRead).length
      trace := { m.trace with words := m.trace.words.drop (σ.takeWhile Slot.isRead).length } },
    ?_, rfl, rfl, rfl, rfl, rfl, rfl, hfits⟩
  refine Runs.bind Runs.file ?_
  simp only [hdrop]
  refine (Runs.onFile _).bind ?_
  split
  -- the words that were read lie on top, so one addition drops them all
  · have hle : (σ.takeWhile Slot.isRead).length ≤ σ.length := (List.takeWhile_prefix _).length_le
    refine Runs.emit rfl ?_ (StackTrace.line_drop (hle.trans_lt hlen) ?_)
    · change m.drop? (Int64.ofNat _).toNatClampNeg = _
      rw [Int64.toNatClampNeg_ofNat_of_lt (hle.trans_lt hlen), Machine.drop?, if_pos]
      rw [hsplit] at h
      exact hle.trans h.length_le
    · rw [h.traced, List.map_append, List.append_assoc, ← map_pushed_takeWhile,
        List.take_left' (by simp)]
  · next hnone =>
    rw [Nat.eq_zero_of_not_pos hnone, List.drop_zero, List.drop_zero]
    exact Runs.pure ()

/-- A value was brought into register `i`, which is pinned then, with up to `c`
words pushed. -/
structure Loaded (c : Nat) (b : Binding) (i : Nat) (f : RegisterFile) (m : Traced W)
    (σ : List (Slot W)) (f' : RegisterFile) (m' : Traced W) (σ' : List (Slot W)) : Prop where
  coming : m'.coming = m.coming
  kept : Kept f f'
  bindingAt : f'.bindingAt i = some b
  mem_pinned : ∀ j, j ∈ f'.pinned ↔ j ∈ f.pinned ∨ j = i
  length_pinned : f'.pinned.length ≤ f.pinned.length + 1
  /-- What lies below stays, unless the value itself is there. -/
  under : ∀ L, L <:+ σ → (∀ τ, L ≠ .read :: τ) → (∀ n, b = .intermediate n → .result n ∉ L) →
    L <:+ σ'
  passed : passedArgs σ' = passedArgs σ
  length_le : σ'.length ≤ σ.length + c

omit [DecidableEq W] in
/-- Loading after room was made. -/
theorem Loaded.of_room {c c' : Nat} {b : Binding} {i : Nat} {f f₁ f₂ : RegisterFile}
    {m m₁ m₂ : Traced W} {σ σ₁ σ₂ : List (Slot W)} (hroom : MadeRoom c f m σ f₁ m₁ σ₁)
    (h : Loaded c' b i f₁ m₁ σ₁ f₂ m₂ σ₂) : Loaded (c + c') b i f m σ f₂ m₂ σ₂ where
  coming := h.coming.trans hroom.coming
  kept := hroom.kept.trans h.kept
  bindingAt := h.bindingAt
  mem_pinned j := by rw [h.mem_pinned, hroom.pinned]
  length_pinned := by rw [← hroom.pinned]; exact h.length_pinned
  under L hL := by
    obtain ⟨ns, rfl, -⟩ := hroom.pushed
    exact h.under L (hL.trans (List.suffix_append _ _))
  passed := by
    obtain ⟨ns, rfl, -⟩ := hroom.pushed
    rw [h.passed, passedArgs_append, passedArgs_map_result, List.nil_append]
  length_le := by
    obtain ⟨ns, rfl, hns⟩ := hroom.pushed
    have := h.length_le
    rw [List.length_append, List.length_map] at this
    omega

/-- **A word of the stack was read** into register `r`, and the slots are `σ` then. No register
of the file is given away. -/
structure SlotRead (d : Nat) (below : List W) (base : List Pushed) (ρ : Nat → W) (r : Reg) (w : W)
    (f : RegisterFile) (m : Traced W) (σ : List (Slot W)) (f' : RegisterFile) (m' : Traced W) :
    Prop where
  held : f'.held = f.held
  pinned : f'.pinned = f.pinned
  callStarts : f'.callStarts = f.callStarts
  regs : m'.regs = Function.update m.regs r w
  memory : m'.memory = m.memory
  coming : m'.coming = m.coming
  stack : StackFits d below base f' m'.stack m'.trace.words ρ σ

/-- A result whose word is on top is popped. -/
theorem runs_popSlot {B : List (Slot W)} {n : Nat} (g : UInt8)
    (h : StackFits d below base f m.stack m.trace.words ρ (.result n :: B)) :
    ∃ f' m', Runs T (readSlot (.general g) n ⟨some n, d + B.length⟩ (slots d B).length) f m () f' m' ∧
      SlotRead d below base ρ (.general g) (ρ n) f m B f' m' := by
  obtain ⟨w, hw, hword⟩ := StackFits.word (A := []) h
  obtain rfl : w = ρ n := hword
  -- the slot is the topmost one, so its word is the one that `pop` takes
  obtain ⟨stack, hstack⟩ : ∃ stack, m.stack = ρ n :: stack := by
    cases hs : m.stack with
    | nil => rw [hs] at hw; cases hw
    | cons w' stack =>
      rw [hs] at hw
      cases hw
      exact ⟨stack, rfl⟩
  have hdepth : f.stackDepth = d + (B.length + 1) := by simpa using h.depth
  let f' : RegisterFile :=
    { f with spills := f.spills.eraseIdx (slots d B).length, stackDepth := f.stackDepth - 1 }
  have hspills : f'.spills = (slots d B).reverse := by
    change f.spills.eraseIdx _ = _
    rw [h.spills.trans (slots_split d n [] B), List.eraseIdx_append_of_length_le (by simp)]
    simp [slots]
  have hfits := StackFits.drop (A := [.result n]) (σ := B) h
    (show f'.stackDepth = d + B.length by simp [f', hdepth]) hspills
  have hkinds : m.trace.words = .spill (toString n).toList :: m.trace.words.drop 1 := by
    rw [h.traced]
    rfl
  let m' : Traced W := { m with
    stack
    trace := { m.trace with words := m.trace.words.drop 1 } }
  refine ⟨f', m'.set (.general g) (ρ n), ?_, rfl, rfl, rfl, rfl, rfl, rfl, ?_⟩
  · have hpop : Runs T (noted .pop [.reg (.general g)] s!"fill %{n}") f m () f
        (m'.set (.general g) (ρ n)) := by
      refine Runs.emit rfl ?_ (StackTrace.line_pop (.general g) hkinds)
      simp only [Line.noted, Machine.step, hstack]
      rfl
    refine Runs.bind Runs.file ?_
    rw [if_pos (by rw [hdepth]; simp only; omega)]
    exact hpop.bind (Runs.onFile _)
  · rw [hstack] at hfits
    exact hfits

/-- A result whose word is not on top is loaded, and its word is given up. -/
theorem runs_loadSlot {A B : List (Slot W)} {n : Nat} (g : UInt8)
    (h : StackFits d below base f m.stack m.trace.words ρ (A ++ .result n :: B))
    (hpos : 0 < A.length) (hlen : A.length < 2 ^ 63) :
    ∃ f' m', Runs T (readSlot (.general g) n ⟨some n, d + B.length⟩ (slots d B).length) f m () f' m' ∧
      SlotRead d below base ρ (.general g) (ρ n) f m (A ++ .read :: B) f' m' := by
  obtain ⟨w, hw, hword⟩ := h.word
  obtain rfl : w = ρ n := hword
  have hdepth : f.stackDepth = d + (A.length + (B.length + 1)) := by simpa using h.depth
  let f' : RegisterFile :=
    { f with spills := f.spills.set (slots d B).length ⟨none, d + B.length⟩ }
  have hspills : f'.spills = (slots d (A ++ .read :: B)).reverse := by
    change f.spills.set _ _ = _
    rw [h.spills.trans (slots_split d n A B), slots_split_read, List.set_append_right _ _ (by simp)]
    simp
  let m' : Traced W := { m with
    trace := { m.trace with words := m.trace.words.set A.length .spent } }
  refine ⟨f', m'.set (.general g) (ρ n), ?_, rfl, rfl, rfl, rfl, rfl, rfl, h.mark rfl hspills⟩
  have hload : Runs T (noted .load [.reg (.general g), .mem .esp (Int64.ofNat A.length)]
      s!"fill %{n}") f m () f (m'.set (.general g) (ρ n)) := by
    refine Runs.emit rfl ?_ (StackTrace.line_read (.general g) hlen h.kind)
    change (m.stack[(Int64.ofNat A.length).toNatClampNeg]?).map _ = _
    rw [Int64.toNatClampNeg_ofNat_of_lt hlen, hw]
    rfl
  -- the offset counts the words above the slot
  have hoffset : f.stackDepth - 1 - (d + B.length) = A.length := by omega
  refine Runs.bind Runs.file ?_
  rw [if_neg (by rw [hdepth]; simp only; omega), if_neg (by rw [hdepth]; simp only; omega)]
  simp only [hoffset]
  exact hload.bind (Runs.onFile _)

/-- Reading a result from its word on the stack. What was above it stays above
it, and the word is popped or given up. -/
theorem runs_readSlot {A B : List (Slot W)} {n : Nat} {r : Reg} (hr : ∃ g, r = .general g)
    (h : StackFits d below base f m.stack m.trace.words ρ (A ++ .result n :: B))
    (hlen : A.length < 2 ^ 63) :
    ∃ f' m', Runs T (readSlot r n ⟨some n, d + B.length⟩ (slots d B).length) f m () f' m' ∧
      SlotRead d below base ρ r (ρ n) f m (if A = [] then B else A ++ .read :: B) f' m' := by
  obtain ⟨g, rfl⟩ := hr
  by_cases hA : A = []
  · subst hA
    exact runs_popSlot g h
  · rw [if_neg hA]
    exact runs_loadSlot g h (List.length_pos_iff.2 hA) hlen

omit [DecidableEq W] in
/-- Binding and pinning a register that was taken, once it holds the value. -/
theorem linked_bind {b : Binding} {i : Nat} (hholds : HoldsValues T known f m.toMachine mem ρ)
    (hstack : StackFits d below base f m.stack m.trace.words ρ σ) (htop : ∀ τ, σ ≠ .read :: τ) (hi : i < f.size)
    (hnone : f.bindingAt i = none) (hnew : ∀ j, f.bindingAt j ≠ some b)
    (hknown : ∀ v, b = .var v → known v) (hvalue : m.regs (f.regAt i) = T.bound mem ρ b)
    (hresults : ∀ f', Given i b false f f' → ResultsPlaced f' (spilled σ) k) :
    Linked T known d below base ((f.bind i b .used).pin i) m mem ρ k σ := by
  have hg := given_bind hi b .used
  have hsame := sameOutside_pin (f.bind i b .used) i
  refine ⟨(hholds.give hg hnone hnew hknown hvalue).congr hsame.held,
    (hstack.congr hg.stackDepth hg.spills).congr hsame.stackDepth hsame.spills, htop,
    (hresults _ hg).congr fun j n => by rw [bindingAt_congr hsame.held]⟩

omit [DecidableEq W] in
/-- What that keeps. -/
theorem loaded_bind {f₀ : RegisterFile} {m₀ : Traced W} {σ₀ : List (Slot W)} {b : Binding} {i : Nat}
    (hi : i < f.size) (hpin : i ∉ f.pinned) (hheld : f.held = f₀.held) (hpinned : f.pinned = f₀.pinned)
    (hstarts : f.callStarts = f₀.callStarts) (hcoming : m.coming = m₀.coming)
    (hunder : ∀ L, L <:+ σ₀ → (∀ τ, L ≠ .read :: τ) → (∀ n, b = .intermediate n → .result n ∉ L) →
      L <:+ σ) (hpassed : passedArgs σ = passedArgs σ₀) (hlen : σ.length ≤ σ₀.length) :
    Loaded 0 b i f₀ m₀ σ₀ ((f.bind i b .used).pin i) m σ := by
  have hg := given_bind hi b .used
  have hsame := sameOutside_pin (f.bind i b .used) i
  have hmem : ∀ j, j ∈ ((f.bind i b .used).pin i).pinned ↔ j ∈ f₀.pinned ∨ j = i := by
    intro j
    rw [mem_pinned_pin, pinned_bind, hpinned]
  refine ⟨hcoming, ⟨?_, fun j => ?_, (hsame.callStarts.trans hg.callStarts).trans hstarts,
    fun j hj => ⟨(hmem j).2 (.inl hj), ?_⟩⟩, ?_, hmem, ?_, hunder, hpassed, hlen⟩
  · rw [size_congr hsame.held, hg.size, size_congr hheld]
  · rw [regAt_congr hsame.held, hg.regAt, regAt_congr hheld]
  · have hne : j ≠ i := fun heq => hpin (by rw [hpinned, ← heq]; exact hj)
    rw [bindingAt_congr hsame.held, hg.bindingAt, if_neg hne, bindingAt_congr hheld]
  · rw [bindingAt_congr hsame.held, hg.bindingAt_self]
  · have := length_pinned_pin (f.bind i b .used) i
    rwa [pinned_bind, hpinned] at this

/-- Reading a result from the stack into a register that was taken. -/
theorem fetch_linked {A B : List (Slot W)} {n i : Nat}
    (h : Linked T known d below base f m mem ρ k (A ++ .result n :: B)) (hi : i < f.size)
    (hpin : i ∉ f.pinned) (hnone : f.bindingAt i = none) (hlen : A.length + (B.length + 1) < 2 ^ 63) :
    ∃ f' m' σ', Runs T (do
        readSlot (f.regAt i) n ⟨some n, d + B.length⟩ (slots d B).length
        dropReadSlots
        onFile fun f => (f.bind i (.intermediate n) .used).pin i
        return f.regAt i) f m (f.regAt i) f' m' ∧
      Linked T known d below base f' m' mem ρ k σ' ∧
      Loaded 0 (.intermediate n) i f m (A ++ .result n :: B) f' m' σ' := by
  obtain ⟨f₁, m₁, hread, hheld₁, hpinned₁, hstarts₁, hregs₁, hmem₁, hcoming₁, hstack₁⟩ :=
    runs_readSlot (T := T) (h.holds.general i hi) h.stack (by omega)
  -- the stack once the word is popped or given up
  let σ₁ := if A = [] then B else A ++ .read :: B
  have hσ₁ : σ₁.length ≤ A.length + (B.length + 1) ∧ spilled σ₁ = spilled A ++ spilled B ∧
      B <:+ σ₁ ∧ passedArgs σ₁ = passedArgs A ++ passedArgs B := by
    by_cases hnil : A = []
    · simp [σ₁, hnil]
    · simp only [σ₁, if_neg hnil]
      exact ⟨by simp, by simp, (List.suffix_cons _ _).trans (List.suffix_append _ _), by simp⟩
  obtain ⟨f₂, m₂, hdrop, hheld₂, hpinned₂, hstarts₂, hregs₂, hmem₂, hcoming₂, hstack₂⟩ :=
    runs_dropReadSlots (T := T) (σ := σ₁) hstack₁ (by omega)
  have hheld : f₂.held = f.held := hheld₂.trans hheld₁
  have hbind := bindingAt_congr hheld
  have hi₂ : i < f₂.size := by rwa [size_congr hheld]
  refine ⟨_, m₂, _, hread.bind (hdrop.bind ((Runs.onFile _).bind (Runs.pure _))),
    linked_bind (b := .intermediate n) ?_ hstack₂ (dropWhile_top σ₁) hi₂ ((hbind i).trans hnone) ?_
      nofun ?_ fun f' hg => ?_,
    loaded_bind hi₂ ?_ hheld (hpinned₂.trans hpinned₁) (hstarts₂.trans hstarts₁)
      (hcoming₂.trans hcoming₁) (fun L hL htop hn => ?_) ?_ ?_⟩
  · exact ((h.holds.set_unbound hi hnone (ρ n)).machine_congr (hregs₂.trans hregs₁)
      (hmem₂.trans hmem₁)).congr hheld
  · intro j hj
    rw [hbind] at hj
    exact h.results.apart j n hj (by simp)
  · rw [hregs₂, hregs₁, regAt_congr hheld, Function.update_self]
    rfl
  · have hresults : ResultsPlaced f₂ (spilled (A ++ .result n :: B)) k :=
      h.results.congr fun j l => by rw [hbind]
    rw [spilled_dropWhile, hσ₁.2.1]
    rw [spilled_append, spilled_result] at hresults
    exact hresults.fill ((hbind i).trans hnone) hg
  · rw [hpinned₂, hpinned₁]
    exact hpin
  · exact suffix_dropWhile ((suffix_of_not_mem hL (hn n rfl)).trans hσ₁.2.2.1) htop
  · rw [passedArgs_dropWhile, hσ₁.2.2.2, passedArgs_append, passedArgs_result]
  · have := (List.dropWhile_suffix (l := σ₁) Slot.isRead).length_le
    rw [List.length_append, List.length_cons]
    omega

/-- **Taking a result back from the stack.** -/
theorem fill_linked (h : Linked T known d below base f m mem ρ k σ) (hfree : f.pinned.length < f.size)
    {n : Nat} (hn : .result n ∈ σ) (hlen : σ.length + 1 < 2 ^ 63) :
    ∃ i f' m' σ', Runs T (fill n) f m (f'.regAt i) f' m' ∧
      Linked T known d below base f' m' mem ρ k σ' ∧ Loaded 1 (.intermediate n) i f m σ f' m' σ' := by
  obtain ⟨i, f₁, m₁, σ₁, htake, h₁, hroom, hi, hpin, hnone⟩ := takeRegister_linked h hfree
  -- making room pushes further results on top and takes none off
  have hn₁ : .result n ∈ σ₁ := by
    obtain ⟨ns, rfl, -⟩ := hroom.pushed
    exact List.mem_append_right _ hn
  have hlen₁ : σ₁.length ≤ σ.length + 1 := by
    obtain ⟨ns, rfl, hns⟩ := hroom.pushed
    rw [List.length_append, List.length_map]
    omega
  obtain ⟨A, B, rfl, hA, hB⟩ := exists_split_of_mem hn₁ h₁.results.once
  rw [List.length_append, List.length_cons] at hlen₁
  obtain ⟨f₂, m₂, σ₂, hfetch, h₂, hloaded⟩ := fetch_linked h₁ hi hpin hnone (by omega)
  refine ⟨i, f₂, m₂, σ₂, ?_, h₂, hloaded.of_room hroom⟩
  have hany : f.spills.any (·.value = some n) = true := by
    rw [h.stack.spills, List.any_reverse, List.any_eq_true]
    simpa using exists_mem_slots.2 hn
  have hfind : f₁.spills.zipIdx.find? (·.1.value = some n) =
      some (⟨some n, d + B.length⟩, (slots d B).length) := by
    rw [h₁.stack.spills, slots_split]
    -- a result is on the stack only once, so the search finds this slot
    have hnone : ∀ slot ∈ (slots d B).reverse, decide (slot.value = some n) = false := by
      intro slot hslot
      refine decide_eq_false fun hvalue => hB ?_
      exact exists_mem_slots.1 ⟨slot, List.mem_reverse.1 hslot, hvalue⟩
    have := find?_zipIdx_split (p := fun slot : SpillSlot => decide (slot.value = some n))
      (a := ⟨some n, d + B.length⟩) (slots (d + B.length + 1) A).reverse (by simp) hnone
    rwa [List.length_reverse] at this
  refine Runs.bind Runs.file ?_
  rw [hany, hloaded.kept.regAt]
  refine htake.bind (Runs.bind Runs.file ?_)
  simp only [hfind]
  exact (Runs.note _ _).bind hfetch

/-! ## Values -/

/-- The line that loads a variable. -/
theorem step_load (m : Machine W) (v : Variable) (r : Reg) (comment : Option String) :
    m.step T (.instruction .load [.reg r, v.location] comment) =
      some (m.set r (m.memory.read v.storage)) := by
  unfold Variable.location
  cases v.storage <;> rfl

theorem keepsStack_load (v : Variable) (g : UInt8) (comment : Option String) :
    (Line.instruction .load [.reg (.general g), v.location] comment).keepsStack = true := by
  unfold Variable.location
  cases v.storage <;> rfl

/-- The instruction that brings a variable or a constant into a register. -/
theorem runs_loadInto {g : UInt8} (h : HoldsValues T known f m.toMachine mem ρ) (ha : Apart W known)
    {b : Binding} (hb : ∀ n, b ≠ .intermediate n) (hknown : ∀ v, b = .var v → known v)
    (hnone : ∀ i, f.bindingAt i ≠ some b) :
    Runs T (loadInto (.general g) b) f m () f (m.set (.general g) (T.bound mem ρ b)) := by
  cases b with
  | intermediate n => exact absurd rfl (hb n)
  | constant n => exact Runs.keep rfl rfl
  | var v =>
    have hread := h.read_of_unbound ha (hknown v rfl) hnone
    have hload : T.value mem v = mem.read v.storage →
        Runs T (instruction .load [.reg (.general g), v.location]) f m () f
          (m.set (.general g) (T.bound mem ρ (.var v))) := fun hvalue =>
      Runs.keep (keepsStack_load v g none)
        ((step_load m.toMachine v _ none).trans (by rw [hread, ← hvalue]; rfl))
    cases harray : v.isArray <;> cases hs : v.storage <;> simp only [loadInto, harray, hs]
    -- the value of an array in the frame is its address
    case true.frame offset =>
      have hvalue : T.bound mem ρ (.var v) = T.alu .add T.base (T.imm offset) := by
        simp [Target.bound, Target.value, harray, hs]
      rw [hvalue, ← h.base]
      exact Runs.keep rfl rfl
    all_goals exact hload (by simp [Target.value, harray, hs])

omit [DecidableEq W] in
/-- A value that a register holds already. -/
theorem loaded_held (h : Linked T known d below base f m mem ρ k σ) {b : Binding} {i : Nat}
    (hi : f.bindingAt i = some b) :
    Linked T known d below base ((f.use i).pin i) m mem ρ k σ ∧
      Loaded 1 b i f m σ ((f.use i).pin i) m σ := by
  have hsame := (sameOutside_use f i).trans (sameOutside_pin (f.use i) i)
  have hmem : ∀ j, j ∈ ((f.use i).pin i).pinned ↔ j ∈ f.pinned ∨ j = i := by
    intro j
    rw [mem_pinned_pin, pinned_use]
  have hlen := length_pinned_pin (f.use i) i
  rw [pinned_use] at hlen
  refine ⟨⟨h.holds.congr hsame.held, h.stack.congr hsame.stackDepth hsame.spills, h.top,
    h.results.congr fun j n => by rw [bindingAt_congr hsame.held]⟩, rfl,
    ⟨size_congr hsame.held, regAt_congr hsame.held, hsame.callStarts,
      fun j hj => ⟨(hmem j).2 (.inl hj), bindingAt_congr hsame.held j⟩⟩,
    (bindingAt_congr hsame.held i).trans hi, hmem, hlen, fun L hL _ _ => hL, rfl, Nat.le_succ _⟩

/-- A variable or a constant that no register holds is loaded into a free one. -/
theorem loadNew_linked (h : Linked T known d below base f m mem ρ k σ) (ha : Apart W known)
    (hfree : f.pinned.length < f.size) {b : Binding} (hb : ∀ n, b ≠ .intermediate n)
    (hknown : ∀ v, b = .var v → known v) (hnone : ∀ j, f.bindingAt j ≠ some b) :
    ∃ i f' m' σ', Runs T (do
        let i ← takeRegister
        let reg := (← file).regAt i
        loadInto reg b
        onFile fun f => (f.bind i b .used).pin i
        return reg) f m (f'.regAt i) f' m' ∧
      Linked T known d below base f' m' mem ρ k σ' ∧ Loaded 1 b i f m σ f' m' σ' := by
  obtain ⟨i, f₁, m₁, σ₁, htake, h₁, hroom, hi, hpin, hempty⟩ := takeRegister_linked h hfree
  have hnone₁ : ∀ j, f₁.bindingAt j ≠ some b := fun j hj => hnone j (hroom.bound j b hj)
  obtain ⟨g, hg⟩ := h₁.holds.general i hi
  have hload := runs_loadInto (g := g) h₁.holds ha hb hknown hnone₁
  rw [← hg] at hload
  have hholds := h₁.holds.set_unbound hi hempty (T.bound mem ρ b)
  -- no result was in the register and none comes into it
  have hlinked := linked_bind (m := m₁.set _ _) (k := k) hholds h₁.stack h₁.top hi hempty hnone₁
    hknown (Traced.set_regs_self _ _ _) fun f' hgiven => h₁.results.congr fun j n => by
      rw [hgiven.bindingAt]
      by_cases hj : j = i
      · subst hj
        simp [hempty, hb n]
      · simp [hj]
  have hloaded : Loaded 0 b i f₁ m₁ σ₁ ((f₁.bind i b .used).pin i)
      (m₁.set (f₁.regAt i) (T.bound mem ρ b)) σ₁ :=
    loaded_bind hi hpin rfl rfl rfl rfl (fun L hL _ _ => hL) rfl (Nat.le_refl _)
  refine ⟨i, _, _, σ₁, ?_, hlinked, hloaded.of_room hroom⟩
  rw [hloaded.kept.regAt]
  exact htake.bind (Runs.file.bind (hload.bind ((Runs.onFile _).bind (Runs.pure _))))

/-- **Loading a value**: it is in a register then, and that register is
pinned. -/
theorem loadOperand_linked (h : Linked T known d below base f m mem ρ k σ) (ha : Apart W known)
    (hfree : f.pinned.length < f.size) {b : Binding} (hplaced : ∀ n, b = .intermediate n → n < k)
    (hknown : ∀ v, b = .var v → known v) (hlen : σ.length + 1 < 2 ^ 63) :
    ∃ i f' m' σ', Runs T (loadOperand b) f m (f'.regAt i) f' m' ∧
      Linked T known d below base f' m' mem ρ k σ' ∧ Loaded 1 b i f m σ f' m' σ' := by
  cases hfind : f.find? b with
  | some i =>
    obtain ⟨hlinked, hloaded⟩ := loaded_held h (bindingAt_of_find? hfind)
    refine ⟨i, _, m, σ, (Runs.ask b).bind (Runs.file.bind ?_), hlinked, hloaded⟩
    rw [hfind, hloaded.kept.regAt]
    exact (Runs.onFile _).bind (Runs.pure _)
  | none =>
    have hnone := bindingAt_of_find?_none hfind
    by_cases hb : ∃ n, b = .intermediate n
    · -- a result that no register holds was spilled
      obtain ⟨n, rfl⟩ := hb
      have hn : .result n ∈ σ := by
        rcases h.results.placed n (hplaced n rfl) with ⟨i, hi⟩ | hn
        · exact absurd hi (hnone i)
        · exact mem_spilled.1 hn
      obtain ⟨i, f', m', σ', hrun, hlinked, hloaded⟩ := fill_linked h hfree hn hlen
      refine ⟨i, f', m', σ', (Runs.ask _).bind (Runs.file.bind ?_), hlinked, hloaded⟩
      rw [hfind]
      exact hrun
    · have hb := not_exists.1 hb
      obtain ⟨i, f', m', σ', hrun, hlinked, hloaded⟩ := loadNew_linked h ha hfree hb hknown hnone
      refine ⟨i, f', m', σ', (Runs.ask b).bind (Runs.file.bind ?_), hlinked, hloaded⟩
      rw [hfind]
      cases b with
      | intermediate n => exact absurd rfl (hb n)
      | var | constant => exact hrun

end Assemble

end WordC
