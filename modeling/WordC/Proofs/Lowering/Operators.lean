import Mathlib
import WordC.Proofs.Lowering.Instructions
import WordC.Lowering.Expression
/-!
# Applying operators

What lowering does for one operator, for one argument and for one call, on a
machine that runs the emitted lines, against what the evaluation makes of the
same element.
-/

namespace WordC

open RegisterFile

variable {W : Type} [DecidableEq W] {α β : Type}

/-- With register file `f` and expression `e`, step `y` succeeds with answer
`r`, leaves `f'` and `e'` and changes nothing else, and what it adds to the
journal takes the machine from `m` to `m'`. -/
def Steps (T : Target W) (y : Lower α) (f : RegisterFile) (e : ExpressionState) (m : Traced W)
    (r : α) (f' : RegisterFile) (e' : ExpressionState) (m' : Traced W) : Prop :=
  ∀ s : BodyState, s.assembler.file = f → s.expression = e → ∃ a' xs,
    y s = .ok r { s with assembler := a', expression := e' } ∧ a'.file = f' ∧
    a'.journal.toList = s.assembler.journal.toList ++ xs ∧ Traced.Reaches T xs m m'

namespace Steps

variable {T : Target W} {y : Lower α} {z : α → Lower β} {f f₁ f₂ : RegisterFile}
variable {e e₁ e₂ : ExpressionState} {m m₁ m₂ : Traced W} {r : α} {q : β}

/-- One step after the other. -/
theorem bind (h : Steps T y f e m r f₁ e₁ m₁) (h' : Steps T (z r) f₁ e₁ m₁ q f₂ e₂ m₂) :
    Steps T (y >>= z) f e m q f₂ e₂ m₂ := by
  intro s hf he
  obtain ⟨a₁, xs, hy, ha₁, hjournal, hreach⟩ := h s hf he
  obtain ⟨a₂, ys, hz, ha₂, hjournal', hreach'⟩ :=
    h' { s with assembler := a₁, expression := e₁ } ha₁ rfl
  refine ⟨a₂, xs ++ ys, (bind_ok hy).trans hz, ha₂, ?_, hreach.append hreach'⟩
  rw [hjournal', hjournal, List.append_assoc]

theorem pure (r : α) : Steps T (pure r : Lower α) f e m r f e m := by
  rintro s rfl rfl
  exact ⟨s.assembler, [], rfl, rfl, by simp, .nil m⟩

/-- An operation on the register file. -/
theorem lift {x : Assemble α} (h : Runs T x f m r f₁ m₁) :
    Steps T (Lower.onAssembler x) f e m r f₁ e m₁ := by
  rintro s hf rfl
  obtain ⟨a', xs, hx, ha', hjournal, hreach⟩ := h s.assembler hf
  refine ⟨a', xs, ?_, ha', hjournal, hreach⟩
  simp only [Lower.onAssembler, hx]

theorem onExpression (g : ExpressionState → ExpressionState) :
    Steps T (Lower.onExpression g) f e m () f (g e) m := by
  rintro s rfl rfl
  exact ⟨s.assembler, [], rfl, rfl, by simp, .nil m⟩

/-- A line without a comment that keeps the stack. -/
theorem instruction {mnemonic : Mnemonic} {args : List Arg} {x : Machine W}
    (hl : (Line.plain mnemonic args).keepsStack = true)
    (h : m.toMachine.step T (.instruction mnemonic args none) = some x) :
    Steps T (Lower.instruction mnemonic args) f e m () f e { m with toMachine := x } :=
  lift (Runs.keep hl h)

/-- A line with a comment that keeps the stack. -/
theorem noted {mnemonic : Mnemonic} {args : List Arg} {comment : String} {x : Machine W}
    (hl : (Line.noted mnemonic args comment).keepsStack = true)
    (h : m.toMachine.step T (.instruction mnemonic args (some comment)) = some x) :
    Steps T (Lower.noted mnemonic args comment) f e m () f e { m with toMachine := x } :=
  lift (Runs.keep hl h)

/-- An element is taken up. -/
theorem takes (x : Element) (h : f.stackDepth = m.trace.words.length) :
    Steps T (Lower.onAssembler (Assemble.record (.takes x))) f e m () f e (m.take x) :=
  lift (Runs.record (.takes x h))

/-- A step that looks at the state first. -/
theorem get {y : BodyState → Lower α}
    (h : ∀ s, s.assembler.file = f → s.expression = e → Steps T (y s) f e m r f₁ e₁ m₁) :
    Steps T (get >>= y) f e m r f₁ e₁ m₁ :=
  fun s hf he => h s hf he s hf he

end Steps

/-! ## Lines -/

namespace Machine

variable {T : Target W} (m : Machine W) {g : UInt8} {comment : Option String}

theorem step_alu {op : Mnemonic} (hop : op.isAlu = true) (a : Reg) (b : Arg) :
    m.step T (.instruction op [.reg (.general g), .reg a, b] comment) =
      (m.value? T b).map fun w => m.set (.general g) (T.alu op (m.regs a) w) := by
  cases op <;> first | rfl | cases hop

theorem keepsStack_alu {op : Mnemonic} (hop : op.isAlu = true) (g : UInt8) (a : Reg) {b : Arg}
    (hb : b.isPushed = false) (comment : Option String) :
    (Line.instruction op [.reg (.general g), .reg a, b] comment).keepsStack = true := by
  have hany : [.reg (.general g), .reg a, b].any Arg.isPushed = false := by
    simp [hb]
  have husual : op.usesStack = false := by
    cases op <;> first | rfl | cases hop
  cases op with
  | mov | pop => cases hop
  | _ => simp [Line.keepsStack, husual, hany]

theorem step_loadAddress (d : Reg) :
    m.step T (.instruction .load [.reg d, .mem (.general g) 0] comment) =
      some (m.set d (m.memory.heap (m.regs (.general g)))) := rfl

theorem step_storeAddress (r : Reg) :
    m.step T (.instruction .store [.mem (.general g) 0, .reg r] comment) =
      some { m with memory := m.memory.poke (m.regs (.general g)) (m.regs r) } := rfl

end Machine

/-! ## Operands -/

/-- The value that an operand stands for. -/
def Operand.binding? : Operand → Option Binding
  | var v => some (.var v)
  | constant c => some (.constant c.value)
  | intermediate n => some (.intermediate n.toNat)
  | _ => none

omit [DecidableEq W] in
theorem Evaluation.value?_of_binding {T : Target W} (x : Evaluation W) {o : Operand} {b : Binding}
    (h : o.binding? = some b) : x.value? T o = some (T.bound x.memory x.results b) := by
  cases o <;> cases h <;> rfl

/-- A value can be loaded while `k` results wait. -/
def Binding.Available (known : Variable → Prop) (k : Nat) : Binding → Prop
  | var v => known v
  | constant _ => True
  | intermediate n => n < k

theorem Binding.Available.result_lt {known : Variable → Prop} {k : Nat} {b : Binding}
    (h : b.Available known k) (n : Nat) (hb : b = .intermediate n) : n < k := by
  subst hb
  exact h

theorem Binding.Available.known {known : Variable → Prop} {k : Nat} {b : Binding}
    (h : b.Available known k) (v : Variable) (hb : b = .var v) : known v := by
  subst hb
  exact h

/-- What every step leaves alone: the registers as such, and what lies on the
stack below the results from `n` on. Up to `c` words are pushed. -/
structure Framed (c n : Nat) (f : RegisterFile) (σ : List (Slot W)) (f' : RegisterFile)
    (σ' : List (Slot W)) : Prop where
  size : f'.size = f.size
  regAt : ∀ i, f'.regAt i = f.regAt i
  under : ∀ L, L <:+ σ → (∀ τ, L ≠ .read :: τ) → (∀ l, n ≤ l → .result l ∉ L) → L <:+ σ'
  length_le : σ'.length ≤ σ.length + c

omit [DecidableEq W] in
theorem Framed.refl (n : Nat) (f : RegisterFile) (σ : List (Slot W)) : Framed 0 n f σ f σ :=
  ⟨rfl, fun _ => rfl, fun _ hL _ _ => hL, Nat.le_refl _⟩

omit [DecidableEq W] in
theorem Framed.trans {c c' n : Nat} {f f₁ f₂ : RegisterFile} {σ σ₁ σ₂ : List (Slot W)}
    (h : Framed c n f σ f₁ σ₁) (h' : Framed c' n f₁ σ₁ f₂ σ₂) : Framed (c + c') n f σ f₂ σ₂ where
  size := h'.size.trans h.size
  regAt i := (h'.regAt i).trans (h.regAt i)
  under L hL htop hn := h'.under L (h.under L hL htop hn) htop hn
  length_le := by
    have := h.length_le
    have := h'.length_le
    omega

omit [DecidableEq W] in
/-- Fewer words, and more results that may be read. -/
theorem Framed.mono {c c' n n' : Nat} {f f' : RegisterFile} {σ σ' : List (Slot W)}
    (h : Framed c n f σ f' σ') (hc : c ≤ c') (hn : n' ≤ n) : Framed c' n' f σ f' σ' :=
  { h with
    under := fun L hL htop hl => h.under L hL htop fun l hnl => hl l (hn.trans hnl)
    length_le := h.length_le.trans (by omega) }

/-- Some values were brought into registers for one instruction, `c` at most.
The results among them that wait are `R`, all of them from `n` on. -/
structure Gathered (c n : Nat) (R : List Nat) (f : RegisterFile) (m : Traced W)
    (σ : List (Slot W)) (f' : RegisterFile) (m' : Traced W) (σ' : List (Slot W)) : Prop where
  coming : m'.coming = m.coming
  callStarts : f'.callStarts = f.callStarts
  frame : Framed c n f σ f' σ'
  passed : passedArgs σ' = passedArgs σ
  pinned : Pinned R f'
  length_pinned : f'.pinned.length ≤ c

namespace Gathered

omit [DecidableEq W]

variable {c n : Nat} {R : List Nat} {f f₁ f₂ : RegisterFile} {m m₁ m₂ : Traced W}
variable {σ σ₁ σ₂ : List (Slot W)}

theorem start (h : f.pinned = []) : Gathered 0 n [] f m σ f m σ :=
  ⟨rfl, rfl, Framed.refl n f σ, rfl, Pinned.nil h, by simp [h]⟩

/-- One more value. -/
theorem load {b : Binding} {i : Nat} (hg : Gathered c n R f m σ f₁ m₁ σ₁)
    (h : Assemble.Loaded 1 b i f₁ m₁ σ₁ f₂ m₂ σ₂) (hn : ∀ l ∈ b.results, n ≤ l) :
    Gathered (c + 1) n (b.results ++ R) f m σ f₂ m₂ σ₂ where
  coming := h.coming.trans hg.coming
  callStarts := h.kept.callStarts.trans hg.callStarts
  frame := by
    refine hg.frame.trans ⟨h.kept.size, h.kept.regAt, fun L hL htop hl => ?_, h.length_le⟩
    exact h.under L hL htop fun l hb => hl l (hn l (Binding.mem_results.2 hb))
  passed := h.passed.trans hg.passed
  pinned := h.pinned hg.pinned
  length_pinned := h.length_pinned.trans (Nat.succ_le_succ hg.length_pinned)

/-- A constant in the instruction itself. -/
theorem skip (hg : Gathered c n R f m σ f₁ m₁ σ₁) : Gathered (c + 1) n R f m σ f₁ m₁ σ₁ :=
  { hg with
    frame := hg.frame.mono (Nat.le_succ c) (Nat.le_refl n)
    length_pinned := Nat.le_succ_of_le hg.length_pinned }

/-- Another machine with the same calls to come. -/
theorem machine_congr (hg : Gathered c n R f m σ f₁ m₁ σ₁) (hcoming : m₂.coming = m₁.coming) :
    Gathered c n R f m σ f₁ m₂ σ₁ :=
  { hg with coming := hcoming.trans hg.coming }

/-- The values are given up. -/
theorem release (hg : Gathered c n R f m σ f₁ m₁ σ₁) :
    Gathered c n [] f m σ f₁.releaseOperands m₁ σ₁ := by
  obtain ⟨hsize, hreg, hstarts⟩ := Assemble.kept_releaseOperands f₁
  have hpinned := pinned_releaseOperands f₁
  exact ⟨hg.coming, hstarts.trans hg.callStarts,
    { hg.frame with
      size := hsize.trans hg.frame.size
      regAt := fun i => (hreg i).trans (hg.frame.regAt i) },
    hg.passed, Pinned.nil hpinned, by simp⟩

end Gathered

/-- Register `r` holds a value for the current instruction. -/
def Readied (f : RegisterFile) (r : Reg) (b : Binding) : Prop :=
  ∃ i ∈ f.pinned, f.bindingAt i = some b ∧ r = f.regAt i

/-- An instruction reads a value from a register, or it is a constant. -/
def ArgReadied (f : RegisterFile) : Arg → Binding → Prop
  | .reg r, b => Readied f r b
  | .imm n, b => b = .constant n
  | _, _ => False

namespace Readied

omit [DecidableEq W]

variable {T : Target W} {known : Variable → Prop} {f : RegisterFile} {m : Traced W}
variable {mem : Memory W} {ρ : Nat → W} {r : Reg} {b : Binding}

theorem general (hr : Readied f r b) (h : HoldsValues T known f m.toMachine mem ρ) :
    ∃ g, r = .general g := by
  obtain ⟨i, -, hi, rfl⟩ := hr
  exact h.general i (lt_size_of_bindingAt hi)

theorem value (hr : Readied f r b) (h : HoldsValues T known f m.toMachine mem ρ) :
    m.regs r = T.bound mem ρ b := by
  obtain ⟨i, -, hi, rfl⟩ := hr
  exact h.value i b hi

/-- A value stays ready while another is loaded. -/
theorem kept {f' : RegisterFile} (hr : Readied f r b) (h : Kept f f') : Readied f' r b := by
  obtain ⟨i, hpin, hi, rfl⟩ := hr
  exact ⟨i, (h.pinned i hpin).1, (h.pinned i hpin).2.trans hi, (h.regAt i).symm⟩

end Readied

theorem ArgReadied.isPushed {f : RegisterFile} {a : Arg} {b : Binding} (ha : ArgReadied f a b) :
    a.isPushed = false := by
  cases a with
  | reg | imm | label | global => rfl
  | mem => cases ha

omit [DecidableEq W] in
theorem ArgReadied.value {T : Target W} {known : Variable → Prop} {f : RegisterFile}
    {m m' : Traced W} {mem : Memory W} {ρ : Nat → W} {a : Arg} {b : Binding}
    (ha : ArgReadied f a b) (h : HoldsValues T known f m.toMachine mem ρ) (hregs : m'.regs = m.regs) :
    m'.value? T a = some (T.bound mem ρ b) := by
  cases a with
  | reg r =>
    have hr : Readied f r b := ha
    exact congrArg some ((congrFun hregs r).trans (hr.value h))
  | imm n =>
    have hb : b = .constant n := ha
    rw [hb]
    rfl
  | label | mem | global => cases ha

/-- Result `n` was produced with word `w`, in register `r`. -/
structure Produced (T : Target W) (known : Variable → Prop) (d : Nat) (below : List W) (base : List Pushed)
    (mem : Memory W) (ρ : Nat → W) (n : Nat) (w : W) (r : Reg) (f : RegisterFile) (m : Traced W)
    (σ : List (Slot W)) (f' : RegisterFile) (m' : Traced W) (σ' : List (Slot W)) : Prop where
  linked : Linked T known d below base f' m' mem (Function.update ρ n w) (n + 1) σ'
  pinned : f'.pinned = []
  bound : ∃ i, f'.bindingAt i = some (.intermediate n) ∧ r = f'.regAt i
  frame : Framed 3 n f σ f' σ'
  callStarts : f'.callStarts = f.callStarts
  coming : m'.coming = m.coming
  passed : passedArgs σ' = passedArgs σ

namespace Lower

variable {T : Target W} {known : Variable → Prop} {d : Nat} {below : List W} {base : List Pushed}
variable {f f₀ : RegisterFile} {e : ExpressionState} {m m₀ : Traced W} {mem : Memory W}
variable {ρ : Nat → W} {k n c : Nat} {σ σ₀ : List (Slot W)} {R : List Nat}
variable (fn : Function) {o : Operand} {b : Binding}

/-- Loading an operand. -/
theorem steps_load (ho : o.binding? = some b) {r : Reg} {f' : RegisterFile} {m' : Traced W}
    (h : Runs T (Assemble.loadOperand b) f m r f' m') : Steps T (load fn o) f e m r f' e m' := by
  cases o <;> cases ho <;> exact Steps.lift h

/-- **Loading one more value** for the current instruction. -/
theorem load_linked (h : Linked T known d below base f m mem ρ k σ) (ha : Apart W known)
    (hg : Gathered c n R f₀ m₀ σ₀ f m σ) (hsize : c < f₀.size) (hlen : σ₀.length + c + 1 < 2 ^ 63)
    (ho : o.binding? = some b) (hb : b.Available known k) (hn : ∀ l ∈ b.results, n ≤ l) :
    ∃ r f' m' σ', Steps T (load fn o) f e m r f' e m' ∧
      Linked T known d below base f' m' mem ρ k σ' ∧
      Gathered (c + 1) n (b.results ++ R) f₀ m₀ σ₀ f' m' σ' ∧ Readied f' r b ∧ Kept f f' := by
  have hframe := hg.frame
  have hfree : f.pinned.length < f.size := by
    rw [hframe.size]
    exact hg.length_pinned.trans_lt hsize
  have hlen' : σ.length + 1 < 2 ^ 63 := by
    have := hframe.length_le
    omega
  obtain ⟨i, f', m', σ', hrun, h', hloaded⟩ :=
    Assemble.loadOperand_linked h ha hfree hb.result_lt hb.known hlen'
  exact ⟨_, f', m', σ', steps_load fn ho hrun, h', hg.load hloaded hn,
    ⟨i, (hloaded.mem_pinned i).2 (.inr rfl), hloaded.bindingAt, rfl⟩, hloaded.kept⟩

/-- A value that an instruction reads, from a register or as a constant. -/
theorem operandArg_linked (h : Linked T known d below base f m mem ρ k σ) (ha : Apart W known)
    (hg : Gathered c n R f₀ m₀ σ₀ f m σ) (hsize : c < f₀.size) (hlen : σ₀.length + c + 1 < 2 ^ 63)
    (ho : o.binding? = some b) (hb : b.Available known k) (hn : ∀ l ∈ b.results, n ≤ l) :
    ∃ a f' m' σ', Steps T (operandArg fn o) f e m a f' e m' ∧
      Linked T known d below base f' m' mem ρ k σ' ∧
      Gathered (c + 1) n (b.results ++ R) f₀ m₀ σ₀ f' m' σ' ∧ ArgReadied f' a b ∧ Kept f f' := by
  by_cases hconstant : ∃ x, o = .constant x
  · obtain ⟨x, rfl⟩ := hconstant
    cases ho
    exact ⟨.imm x.value, f, m, σ, Steps.pure _, h, hg.skip, rfl, Kept.refl f⟩
  · obtain ⟨r, f', m', σ', hload, h', hg', hr, hkept⟩ :=
      load_linked fn (e := e) h ha hg hsize hlen ho hb hn
    refine ⟨.reg r, f', m', σ', ?_, h', hg', hr, hkept⟩
    have hsteps := hload.bind (z := fun r => (Pure.pure (.reg r) : Lower Arg)) (Steps.pure _)
    cases o with
    | constant x => exact absurd ⟨x, rfl⟩ hconstant
    | _ => exact hsteps

/-- **Taking a register for result `n`**, whatever word comes to be written. -/
theorem result_linked (h : Linked T known d below base f m mem ρ k σ)
    (hg : Gathered c n R f₀ m₀ σ₀ f m σ) (hc : c ≤ 2) (hR : Consumes R n k) (hsize : 0 < f₀.size) :
    ∃ g f' m' σ', Steps T (result n) f e m (.general g) f' e m' ∧ m'.regs = m.regs ∧
      m'.memory.heap = mem.heap ∧
      ∀ w, Produced T known d below base mem ρ n w (.general g) f₀ m₀ σ₀ f'
        (m'.set (.general g) w) σ' := by
  have hframe := hg.frame
  obtain ⟨r, f', m', σ', hrun, hlinked, htaken, hpinned⟩ :=
    Assemble.bindResult_linked h hg.pinned hR (hframe.size ▸ hsize)
  obtain ⟨g, rfl⟩ := htaken.general
  obtain ⟨ns, hσ', hns⟩ := htaken.pushed
  -- taking the register may spill one result
  have htake : Framed 1 n f σ f' σ' := by
    refine ⟨htaken.size, htaken.regAt, fun L hL _ _ => ?_, ?_⟩
    · rw [hσ']
      exact hL.trans (List.suffix_append _ _)
    · rw [hσ', List.length_append, List.length_map]
      omega
  refine ⟨g, f', m', σ', Steps.lift hrun, htaken.regs, htaken.heap.trans h.holds.heap, fun w => ?_⟩
  refine ⟨hlinked w, hpinned, htaken.bound, (hframe.trans htake).mono (by omega) (Nat.le_refl n),
    htaken.callStarts.trans hg.callStarts, htaken.coming.trans hg.coming, ?_⟩
  rw [hσ', passedArgs_append, passedArgs_map_result, List.nil_append]
  exact hg.passed

/-! ## Operators with a result -/

/-- What an operator adds to the results that are addresses to store to. -/
def withTarget (op : Operator) (n : Nat) (e : ExpressionState) : ExpressionState :=
  if op = .dereferenceStore ∨ op = .indexStore then
    { e with storeTargets := n :: e.storeTargets }
  else e

/-- **An operator with one operand.** -/
theorem unary_linked {x : Evaluation W} {op : Operator} {w : W}
    (h : Linked T known d below base f m x.memory x.results k σ) (ha : Apart W known)
    (hpin : f.pinned = []) (hsize : 0 < f.size) (hlen : σ.length + 1 < 2 ^ 63)
    (ho : o.binding? = some b) (hb : b.Available known k) (hR : Consumes b.results n k)
    (hw : x.unary? T op (T.bound x.memory x.results b) = some w) :
    ∃ r f' m' σ', Steps T (unary fn op o n) f e m r f' (withTarget op n e) m' ∧
      Produced T known d below base x.memory x.results n w r f m σ f' m' σ' := by
  have hstart := Gathered.start (n := n) (m := m) (σ := σ) hpin
  by_cases himm : (op = .bitwiseNot ∨ op = .unaryMinus) ∧ ∃ v, o = .constant v
  · -- the constant is part of the instruction
    obtain ⟨hop, v, rfl⟩ := himm
    cases ho
    obtain ⟨g, f', m', σ', hresult, -, -, hproduced⟩ :=
      result_linked (e := e) h hstart (Nat.zero_le 2) hR hsize
    refine ⟨.general g, f', m'.set (.general g) w, σ', ?_, hproduced w⟩
    rcases hop with rfl | rfl
    all_goals
      cases hw
      exact hresult.bind ((Steps.instruction rfl rfl).bind (Steps.pure _))
  · obtain ⟨r, f₁, m₁, σ₁, hload, h₁, hg, hr, -⟩ :=
      load_linked fn (e := e) h ha hstart hsize hlen ho hb fun l hl => hR.le hl
    rw [List.append_nil] at hg
    obtain ⟨g, f', m', σ', hresult, hregs, hheap, hproduced⟩ :=
      result_linked (e := e) h₁ hg (by omega) hR hsize
    obtain ⟨g₁, rfl⟩ := hr.general h₁.holds
    have hvalue : m'.regs (.general g₁) = T.bound x.memory x.results b :=
      (congrFun hregs _).trans (hr.value h₁.holds)
    refine ⟨.general g, f', m'.set (.general g) w, σ', ?_, hproduced w⟩
    cases op with
    | logicalNot | unaryPlus =>
      cases hw
      rw [← hvalue]
      exact hload.bind (hresult.bind ((Steps.instruction rfl rfl).bind (Steps.pure _)))
    | dereference =>
      cases hw
      rw [← hvalue, ← hheap]
      exact hload.bind (hresult.bind ((Steps.instruction rfl rfl).bind (Steps.pure _)))
    | dereferenceStore =>
      cases hw
      rw [← hvalue]
      exact hload.bind (hresult.bind ((Steps.noted rfl rfl).bind
        ((Steps.onExpression _).bind (Steps.pure _))))
    | bitwiseNot | unaryMinus =>
      cases hw
      rw [← hvalue]
      cases o with
      | constant v => exact absurd ⟨by simp, v, rfl⟩ himm
      | _ => exact hload.bind (hresult.bind ((Steps.instruction rfl rfl).bind (Steps.pure _)))
    | _ => cases hw

/-- The operation of an operator between two values. -/
theorem mnemonic_of_operation {op : Operator} {mn : Mnemonic}
    (h : Evaluation.operation? op = some mn) : op.mnemonic = mn ∧ mn.isAlu = true := by
  cases op <;> cases h <;> exact ⟨rfl, rfl⟩

/-- An operator between two values that reads no memory is one instruction. -/
theorem binary_eq {op : Operator} {o' : Operand} (h : op ≠ .index) (h' : op ≠ .indexStore) :
    binary fn op o o' n = do
      let r ← load fn o
      let second ← operandArg fn o'
      let d ← result n
      instruction op.mnemonic [.reg d, .reg r, second]
      return d := by
  cases op with
  | index => exact absurd rfl h
  | indexStore => exact absurd rfl h'
  | _ => rfl

/-- **An operator with two operands** that is no assignment. -/
theorem binary_linked {x : Evaluation W} {op : Operator} {o' : Operand} {b' : Binding} {w : W}
    (h : Linked T known d below base f m x.memory x.results k σ) (ha : Apart W known)
    (hpin : f.pinned = []) (hsize : 2 ≤ f.size) (hlen : σ.length + 2 < 2 ^ 63)
    (ho : o.binding? = some b) (hb : b.Available known k) (ho' : o'.binding? = some b')
    (hb' : b'.Available known k) (hR : Consumes (b'.results ++ b.results) n k)
    (hw : x.binary? T op (T.bound x.memory x.results b) (T.bound x.memory x.results b') = some w) :
    ∃ r f' m' σ', Steps T (binary fn op o o' n) f e m r f' (withTarget op n e) m' ∧
      Produced T known d below base x.memory x.results n w r f m σ f' m' σ' := by
  obtain ⟨r, f₁, m₁, σ₁, hload, h₁, hg₁, hr, -⟩ := load_linked fn (e := e) h ha
    (Gathered.start (n := n) (m := m) (σ := σ) hpin) (by omega) (by omega) ho hb
    fun l hl => hR.le (List.mem_append_right _ hl)
  obtain ⟨a, f₂, m₂, σ₂, hload', h₂, hg₂, hr', hkept⟩ :=
    operandArg_linked fn (e := e) h₁ ha hg₁ (by omega) (by omega) ho' hb'
      fun l hl => hR.le (List.mem_append_left _ hl)
  rw [List.append_nil] at hg₂
  obtain ⟨g, f', m', σ', hresult, hregs, hheap, hproduced⟩ :=
    result_linked (e := e) h₂ hg₂ (Nat.le_refl 2) hR (by omega)
  -- loading the second operand has not moved the first one, which is pinned
  have hfirst : m'.regs r = T.bound x.memory x.results b :=
    (congrFun hregs _).trans ((hr.kept hkept).value h₂.holds)
  have hsecond : m'.value? T a = some (T.bound x.memory x.results b') := hr'.value h₂.holds hregs
  have halu : ∀ {mn comment}, mn.isAlu = true →
      m'.step T (.instruction mn [.reg (.general g), .reg r, a] comment) =
        some (m'.toMachine.set (.general g) (T.alu mn (T.bound x.memory x.results b)
          (T.bound x.memory x.results b'))) := by
    intro mn comment hmn
    rw [Machine.step_alu m'.toMachine hmn, hsecond, hfirst]
    rfl
  have hkeeps : ∀ {mn comment}, mn.isAlu = true →
      (Line.instruction mn [.reg (.general g), .reg r, a] comment).keepsStack = true :=
    fun hmn => Machine.keepsStack_alu hmn g r hr'.isPushed _
  refine ⟨.general g, f', m'.set (.general g) w, σ', ?_, hproduced w⟩
  by_cases hindex : op = .index
  -- an element is read through the address that the addition leaves in the same register
  · subst hindex
    cases hw
    refine hload.bind (hload'.bind (hresult.bind ((Steps.instruction (hkeeps rfl) (halu rfl)).bind
      ((Steps.instruction rfl ?_).bind (Steps.pure _)))))
    rw [Machine.step_loadAddress, Machine.set_regs_self]
    change some ((m'.toMachine.set (.general g) _).set (.general g) (m'.memory.heap _)) = _
    rw [hheap]
    simp [Machine.set]
  by_cases hstore : op = .indexStore
  · subst hstore
    cases hw
    exact hload.bind (hload'.bind (hresult.bind ((Steps.noted (hkeeps rfl) (halu rfl)).bind
      ((Steps.onExpression _).bind (Steps.pure _)))))
  · obtain ⟨mn, hmn, rfl⟩ : ∃ mn, Evaluation.operation? op = some mn ∧
        T.alu mn (T.bound x.memory x.results b) (T.bound x.memory x.results b') = w := by
      cases op with
      | index => exact absurd rfl hindex
      | indexStore => exact absurd rfl hstore
      | _ => exact Option.map_eq_some_iff.1 hw
    obtain ⟨rfl, halu'⟩ := mnemonic_of_operation hmn
    rw [binary_eq fn hindex hstore, withTarget, if_neg]
    · exact hload.bind (hload'.bind (hresult.bind
        ((Steps.instruction (hkeeps halu') (halu halu')).bind (Steps.pure _))))
    · rintro (rfl | rfl) <;> cases hmn

/-! ## Assignments -/

/-- The end of an instruction that has no result yet. -/
theorem releaseOperands_linked (h : Linked T known d below base f m mem ρ k σ)
    (hg : Gathered c n R f₀ m₀ σ₀ f m σ) (hR : Consumes R n k) :
    Steps T releaseOperands f e m () f.releaseOperands e m ∧
      Linked T known d below base f.releaseOperands m mem ρ n σ ∧
      Gathered c n [] f₀ m₀ σ₀ f.releaseOperands m σ :=
  ⟨Steps.lift (Runs.onFile _), Assemble.releaseOperands_linked h hg.pinned hR, hg.release⟩

/-- Writing a variable. -/
theorem write_variable_linked {v : Variable} {w : W}
    (h : Linked T known d below base f m mem ρ k σ) (ha : Apart W known) (hpin : f.pinned = [])
    (hsize : 2 ≤ f.size) (hlen : σ.length + 1 < 2 ^ 63) (hv : known v) (harray : v.isArray = false)
    (ho : o.binding? = some b) (hb : b.Available known k) (hR : Consumes b.results n k)
    (hw : T.bound mem ρ b = w) :
    ∃ r f' m' σ', Steps T (write fn (.var v) o) f e m r f' e m' ∧
      Linked T known d below base f' m' (mem.write v.storage w) ρ n σ' ∧
      Gathered 2 n [] f m σ f' m' σ' ∧ f'.pinned = [] ∧ m'.regs r = w := by
  obtain ⟨a, f₁, m₁, σ₁, hload, h₁, hg₁, hr, -⟩ := operandArg_linked fn (e := e) h ha
    (Gathered.start (n := n) (m := m) (σ := σ) hpin) (by omega) hlen ho hb fun l hl => hR.le hl
  rw [List.append_nil] at hg₁
  have hfree : f₁.pinned.length < f₁.size := by
    have := hg₁.length_pinned
    have := hg₁.frame.size
    omega
  obtain ⟨i, f₂, m₂, σ₂, htake, hregs, h₂, hloaded⟩ :=
    Assemble.bindForWrite_linked h₁ ha hfree hv harray
  have hg₂ : Gathered 2 n b.results f m σ f₂ (m₂.set (f₂.regAt i) w) σ₂ :=
    (hg₁.load hloaded nofun).machine_congr rfl
  have hmov : m₂.step T (.instruction .mov [.reg (f₂.regAt i), a] (some v.name)) =
      some (m₂.toMachine.set (f₂.regAt i) w) := by
    change (m₂.value? T a).map (m₂.toMachine.set (f₂.regAt i)) = _
    rw [hr.value h₁.holds hregs, hw]
    rfl
  -- neither side is the stack pointer
  have hkeeps : (Line.noted .mov [.reg (f₂.regAt i), a] v.name).keepsStack = true := by
    obtain ⟨g, hg⟩ := (h₂ w).holds.general i (lt_size_of_bindingAt hloaded.bindingAt)
    have hany : [.reg (.general g), a].any Arg.isPushed = false := by
      simp [hr.isPushed]
    simp [hg, Line.noted, Line.keepsStack, Mnemonic.usesStack, hany]
  obtain ⟨hrelease, h₃, hg₃⟩ := releaseOperands_linked (e := e) (h₂ w) hg₂ hR
  refine ⟨_, _, _, σ₂, ?_, h₃, hg₃, pinned_releaseOperands _, Traced.set_regs_self _ _ _⟩
  simp only [write, harray, Bool.false_eq_true, if_false]
  exact hload.bind ((Steps.lift htake).bind ((Steps.noted hkeeps hmov).bind
    (hrelease.bind (Steps.pure (f₂.regAt i)))))

/-- Writing through an address. -/
theorem write_address_linked {t : UInt32} {w : W}
    (h : Linked T known d below base f m mem ρ k σ) (ha : Apart W known) (hpin : f.pinned = [])
    (hsize : 2 ≤ f.size) (hlen : σ.length + 2 < 2 ^ 63) (ht : t.toNat < k)
    (htarget : t.toNat ∈ e.storeTargets) (ho : o.binding? = some b) (hb : b.Available known k)
    (hR : Consumes (b.results ++ [t.toNat]) n k) (hw : T.bound mem ρ b = w) :
    ∃ r f' m' σ', Steps T (write fn (.intermediate t) o) f e m r f'
        { e with storeTargets := e.storeTargets.filter (· != t.toNat) } m' ∧
      Linked T known d below base f' m' (mem.poke (ρ t.toNat) w) ρ n σ' ∧
      Gathered 2 n [] f m σ f' m' σ' ∧ f'.pinned = [] ∧ m'.regs r = w := by
  obtain ⟨r₁, f₁, m₁, σ₁, hload₁, h₁, hg₁, hr₁, -⟩ := load_linked fn (e := e)
    (o := .intermediate t) h ha (Gathered.start (n := n) (m := m) (σ := σ) hpin) (by omega)
    (by omega) rfl ht fun l hl => hR.le (List.mem_append_right _ hl)
  obtain ⟨r₂, f₂, m₂, σ₂, hload₂, h₂, hg₂, hr₂, hkept⟩ := load_linked fn (e := e) h₁ ha hg₁
    (by omega) (by omega) ho hb fun l hl => hR.le (List.mem_append_left _ hl)
  obtain ⟨g, rfl⟩ := hr₁.general h₁.holds
  -- the address stays pinned while the value is loaded
  have haddress : m₂.regs (.general g) = ρ t.toNat := (hr₁.kept hkept).value h₂.holds
  have hvalue : m₂.regs r₂ = w := (hr₂.value h₂.holds).trans hw
  let m₃ : Traced W := { m₂ with memory := m₂.memory.poke (ρ t.toNat) w }
  have hstore : m₂.step T (.instruction .store [.mem (.general g) 0, .reg r₂] none) =
      some m₃.toMachine := by
    rw [Machine.step_storeAddress, haddress, hvalue]
  have h₃ : Linked T known d below base f₂ m₃ (mem.poke (ρ t.toNat) w) ρ k σ₂ :=
    ⟨h₂.holds.poke _ _, h₂.stack, h₂.top, h₂.results⟩
  have hg₃ : Gathered 2 n (b.results ++ [t.toNat]) f m σ f₂ m₃ σ₂ := hg₂.machine_congr rfl
  obtain ⟨hrelease, h₄, hg₄⟩ := releaseOperands_linked
    (e := { e with storeTargets := e.storeTargets.filter (· != t.toNat) }) h₃
    hg₃ hR
  refine ⟨r₂, _, m₃, σ₂, ?_, h₄, hg₄, pinned_releaseOperands _, hvalue⟩
  refine Steps.get fun s _ hs => ?_
  have hcontains : (!s.expression.storeTargets.contains t.toNat) = false := by
    rw [hs]
    simpa using htarget
  simp only [hcontains, Bool.false_eq_true, if_false]
  exact hload₁.bind (hload₂.bind ((Steps.instruction rfl hstore).bind
    ((Steps.onExpression _).bind (hrelease.bind (Steps.pure r₂)))))

/-- What can be assigned to while `k` results wait: a variable that is no array,
or one of the results `targets`. -/
def Assignable (known : Variable → Prop) (k : Nat) (targets : List Nat) : Operand → Prop
  | .var v => known v ∧ v.isArray = false
  | .intermediate t => t.toNat < k ∧ t.toNat ∈ targets
  | _ => False

/-- The expression is at the same point: the same values wait, and the results
below `n` that can be stored to can still be. -/
structure SamePoint (n : Nat) (e e' : ExpressionState) : Prop where
  pending : e'.pending = e.pending
  count : e'.count = e.count
  targets : ∀ l < n, l ∈ e.storeTargets → l ∈ e'.storeTargets

/-- **Writing a value.** -/
theorem write_linked {x : Evaluation W} {t : Operand} {bt : Binding} {w : W}
    (h : Linked T known d below base f m x.memory x.results k σ) (ha : Apart W known)
    (hpin : f.pinned = []) (hsize : 2 ≤ f.size) (hlen : σ.length + 2 < 2 ^ 63)
    (ht : t.binding? = some bt) (htarget : Assignable known k e.storeTargets t)
    (ho : o.binding? = some b) (hb : b.Available known k)
    (hR : Consumes (b.results ++ bt.results) n k) (hw : T.bound x.memory x.results b = w) :
    ∃ r f' e' m' σ' mem, Steps T (write fn t o) f e m r f' e' m' ∧
      x.assigned? t w = some mem ∧ Linked T known d below base f' m' mem x.results n σ' ∧
      Gathered 2 n [] f m σ f' m' σ' ∧ f'.pinned = [] ∧ m'.regs r = w ∧ SamePoint n e e' := by
  cases t with
  | var v =>
    cases ht
    rw [show (Binding.var v).results = [] from rfl, List.append_nil] at hR
    obtain ⟨r, f', m', σ', hsteps, h', hg, hpin', hr⟩ := write_variable_linked fn (e := e)
      h ha hpin hsize (by omega) htarget.1 htarget.2 ho hb hR hw
    exact ⟨r, f', e, m', σ', _, hsteps, rfl, h', hg, hpin', hr, rfl, rfl, fun _ _ hl => hl⟩
  | intermediate t =>
    cases ht
    obtain ⟨r, f', m', σ', hsteps, h', hg, hpin', hr⟩ := write_address_linked fn (e := e)
      h ha hpin hsize hlen htarget.1 htarget.2 ho hb hR hw
    refine ⟨r, f', _, m', σ', _, hsteps, rfl, h', hg, hpin', hr, rfl, rfl, fun l hl hmem => ?_⟩
    -- earlier results are not consumed, so their addresses stay
    have hne : l ≠ t.toNat := by
      rintro rfl
      have : n ≤ t.toNat := hR.le (List.mem_append_right _ List.mem_cons_self)
      omega
    simpa using ⟨hmem, hne⟩
  | constant | result | parameter => cases htarget

/-- **An assignment whose value is used.** -/
theorem assign_linked {x : Evaluation W} {t : Operand} {bt : Binding} {w : W} {rest : List Element}
    (h : Linked T known d below base f m x.memory x.results k σ) (ha : Apart W known)
    (hpin : f.pinned = []) (hsize : 2 ≤ f.size) (hlen : σ.length + 2 < 2 ^ 63)
    (ht : t.binding? = some bt) (htarget : Assignable known k e.storeTargets t)
    (ho : o.binding? = some b) (hb : b.Available known k)
    (hR : Consumes (b.results ++ bt.results) n k) (hw : T.bound x.memory x.results b = w)
    (hneeded : resultNeeded n rest = true) :
    ∃ r f' e' m' σ' mem, Steps T (assign fn t o n rest) f e m r f' e' m' ∧
      x.assigned? t w = some mem ∧
      Produced T known d below base mem x.results n w r f m σ f' m' σ' ∧ SamePoint n e e' := by
  obtain ⟨r, f₁, e₁, m₁, σ₁, mem, hwrite, hassigned, h₁, hg, hpin₁, hr, hpoint⟩ :=
    write_linked fn h ha hpin hsize hlen ht htarget ho hb hR hw
  obtain ⟨g, f', m', σ', hresult, hregs, -, hproduced⟩ :=
    result_linked (e := e₁) h₁ hg (Nat.le_refl 2) (Consumes.nil n) (by omega)
  refine ⟨.general g, f', e₁, m'.set (.general g) w, σ', mem, ?_, hassigned, hproduced w, hpoint⟩
  -- the value of the assignment is a result of its own
  have hmov : m'.step T (.instruction .mov [.reg (.general g), .reg r] none) =
      some (m'.toMachine.set (.general g) w) := by
    rw [← hr, ← hregs]
    rfl
  unfold assign
  simp only [hneeded, if_true]
  exact hwrite.bind (hresult.bind ((Steps.instruction rfl hmov).bind (Steps.pure _)))

end Lower

end WordC
