import Mathlib
import WordC.Proofs.Expression.WellFormed
import WordC.Proofs.Lowering.Calls
import WordC.Lowering.Body
/-!
# Lowering the elements of an expression

`Lowers` says of a row of elements that lowering succeeds, that the machine can
run the lines, and that what comes out still agrees with the evaluation of the
same elements. Rows are put together by `Lowers.append`; here is one row for
each element an expression can have.
-/

namespace WordC

open RegisterFile

variable {W : Type}

theorem Operator.producesValue_of_isUnary {op : Operator} (h : op.isUnary = true) :
    op.producesValue = true := by
  cases op with
  | argument | possibleArgument => cases h
  | _ => rfl

/-- No value is held twice. -/
theorem HoldsValues.bindingsUnique {T : Target W} {known : Variable → Prop} {f : RegisterFile}
    {m : Machine W} {mem : Memory W} {ρ : Nat → W} (h : HoldsValues T known f m mem ρ) :
    f.bindingsUnique = true := by
  rw [RegisterFile.bindingsUnique, decide_eq_true_eq, bindings, List.Nodup, List.pairwise_filterMap,
    List.pairwise_iff_getElem]
  intro i j hi hj hij b hb b' hb' heq
  subst heq
  have hbind : ∀ l (hl : l < f.registers.length), f.registers[l].binding = some b →
      f.bindingAt l = some b := fun l hl h => by simp [bindingAt, List.getElem?_eq_getElem hl, h]
  exact Nat.ne_of_lt hij (h.unique i j b (hbind i hi hb) (hbind j hj hb'))

/-- A point between two elements of an expression: the register file and the
expression as lowering has them, the machine that has run the lines so far, the
evaluation, and what the pushed words are. -/
structure Point (W : Type) where
  file : RegisterFile
  expression : ExpressionState
  machine : Traced W
  evaluation : Evaluation W
  stack : List (Slot W)

/-- **Lowering and evaluation agree** at a point. -/
structure Point.Tracks (T : Target W) (known : Variable → Prop) (d : Nat) (below : List W) (base : List Pushed)
    (p : Point W) : Prop where
  linked : Linked T known d below base p.file p.machine p.evaluation.memory p.evaluation.results
    p.evaluation.count p.stack
  pinned : p.file.pinned = []
  pending : p.expression.pending = p.evaluation.pending
  count : p.expression.count = p.evaluation.count
  args : (passedArgs p.stack).map Prod.snd = p.evaluation.args
  waiting : (passedArgs p.stack).map Prod.fst = p.machine.trace.calls.waiting

/-- How many words each call among the elements takes. -/
def arities (code : List Element) : List Nat :=
  code.filterMap fun
    | .operand (.result c) => some c.arity.toNat
    | _ => none

@[simp] theorem arities_append (code code' : List Element) :
    arities (code ++ code') = arities code ++ arities code' :=
  List.filterMap_append

/-- The nesting of counted loops does not matter to an expression. -/
theorem element_operand (fn : Function) (nesting : Nat) (o : Operand) (rest : List Element) :
    Lower.element fn nesting (.operand o) rest =
      Lower.onAssembler (Assemble.record (.takes (.operand o))) >>= fun _ => Lower.operand o := by
  cases nesting <;> rfl

theorem element_operator (fn : Function) (nesting : Nat) (op : Operator) (rest : List Element) :
    Lower.element fn nesting (.operator op) rest =
      Lower.onAssembler (Assemble.record (.takes (.operator op))) >>= fun _ =>
        Lower.operator fn op rest := by
  cases nesting <;> rfl

@[simp] theorem forFirst_zero (action : Element → List Element → Lower Unit)
    (rest : List Element) : forFirst action rest 0 = pure () := by
  cases rest <;> rfl

/-- Lowering one step at a time splits where the row does. -/
theorem forFirst_append (action : Element → List Element → Lower Unit)
    (code code' rest : List Element) :
    forFirst action ((code ++ code') ++ rest) (code ++ code').length =
      forFirst action (code ++ (code' ++ rest)) code.length >>= fun _ =>
        forFirst action (code' ++ rest) code'.length := by
  induction code with
  | nil => simp
  | cons e code ih =>
    simp only [List.cons_append, List.length_cons, forFirst, bind_assoc, List.append_assoc] at ih ⊢
    rw [ih]

variable [DecidableEq W]

/-- **The elements `code`, followed by `rest`, are lowered from `p` to `q`.** The
results below `n` that can be stored to can still be. -/
structure Lowers (T : Target W) (known : Variable → Prop) (d : Nat) (below : List W) (base : List Pushed)
    (fn : Function) (nesting : Nat) (code rest : List Element) (n : Nat) (p q : Point W) : Prop where
  steps : Steps T (forFirst (Lower.element fn nesting) (code ++ rest) code.length)
    p.file p.expression p.machine () q.file q.expression q.machine
  run : Evaluation.run T code p.evaluation = some q.evaluation
  tracks : q.Tracks T known d below base
  calls : p.machine.calls = arities code ++ q.machine.calls
  targets : ∀ l < n, l ∈ p.expression.storeTargets → l ∈ q.expression.storeTargets

namespace Lowers

variable {T : Target W} {known : Variable → Prop} {d : Nat} {below : List W} {base : List Pushed} {fn : Function}
variable {nesting n : Nat} {code code' rest : List Element} {p q s : Point W}

theorem nil (h : p.Tracks T known d below base) : Lowers T known d below base fn nesting [] rest n p p where
  steps := by
    rw [List.length_nil, forFirst_zero]
    exact Steps.pure ()
  run := rfl
  tracks := h
  calls := rfl
  targets _ _ hl := hl

/-- One row after the other. -/
theorem append (h : Lowers T known d below base fn nesting code (code' ++ rest) n p q)
    (h' : Lowers T known d below base fn nesting code' rest n q s) :
    Lowers T known d below base fn nesting (code ++ code') rest n p s where
  steps := by
    rw [forFirst_append]
    exact h.steps.bind h'.steps
  run := by
    rw [Evaluation.run_append, h.run]
    exact h'.run
  tracks := h'.tracks
  calls := by rw [h.calls, h'.calls, arities_append, List.append_assoc]
  targets l hl hmem := h'.targets l hl (h.targets l hl hmem)

/-- More results may be read. -/
theorem mono {n' : Nat} (h : Lowers T known d below base fn nesting code rest n p q) (hn : n' ≤ n) :
    Lowers T known d below base fn nesting code rest n' p q :=
  { h with targets := fun l hl => h.targets l (hl.trans_le hn) }

/-- A single element. -/
theorem steps_single {e : Element} {x x' : ExpressionState} {f f' : RegisterFile}
    {m m' : Traced W} (h : Steps T (Lower.element fn nesting e rest) f x m () f' x' m') :
    Steps T (forFirst (Lower.element fn nesting) ([e] ++ rest) [e].length) f x m () f' x' m' :=
  h.bind (by rw [forFirst_zero]; exact Steps.pure ())

end Lowers

/-! ## Operands -/

/-- The point after an operand that waits for its operator. -/
def Point.push (p : Point W) (o : Operand) : Point W :=
  { p with
    expression := { p.expression with
      pending := o :: p.expression.pending
      hasValues := true }
    machine := p.machine.take (.operand o)
    evaluation := { p.evaluation with pending := o :: p.evaluation.pending } }

section Elements

variable {T : Target W} {known : Variable → Prop} {d : Nat} {below : List W} {base : List Pushed} {fn : Function}
variable {nesting n : Nat} {rest : List Element} {p q : Point W}

/-- An operand that is no call waits. -/
theorem lowers_operand (fn : Function) (nesting : Nat) (rest : List Element)
    (h : p.Tracks T known d below base) {o : Operand} (ho : ∀ c, o ≠ .result c) :
    Lowers T known d below base fn nesting [.operand o] rest n p (p.push o) where
  steps := by
    have hpush := Steps.onExpression (T := T) (f := p.file) (e := p.expression)
      (m := p.machine.take (.operand o))
      fun x => { x with pending := o :: x.pending, hasValues := true }
    refine Lowers.steps_single ?_
    rw [element_operand]
    refine (Steps.takes _ h.linked.stack.length_kinds).bind ?_
    -- no operand but a call's result does anything now
    cases o with
    | result c => exact absurd rfl (ho c)
    | _ => exact hpush
  run := by
    cases o with
    | result c => exact absurd rfl (ho c)
    | _ => rfl
  tracks := ⟨h.linked.take _, h.pinned, congrArg (o :: ·) h.pending, h.count, h.args,
    h.waiting.trans (CallTrace.waiting_take_operand _ ho).symm⟩
  calls := by
    cases o with
    | result c => exact absurd rfl (ho c)
    | _ => rfl
  targets _ _ hl := hl

/-! ## Operators -/

namespace Evaluation

variable {x : Evaluation W} {op : Operator} {o o' : Operand} {P : List Operand} {v v' w : W}

omit [DecidableEq W] in
/-- What yielding a result leaves, once the number of the result is known. -/
theorem yield_eq {operands : List Operand} (hp : x.pending = operands.reverse ++ P)
    (hn : n = x.count - operands.countP Operand.isIntermediate) (w : W) :
    x.yield operands w = { x with
      pending := P
      count := n + 1
      results := Function.update x.results n w } := by
  subst hn
  have hdrop : x.pending.drop operands.length = P := by
    rw [hp, ← List.length_reverse, List.drop_left]
  simp only [yield, hdrop]

theorem applied?_unary (hop : op.isUnary = true) (hp : x.pending = o :: P)
    (hv : x.value? T o = some v) (hw : x.unary? T op v = some w) :
    x.applied? T op = some (x.yield [o] w) := by
  cases op with
  | logicalNot | bitwiseNot | unaryPlus | unaryMinus | dereference | dereferenceStore =>
    simp [applied?, hp, Operator.isUnary, hv, hw]
  | _ => cases hop

/-- The operator stands between two values and is no assignment. -/
theorem applied?_binary (hop : op.joins = true) (hp : x.pending = o' :: o :: P)
    (hv : x.value? T o = some v) (hv' : x.value? T o' = some v')
    (hw : x.binary? T op v v' = some w) : x.applied? T op = some (x.yield [o, o'] w) := by
  cases op with
  | logicalNot | bitwiseNot | unaryPlus | unaryMinus | dereference | dereferenceStore | assign
  | argument | possibleArgument => cases hop
  | _ => simp [applied?, hp, Operator.isUnary, hv, hv', hw]

theorem applied?_assign {mem : Memory W} (hp : x.pending = o' :: o :: P)
    (hv : x.value? T o' = some w) (hmem : x.assigned? o w = some mem) :
    x.applied? T .assign = some ({ x with memory := mem }.yield [o, o'] w) := by
  simp [applied?, hp, hv, hmem]

theorem applied?_argument {slot : UInt64} (hp : x.pending = o :: .parameter slot :: P)
    (hv : x.value? T o = some w) :
    x.applied? T .argument = some { x with
      pending := P
      count := x.count - [o].countP Operand.isIntermediate
      args := w :: x.args } := by
  simp [applied?, hp, hv]

end Evaluation

/-- The expression when an operator has taken its operands. -/
def ExpressionState.taken (e : ExpressionState) (op : Operator) (pending : List Operand) (n : Nat) :
    ExpressionState :=
  { e with pending, count := if op.producesValue then n + 1 else n, hasValues := true }

/-- The expression after an operator, whose result is in a register if it has
one. -/
def ExpressionState.noted (e : ExpressionState) : Option Reg → ExpressionState
  | some r => { e with lastResult := some r }
  | none => e

/-- **An operator** takes its operands and is applied to them. -/
theorem steps_operator {op : Operator} (operands : List Operand) {P : List Operand} {r : Option Reg}
    {f f' : RegisterFile} {e e' : ExpressionState} {m m' : Traced W}
    (hpending : e.pending = operands.reverse ++ P) (harity : operands.length = op.arity)
    (hn : n = e.count - operands.countP Operand.isIntermediate)
    (h : Steps T (Lower.apply fn op operands n rest) f (e.taken op P n) m r f' e' m')
    (hunique : f'.bindingsUnique = true) :
    Steps T (Lower.operator fn op rest) f e m () f' (e'.noted r) m' := by
  have hle : ¬ e.pending.length < op.arity := by
    rw [hpending, List.length_append, List.length_reverse]
    omega
  -- the operands lie on the stack in reverse
  have htake : (e.pending.take op.arity).reverse = operands := by
    rw [hpending, ← harity, ← List.length_reverse, List.take_left, List.reverse_reverse]
  have hdrop : e.pending.drop op.arity = P := by
    rw [hpending, ← harity, ← List.length_reverse, List.drop_left]
  subst hn
  refine Steps.get fun s _ hs => ?_
  simp only [hs, hle, if_false, htake]
  refine (Steps.onExpression _).bind ?_
  rw [hdrop]
  refine Steps.bind h ?_
  have hcheck : ∀ e, Steps T (do
      let f ← liftM Assemble.file
      if !f.bindingsUnique then throw LoweringError.valueHeldTwice : Lower Unit) f' e m' () f' e m' := by
    intro e
    refine Steps.bind (Steps.lift Runs.file) ?_
    rw [hunique]
    exact Steps.pure ()
  cases r with
  | none => exact hcheck e'
  | some r => exact (Steps.onExpression _).bind (hcheck _)

/-- Result `n` was produced, with the operands `P` still waiting. -/
structure Yields (n : Nat) (P : List Operand) (p q : Point W) : Prop where
  pending : q.evaluation.pending = P
  count : q.evaluation.count = n + 1
  passed : passedArgs q.stack = passedArgs p.stack
  callStarts : q.file.callStarts = p.file.callStarts
  frame : Framed 3 n p.file p.stack q.file q.stack
  result : ∃ i, q.file.bindingAt i = some (.intermediate n) ∧
    q.expression.lastResult = some (q.file.regAt i)

/-- An operator with a result, once its instructions are known to produce it. -/
theorem lowers_produced (fn : Function) (nesting : Nat) (rest : List Element) {op : Operator}
    (operands : List Operand) {P : List Operand} {mem : Memory W} {w : W} {r : Reg}
    {f' : RegisterFile} {e' : ExpressionState} {m' : Traced W} {σ' : List (Slot W)}
    (h : p.Tracks T known d below base) (hpending : p.evaluation.pending = operands.reverse ++ P)
    (harity : operands.length = op.arity) (hvalue : op.producesValue = true)
    (hn : n = p.evaluation.count - operands.countP Operand.isIntermediate)
    (hsteps : Steps T (Lower.apply fn op operands n rest) p.file (p.expression.taken op P n)
      (p.machine.take (.operator op)) (some r) f' e' m')
    (hpoint : Lower.SamePoint n (p.expression.taken op P n) e')
    (happly : p.evaluation.applied? T op =
      some ({ p.evaluation with memory := mem }.yield operands w))
    (hproduced : Produced T known d below base mem p.evaluation.results n w r p.file
      (p.machine.take (.operator op)) p.stack f' m' σ') :
    ∃ q, Lowers T known d below base fn nesting [.operator op] rest n p q ∧ Yields n P p q ∧
      q.expression.storeTargets = e'.storeTargets := by
  have htaken : (p.expression.taken op P n).count = n + 1 := by
    simp [ExpressionState.taken, hvalue]
  have hwaiting : p.machine.trace.calls.waiting = m'.trace.calls.waiting := by
    have hne : op ≠ .argument := by
      rintro rfl
      cases hvalue
    rw [show m'.trace.calls = (p.machine.take (.operator op)).trace.calls from
      congrArg Prod.snd hproduced.coming]
    exact (CallTrace.waiting_take_operator _ hne).symm
  obtain ⟨i, hi, hr⟩ := hproduced.bound
  -- the evaluation after the operator, which has to be where the machine is
  let x' : Evaluation W := { p.evaluation with
    memory := mem
    pending := P
    count := n + 1
    results := Function.update p.evaluation.results n w }
  have happly : p.evaluation.applied? T op = some x' :=
    happly.trans (congrArg some
      (Evaluation.yield_eq (x := { p.evaluation with memory := mem }) hpending hn w))
  refine ⟨⟨f', { e' with lastResult := some r }, m', x', σ'⟩, ⟨?_, ?_, ⟨hproduced.linked,
    hproduced.pinned, hpoint.pending, hpoint.count.trans htaken, hproduced.passed ▸ h.args,
    hproduced.passed ▸ h.waiting.trans hwaiting⟩,
    (congrArg Prod.fst hproduced.coming).symm, hpoint.targets⟩,
    ⟨rfl, rfl, hproduced.passed, hproduced.callStarts, hproduced.frame, i, hi, congrArg some hr⟩, rfl⟩
  · refine Lowers.steps_single ?_
    rw [element_operator]
    refine (Steps.takes _ h.linked.stack.length_kinds).bind ?_
    exact steps_operator operands (h.pending.trans hpending) harity (h.count ▸ hn) hsteps
      hproduced.linked.holds.bindingsUnique
  · simp only [Evaluation.run, Evaluation.step, happly]
    rfl

theorem samePoint_withTarget (op : Operator) (n : Nat) (e : ExpressionState) :
    Lower.SamePoint n e (Lower.withTarget op n e) := by
  unfold Lower.withTarget
  split
  · exact ⟨rfl, rfl, fun l _ hl => List.mem_cons_of_mem n hl⟩
  · exact ⟨rfl, rfl, fun l _ hl => hl⟩

/-- **An operator with one operand.** -/
theorem lowers_unary (fn : Function) (nesting : Nat) (rest : List Element)
    {op : Operator} {o : Operand} {b : Binding} {P : List Operand}
    (h : p.Tracks T known d below base) (ha : Apart W known) (hsize : 2 ≤ p.file.size)
    (hlen : p.stack.length + 2 < 2 ^ 63) (hop : op.isUnary = true)
    (hpending : p.evaluation.pending = o :: P) (ho : o.binding? = some b)
    (hb : b.Available known p.evaluation.count) (hR : Consumes b.results n p.evaluation.count)
    (hn : n = p.evaluation.count - [o].countP Operand.isIntermediate) :
    ∃ q, Lowers T known d below base fn nesting [.operator op] rest n p q ∧ Yields n P p q ∧
      (op = .dereferenceStore → n ∈ q.expression.storeTargets) := by
  have hvalue := p.evaluation.value?_of_binding (T := T) ho
  obtain ⟨w, hw⟩ : ∃ w, p.evaluation.unary? T op
      (T.bound p.evaluation.memory p.evaluation.results b) = some w := by
    cases op with
    | logicalNot | bitwiseNot | unaryPlus | unaryMinus | dereference | dereferenceStore =>
      exact ⟨_, rfl⟩
    | _ => cases hop
  obtain ⟨r, f', m', σ', hsteps, hproduced⟩ := Lower.unary_linked fn
    (e := p.expression.taken op P n) (h.linked.take _) ha h.pinned (by omega) (by omega) ho hb hR hw
  obtain ⟨q, hq, hyields, htargets⟩ := lowers_produced fn nesting rest [o] h hpending
    (by simp [Operator.arity, hop]) (Operator.producesValue_of_isUnary hop) hn
    (hsteps.bind (Steps.pure _)) (samePoint_withTarget op n _)
    (Evaluation.applied?_unary hop hpending hvalue hw) hproduced
  refine ⟨q, hq, hyields, fun heq => ?_⟩
  rw [htargets, heq]
  exact List.mem_cons_self

/-- **An operator with two operands** that is no assignment. -/
theorem lowers_binary (fn : Function) (nesting : Nat) (rest : List Element)
    {op : Operator} {o o' : Operand} {b b' : Binding} {P : List Operand}
    (h : p.Tracks T known d below base) (ha : Apart W known) (hsize : 2 ≤ p.file.size)
    (hlen : p.stack.length + 2 < 2 ^ 63) (hop : op.joins = true)
    (hpending : p.evaluation.pending = o' :: o :: P) (ho : o.binding? = some b)
    (hb : b.Available known p.evaluation.count) (ho' : o'.binding? = some b')
    (hb' : b'.Available known p.evaluation.count)
    (hR : Consumes (b'.results ++ b.results) n p.evaluation.count)
    (hn : n = p.evaluation.count - [o, o'].countP Operand.isIntermediate) :
    ∃ q, Lowers T known d below base fn nesting [.operator op] rest n p q ∧ Yields n P p q ∧
      (op = .indexStore → n ∈ q.expression.storeTargets) := by
  obtain ⟨hunary, hargument, hassign⟩ :
      op.isUnary = false ∧ op.isArgument = false ∧ op ≠ .assign := by
    simpa [Operator.joins, and_assoc] using hop
  obtain ⟨w, hw⟩ : ∃ w, p.evaluation.binary? T op
      (T.bound p.evaluation.memory p.evaluation.results b)
      (T.bound p.evaluation.memory p.evaluation.results b') = some w := by
    cases op with
    | logicalNot | bitwiseNot | unaryPlus | unaryMinus | dereference | dereferenceStore | assign
    | argument | possibleArgument => cases hop
    | _ => exact ⟨_, rfl⟩
  obtain ⟨r, f', m', σ', hsteps, hproduced⟩ := Lower.binary_linked fn
    (e := p.expression.taken op P n) (h.linked.take _) ha h.pinned hsize hlen ho hb ho' hb' hR hw
  have happly : Lower.apply fn op [o, o'] n rest =
      Lower.binary fn op o o' n >>= fun r => pure (some r) := by
    simp only [Lower.apply, hargument, hassign, Bool.false_eq_true, if_false]
  obtain ⟨q, hq, hyields, htargets⟩ := lowers_produced fn nesting rest [o, o'] h
    hpending (by simp [Operator.arity, hunary]) (by simp [Operator.producesValue, hargument]) hn
    (by rw [happly]; exact hsteps.bind (Steps.pure _)) (samePoint_withTarget op n _)
    (Evaluation.applied?_binary hop hpending (p.evaluation.value?_of_binding ho)
      (p.evaluation.value?_of_binding ho') hw) hproduced
  refine ⟨q, hq, hyields, fun heq => ?_⟩
  rw [htargets, heq]
  exact List.mem_cons_self

/-- **An assignment whose value is used.** -/
theorem lowers_assign (fn : Function) (nesting : Nat) (rest : List Element)
    {o t : Operand} {b bt : Binding} {P : List Operand}
    (h : p.Tracks T known d below base) (ha : Apart W known) (hsize : 2 ≤ p.file.size)
    (hlen : p.stack.length + 2 < 2 ^ 63) (hpending : p.evaluation.pending = o :: t :: P)
    (ht : t.binding? = some bt)
    (htarget : Lower.Assignable known p.evaluation.count p.expression.storeTargets t)
    (ho : o.binding? = some b) (hb : b.Available known p.evaluation.count)
    (hR : Consumes (b.results ++ bt.results) n p.evaluation.count)
    (hn : n = p.evaluation.count - [t, o].countP Operand.isIntermediate)
    (hneeded : Lower.resultNeeded n rest = true) :
    ∃ q, Lowers T known d below base fn nesting [.operator .assign] rest n p q ∧ Yields n P p q := by
  obtain ⟨r, f', e', m', σ', mem, hsteps, hassigned, hproduced, hpoint⟩ :=
    Lower.assign_linked fn (e := p.expression.taken .assign P n) (h.linked.take _) ha h.pinned hsize
      hlen ht htarget ho hb hR rfl hneeded
  obtain ⟨q, hq, hyields, -⟩ := lowers_produced fn nesting rest [t, o] h hpending
    rfl rfl hn (hsteps.bind (Steps.pure _)) hpoint
    (Evaluation.applied?_assign hpending (p.evaluation.value?_of_binding ho) hassigned) hproduced
  exact ⟨q, hq, hyields⟩

/-- **An assignment at the end of an expression.** Its value is no result, but it
is in a register. -/
theorem lowers_last_assign (fn : Function) (nesting : Nat) (rest : List Element)
    {o t : Operand} {b bt : Binding} {P : List Operand}
    (h : p.Tracks T known d below base) (ha : Apart W known) (hsize : 2 ≤ p.file.size)
    (hlen : p.stack.length + 2 < 2 ^ 63) (hpending : p.evaluation.pending = o :: t :: P)
    (ht : t.binding? = some bt)
    (htarget : Lower.Assignable known p.evaluation.count p.expression.storeTargets t)
    (ho : o.binding? = some b) (hb : b.Available known p.evaluation.count)
    (hR : Consumes (b.results ++ bt.results) n p.evaluation.count)
    (hn : n = p.evaluation.count - [t, o].countP Operand.isIntermediate)
    (hneeded : Lower.resultNeeded n rest = false) :
    ∃ q : Point W, Steps T (forFirst (Lower.element fn nesting) ([.operator .assign] ++ rest) 1)
        p.file p.expression p.machine () q.file q.expression q.machine ∧
      Evaluation.run T [.operator .assign] p.evaluation = some q.evaluation ∧
      Linked T known d below base q.file q.machine q.evaluation.memory q.evaluation.results n q.stack ∧
      q.file.pinned = [] ∧ q.expression.pending = P ∧ q.evaluation.pending = P ∧
      (∃ r, q.expression.lastResult = some r ∧ q.machine.regs r = q.evaluation.results n) ∧
      Framed 3 n p.file p.stack q.file q.stack ∧ passedArgs q.stack = passedArgs p.stack ∧
      q.file.callStarts = p.file.callStarts ∧ q.machine.calls = p.machine.calls ∧
      q.machine.trace.calls.waiting = p.machine.trace.calls.waiting := by
  obtain ⟨r, f', e', m', σ', mem, hwrite, hassigned, h', hg, hpin, hr, hpoint⟩ :=
    Lower.write_linked fn (e := p.expression.taken .assign P n) (h.linked.take (.operator .assign)) ha h.pinned hsize
      hlen ht htarget ho hb hR rfl
  let w := T.bound p.evaluation.memory p.evaluation.results b
  let x' : Evaluation W := { p.evaluation with
    memory := mem
    pending := P
    count := n + 1
    results := Function.update p.evaluation.results n w }
  have happly : p.evaluation.applied? T .assign = some x' :=
    (Evaluation.applied?_assign hpending (p.evaluation.value?_of_binding ho) hassigned).trans
      (congrArg some (Evaluation.yield_eq (x := { p.evaluation with memory := mem }) hpending hn w))
  -- nothing that waits depends on the number of the value
  have hlinked : Linked T known d below base f' m' mem x'.results n σ' := by
    refine ⟨h'.holds.results_congr fun i l hi => ?_, h'.stack.results_congr fun l hl => ?_, h'.top,
      h'.results⟩
    · exact Function.update_of_ne (Nat.ne_of_lt (h'.results.inRegister i l hi)) _ _
    · exact Function.update_of_ne (Nat.ne_of_lt (h'.results.onStack l (mem_spilled.2 hl))) _ _
  refine ⟨⟨f', { e' with lastResult := some r }, m', x', σ'⟩, ?_, ?_, hlinked, hpin,
    hpoint.pending, rfl, ⟨r, rfl, ?_⟩, hg.frame.mono (by omega) (Nat.le_refl n), hg.passed,
    hg.callStarts, congrArg Prod.fst hg.coming, congrArg (·.2.waiting) hg.coming⟩
  · refine Lowers.steps_single ?_
    rw [element_operator]
    refine (Steps.takes _ h.linked.stack.length_kinds).bind ?_
    have hassign : Steps T (Lower.assign fn t o n rest) p.file (p.expression.taken .assign P n)
        (p.machine.take (.operator .assign)) r f' e' m' := by
      unfold Lower.assign
      simp only [hneeded, Bool.false_eq_true, if_false]
      exact hwrite.bind (Steps.pure r)
    exact steps_operator [t, o] (r := some r) (h.pending.trans hpending) rfl
      (h.count ▸ hn) (hassign.bind (Steps.pure _)) h'.holds.bindingsUnique
  · simp only [Evaluation.run, Evaluation.step, happly]
    rfl
  · rw [hr]
    exact (Function.update_self n w p.evaluation.results).symm

/-! ## Calls -/

/-- **Passing an argument.** -/
theorem lowers_argument (fn : Function) (nesting : Nat) (rest : List Element)
    {slot : UInt64} {o : Operand} {b : Binding} {P : List Operand}
    (h : p.Tracks T known d below base) (ha : Apart W known) (hsize : 2 ≤ p.file.size)
    (hlen : p.stack.length + 2 < 2 ^ 63)
    (hpending : p.evaluation.pending = o :: .parameter slot :: P) (ho : o.binding? = some b)
    (hb : b.Available known p.evaluation.count) (hR : Consumes b.results n p.evaluation.count)
    (hn : n = p.evaluation.count - [o].countP Operand.isIntermediate) :
    ∃ q a σ', Lowers T known d below base fn nesting [.operator .argument] rest n p q ∧
      q.stack = .passed a :: σ' ∧ q.evaluation.pending = P ∧ q.evaluation.count = n ∧
      (∀ τ, σ' ≠ .read :: τ) ∧
      Framed (p.file.size + 1) n p.file p.stack q.file σ' ∧
      passedArgs σ' = passedArgs p.stack ∧
      q.file.callStarts = Lower.startsAt slot (d + σ'.length) p.file.callStarts ∧
      (slot = 0 → ∀ l < n, .result l ∈ σ') := by
  obtain ⟨f', m', σ', hsteps, h', hpin, htop, hframe, hpassed, hcoming, hstarts, hfirst⟩ :=
    Lower.argument_linked fn slot (e := p.expression.taken .argument P n)
      (h.linked.take (.operator .argument)) ha h.pinned hsize (by omega) ho hb hR rfl
  -- an argument yields no result, so the count goes back to `n` and no further
  let w := T.bound p.evaluation.memory p.evaluation.results b
  let x' : Evaluation W :=
    { p.evaluation with pending := P, count := n, args := w :: p.evaluation.args }
  have happly : p.evaluation.applied? T .argument = some x' := by
    rw [Evaluation.applied?_argument hpending (p.evaluation.value?_of_binding ho), ← hn]
  refine ⟨⟨f', p.expression.taken .argument P n, m', x',
    .passed (p.machine.trace.calls.element + 1, w) :: σ'⟩, _, σ', ⟨?_, ?_,
    ⟨h', hpin, rfl, rfl, ?_, ?_⟩, (congrArg Prod.fst hcoming).symm, fun l _ hl => hl⟩, rfl, rfl, rfl,
    htop, hframe, hpassed, hstarts, hfirst⟩
  · refine Lowers.steps_single ?_
    rw [element_operator]
    refine (Steps.takes _ h.linked.stack.length_kinds).bind ?_
    refine steps_operator [.parameter slot, o] (r := none) (P := P)
      (h.pending.trans hpending) rfl ?_ (hsteps.bind (Steps.pure _)) h'.holds.bindingsUnique
    rw [h.count, hn]
    rfl
  · simp only [Evaluation.run, Evaluation.step, happly]
    rfl
  · rw [passedArgs_passed, hpassed, List.map_cons, h.args]
  · rw [passedArgs_passed, hpassed, List.map_cons, h.waiting]
    exact (congrArg (·.2.waiting) hcoming).symm

/-- **A call**, whose arguments lie on top of the stack. -/
theorem lowers_call (fn : Function) (nesting : Nat) (rest : List Element)
    {c : CallRef} {as : List (Nat × W)} {σ : List (Slot W)} {starts calls : List Nat}
    (h : p.Tracks T known d below base) (hstack : p.stack = as.map .passed ++ σ)
    (htop : ∀ τ, σ ≠ .read :: τ) (hsize : 0 < p.file.size)
    (hstarts : p.file.callStarts = Assemble.startsWith as (d + σ.length) starts)
    (hcalls : p.machine.calls = as.length :: calls) (harity : c.arity.toNat = as.length) :
    ∃ q, Lowers T known d below base fn nesting [.operand (.result c)] rest n p q ∧
      q.evaluation.pending = p.evaluation.pending ∧
      q.evaluation.count = p.evaluation.count + 1 ∧ passedArgs q.stack = passedArgs σ ∧
      q.file.callStarts = starts ∧ Framed 3 p.evaluation.count p.file σ q.file q.stack ∧
      ∃ i, q.file.bindingAt i = some (.intermediate p.evaluation.count) ∧
        q.expression.lastResult = some (q.file.regAt i) := by
  have hlinked := h.linked
  rw [hstack] at hlinked
  have hpassed₀ : passedArgs p.stack = as ++ passedArgs σ := by
    rw [hstack, passedArgs_append, passedArgs_map_passed]
  have hwaiting : p.machine.trace.calls.waiting =
      as.map Prod.fst ++ (passedArgs σ).map Prod.fst := by
    rw [← h.waiting, hpassed₀, List.map_append]
  -- the arguments that are due are the ones on top, since inner calls have taken theirs
  have hdue : (p.machine.take (.operand (.result c))).trace.calls.due = as.map Prod.fst := by
    change p.machine.trace.calls.waiting.take c.arity.toNat = _
    rw [hwaiting, harity, List.take_left' (by simp)]
  obtain ⟨r, f', m', σ', hsteps, h', hpin, ⟨i, hi, hr⟩, hframe, hstarts', hcoming, hpassed⟩ :=
    Lower.call_linked (hlinked.take (.operand (.result c))) htop h.pinned hsize h.count hstarts
      hcalls hdue harity harity
  have hargs : p.evaluation.args = as.map Prod.snd ++ (passedArgs σ).map Prod.snd := by
    rw [← h.args, hpassed₀, List.map_append]
  -- the callee sees its arguments in the order in which they were written
  let y := T.call c.name (as.map Prod.snd).reverse p.evaluation.memory
  let x' : Evaluation W := { p.evaluation with
    memory := y.2
    count := p.evaluation.count + 1
    results := Function.update p.evaluation.results p.evaluation.count y.1
    args := (passedArgs σ).map Prod.snd }
  have hcall : p.evaluation.call? T c = some x' := by
    have hle : as.length ≤ (as.map Prod.snd ++ (passedArgs σ).map Prod.snd).length := by simp
    have htake : (as.map Prod.snd ++ (passedArgs σ).map Prod.snd).take as.length =
        as.map Prod.snd := List.take_left' (by simp)
    have hdrop : (as.map Prod.snd ++ (passedArgs σ).map Prod.snd).drop as.length =
        (passedArgs σ).map Prod.snd := List.drop_left' (by simp)
    simp only [Evaluation.call?, harity, hargs, hle, if_true, htake, hdrop]
    rfl
  let e' : ExpressionState := { p.expression with
    hasValues := true
    count := p.evaluation.count + 1
    lastResult := some r }
  refine ⟨⟨f', e', m', x', σ'⟩, ⟨?_, ?_, ⟨h', hpin, h.pending, rfl, congrArg _ hpassed, ?_⟩, ?_,
    fun _ _ hl => hl⟩, rfl, rfl, hpassed, hstarts', hframe, i, hi, congrArg some hr⟩
  · refine Lowers.steps_single ?_
    rw [element_operand]
    exact (Steps.takes _ h.linked.stack.length_kinds).bind hsteps
  · simp only [Evaluation.run, Evaluation.step, hcall]
    rfl
  · rw [show m'.trace.calls = (p.machine.take (.operand (.result c))).trace.calls from
      congrArg Prod.snd hcoming, hpassed]
    change _ = p.machine.trace.calls.waiting.drop c.arity.toNat
    rw [hwaiting, harity, List.drop_left' (by simp)]
  · rw [hcalls, show m'.calls = calls from congrArg Prod.fst hcoming, ← harity]
    rfl

end Elements

end WordC
