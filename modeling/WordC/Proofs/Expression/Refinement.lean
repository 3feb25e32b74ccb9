import Mathlib
import WordC.Proofs.Stateful
import WordC.Proofs.Expression.Reading
import WordC.Expression.Builder
/-!
# The builder carries a draft

`Draft.builder` is the builder that has read what a draft has read: the
operators that wait are on its stacks, level by level, the results that wait
are numbered from the outside in, and the code of every value that is complete
stands in its output. `addToken_builder` says that a token takes the builder of
a draft to the builder of the draft behind that token, and is refused where the
draft refuses it.
-/

namespace WordC

namespace Waiting

/-- The value on the left of the operator. -/
def left? : Waiting → Option Expr
  | unary _ => none
  | binary _ a => some a
  | assign target => some target

/-- How many results wait on the left of the operator. -/
def weight (w : Waiting) : Nat :=
  (w.left?.map Expr.weight).getD 0

/-- The name of the value on the left of the operator. -/
def leftOperands (k : Nat) (w : Waiting) : List Operand :=
  (w.left?.map (Expr.operand k)).toList

/-- The code of the value on the left of the operator. -/
def leftCode (k : Nat) (w : Waiting) : Code :=
  (w.left?.map (Expr.linearAt k)).getD []

/-- How many results wait on the left of operators. -/
def results : List Waiting → Nat
  | [] => 0
  | w :: ws => results ws + w.weight

/-- How the values on the left of operators are named, from number `k` on. -/
def operands (k : Nat) : List Waiting → List Operand
  | [] => []
  | w :: ws => w.leftOperands (k + results ws) ++ operands k ws

/-- The code of the values on the left of operators. -/
def code (k : Nat) : List Waiting → Code
  | [] => []
  | w :: ws => code k ws ++ w.leftCode (k + results ws)

/-- The operator is of a kind that its place allows. -/
def Sound : Waiting → Prop
  | unary op => op.isUnary
  | binary op _ => op.isInfix
  | assign _ => True

/-- Operators that were read are sound. -/
theorem Reads.sound {scopes : Scopes} {ts : List Token} {ws : List Waiting}
    (h : Reads scopes ts ws) : ∀ w ∈ ws, w.Sound := by
  induction h with
  | nil => simp
  | unary _ ht hform ih => simpa [Sound, (Operator.unaryForm_spec ht hform).1] using ih
  | binary _ _ _ hop _ ih => simpa [Sound, hop] using ih
  | assign _ _ _ _ ih => simpa [Sound] using ih

end Waiting

namespace Enclosing

/-- How many results wait outside the innermost bracket. -/
def results : List Enclosing → Nat
  | [] => 0
  | .group ws :: r | .call _ _ ws :: r => results r + Waiting.results ws
  | .index base ws :: r => results r + Waiting.results ws + base.weight

/-- The code of what is complete outside the innermost bracket. -/
def code : List Enclosing → Code
  | [] => []
  | .group ws :: r => code r ++ Waiting.code (results r) ws
  | .call _ args ws :: r =>
    code r ++ Waiting.code (results r) ws ++
      argumentsLinear (results r + Waiting.results ws) 0 args
  | .index base ws :: r =>
    code r ++ Waiting.code (results r) ws ++ base.linearAt (results r + Waiting.results ws)

/-- The operator that passes the current argument of a call. -/
def floorOperators : List Enclosing → List Operator
  | .call _ args _ :: _ => [if args.isEmpty then .possibleArgument else .argument]
  | _ => []

/-- The slot for the current argument of a call. -/
def floorOperands : List Enclosing → List Operand
  | .call _ args _ :: _ => [.parameter (UInt64.ofNat args.length)]
  | _ => []

/-- The call that the innermost bracket belongs to. -/
def pendingCall : List Enclosing → Option PendingCall
  | .call name args _ :: _ => some ⟨name, args.length⟩
  | _ => none

/-- The stacks of a level with the operators `ws` waiting and the values `top`
above them. -/
def level (top : List Operand) (ws : List Waiting) (r : List Enclosing) : Level where
  operators := ws.map Waiting.operator ++ floorOperators r
  operands := top ++ Waiting.operands (results r) ws ++ floorOperands r
  call := pendingCall r

/-- The levels set aside by round brackets. -/
def brackets : List Enclosing → List Level
  | [] => []
  | .group ws :: r | .call _ _ ws :: r => level [] ws r :: brackets r
  | .index _ _ :: r => brackets r

/-- The levels set aside by indexes. -/
def indexes : List Enclosing → List IndexedLevel
  | [] => []
  | .group _ :: r | .call _ _ _ :: r => indexes r
  | .index base ws :: r =>
    ⟨level [base.operand (results r + Waiting.results ws)] ws r, (brackets r).length⟩ :: indexes r

end Enclosing

namespace Hand

/-- The value at hand, if there is one. -/
def value? : Hand → Option Expr
  | value e => some e
  | _ => none

/-- The name of a call at hand. -/
def callee? : Hand → Option String
  | callee name => some name
  | _ => none

/-- What may follow. -/
def expecting : Hand → Expecting
  | nothing => .operand
  | value _ => .operator
  | callee _ => .call

end Hand

namespace Draft

open Enclosing

/-- **The builder of a draft.** -/
def builder (d : Draft) : Builder :=
  let k := results d.around + Waiting.results d.waiting
  { expecting := d.hand.expecting
    level := level (d.hand.value?.map (Expr.operand k)).toList d.waiting d.around
    output := (code d.around ++ Waiting.code (results d.around) d.waiting ++
      (d.hand.value?.map (Expr.linearAt k)).getD []).toArray
    brackets := brackets d.around
    indexes := indexes d.around
    callee := d.hand.callee?
    count := k + (d.hand.value?.map Expr.weight).getD 0 }

/-- The builder of a draft with another call and other indexes, as it is while
a bracket closes. -/
def builderIn (c : Option PendingCall) (i : List IndexedLevel) (d : Draft) : Builder :=
  { d.builder with level.call := c, indexes := i }

theorem builder_start : ({} : Draft).builder = {} := rfl

end Draft

/-! ## Reducing -/

namespace Waiting

theorem countP_leftOperands (k : Nat) (w : Waiting) :
    (w.leftOperands k).countP Operand.isIntermediate = w.weight := by
  unfold leftOperands weight
  cases w.left? with
  | none => rfl
  | some a => exact a.countP_operand k

theorem reverse_leftOperands (k : Nat) (w : Waiting) :
    (w.leftOperands k).reverse = w.leftOperands k := by
  cases w <;> rfl

/-- A sound operator takes the value on its left and the one on its right. -/
theorem Sound.arity {w : Waiting} (h : w.Sound) (k : Nat) :
    w.operator.arity = (w.leftOperands k).length + 1 := by
  cases w with
  | unary op =>
    have : op.isUnary = true := h
    simp [operator, Operator.arity, leftOperands, left?, this]
  | binary op a =>
    have hop : op.isInfix = true := h
    cases op <;> first | rfl | cases hop
  | assign target => rfl

/-- A sound operator yields a result. -/
theorem Sound.producesValue {w : Waiting} (h : w.Sound) : w.operator.producesValue = true := by
  cases w with
  | unary op => 
    have hop : op.isUnary = true := h
    cases op <;> first | rfl | cases hop
  | binary op a =>
    have hop : op.isInfix = true := h
    cases op <;> first | rfl | cases hop
  | assign target => rfl

theorem Sound.isArgument {w : Waiting} (h : w.Sound) : w.operator.isArgument = false := by
  simpa [Operator.producesValue] using h.producesValue

/-- The code of an application: the values' code, then the values and the
operator. -/
theorem linearAt_apply (k : Nat) (w : Waiting) (e : Expr) :
    (w.apply e).linearAt k =
      w.leftCode k ++ e.linearAt (k + w.weight) ++
        (w.leftOperands k ++ [e.operand (k + w.weight)]).map Element.operand ++
        [.operator w.operator] := by
  cases w <;> simp [apply, Expr.linearAt, left?, leftCode, weight, leftOperands, operator]

theorem operand_apply (k : Nat) (w : Waiting) (e : Expr) :
    (w.apply e).operand k = .intermediate (UInt32.ofNat k) := by
  cases w <;> rfl

theorem weight_apply (w : Waiting) (e : Expr) : (w.apply e).weight = 1 := by
  cases w <;> rfl

end Waiting

namespace Builder

open Enclosing

/-- What reducing does to the stacks, if they hold enough. -/
theorem reduceOne_eq {b : Builder} (top : Operator) (rest : List Operator)
    (hops : b.level.operators = top :: rest) {op : Operator}
    (hop : op = if top = .possibleArgument then .argument else top) (args below : List Operand)
    (hargs : b.level.operands = args ++ below) (hlen : op.arity = args.length) :
    reduceOne b = .ok ()
      ({ b with level.operators := rest, level.operands := below }.emit args.reverse op) := by
  unfold reduceOne
  rw [bind_ok (get_apply b)]
  subst hop
  simp only [hops]
  have hle : ¬ b.level.operands.length < args.length := by simp [hargs]
  rw [bind_ok (set_apply _ _), if_neg (by rw [hlen]; exact hle)]
  simp [set_apply, hlen, hargs]

/-- Appending an application that yields a result. -/
theorem emit_of_producesValue {op : Operator} (h : op.producesValue = true) (b : Builder)
    (args : List Operand) :
    b.emit args op = { b with
      count := b.count - args.countP Operand.isIntermediate + 1
      output := b.output ++ args.map Element.operand ++ [Element.operator op]
      level.operands :=
        .intermediate (UInt32.ofNat (b.count - args.countP Operand.isIntermediate)) ::
          b.level.operands } := by
  simp [emit, h, pushIntermediate, pushOperand]

/-- Appending the application of `w`, once the values on both sides have their
code, gives the builder of the draft that holds its result. -/
theorem emit_builder {w : Waiting} (hw : w.operator.producesValue = true) {e : Expr}
    {ws : List Waiting} {r : List Enclosing} {b : Builder} {k : Nat}
    (hk : k = results r + Waiting.results ws)
    (houtput : b.output = (Enclosing.code r ++ Waiting.code (results r) (w :: ws) ++
      e.linearAt (k + w.weight)).toArray)
    (hcount : b.count = k + w.weight + e.weight)
    (hops : b.level.operators = ws.map Waiting.operator ++ floorOperators r)
    (hvals : b.level.operands = Waiting.operands (results r) ws ++ floorOperands r)
    (hbrackets : b.brackets = Enclosing.brackets r) (hcallee : b.callee = none) :
    { b.emit (w.leftOperands k ++ [e.operand (k + w.weight)]) w.operator with
        expecting := .operator } =
      Draft.builderIn b.level.call b.indexes ⟨.value (w.apply e), ws, r⟩ := by
  -- the results of both operands are free again, so the new one gets the number `k`
  have hfree : k + w.weight + e.weight -
      (w.leftOperands k ++ [e.operand (k + w.weight)]).countP Operand.isIntermediate = k := by
    rw [List.countP_append, Waiting.countP_leftOperands, Expr.countP_operand]
    omega
  rw [emit_of_producesValue hw]
  obtain ⟨expecting, ⟨operators, operands, call⟩, output, brackets, indexes, callee, count⟩ := b
  simp only at houtput hcount hops hvals hbrackets hcallee
  subst houtput hcount hops hvals hbrackets hcallee
  simp only [hfree]
  simp [Draft.builderIn, Draft.builder, Enclosing.level, Hand.value?, Hand.expecting, Hand.callee?,
    Waiting.operand_apply, Waiting.weight_apply, Waiting.linearAt_apply, Waiting.code, hk]

/-- **Reducing applies the innermost operator.** -/
theorem reduceOne_builder {w : Waiting} (hw : w.Sound) (e : Expr) (ws : List Waiting)
    (r : List Enclosing) (c : Option PendingCall) (i : List IndexedLevel) :
    reduceOne (Draft.builderIn c i ⟨.value e, w :: ws, r⟩) =
      .ok () (Draft.builderIn c i ⟨.value (w.apply e), ws, r⟩) := by
  -- only a call's argument could be possible, and no call waits as an operator
  have hnot : w.operator ≠ .possibleArgument := by
    intro h
    have := hw.isArgument
    rw [h] at this
    cases this
  let k := results r + Waiting.results ws
  rw [reduceOne_eq (b := Draft.builderIn c i ⟨.value e, w :: ws, r⟩) w.operator
    (ws.map Waiting.operator ++ floorOperators r) rfl (if_neg hnot).symm
    (e.operand (k + w.weight) :: w.leftOperands k)
    (Waiting.operands (results r) ws ++ floorOperands r)
    (by simp [Draft.builderIn, Draft.builder, Enclosing.level, Hand.value?, Waiting.operands,
      Waiting.results, k, Nat.add_assoc])
    (by rw [hw.arity k]; rfl), List.reverse_cons, Waiting.reverse_leftOperands]
  refine congrArg (EStateM.Result.ok ()) (Eq.trans ?_ (emit_builder hw.producesValue (k := k)
    (b := { Draft.builderIn c i ⟨.value e, w :: ws, r⟩ with
      level.operators := ws.map Waiting.operator ++ floorOperators r
      level.operands := Waiting.operands (results r) ws ++ floorOperands r })
    rfl ?_ ?_ rfl rfl rfl rfl))
  · rw [emit_of_producesValue hw.producesValue]
    rfl
  · simp [Draft.builderIn, Draft.builder, Hand.value?, Waiting.results, k, Nat.add_assoc]
  · simp [Draft.builderIn, Draft.builder, Hand.value?, Waiting.results, k, Nat.add_assoc]

/-- **Reducing down to a level settles the draft.** -/
theorem reduceWhile_builder {ws : List Waiting} (hws : ∀ w ∈ ws, w.Sound) (p : Nat) (e : Expr)
    (r : List Enclosing) (c : Option PendingCall) (i : List IndexedLevel) :
    reduceWhile p (Draft.builderIn c i ⟨.value e, ws, r⟩) =
      .ok () (Draft.builderIn c i
        ⟨.value (Waiting.settle p ws e).2, (Waiting.settle p ws e).1, r⟩) := by
  unfold reduceWhile
  rw [bind_ok (get_apply _)]
  -- the operators to apply are fixed before the first one is applied
  change (((ws.map Waiting.operator ++ floorOperators r).takeWhile (·.yieldsTo p)).forM
    (fun _ => reduceOne) : Build Unit) _ = _
  induction ws generalizing e with
  | nil =>
    have hfloor : (floorOperators r).takeWhile (·.yieldsTo p) = [] := by
      unfold floorOperators
      split
      · split <;> rfl
      · rfl
    rw [List.map_nil, List.nil_append, hfloor]
    rfl
  | cons w ws ih =>
    have hw : w.Sound := hws w (by simp)
    have hyields : w.operator.yieldsTo p = decide (p ≤ w.precedence) := by
      rw [Operator.yieldsTo, hw.isArgument]
      rfl
    by_cases hp : p ≤ w.precedence
    · rw [Waiting.settle_cons_of_le hp, List.map_cons, List.cons_append,
        List.takeWhile_cons_of_pos (by simp [hyields, hp])]
      exact (forM_cons_ok (f := fun _ => reduceOne) (reduceOne_builder hw e ws r c i)).trans
        (ih (fun v hv => hws v (by simp [hv])) (w.apply e))
    · have hstops : Waiting.Stops p (w :: ws) := Nat.not_le.1 hp
      rw [Waiting.settle_of_stops hstops, List.map_cons,
        List.cons_append, List.takeWhile_cons_of_neg (by simp [hyields, hp])]
      rfl

/-- A level that holds a single value and no operator gives it up. -/
theorem takeSingle_builder (e : Expr) {r : List Enclosing} (c : Option PendingCall)
    (i : List IndexedLevel) (hops : floorOperators r = []) (hvals : floorOperands r = []) :
    takeSingle (Draft.builderIn c i ⟨.value e, [], r⟩) =
      .ok (e.operand (results r))
        { Draft.builderIn c i ⟨.value e, [], r⟩ with level.operands := [] } := by
  unfold takeSingle
  rw [bind_ok (get_apply _)]
  simp only [Draft.builderIn, Draft.builder, Enclosing.level, Hand.value?, hops, hvals,
    Waiting.operands, Waiting.results, List.map_nil, List.append_nil, Option.map_some,
    Option.toList_some]
  rfl

/-- The code of arguments, one argument longer. -/
theorem argumentsLinear_concat (k slot : Nat) (args : List Expr) (e : Expr) :
    argumentsLinear k slot (args ++ [e]) =
      argumentsLinear k slot args ++ e.linearAt k ++
        [.operand (.parameter (UInt64.ofNat (slot + args.length))), .operand (e.operand k),
          .operator .argument] := by
  induction args generalizing slot with
  | nil => simp [argumentsLinear]
  | cons a args ih =>
    simp only [List.cons_append, argumentsLinear, ih, List.length_cons]
    simp [Nat.add_assoc, Nat.add_comm 1, -UInt64.ofNat_add]

/-- The builder of a draft inside the bracket of a call, between two
arguments. -/
def betweenArguments (c : Option PendingCall) (i : List IndexedLevel) (r : List Enclosing) : Builder where
  expecting := .operator
  level := { call := c }
  output := (Enclosing.code r).toArray
  brackets := Enclosing.brackets r
  indexes := i
  count := results r

/-- **Ending an argument passes its value.** -/
theorem finishArgument_builder {us : List Waiting} (hus : ∀ w ∈ us, w.Sound) (e : Expr)
    (name : String) (args : List Expr) (ws : List Waiting) (r : List Enclosing)
    (c : Option PendingCall) (i : List IndexedLevel) :
    finishArgument (Draft.builderIn c i ⟨.value e, us, .call name args ws :: r⟩) =
      .ok () (betweenArguments c i
        (.call name (args ++ [(Waiting.settle 0 us e).2]) ws :: r)) := by
  unfold finishArgument
  rw [bind_ok (reduceWhile_builder hus 0 e _ c i), bind_ok (get_apply _), Waiting.settle_zero]
  generalize Waiting.applyAll us e = e
  let k := results (.call name args ws :: r)
  have hisArgument :
      (if args.isEmpty = true then Operator.possibleArgument else .argument).isArgument = true := by
    split <;> rfl
  -- a first argument is only possible until its value is there; then all arguments are alike
  have hop : Operator.argument =
      if (if args.isEmpty = true then Operator.possibleArgument else .argument) = .possibleArgument
        then .argument else if args.isEmpty = true then .possibleArgument else .argument := by
    split <;> rfl
  change (if _ then reduceOne else _) _ = _
  rw [if_pos hisArgument, reduceOne_eq _ [] rfl hop
    [e.operand k, .parameter (UInt64.ofNat args.length)] [] rfl rfl]
  have hcount : k + e.weight - [Operand.parameter (UInt64.ofNat args.length),
      e.operand k].countP Operand.isIntermediate = k := by
    rw [List.countP_cons_of_neg (by simp [Operand.isIntermediate]), e.countP_operand k]
    omega
  have hcode := argumentsLinear_concat (results r + Waiting.results ws) 0 args e
  refine congrArg (EStateM.Result.ok ()) ?_
  simp only [emit, Operator.producesValue, Operator.isArgument, Bool.not_true, Bool.false_eq_true,
    if_false, betweenArguments, Draft.builderIn, Draft.builder, Enclosing.level, Hand.value?,
    Hand.expecting, Hand.callee?, Option.map_some, Option.getD_some, Builder.mk.injEq, true_and]
  refine ⟨?_, rfl, ?_⟩
  · simp only [Enclosing.code, hcode]
    simp [Waiting.code, Waiting.results, k, results]
  · exact hcount

end Builder

end WordC
