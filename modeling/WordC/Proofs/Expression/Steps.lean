import Mathlib
import WordC.Proofs.Expression.Refinement
/-!
# The builder takes a token as a draft does

For each kind of token, what the builder of a draft makes of it: the builder of
the draft behind the token, or an error where the draft takes no such token.
`addToken_builder` puts the kinds together, `finish_builder` is the end of the
expression.
-/

namespace WordC

open Enclosing

/-- A run of the builder ends in the builder of a draft, and fails where there
is none. -/
def Agrees (x : EStateM.Result ExpressionError Builder Unit) : Option Draft → Prop
  | some d => x = .ok () d.builder
  | none => ∃ e b, x = .error e b

namespace Builder

/-! ## Values and operators -/

/-- A variable or a constant becomes the value at hand. -/
theorem addOperand_builder (text : String) {e : Expr} (he : e.isLeaf = true) (d : Draft) :
    Agrees (addOperand text (e.operand 0) d.builder) (d.takeValue e) := by
  obtain ⟨hand, ws, r⟩ := d
  cases hand with
  | nothing =>
    cases e with
    | var v => rfl
    | constant c => rfl
    | unary | binary | call | assign => cases he
  | value | callee => exact ⟨_, _, rfl⟩

theorem addName_builder (scopes : Scopes) (name : String) (d : Draft) :
    Agrees (addName scopes name d.builder) (d.takeName scopes name) := by
  unfold addName Draft.takeName
  cases scopes.find? name with
  | some v =>
    have := addOperand_builder v.name (e := .var v) rfl d
    obtain ⟨hand, ws, r⟩ := d
    cases hand <;> exact this
  | none =>
    obtain ⟨hand, ws, r⟩ := d
    cases hand with
    | nothing => rfl
    | value | callee => exact ⟨_, _, rfl⟩

/-- Reducing before an operator, from the builder of a draft. -/
theorem reduceWhile_value {ws : List Waiting} (hws : ∀ w ∈ ws, w.Sound) (p : Nat) (e : Expr)
    (r : List Enclosing) :
    reduceWhile p (Draft.builder ⟨.value e, ws, r⟩) = .ok ()
      (Draft.builder ⟨.value (Waiting.settle p ws e).2, (Waiting.settle p ws e).1, r⟩) :=
  reduceWhile_builder hws p e r _ _

/-- An operator that takes the value at hand to its left waits. -/
theorem pushOperator_builder {w : Waiting} {h : Hand} (hleft : h.value? = w.left?)
    (hcallee : h.callee? = none) (ws : List Waiting) (r : List Enclosing) :
    { (Draft.builder ⟨h, ws, r⟩).pushOperator w.operator with expecting := .operand } =
      Draft.builder ⟨.nothing, w :: ws, r⟩ := by
  simp only [Draft.builder, pushOperator, Enclosing.level, hleft, hcallee, Waiting.operands,
    Waiting.results, Waiting.weight, Waiting.leftOperands, Waiting.code, Waiting.leftCode]
  simp [Hand.expecting, Hand.callee?, Hand.value?, Nat.add_assoc]

/-- The operators that a token stands for are either between two values, or
before one only. -/
theorem isInfix_of_ofToken {t : Token} {op : Operator} (ht : Operator.ofToken? t = some op)
    (hop : op ≠ .assign) : op.isInfix = !op.isUnary := by
  cases t with
  | symbol s =>
    cases s with
    | assign => cases ht; exact absurd rfl hop
    | semicolon | comma | parenOpen | parenClose | squareOpen | squareClose | braceOpen
    | braceClose => cases ht
    | _ => cases ht; rfl
  | _ => cases ht

/-- Where a value is expected, an operator stands before its value. -/
theorem addOperator_of_operand {op : Operator} {b : Builder} (h : b.expecting = .operand) :
    addOperator op b = (op.unaryForm?.elim (throw (.unexpectedOperator op))
      fun form => set (b.pushOperator form) : Build Unit) b := by
  rw [addOperator, bind_ok (get_apply b), h]
  cases op.unaryForm? <;> rfl

theorem addOperator_builder {t : Token} {op : Operator} (ht : Operator.ofToken? t = some op)
    (hop : op ≠ .assign) {d : Draft} (hd : ∀ w ∈ d.waiting, w.Sound) :
    Agrees (addOperator op d.builder) (d.takeOperator op) := by
  obtain ⟨hand, ws, r⟩ := d
  cases hand with
  | nothing =>
    change Agrees _ (op.unaryForm?.map _)
    cases hform : op.unaryForm? with
    | none =>
      rw [addOperator_of_operand rfl, hform]
      exact ⟨_, _, rfl⟩
    | some form =>
      rw [addOperator_of_operand rfl, hform]
      exact congrArg (EStateM.Result.ok ())
        (pushOperator_builder (w := .unary form) (h := .nothing) rfl rfl ws r)
  | value e =>
    change Agrees ((if op = .assign then _ else if op.isUnary then _ else _ : Build Unit) _)
      (if op.isInfix then _ else none)
    rw [if_neg hop, isInfix_of_ofToken ht hop]
    cases op.isUnary with
    | true => exact ⟨_, _, rfl⟩
    | false =>
      -- the builder reduces as long as operators bind tighter, which is what `settle` does
      change (reduceWhile op.precedence >>= fun _ => modify _ : Build Unit) _ = _
      rw [bind_ok (reduceWhile_value hd op.precedence e r), modify_apply]
      exact congrArg (EStateM.Result.ok ())
        (pushOperator_builder (w := .binary op (Waiting.settle op.precedence ws e).2) rfl rfl _ r)
  | callee name => exact ⟨_, _, rfl⟩

/-! ## Assignment -/

/-- The last element of the output is the operator that gave the value at
hand. -/
theorem back_builder (w : Waiting) (e : Expr) (ws : List Waiting) (r : List Enclosing) :
    (Draft.builder ⟨.value (w.apply e), ws, r⟩).output.back? = some (.operator w.operator) := by
  simp [Draft.builder, Hand.value?, Waiting.linearAt_apply]

/-- Changing that operator changes it in the tree. -/
theorem replace_builder {w w' : Waiting} (hleft : w'.left? = w.left?) (e : Expr)
    (ws : List Waiting) (r : List Enclosing) :
    ({ Draft.builder ⟨.value (w.apply e), ws, r⟩ with
      output := (Draft.builder ⟨.value (w.apply e), ws, r⟩).output.pop.push
        (.operator w'.operator) } : Builder) =
      Draft.builder ⟨.value (w'.apply e), ws, r⟩ := by
  simp [Draft.builder, Hand.value?, Hand.expecting, Hand.callee?, Waiting.linearAt_apply,
    Waiting.operand_apply, Waiting.weight_apply, Waiting.leftCode, Waiting.leftOperands,
    Waiting.weight, hleft]

/-- The builder of a draft with the value at hand turned into a place, if it is
one. -/
def placed (e : Expr) (ws : List Waiting) (r : List Enclosing) :
    Option Expr → EStateM.Result ExpressionError Builder Builder
  | some target => .ok (Draft.builder ⟨.value target, ws, r⟩) (Draft.builder ⟨.value e, ws, r⟩)
  | none => .error .notAssignable (Draft.builder ⟨.value e, ws, r⟩)

/-- The operator that gave the value at hand is changed to its store form. -/
theorem takePlace_apply (w : Waiting) (form : Operator → Waiting)
    (hform : ∀ op, w.operator.storeForm? = some op →
      (form op).operator = op ∧ (form op).left? = w.left?) (e : Expr)
    (ws : List Waiting) (r : List Enclosing) :
    takePlace (Draft.builder ⟨.value (w.apply e), ws, r⟩) =
      placed (w.apply e) ws r (w.operator.storeForm?.map fun op => (form op).apply e) := by
  unfold takePlace
  rw [bind_ok (get_apply _)]
  have hops : ∃ k rest, (Draft.builder ⟨.value (w.apply e), ws, r⟩).level.operands =
      .intermediate k :: rest := by
    simp [Draft.builder, Enclosing.level, Hand.value?, Waiting.operand_apply]
  obtain ⟨k, rest, hops⟩ := hops
  simp only [hops, back_builder]
  cases h : w.operator.storeForm? with
  | none => rfl
  | some op =>
    obtain ⟨hop, hleft⟩ := hform op h
    simp only [pure_apply, Option.map_some, placed]
    rw [← replace_builder hleft, hop]

/-- A value becomes the place it stands for, and is refused if it is none. -/
theorem takePlace_builder (e : Expr) (ws : List Waiting) (r : List Enclosing) :
    takePlace (Draft.builder ⟨.value e, ws, r⟩) = placed e ws r e.place? := by
  cases e with
  | var v =>
    change (if v.isArray then throw .notAssignable else pure _ : Build Builder) _ = _
    simp only [Expr.place?]
    cases v.isArray <;> rfl
  | constant c => rfl
  | unary op a =>
    exact takePlace_apply (.unary op) .unary (fun _ _ => ⟨rfl, rfl⟩) a ws r
  | binary op a b =>
    exact takePlace_apply (.binary op a) (.binary · a) (fun _ _ => ⟨rfl, rfl⟩) b ws r
  | assign target value =>
    exact takePlace_apply (.assign target) .unary nofun value ws r
  | call name args =>
    unfold takePlace
    rw [bind_ok (get_apply _)]
    simp [Draft.builder, Enclosing.level, Hand.value?, Expr.operand, Expr.linearAt, Expr.place?,
      placed]

theorem addAssignment_builder {d : Draft} (hd : ∀ w ∈ d.waiting, w.Sound) :
    Agrees (addAssignment d.builder) d.takeAssign := by
  obtain ⟨hand, ws, r⟩ := d
  cases hand with
  | nothing | callee => exact ⟨_, _, rfl⟩
  | value e =>
    change Agrees ((reduceWhile 1 >>= fun _ => takePlace >>= fun b =>
      set { b.pushOperator .assign with expecting := .operand } : Build Unit) _)
      ((Waiting.settle 1 ws e).2.place?.map _)
    rw [bind_ok (reduceWhile_value hd 1 e r)]
    have hplace := takePlace_builder (Waiting.settle 1 ws e).2 (Waiting.settle 1 ws e).1 r
    cases h : (Waiting.settle 1 ws e).2.place? with
    | none =>
      rw [h] at hplace
      exact ⟨_, _, bind_error hplace⟩
    | some target =>
      rw [h] at hplace
      rw [bind_ok hplace, set_apply]
      exact congrArg (EStateM.Result.ok ())
        (pushOperator_builder (w := .assign target) (h := .value target) rfl rfl _ r)

/-! ## Brackets and indexes -/

theorem openBracket_builder (d : Draft) : Agrees (openBracket d.builder) d.openRound := by
  obtain ⟨hand, ws, r⟩ := d
  cases hand with
  | nothing =>
    refine congrArg (EStateM.Result.ok ()) ?_
    simp [Draft.builder, openLevel, Enclosing.level, Hand.value?, Hand.expecting, Hand.callee?,
      Enclosing.brackets, Enclosing.indexes, Enclosing.code, results, Waiting.operands,
      Waiting.results, Waiting.code, floorOperators, floorOperands, pendingCall]
  | callee name =>
    refine congrArg (EStateM.Result.ok ()) ?_
    simp [Draft.builder, openLevel, Enclosing.level, Hand.value?, Hand.expecting, Hand.callee?,
      Enclosing.brackets, Enclosing.indexes, Enclosing.code, results, Waiting.operands,
      Waiting.results, Waiting.code, floorOperators, floorOperands, pendingCall, pushOperator,
      pushOperand, argumentsLinear]
  | value e => exact ⟨_, _, rfl⟩

/-- An index was opened inside the round brackets that are open now. -/
theorem bracketDepth_le {r : List Enclosing} {i : IndexedLevel}
    (hi : i ∈ Enclosing.indexes r) : i.bracketDepth ≤ (Enclosing.brackets r).length := by
  induction r with
  | nil => cases hi
  | cons outer r ih =>
    cases outer with
    | group ws | call name args ws => exact (ih hi).trans (Nat.le_succ _)
    | index base ws =>
      rcases List.mem_cons.1 hi with rfl | hi
      · exact Nat.le_refl _
      · exact ih hi

/-- Directly inside a round bracket no index is to be closed first. -/
theorem inIndex_eq_false {b : Builder} {r : List Enclosing}
    (hindexes : b.indexes = Enclosing.indexes r)
    (hbrackets : b.brackets.length = (Enclosing.brackets r).length + 1) : b.inIndex = false := by
  unfold inIndex
  rw [hindexes, hbrackets]
  cases h : Enclosing.indexes r with
  | nil => rfl
  | cons i rest =>
    have := bracketDepth_le (i := i) (r := r) (by simp [h])
    simp only [decide_eq_false_iff_not]
    omega

/-- Directly inside an index nothing else can be closed. -/
theorem inIndex_index (hand : Hand) (ws us : List Waiting) (base : Expr) (r : List Enclosing) :
    (Draft.builder ⟨hand, ws, .index base us :: r⟩).inIndex = true := by
  simp [inIndex, Draft.builder, Enclosing.indexes, Enclosing.brackets]

/-- The round bracket of a group is closed around its value. -/
theorem closeGroup_builder {us : List Waiting} (hus : ∀ w ∈ us, w.Sound) (e : Expr)
    (ws : List Waiting) (r : List Enclosing) :
    closeGroup (Draft.builder ⟨.value e, us, .group ws :: r⟩) =
      .ok () (Draft.builder ⟨.value (Waiting.settle 0 us e).2, ws, r⟩) := by
  unfold closeGroup
  rw [bind_ok (get_apply _), Waiting.settle_zero]
  change (reduceWhile 0 >>= fun _ => takeSingle >>= fun value => closeLevel >>= fun _ =>
    modify (·.pushOperand value) : Build Unit) _ = _
  rw [bind_ok (reduceWhile_value hus 0 e _), Waiting.settle_zero]
  refine (bind_ok (takeSingle_builder (Waiting.applyAll us e) none (Enclosing.indexes r)
    (r := .group ws :: r) rfl rfl)).trans (congrArg (EStateM.Result.ok ()) ?_)
  simp [Draft.builderIn, Draft.builder, pushOperand, Hand.value?, Hand.callee?, Hand.expecting,
    Enclosing.level, Enclosing.code, Enclosing.indexes, results, Waiting.code, Waiting.results]

/-- The arguments of a call are complete: its result waits outside its
bracket. -/
theorem closeLevel_call {b : Builder} (name : String) (args : List Expr) (ws : List Waiting)
    (r : List Enclosing) (hlevel : b.callee = none)
    (houtput : b.output = (Enclosing.code (.call name args ws :: r)).toArray)
    (hbrackets : b.brackets = Enclosing.brackets (.call name args ws :: r))
    (hindexes : b.indexes = Enclosing.indexes r)
    (hcount : b.count = results (.call name args ws :: r)) :
    (do
      modify fun b => { b with
        output := b.output.push (.operand (.result ⟨name, UInt64.ofNat args.length⟩)) }
      closeLevel
      modify pushIntermediate : Build Unit) b =
      .ok () { Draft.builder ⟨.value (.call name args), ws, r⟩ with expecting := b.expecting } := by
  obtain ⟨expecting, level, output, brackets, indexes, callee, count⟩ := b
  subst hlevel houtput hbrackets hindexes hcount
  refine congrArg (EStateM.Result.ok ()) ?_
  simp [Draft.builder, pushIntermediate, pushOperand, Hand.value?, Hand.callee?, Enclosing.level,
    Enclosing.code, results, Expr.operand, Expr.linearAt, Expr.weight, Expr.isLeaf]

theorem closeCall_value {us : List Waiting} (hus : ∀ w ∈ us, w.Sound) (e : Expr) (name : String)
    (args : List Expr) (ws : List Waiting) (r : List Enclosing) :
    closeCall ⟨name, args.length⟩
        (Draft.builderIn none (Enclosing.indexes r) ⟨.value e, us, .call name args ws :: r⟩) =
      .ok () (Draft.builder
        ⟨.value (.call name (args ++ [(Waiting.settle 0 us e).2])), ws, r⟩) := by
  have hfinish := finishArgument_builder hus e name args ws r none (Enclosing.indexes r)
  have hclose := closeLevel_call name (args ++ [(Waiting.settle 0 us e).2]) ws r
    (b := betweenArguments none (Enclosing.indexes r)
      (.call name (args ++ [(Waiting.settle 0 us e).2]) ws :: r)) rfl rfl rfl rfl rfl
  rw [List.length_append, List.length_singleton] at hclose
  unfold closeCall
  rw [bind_ok (get_apply _)]
  change (finishArgument >>= fun _ => _ : Build Unit) _ = _
  rw [bind_ok hfinish]
  exact hclose

/-- Closing a call without arguments. -/
theorem closeCall_nothing (name : String) (ws : List Waiting) (r : List Enclosing) :
    closeCall ⟨name, 0⟩
        (Draft.builderIn none (Enclosing.indexes r) ⟨.nothing, [], .call name [] ws :: r⟩) =
      .ok () { Draft.builder ⟨.value (.call name []), ws, r⟩ with expecting := .operand } := by
  have houtput : (Draft.builder ⟨.nothing, [], .call name [] ws :: r⟩).output =
      (Enclosing.code (.call name [] ws :: r)).toArray := by
    simp [Draft.builder, Hand.value?, Waiting.code]
  exact closeLevel_call name [] ws r
    (b := Draft.builderIn none (Enclosing.indexes r) ⟨.nothing, [], .call name [] ws :: r⟩)
    rfl houtput rfl rfl rfl

/-- A bracket is not closed where a value is missing, unless it is that of a
call without arguments. -/
theorem closeCall_error {hand : Hand} (hhand : hand.value? = none) (us : List Waiting)
    (name : String) (args : List Expr) (ws : List Waiting) (r : List Enclosing)
    (h : hand = .nothing → us = [] → args ≠ []) :
    ∃ x b, closeCall ⟨name, args.length⟩
      (Draft.builderIn none (Enclosing.indexes r) ⟨hand, us, .call name args ws :: r⟩) =
        .error x b := by
  have hexpecting : (Draft.builderIn none (Enclosing.indexes r)
      ⟨hand, us, .call name args ws :: r⟩).expecting ≠ .operator := by
    cases hand with
    | value e => cases hhand
    | nothing | callee => simp [Draft.builderIn, Draft.builder, Hand.expecting]
  -- the call is empty only with nothing in hand, nothing waiting and no argument
  have hempty : (Draft.builderIn none (Enclosing.indexes r)
      ⟨hand, us, .call name args ws :: r⟩).isEmptyCall ⟨name, args.length⟩ = false := by
    cases hand with
    | value | callee => rfl
    | nothing =>
      cases args with
      | cons a args => simp [isEmptyCall]
      | nil =>
        cases us with
        | nil => exact absurd rfl (h rfl rfl)
        | cons w us => simp [isEmptyCall, Draft.builderIn, Draft.builder, Enclosing.level,
            floorOperators]
  unfold closeCall
  rw [bind_ok (get_apply _)]
  rw [if_neg (by rw [hempty]; exact Bool.false_ne_true), if_pos hexpecting]
  exact ⟨_, _, rfl⟩

/-- A bracket that may be closed is closed as a call or as a group. -/
theorem closeBracket_eq {b : Builder} (hb : b.brackets ≠ []) (hin : b.inIndex = false) :
    closeBracket b = ((match b.level.call with
      | some pending => closeCall pending
      | none => closeGroup) >>= fun _ =>
        modify fun b => { b with expecting := .operator } : Build Unit)
      { b with level.call := none } := by
  have hempty : ¬ b.brackets.isEmpty = true := by simpa using hb
  have hindex : ¬ b.inIndex = true := by simp [hin]
  unfold closeBracket
  rw [bind_ok (get_apply _), if_neg hempty]
  beta_reduce
  rw [if_neg hindex]
  cases b.level.call <;> rfl

theorem closeBracket_builder {d : Draft} (hd : ∀ w ∈ d.waiting, w.Sound) :
    Agrees (closeBracket d.builder) d.closeRound := by
  obtain ⟨hand, us, r⟩ := d
  cases r with
  | nil => cases hand <;> exact ⟨_, _, rfl⟩
  | cons outer r =>
    cases outer with
    | index base ws =>
      unfold closeBracket
      rw [bind_ok (get_apply _)]
      by_cases hb : (Draft.builder ⟨hand, us, .index base ws :: r⟩).brackets.isEmpty
      · rw [if_pos hb]
        cases hand <;> exact ⟨_, _, rfl⟩
      -- the innermost open bracket is a square one, whatever is in hand
      · rw [if_neg hb, if_pos (inIndex_index hand us ws base r)]
        cases hand <;> exact ⟨_, _, rfl⟩
    | group ws =>
      have hin := inIndex_eq_false (b := Draft.builder ⟨hand, us, .group ws :: r⟩) (r := r) rfl rfl
      rw [closeBracket_eq (List.cons_ne_nil _ _) hin]
      cases hand with
      | nothing | callee => exact ⟨_, _, rfl⟩
      | value e => exact bind_ok (closeGroup_builder hd e ws r)
    | call name args ws =>
      have hin := inIndex_eq_false (b := Draft.builder ⟨hand, us, .call name args ws :: r⟩) (r := r)
        rfl rfl
      rw [closeBracket_eq (List.cons_ne_nil _ _) hin]
      cases hand with
      | value e => exact bind_ok (closeCall_value hd e name args ws r)
      | callee text =>
        obtain ⟨x, b, h⟩ := closeCall_error (show (Hand.callee text).value? = none from rfl) us name
          args ws r nofun
        exact ⟨x, b, bind_error h⟩
      | nothing =>
        -- `f()` closes; after a comma or an operator a value is missing
        by_cases hempty : us = [] ∧ args = []
        · obtain ⟨rfl, rfl⟩ := hempty
          exact bind_ok (closeCall_nothing name ws r)
        · obtain ⟨x, b, h⟩ := closeCall_error (show Hand.nothing.value? = none from rfl) us name
            args ws r (fun _ hu ha => hempty ⟨hu, ha⟩)
          have hnone : Draft.closeRound ⟨.nothing, us, .call name args ws :: r⟩ = none := by
            cases args with
            | cons a args => rfl
            | nil =>
              cases us with
              | nil => exact absurd ⟨rfl, rfl⟩ hempty
              | cons u us => rfl
          rw [hnone]
          exact ⟨x, b, bind_error h⟩

theorem addComma_builder {d : Draft} (hd : ∀ w ∈ d.waiting, w.Sound) :
    Agrees (addComma d.builder) d.takeComma := by
  obtain ⟨hand, us, r⟩ := d
  cases hand with
  | nothing | callee => rcases r with _ | ⟨_ | _ | _, r⟩ <;> exact ⟨_, _, rfl⟩
  | value e =>
    cases r with
    | nil => exact ⟨_, _, rfl⟩
    | cons outer r =>
      cases outer with
      | index base ws =>
        change Agrees ((if (Draft.builder ⟨.value e, us, .index base ws :: r⟩).inIndex then _
          else _ : Build Unit) _) none
        rw [if_pos (inIndex_index (.value e) us ws base r)]
        exact ⟨_, _, rfl⟩
      | group ws =>
        have hin := inIndex_eq_false (b := Draft.builder ⟨.value e, us, .group ws :: r⟩) (r := r)
          rfl rfl
        change Agrees ((if (Draft.builder ⟨.value e, us, .group ws :: r⟩).inIndex then _
          else _ : Build Unit) _) none
        rw [if_neg (by simp [hin])]
        exact ⟨_, _, rfl⟩
      -- only here does a comma go on: between the arguments of a call, behind a value
      | call name args ws =>
        have hin := inIndex_eq_false (b := Draft.builder ⟨.value e, us, .call name args ws :: r⟩)
          (r := r) rfl rfl
        change (if (Draft.builder ⟨.value e, us, .call name args ws :: r⟩).inIndex then _
          else _ : Build Unit) _ = _
        rw [if_neg (by simp [hin])]
        change (finishArgument >>= fun _ => _ : Build Unit)
          (Draft.builderIn (some ⟨name, args.length + 1⟩) (Enclosing.indexes r)
            ⟨.value e, us, .call name args ws :: r⟩) = _
        rw [bind_ok (finishArgument_builder hd e name args ws r _ _)]
        refine congrArg (EStateM.Result.ok ()) ?_
        simp [Draft.builder, betweenArguments, pushOperator, pushOperand, Hand.value?,
          Hand.callee?, Hand.expecting, Enclosing.level, floorOperators, floorOperands,
          pendingCall, Waiting.operands, Waiting.code, Waiting.results, -UInt64.ofNat_add]
        rfl

theorem openIndex_builder (d : Draft) : Agrees (openIndex d.builder) d.openSquare := by
  obtain ⟨hand, ws, r⟩ := d
  cases hand with
  | nothing | callee => exact ⟨_, _, rfl⟩
  | value e =>
    refine congrArg (EStateM.Result.ok ()) ?_
    simp [Draft.builder, Enclosing.level, Hand.value?, Hand.expecting, Hand.callee?,
      Enclosing.brackets, Enclosing.indexes, Enclosing.code, results, Waiting.operands,
      Waiting.results, Waiting.code, floorOperators, floorOperands, pendingCall]

/-- An index that is closed in order is applied to the value before it. -/
theorem closeIndex_value {us : List Waiting} (hus : ∀ w ∈ us, w.Sound) (e base : Expr)
    (ws : List Waiting) (r : List Enclosing) :
    closeIndex (Draft.builder ⟨.value e, us, .index base ws :: r⟩) =
      .ok () (Draft.builder ⟨.value (.binary .index base (Waiting.settle 0 us e).2), ws, r⟩) := by
  unfold closeIndex
  rw [bind_ok (get_apply _)]
  change (if (Enclosing.brackets r).length ≠ (Enclosing.brackets r).length then _ else _ : Build Unit)
    (Draft.builderIn none (Enclosing.indexes r) ⟨.value e, us, .index base ws :: r⟩) = _
  rw [if_neg (not_not.2 rfl)]
  refine (bind_ok (reduceWhile_builder hus 0 e _ none (Enclosing.indexes r))).trans ?_
  rw [Waiting.settle_zero]
  refine (bind_ok (takeSingle_builder (Waiting.applyAll us e) none (Enclosing.indexes r)
    (r := .index base ws :: r) rfl rfl)).trans (congrArg (EStateM.Result.ok ()) ?_)
  refine emit_builder (w := .binary .index base) (b := { Draft.builderIn none (Enclosing.indexes r)
    ⟨.value (Waiting.applyAll us e), [], .index base ws :: r⟩ with level := Enclosing.level [] ws r })
    rfl rfl ?_ rfl rfl rfl rfl rfl
  simp [Draft.builderIn, Draft.builder, Hand.value?, Enclosing.code, results, Waiting.code,
    Waiting.results, Waiting.leftCode, Waiting.left?, Waiting.weight]

/-- An index is not closed while a round bracket inside it is open. -/
theorem closeIndex_error {b : Builder} {r : List Enclosing}
    (hindexes : b.indexes = Enclosing.indexes r)
    (hbrackets : b.brackets.length = (Enclosing.brackets r).length + 1) :
    ∃ x b', closeIndex b = .error x b' := by
  unfold closeIndex
  rw [bind_ok (get_apply _)]
  by_cases hb : b.expecting ≠ .operator
  · rw [if_pos hb]
    exact ⟨_, _, rfl⟩
  · rw [if_neg hb, hindexes]
    cases h : Enclosing.indexes r with
    | nil => exact ⟨_, _, rfl⟩
    | cons i rest =>
      have hle := bracketDepth_le (i := i) (r := r) (by simp [h])
      have hne : i.bracketDepth ≠ b.brackets.length := by omega
      refine ⟨.interleavedBrackets, { b with indexes := rest },
        (bind_ok (set_apply _ _)).trans ?_⟩
      rw [if_pos hne]
      rfl

theorem closeIndex_builder {d : Draft} (hd : ∀ w ∈ d.waiting, w.Sound) :
    Agrees (closeIndex d.builder) d.closeSquare := by
  obtain ⟨hand, us, r⟩ := d
  cases hand with
  | nothing | callee => rcases r with _ | ⟨_ | _ | _, r⟩ <;> exact ⟨_, _, rfl⟩
  | value e =>
    rcases r with _ | ⟨ws | ⟨name, args, ws⟩ | ⟨base, ws⟩, r⟩
    · exact ⟨_, _, rfl⟩
    · exact closeIndex_error (r := r) rfl rfl
    · exact closeIndex_error (r := r) rfl rfl
    · exact closeIndex_value hd e base ws r

/-! ## Whole expressions -/

/-- **A token takes the builder of a draft where it takes the draft.** -/
theorem addToken_builder (scopes : Scopes) (t : Token) {d : Draft}
    (hd : ∀ w ∈ d.waiting, w.Sound) :
    Agrees (addToken scopes t d.builder) (d.step scopes t) := by
  cases t with
  | ident name => exact addName_builder scopes name d
  | integer n =>
    exact addOperand_builder (Text.decimal (Constant.int n).value) (e := .constant (.int n)) rfl d
  | truth b =>
    exact addOperand_builder (Text.decimal (Constant.bool b).value) (e := .constant (.bool b)) rfl d
  | char c =>
    exact addOperand_builder (Text.decimal (Constant.char c).value) (e := .constant (.char c)) rfl d
  | symbol s =>
    have hop : ∀ op, Operator.ofToken? (.symbol s) = some op → op ≠ .assign →
        Agrees (addOperator op d.builder) (d.takeOperator op) :=
      fun op ht hne => addOperator_builder ht hne hd
    cases s with
    | assign => exact addAssignment_builder hd
    | parenOpen => exact openBracket_builder d
    | parenClose => exact closeBracket_builder hd
    | squareOpen => exact openIndex_builder d
    | squareClose => exact closeIndex_builder hd
    | comma => exact addComma_builder hd
    | semicolon | braceOpen | braceClose => exact ⟨_, _, rfl⟩
    | _ => exact hop _ rfl (by decide)
  | _ => exact ⟨_, _, rfl⟩

/-- **Ending the expression hands out the linear form of its tree.** -/
theorem finish_builder {d : Draft} (hd : ∀ w ∈ d.waiting, w.Sound) {e : Expr}
    (h : d.complete? = some e) : finish d.builder = .ok e.linear {} := by
  obtain ⟨hand, ws, r⟩ := d
  cases r with
  | cons outer r => cases h
  | nil =>
    cases hand with
    | nothing | callee => cases h
    | value a =>
      have he : Waiting.applyAll ws a = e := by simpa [Draft.complete?, Waiting.settle_zero] using h
      unfold finish
      rw [bind_ok (get_apply _)]
      change (reduceWhile 0 >>= fun _ => _ : Build _) _ = _
      rw [bind_ok (reduceWhile_value hd 0 a []), Waiting.settle_zero, he]
      refine (bind_ok (takeSingle_builder e none [] (r := []) rfl rfl)).trans ?_
      -- a leaf is put out on its own, where every other expression has been put out already
      cases e with
      | var v => rfl
      | constant c => rfl
      | unary | binary | call | assign =>
        simp [Draft.builderIn, Draft.builder, bind_apply, map_apply, Hand.value?, Expr.operand,
          Operand.isIntermediate, Expr.weight, Expr.isLeaf, results, Waiting.results, Expr.linear,
          Enclosing.code, Waiting.code]

/-- A draft that is not complete has no linear form. -/
theorem finish_builder_error {d : Draft} (h : d.complete? = none) :
    ∃ x b, finish d.builder = .error x b := by
  obtain ⟨hand, ws, r⟩ := d
  cases hand with
  | nothing | callee => exact ⟨_, _, rfl⟩
  | value e =>
    have hvalid : (Draft.builder ⟨.value e, ws, r⟩).isValid = false := by
      rcases r with _ | ⟨_ | _ | _, r⟩
      · cases h
      · rfl
      · rfl
      · simp [isValid, Draft.builder, Enclosing.indexes]
    change ∃ x b, (if !(Draft.builder ⟨.value e, ws, r⟩).isValid then _ else _ : Build _) _ =
      .error x b
    rw [hvalid]
    exact ⟨_, _, rfl⟩

end Builder

end WordC
