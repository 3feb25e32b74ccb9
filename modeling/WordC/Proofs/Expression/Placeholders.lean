import Mathlib
import WordC.Proofs.Expression.Language
import WordC.Proofs.Expression.WellFormed
/-!
# The results that wait in a builder

A builder names each result that waits by a number. Read from the outermost bracket or
index inwards, the numbers on its stacks are `0`, `1`, `2`, ... without a gap, and its count
is how many there are (`placeholders_builder`). The count is also exact: it is the number of
results that the output yields less the number that it consumes (`Balanced`). So no operator
is ever short of a value (`supplied_addToken`), and an expression can be ended wherever
`isValid` says so (`finish_builder_iff`).
-/

namespace WordC

/-- The number of the result that the operand refers to. -/
def Operand.number? : Operand → Option Nat
  | intermediate n => some n.toNat
  | _ => none

namespace Builder

/-- The levels set aside by round brackets and by indexes, innermost first. An index was opened
before all round brackets but as many as were open then. -/
def setAside (indexes : List IndexedLevel) : List Level → List Level
  | [] => indexes.map IndexedLevel.level
  | level :: brackets =>
    (indexes.takeWhile (brackets.length < ·.bracketDepth)).map IndexedLevel.level ++
      level :: setAside (indexes.dropWhile (brackets.length < ·.bracketDepth)) brackets

/-- All levels, innermost first. -/
def levels (b : Builder) : List Level :=
  b.level :: setAside b.indexes b.brackets

/-- **The numbers of the results on all operand stacks**, the outermost level first and each
stack from the bottom up. -/
def placeholders (b : Builder) : List Nat :=
  (b.levels.flatMap Level.operands).reverse.filterMap Operand.number?

end Builder

/-- The element yields a result. -/
def Element.yields : Element → Bool
  | .operator op => op.producesValue
  | .operand (.result _) => true
  | _ => false

/-- The element consumes a result. -/
def Element.consumes : Element → Bool
  | .operand (.intermediate _) => true
  | _ => false

/-! ## Levels in the order of their opening -/

namespace Enclosing

/-- The levels around the current one, innermost first. -/
def levels : List Enclosing → List Level
  | [] => []
  | .group ws :: r | .call _ _ ws :: r => level [] ws r :: levels r
  | .index base ws :: r =>
    level [base.operand (results r + Waiting.results ws)] ws r :: levels r

/-- A round bracket that is opened goes in front of what is set aside. -/
theorem setAside_bracket {indexes : List IndexedLevel} {brackets : List Level}
    (h : ∀ i ∈ indexes, i.bracketDepth ≤ brackets.length) (l : Level) :
    Builder.setAside indexes (l :: brackets) = l :: Builder.setAside indexes brackets := by
  cases indexes with
  | nil => rfl
  | cons i indexes =>
    have hi : ¬ brackets.length < i.bracketDepth := Nat.not_lt.2 (h i List.mem_cons_self)
    simp [Builder.setAside, hi]

/-- An index that is opened goes in front of what is set aside. -/
theorem setAside_index (l : Level) (indexes : List IndexedLevel) (brackets : List Level) :
    Builder.setAside (⟨l, brackets.length⟩ :: indexes) brackets =
      l :: Builder.setAside indexes brackets := by
  cases brackets with
  | nil => rfl
  | cons outer brackets => simp [Builder.setAside]

/-- **What is set aside are the levels around, in their order.** -/
theorem setAside_eq (r : List Enclosing) :
    Builder.setAside (indexes r) (brackets r) = levels r := by
  induction r with
  | nil => rfl
  | cons outer r ih =>
    cases outer with
    | group ws | call name args ws =>
      exact (setAside_bracket (fun i hi => Builder.bracketDepth_le hi) _).trans
        (congrArg _ ih)
    | index base ws => exact (setAside_index _ _ _).trans (congrArg _ ih)

end Enclosing

/-! ## Numbers -/

/-- The numbers of the results on a stack, from the bottom up. -/
def numbers (operands : List Operand) : List Nat :=
  operands.reverse.filterMap Operand.number?

@[simp] theorem numbers_append (xs ys : List Operand) :
    numbers (xs ++ ys) = numbers ys ++ numbers xs := by
  simp [numbers]

/-- A value that is a result has the number of those below it. -/
theorem Expr.numbers_operand {k : Nat} {e : Expr} (h : k + e.weight ≤ UInt32.size) :
    numbers [e.operand k] = List.range' k e.weight := by
  cases e with
  | var | constant => rfl
  | unary | binary | call | assign =>
    have hk : k < UInt32.size := h
    simp [numbers, operand, Operand.number?, weight, isLeaf, UInt32.toNat_ofNat_of_lt' hk]

namespace Waiting

theorem numbers_leftOperands {k : Nat} {w : Waiting} (h : k + w.weight ≤ UInt32.size) :
    numbers (w.leftOperands k) = List.range' k w.weight := by
  cases w with
  | unary op => rfl
  | binary op a | assign a => exact Expr.numbers_operand h

/-- The values that wait on the left of operators are numbered in order. -/
theorem numbers_operands {k : Nat} {ws : List Waiting} (h : k + results ws ≤ UInt32.size) :
    numbers (operands k ws) = List.range' k (results ws) := by
  induction ws with
  | nil => rfl
  | cons w ws ih =>
    rw [results] at h
    rw [operands, numbers_append, ih (by omega), numbers_leftOperands (by omega), results,
      ← List.range'_append_1]

end Waiting

namespace Enclosing

theorem numbers_floorOperands (r : List Enclosing) : numbers (floorOperands r) = [] := by
  unfold floorOperands
  split <;> rfl

/-- The numbers of a level continue those of the levels around it. -/
theorem numbers_level {top : List Operand} {ws : List Waiting} {r : List Enclosing}
    (h : results r + Waiting.results ws ≤ UInt32.size) :
    numbers (level top ws r).operands =
      List.range' (results r) (Waiting.results ws) ++ numbers top := by
  rw [level, numbers_append, numbers_append, numbers_floorOperands, Waiting.numbers_operands h,
    List.nil_append]

/-- The levels around a level are numbered from zero. -/
theorem numbers_levels {r : List Enclosing} (h : results r ≤ UInt32.size) :
    numbers ((levels r).flatMap Level.operands) = List.range' 0 (results r) := by
  induction r with
  | nil => rfl
  | cons outer r ih =>
    cases outer with
    | group ws | call name args ws =>
      rw [results] at h
      rw [levels, List.flatMap_cons, numbers_append, ih (by omega), numbers_level h, results,
        ← List.range'_append_1, Nat.zero_add]
      exact congrArg _ (List.append_nil _)
    | index base ws =>
      rw [results] at h
      rw [levels, List.flatMap_cons, numbers_append, ih (by omega), numbers_level (by omega),
        Expr.numbers_operand h, results, ← List.range'_append_1, ← List.range'_append_1,
        Nat.zero_add, Nat.zero_add, List.append_assoc]

end Enclosing

namespace Draft

open Enclosing

/-- **The numbers on the stacks are those below the count.** -/
theorem placeholders_builder {d : Draft} (h : d.builder.count ≤ UInt32.size) :
    d.builder.placeholders = List.range d.builder.count := by
  obtain ⟨hand, ws, r⟩ := d
  have hlevels : (Draft.builder ⟨hand, ws, r⟩).levels =
      (Draft.builder ⟨hand, ws, r⟩).level :: levels r :=
    congrArg _ (setAside_eq r)
  have hhand : numbers (hand.value?.map (Expr.operand (results r + Waiting.results ws))).toList =
      List.range' (results r + Waiting.results ws) ((hand.value?.map Expr.weight).getD 0) := by
    cases hand with
    | value e => exact Expr.numbers_operand h
    | nothing | callee => rfl
  change results r + Waiting.results ws + _ ≤ UInt32.size at h
  change numbers ((Draft.builder ⟨hand, ws, r⟩).levels.flatMap Level.operands) =
    List.range (results r + Waiting.results ws + _)
  rw [hlevels, List.flatMap_cons, numbers_append, numbers_levels (by omega)]
  change List.range' 0 (results r) ++ numbers (level _ ws r).operands = _
  rw [numbers_level (by omega), hhand, List.range_eq_range', ← List.range'_append_1,
    ← List.range'_append_1, Nat.zero_add, Nat.zero_add, List.append_assoc]

end Draft

/-! ## How many results wait -/

theorem Waiting.weight_le_one (w : Waiting) : w.weight ≤ 1 := by
  cases w with
  | unary op => exact Nat.zero_le 1
  | binary op a | assign a => exact a.weight_le_one

/-- Each operator that waits was read from a token of its own. -/
theorem Waiting.Reads.results_le {scopes : Scopes} {ts : List Token} {ws : List Waiting}
    (h : Reads scopes ts ws) : results ws ≤ ts.length := by
  induction h with
  | nil => exact Nat.le_refl 0
  | @unary ts ws t op form _ _ _ ih =>
    rw [List.length_append]
    exact Nat.add_le_add ih (weight_le_one _)
  | binary _ _ _ _ _ ih | assign _ _ _ _ ih =>
    rw [List.length_append, List.length_append]
    exact Nat.add_le_add (Nat.le_add_right_of_le ih) (weight_le_one _)

namespace Draft

open Enclosing

/-- So was each bracket and each index. -/
theorem ReadsAround.results_le {scopes : Scopes} {ts : List Token} {r : List Enclosing}
    (h : ReadsAround scopes ts r) : results r ≤ ts.length := by
  induction h with
  | nil => exact Nat.le_refl 0
  | group _ hws ih | callEmpty _ hws _ ih | call _ hws _ _ ih =>
    have hle := hws.results_le
    simp only [results, List.length_append]
    omega
  | @index _ _ _ _ _ base _ hws _ ih =>
    have hle := hws.results_le
    have hbase := base.weight_le_one
    simp only [results, List.length_append, List.length_singleton]
    omega

/-- **No more results wait than tokens were read.** -/
theorem Reads.count_le {scopes : Scopes} {ts : List Token} {d : Draft} (h : Reads scopes ts d) :
    d.builder.count ≤ ts.length := by
  obtain ⟨hand, ws, r⟩ := d
  obtain ⟨rs, us, vs, rfl, hr, hu, hv⟩ := h
  have hhand : (hand.value?.map Expr.weight).getD 0 ≤ vs.length := by
    cases hv with
    | nothing | callee => exact Nat.zero_le _
    | @value _ e he =>
      exact (e.weight_le_one.trans e.size_pos).trans he.wellFormed.2
  rw [List.length_append, List.length_append]
  exact Nat.add_le_add (Nat.add_le_add hr.results_le hu.results_le) hhand

end Draft

/-! ## What the output yields and consumes -/

/-- **The code yields `n` results more than it consumes.** -/
def Balanced (code : Code) (n : Nat) : Prop :=
  code.countP Element.yields = code.countP Element.consumes + n

theorem Balanced.append {c c' : Code} {n m : Nat} (h : Balanced c n) (h' : Balanced c' m) :
    Balanced (c ++ c') (n + m) := by
  unfold Balanced at h h' ⊢
  rw [List.countP_append, List.countP_append, h, h']
  omega

theorem balanced_nil : Balanced [] 0 := rfl

/-- An operator behind its operands consumes the results among them. -/
theorem Balanced.apply {c : Code} {n : Nat} {os : List Operand}
    (h : Balanced c (n + os.countP Operand.isIntermediate))
    (hos : ∀ o ∈ os, (Element.operand o).yields = false) (op : Operator) :
    Balanced (c ++ (os.map Element.operand ++ [.operator op]))
      (n + if op.producesValue then 1 else 0) := by
  -- each intermediate operand consumes one result and yields none
  have hconsumes : (os.map Element.operand).countP Element.consumes =
      os.countP Operand.isIntermediate := by
    rw [List.countP_map]
    refine List.countP_congr fun o _ => ?_
    cases o <;> rfl
  have hyields : (os.map Element.operand).countP Element.yields = 0 := by
    rw [List.countP_map, List.countP_eq_zero]
    intro o ho
    rw [Function.comp_apply, hos o ho]
    exact Bool.false_ne_true
  have hoperator : [Element.operator op].countP Element.yields =
      if op.producesValue then 1 else 0 := List.countP_singleton
  have hnone : [Element.operator op].countP Element.consumes = 0 := rfl
  unfold Balanced at h ⊢
  simp only [List.countP_append, h, hconsumes, hyields, hoperator, hnone]
  omega

theorem Expr.yields_operand (k : Nat) (e : Expr) :
    (Element.operand (e.operand k)).yields = false := by
  cases e <;> rfl

/-- Arguments are passed as soon as they are evaluated. -/
theorem balanced_argumentsLinear {args : List Expr}
    (h : ∀ a ∈ args, ∀ k, Balanced (a.linearAt k) a.weight) (k slot : Nat) :
    Balanced (argumentsLinear k slot args) 0 := by
  induction args generalizing slot with
  | nil => exact balanced_nil
  | cons a args ih =>
    have ha : Balanced (a.linearAt k)
        (0 + [.parameter (UInt64.ofNat slot), a.operand k].countP Operand.isIntermediate) := by
      rw [Nat.zero_add, List.countP_cons_of_neg Bool.false_ne_true, a.countP_operand]
      exact h a List.mem_cons_self k
    have hos : ∀ o ∈ [.parameter (UInt64.ofNat slot), a.operand k],
        (Element.operand o).yields = false :=
      List.forall_mem_cons.2 ⟨rfl, List.forall_mem_singleton.2 (a.yields_operand k)⟩
    exact (ha.apply hos .argument).append (ih (fun a ha => h a (List.mem_cons_of_mem _ ha)) (slot + 1))

namespace Expr

/-- The code of two values, each with the results below it, and an operator on them. -/
theorem balanced_pair {a b : Expr} {k : Nat} (ha : Balanced (a.linearAt k) a.weight)
    (hb : Balanced (b.linearAt (k + a.weight)) b.weight) {op : Operator}
    (hop : op.producesValue = true) :
    Balanced (a.linearAt k ++ b.linearAt (k + a.weight) ++
      [.operand (a.operand k), .operand (b.operand (k + a.weight)), .operator op]) 1 := by
  have hcount : [a.operand k, b.operand (k + a.weight)].countP Operand.isIntermediate =
      a.weight + b.weight := by
    have hsum := congrArg₂ (· + ·) (a.countP_operand k) (b.countP_operand (k + a.weight))
    exact List.countP_append.trans hsum
  have hpair := ha.append hb
  rw [← hcount, ← Nat.zero_add (List.countP _ _)] at hpair
  have happlied := hpair.apply (by simp [yields_operand]) op
  rwa [hop] at happlied

/-- **The code of a tree yields its value** and consumes every other result. -/
theorem WellFormed.balanced_linearAt {known : Variable → Prop} {e : Expr}
    (h : e.WellFormed known) (k : Nat) : Balanced (e.linearAt k) e.weight := by
  induction h generalizing k with
  | var | constant => exact balanced_nil
  | @unary op a hop _ ih =>
    have hvalue : op.producesValue = true := by
      cases op <;> first | rfl | cases hop
    have ha := ih k
    rw [← a.countP_operand k, ← Nat.zero_add (List.countP _ _)] at ha
    have happlied := ha.apply (by simp [yields_operand]) op
    rwa [hvalue] at happlied
  | @binary op a b hop _ _ iha ihb =>
    have hvalue : op.producesValue = true := by
      simp only [Operator.joins, Bool.and_eq_true] at hop
      exact hop.1.2
    exact balanced_pair (iha k) (ihb _) hvalue
  | @call name args _ ih => exact (balanced_argumentsLinear ih k 0).append (m := 1) rfl
  | assign _ _ _ iht ihv => exact balanced_pair (iht k) (ihv _) rfl

end Expr

namespace Waiting

theorem Reads.balanced {scopes : Scopes} {ts : List Token} {ws : List Waiting}
    (h : Reads scopes ts ws) (k : Nat) : Balanced (code k ws) (results ws) := by
  induction h with
  | nil => rfl
  | unary _ _ _ ih => exact ih.append balanced_nil
  | binary _ ha _ _ _ ih => exact ih.append (ha.wellFormed.1.balanced_linearAt _)
  | assign _ ha hplace _ ih =>
    exact ih.append ((ha.wellFormed.1.place hplace).1.balanced_linearAt _)

end Waiting

namespace Draft

open Enclosing

theorem ReadsAround.balanced {scopes : Scopes} {ts : List Token} {r : List Enclosing}
    (h : ReadsAround scopes ts r) : Balanced (Enclosing.code r) (results r) := by
  induction h with
  | nil => rfl
  | group _ hws ih => exact ih.append (hws.balanced _)
  | callEmpty _ hws _ ih => exact (ih.append (hws.balanced _)).append balanced_nil
  | call _ hws _ hargs ih =>
    refine (ih.append (hws.balanced _)).append (balanced_argumentsLinear (fun a ha k => ?_) _ 0)
    exact (hargs.wellFormed.1 a ha).balanced_linearAt k
  | index _ hws hbase ih =>
    exact (ih.append (hws.balanced _)).append (hbase.wellFormed.1.balanced_linearAt _)

/-- **The count is what the output yields less what it consumes.** -/
theorem Reads.balanced {scopes : Scopes} {ts : List Token} {d : Draft} (h : Reads scopes ts d) :
    Balanced d.builder.output.toList d.builder.count := by
  obtain ⟨hand, ws, r⟩ := d
  obtain ⟨rs, us, vs, rfl, hr, hu, hv⟩ := h
  refine (hr.balanced.append (hu.balanced _)).append ?_
  cases hv with
  | nothing | callee => exact balanced_nil
  | value he => exact he.wellFormed.1.balanced_linearAt _

end Draft

/-! ## No operator is short of a value -/

namespace Builder

open Enclosing

variable {α β : Type} {x : Build α} {f : α → Build β} {b b' : Builder} {a : α}

/-- The step does not fail for want of an operand. -/
def Supplied (x : Build α) (b : Builder) : Prop :=
  ∀ op b', x b ≠ .error (.missingOperand op) b'

theorem Supplied.of_ok (h : x b = .ok a b') : Supplied x b := by
  intro op b'' herror
  rw [h] at herror
  cases herror

/-- One step after another. -/
theorem Supplied.bind (h : Supplied x b) (hf : ∀ a b', x b = .ok a b' → Supplied (f a) b') :
    Supplied (x >>= f) b := by
  intro op b'' herror
  rw [bind_apply] at herror
  cases hx : x b with
  | ok a b' =>
    rw [hx] at herror
    exact hf a b' hx op b'' herror
  | error e b' =>
    rw [hx] at herror
    cases herror
    exact h op _ hx

/-- A step after one that succeeds. -/
theorem Supplied.bind_ok (h : x b = .ok a b') (hf : Supplied (f a) b') : Supplied (x >>= f) b := by
  intro op b''
  rw [WordC.bind_ok h]
  exact hf op b''

theorem supplied_throw {e : ExpressionError} (h : ∀ op, e ≠ .missingOperand op) :
    Supplied (throw e : Build α) b := by
  intro op b'' herror
  exact h op (by injection herror)

/-- A token out of place is refused for what it is, or for the name before it. -/
theorem misplaced_ne {e : ExpressionError} (h : ∀ op, e ≠ .missingOperand op) (op : Operator) :
    b.misplaced e ≠ .missingOperand op := by
  unfold misplaced
  split
  · nofun
  · exact h op

theorem supplied_misplaced {e : ExpressionError} (h : ∀ op, e ≠ .missingOperand op) :
    Supplied (throw (b.misplaced e) : Build α) b' :=
  supplied_throw (misplaced_ne h)

/-- A test in front of a step. -/
theorem Supplied.guard {p : Prop} [Decidable p] {e : ExpressionError} {g : Unit → Build β}
    (he : ∀ op, e ≠ .missingOperand op) (hg : ¬ p → Supplied (g ()) b) :
    Supplied (if p then (throw e >>= g) else g ()) b := by
  split
  · exact (supplied_throw he).bind fun _ _ h => by cases h
  · exact hg ‹_›

/-! ### Steps that apply no operator -/

theorem supplied_expectOperand (text : String) (b : Builder) :
    Supplied (expectOperand text) b := by
  refine .bind_ok (get_apply b) ?_
  split
  · exact supplied_misplaced nofun
  · exact .of_ok (pure_apply _ _)

theorem supplied_addOperand (text : String) (o : Operand) (b : Builder) :
    Supplied (addOperand text o) b :=
  (supplied_expectOperand text b).bind fun _ _ _ => .of_ok (modify_apply _ _)

theorem supplied_addName (scopes : Scopes) (name : String) (b : Builder) :
    Supplied (addName scopes name) b := by
  unfold addName
  split
  · exact supplied_addOperand _ _ b
  · exact (supplied_expectOperand name b).bind fun _ _ _ => .of_ok (modify_apply _ _)

theorem supplied_takePlace (b : Builder) : Supplied takePlace b := by
  refine .bind_ok (get_apply b) ?_
  split
  · split
    · exact supplied_throw nofun
    · exact .of_ok (pure_apply _ _)
  · split
    · split
      · exact .of_ok (pure_apply _ _)
      · exact supplied_throw nofun
    · exact supplied_throw nofun
  · exact supplied_throw nofun

theorem supplied_openBracket (b : Builder) : Supplied openBracket b := by
  refine .bind_ok (get_apply b) ?_
  split
  · split
    · exact .of_ok (set_apply _ _)
    · exact supplied_throw nofun
  · exact .of_ok (set_apply _ _)
  · exact supplied_throw nofun

theorem supplied_openIndex (b : Builder) : Supplied openIndex b := by
  refine .bind_ok (get_apply b) ?_
  split
  · exact supplied_misplaced nofun
  · exact .of_ok (set_apply _ _)

/-! ### Steps that apply operators -/

variable {d : Draft}

theorem supplied_addAssignment (hd : ∀ w ∈ d.waiting, w.Sound) :
    Supplied addAssignment d.builder := by
  obtain ⟨hand, ws, r⟩ := d
  refine .bind_ok (get_apply _) ?_
  cases hand with
  | nothing | callee => exact supplied_misplaced nofun
  | value e =>
    refine .bind_ok (reduceWhile_value hd 1 e r) ?_
    exact (supplied_takePlace _).bind fun _ _ _ => .of_ok (set_apply _ _)

theorem supplied_addOperator (op : Operator) (hd : ∀ w ∈ d.waiting, w.Sound) :
    Supplied (addOperator op) d.builder := by
  have hassign := supplied_addAssignment hd
  obtain ⟨hand, ws, r⟩ := d
  refine .bind_ok (get_apply _) ?_
  have hunexpected : ∀ op', ExpressionError.unexpectedOperator op ≠ .missingOperand op' := by simp
  cases hand with
  | nothing =>
    dsimp only [Draft.builder, Hand.expecting]
    split
    · exact .of_ok (set_apply _ _)
    · exact supplied_throw hunexpected
  | callee => exact supplied_misplaced hunexpected
  | value e =>
    change Supplied (if op = .assign then addAssignment else if op.isUnary then throw _ else
      reduceWhile op.precedence >>= fun _ => modify _) _
    split
    · exact hassign
    · split
      · exact supplied_throw hunexpected
      · exact .bind_ok (reduceWhile_value hd _ e r) (.of_ok (modify_apply _ _))

/-- An index is not closed while a round bracket inside it is open. -/
theorem supplied_closeIndex_of_bracket {r : List Enclosing}
    (hindexes : b.indexes = Enclosing.indexes r)
    (hbrackets : b.brackets.length = (Enclosing.brackets r).length + 1) : Supplied closeIndex b := by
  refine .bind_ok (get_apply b) (.guard (misplaced_ne nofun) fun _ => ?_)
  rw [hindexes]
  cases h : Enclosing.indexes r with
  | nil => exact supplied_throw nofun
  | cons i rest =>
    have hle := bracketDepth_le (i := i) (r := r) (h ▸ List.mem_cons_self)
    have hne : i.bracketDepth ≠ b.brackets.length := by omega
    exact .bind_ok (set_apply _ _) (.guard nofun fun heq => absurd hne heq)

theorem supplied_closeIndex (hd : ∀ w ∈ d.waiting, w.Sound) : Supplied closeIndex d.builder := by
  obtain ⟨hand, us, r⟩ := d
  cases hand with
  | nothing | callee => exact .bind_ok (get_apply _) (supplied_misplaced nofun)
  | value e =>
    rcases r with _ | ⟨ws | ⟨name, args, ws⟩ | ⟨base, ws⟩, r⟩
    · exact .bind_ok (get_apply _) (supplied_throw nofun)
    · exact supplied_closeIndex_of_bracket (r := r) rfl rfl
    · exact supplied_closeIndex_of_bracket (r := r) rfl rfl
    · exact .of_ok (closeIndex_value hd e base ws r)

theorem supplied_closeLevel (b : Builder) : Supplied closeLevel b := by
  refine .bind_ok (get_apply b) ?_
  split
  · exact .of_ok (set_apply _ _)
  · exact supplied_throw nofun

/-- Without a value at hand, the brackets of a call are closed only if nothing
is between them. -/
theorem supplied_closeCall (call : PendingCall) (h : b.expecting ≠ .operator) :
    Supplied (closeCall call) b := by
  refine .bind_ok (get_apply b) ?_
  by_cases hempty : b.isEmptyCall call = true
  · rw [if_pos hempty]
    refine .bind_ok (pure_apply _ _) (.bind_ok (modify_apply _ _) ?_)
    exact (supplied_closeLevel _).bind fun _ _ _ => .of_ok (modify_apply _ _)
  · rw [if_neg hempty]
    exact .guard (misplaced_ne nofun) fun hexpecting => absurd h hexpecting

theorem supplied_closeBracket (hd : ∀ w ∈ d.waiting, w.Sound) :
    Supplied closeBracket d.builder := by
  have hagrees := closeBracket_builder hd
  by_cases hexpecting : d.builder.expecting = .operator
  · obtain ⟨hand, us, r⟩ := d
    cases hand with
    | nothing | callee => cases hexpecting
    | value e =>
      rcases r with _ | ⟨ws | ⟨name, args, ws⟩ | ⟨base, ws⟩, r⟩
      · exact .bind_ok (get_apply _) (supplied_misplaced nofun)
      · exact .of_ok hagrees
      · exact .of_ok hagrees
      · refine .bind_ok (get_apply _) (.guard (misplaced_ne nofun) fun _ => .guard nofun fun hin => ?_)
        exact absurd (inIndex_index _ us ws base r) hin
  · refine .bind_ok (get_apply _) (.guard (misplaced_ne nofun) fun _ => .guard nofun fun _ => ?_)
    refine .bind_ok (set_apply _ _) ?_
    split <;> refine Supplied.bind ?_ fun _ _ _ => .of_ok (modify_apply _ _)
    · exact supplied_closeCall _ hexpecting
    · exact .bind_ok (get_apply _) (.guard (misplaced_ne nofun) fun h => absurd hexpecting h)

theorem supplied_addComma (hd : ∀ w ∈ d.waiting, w.Sound) : Supplied addComma d.builder := by
  have hagrees := addComma_builder hd
  obtain ⟨hand, us, r⟩ := d
  cases hand with
  | nothing | callee => exact .bind_ok (get_apply _) (supplied_misplaced nofun)
  | value e =>
    rcases r with _ | ⟨ws | ⟨name, args, ws⟩ | ⟨base, ws⟩, r⟩
    case cons.call => exact .of_ok hagrees
    -- everywhere else there is no call to take the argument
    all_goals
      refine .bind_ok (get_apply _) (.guard (misplaced_ne nofun) fun _ => .guard nofun fun _ => ?_)
      exact supplied_throw nofun

/-- **No token lets an operator be short of a value.** -/
theorem supplied_addToken (scopes : Scopes) (t : Token) (hd : ∀ w ∈ d.waiting, w.Sound) :
    Supplied (addToken scopes t) d.builder := by
  cases t with
  | ident name => exact supplied_addName scopes name _
  | integer n => exact supplied_addOperand _ (.constant (.int n)) _
  | truth v => exact supplied_addOperand _ (.constant (.bool v)) _
  | char c => exact supplied_addOperand _ (.constant (.char c)) _
  | symbol s =>
    have hop : ∀ op, Supplied (addOperator op) d.builder := fun op => supplied_addOperator op hd
    cases s with
    | assign => exact supplied_addAssignment hd
    | parenOpen => exact supplied_openBracket _
    | parenClose => exact supplied_closeBracket hd
    | squareOpen => exact supplied_openIndex _
    | squareClose => exact supplied_closeIndex hd
    | comma => exact supplied_addComma hd
    | semicolon | braceOpen | braceClose => exact supplied_throw nofun
    | _ =>
      dsimp only [addToken, Operator.ofToken?]
      exact hop _
  | _ => exact supplied_throw nofun

/-! ## Ending an expression -/

/-- The expression can end just where the draft is complete. -/
theorem isValid_builder (d : Draft) : d.builder.isValid = d.complete?.isSome := by
  obtain ⟨hand, ws, r⟩ := d
  cases hand with
  | nothing | callee => rcases r with _ | ⟨_ | _ | _, r⟩ <;> rfl
  | value e =>
    rcases r with _ | ⟨_ | _ | ⟨base, us⟩, r⟩
    · rfl
    · rfl
    · rfl
    · simp [isValid, Draft.builder, Enclosing.indexes, Draft.complete?]

/-- **The expression is handed out just where it can end**, and the builder is then fresh. -/
theorem finish_builder_iff (hd : ∀ w ∈ d.waiting, w.Sound) (b : Builder) :
    (∃ code, finish d.builder = .ok code b) ↔ d.builder.isValid = true ∧ b = {} := by
  rw [isValid_builder]
  cases h : d.complete? with
  | none =>
    obtain ⟨e, b', herror⟩ := finish_builder_error h
    simp [herror]
  | some e =>
    rw [finish_builder hd h]
    simp [eq_comm]

theorem supplied_finish (hd : ∀ w ∈ d.waiting, w.Sound) : Supplied finish d.builder := by
  have hvalid := isValid_builder d
  cases h : d.complete? with
  | some e => exact .of_ok (finish_builder hd h)
  | none =>
    rw [h] at hvalid
    obtain ⟨hand, ws, r⟩ := d
    refine .bind_ok (get_apply _) ?_
    cases hand with
    | callee name => exact .bind_ok (set_apply _ _) (supplied_throw nofun)
    | nothing | value =>
      refine Supplied.guard (p := (!(Draft.builder _).isValid) = true) nofun fun hne => ?_
      exact absurd (by rw [hvalid]; rfl) hne

/-! ## Every row of tokens that is taken -/

/-- **The results that wait are numbered from zero in the order of their places**, after every
row of tokens that a fresh builder takes. Their count is exact: the output yields so many results
more than it consumes, so that no subtraction from the count was cut off. No further token, and
not the end of the expression, finds an operator without its operand; and the expression can be
ended just where `isValid` says so, which leaves a fresh builder. -/
theorem addTokens_numbered (scopes : Scopes) (ts : List Token) (b : Builder)
    (hlength : ts.length < UInt32.size)
    (h : (ts.forM (addToken scopes) : Build Unit) {} = .ok () b) :
    b.placeholders = List.range b.count ∧
      Balanced b.output.toList b.count ∧
      (∀ t, Supplied (addToken scopes t) b) ∧ Supplied finish b ∧
      ∀ b', (∃ code, finish b = .ok code b') ↔ b.isValid = true ∧ b' = {} := by
  obtain ⟨d, rfl, hrun⟩ := exists_draft_of_addTokens h
  have hd : Draft.Reads scopes ts d := Draft.reads_start.run hrun
  have hcount : d.builder.count ≤ UInt32.size := hd.count_le.trans hlength.le
  exact ⟨Draft.placeholders_builder hcount, hd.balanced,
    fun t => supplied_addToken scopes t hd.sound, supplied_finish hd.sound,
    finish_builder_iff hd.sound⟩

/-- The tokens of `f(1 + 2)[g(3, (4 * 5) - (6`: two results wait, one in front of an index and
one in a call inside it. -/
def openTokens : List Token :=
  [.ident "f", .symbol .parenOpen, .integer 1, .symbol .plus, .integer 2, .symbol .parenClose,
    .symbol .squareOpen, .ident "g", .symbol .parenOpen, .integer 3, .symbol .comma,
    .symbol .parenOpen, .integer 4, .symbol .star, .integer 5, .symbol .parenClose,
    .symbol .minus, .symbol .parenOpen, .integer 6]

theorem addTokens_numbered_openTokens :
    ∃ b, openTokens.length < UInt32.size ∧
      (openTokens.forM (addToken {}) : Build Unit) {} = .ok () b ∧
      b.count = 2 ∧ b.placeholders = List.range b.count ∧ Balanced b.output.toList b.count ∧
      ∀ b', ¬ ∃ code, finish b = .ok code b' := by
  have hlength : openTokens.length < UInt32.size := by decide
  have hrun : (match (openTokens.forM (addToken {}) : Build Unit) {} with
      | .ok _ b => b.count == 2 && !b.isValid
      | .error _ _ => false) = true := by decide +kernel
  cases h : (openTokens.forM (addToken {}) : Build Unit) {} with
  | error e b =>
    rw [h] at hrun
    cases hrun
  | ok _ b =>
    rw [h] at hrun
    obtain ⟨hcount, hvalid⟩ : b.count = 2 ∧ b.isValid = false := by simpa using hrun
    obtain ⟨hnumbers, hbalanced, -, -, hfinish⟩ := addTokens_numbered {} openTokens b hlength h
    refine ⟨b, hlength, rfl, hcount, hnumbers, hbalanced, fun b' hex => ?_⟩
    simpa [hvalid] using (hfinish b').1 hex

end Builder

end WordC
