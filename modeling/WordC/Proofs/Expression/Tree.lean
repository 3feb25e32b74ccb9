import Mathlib
import WordC.Statement
import WordC.Scopes
import WordC.Expression.Builder
/-!
# Expression trees, and the grammar they are read by

`Expr` is the tree of an expression, with names resolved and brackets gone.
Left of `=` the tree holds a place: a variable, or the form of a dereference
or an index that yields the address (`Expr.place?`).

`Expr.linear` is the linear form. It is post-order: the code of the values
comes first, left to right, and an operator stands directly behind its
values. A variable or a constant has no code of its own and is named where it
is used; every other value is named by a number, the number of results that
wait at that point.

`Derives` is the grammar, one rule a form, indexed by how tightly the
expression must bind.
-/

namespace WordC

/-- The tree of an expression. -/
inductive Expr where
  | var (v : Variable)
  | constant (c : Constant)
  | unary (op : Operator) (a : Expr)
  | binary (op : Operator) (a b : Expr)
  | call (name : String) (args : List Expr)
  | assign (target value : Expr)

namespace Expr

/-- The expression is a variable or a constant. -/
def isLeaf : Expr → Bool
  | var _ | constant _ => true
  | _ => false

/-- How many results wait once the expression is evaluated: none for a leaf. -/
def weight (e : Expr) : Nat :=
  if e.isLeaf then 0 else 1

theorem weight_le_one (e : Expr) : e.weight ≤ 1 := by
  unfold weight
  split <;> omega

/-- How the value is named when `k` results wait below it. -/
def operand (k : Nat) : Expr → Operand
  | var v => .var v
  | constant c => .constant c
  | _ => .intermediate (UInt32.ofNat k)

/-- A value is a result exactly when it has a weight. -/
theorem countP_operand (k : Nat) (e : Expr) :
    [e.operand k].countP Operand.isIntermediate = e.weight := by
  cases e <;> rfl

/-- What the expression is left of `=`: a variable that is no array, or the
address that a dereference or an index reads. -/
def place? : Expr → Option Expr
  | var v => if v.isArray then none else some (var v)
  | unary op a => op.storeForm?.map fun form => unary form a
  | binary op a b => op.storeForm?.map fun form => binary form a b
  | _ => none

end Expr

mutual

/-- The code of an expression when `k` results wait below it. -/
def Expr.linearAt (k : Nat) : Expr → Code
  | .var _ | .constant _ => []
  | .unary op a => a.linearAt k ++ [.operand (a.operand k), .operator op]
  | .binary op a b =>
    a.linearAt k ++ b.linearAt (k + a.weight) ++
      [.operand (a.operand k), .operand (b.operand (k + a.weight)), .operator op]
  | .call name args =>
    argumentsLinear k 0 args ++ [.operand (.result ⟨name, UInt64.ofNat args.length⟩)]
  | .assign target value =>
    target.linearAt k ++ value.linearAt (k + target.weight) ++
      [.operand (target.operand k), .operand (value.operand (k + target.weight)),
        .operator .assign]

/-- The code of the arguments of a call, the first of them for `slot`. Each is
passed as soon as it is evaluated, so none of them waits. -/
def argumentsLinear (k slot : Nat) : List Expr → Code
  | [] => []
  | a :: rest =>
    a.linearAt k ++
      [.operand (.parameter (UInt64.ofNat slot)), .operand (a.operand k), .operator .argument] ++
      argumentsLinear k (slot + 1) rest

end

/-- The linear form of an expression. A leaf is its own value and stands at the
end. -/
def Expr.linear (e : Expr) : Code :=
  e.linearAt 0 ++ if e.isLeaf then [.operand (e.operand 0)] else []

/-- The operator stands between two values and is no assignment: the levels
from `||` up to `*`. -/
def Operator.isInfix (op : Operator) : Bool :=
  1 ≤ op.precedence && op.precedence ≤ 10

mutual

/-- **The grammar of expressions.** `Derives scopes p ts e`: the tokens `ts` are
an expression that binds at least as tightly as `p`, and `e` is its tree. Level
0 is an assignment, 1 to 10 are the operators between two values by their
precedence, 11 is an operator before a value, and 12 is a value with the calls
and indexes behind it. `Operator.grammar_iff` lists the operators. -/
inductive Derives (scopes : Scopes) : Nat → List Token → Expr → Prop where
  | var {name v} : scopes.find? name = some v → Derives scopes 12 [.ident name] (.var v)
  | integer {n} : Derives scopes 12 [.integer n] (.constant (.int n))
  | truth {b} : Derives scopes 12 [.truth b] (.constant (.bool b))
  | char {c} : Derives scopes 12 [.char c] (.constant (.char c))
  /-- Brackets leave no trace in the tree. -/
  | group {ts e} : Derives scopes 0 ts e →
      Derives scopes 12 (.symbol .parenOpen :: ts ++ [.symbol .parenClose]) e
  /-- A call without arguments, of a name that no variable has. -/
  | callEmpty {name} : scopes.find? name = none →
      Derives scopes 12 [.ident name, .symbol .parenOpen, .symbol .parenClose] (.call name [])
  | call {name ts args} : scopes.find? name = none → DerivesArguments scopes ts args →
      Derives scopes 12 (.ident name :: .symbol .parenOpen :: ts ++ [.symbol .parenClose])
        (.call name args)
  | index {ts us a b} : Derives scopes 12 ts a → Derives scopes 0 us b →
      Derives scopes 12 (ts ++ .symbol .squareOpen :: us ++ [.symbol .squareClose])
        (.binary .index a b)
  | unary {t op form ts a} : Operator.ofToken? t = some op → op.unaryForm? = some form →
      Derives scopes 11 ts a → Derives scopes 11 (t :: ts) (.unary form a)
  /-- Operators of one level associate to the left. -/
  | binary {t op ts us a b} : Operator.ofToken? t = some op → op.isInfix →
      Derives scopes op.precedence ts a → Derives scopes (op.precedence + 1) us b →
      Derives scopes op.precedence (ts ++ t :: us) (.binary op a b)
  /-- Assignments associate to the right. -/
  | assign {ts us a target b} : Derives scopes 1 ts a → a.place? = some target →
      Derives scopes 0 us b →
      Derives scopes 0 (ts ++ .symbol .assign :: us) (.assign target b)
  | loosen {p ts e} : Derives scopes (p + 1) ts e → Derives scopes p ts e

/-- One or more arguments with commas between them. -/
inductive DerivesArguments (scopes : Scopes) : List Token → List Expr → Prop where
  | one {ts e} : Derives scopes 0 ts e → DerivesArguments scopes ts [e]
  | more {ts us e es} : Derives scopes 0 ts e → DerivesArguments scopes us es →
      DerivesArguments scopes (ts ++ .symbol .comma :: us) (e :: es)

end

/-! ## The operators of the grammar -/

/-- **The operators of the grammar**, by the symbols they are written with: those before a
value with the form they take there, those between two values with their levels, and the
forms that operators take left of `=`. -/
theorem Operator.grammar_iff (t : Token) (op form : Operator) :
    (ofToken? t = some op ∧ op.unaryForm? = some form ↔ (t, op, form) ∈
      [(Token.symbol .plus, plus, unaryPlus), (.symbol .minus, minus, unaryMinus),
        (.symbol .star, multiply, dereference), (.symbol .bang, logicalNot, logicalNot),
        (.symbol .tilde, bitwiseNot, bitwiseNot)]) ∧
    (ofToken? t = some op ∧ op.isInfix = true ↔ (t, op, op.precedence) ∈
      [(Token.symbol .pipePipe, logicalOr, 1), (.symbol .ampAmp, logicalAnd, 2),
        (.symbol .pipe, bitwiseOr, 3), (.symbol .caret, bitwiseXor, 4),
        (.symbol .amp, bitwiseAnd, 5), (.symbol .equal, equal, 6), (.symbol .notEqual, notEqual, 6),
        (.symbol .less, less, 7), (.symbol .lessEqual, lessEqual, 7),
        (.symbol .greater, greater, 7), (.symbol .greaterEqual, greaterEqual, 7),
        (.symbol .shiftLeft, shiftLeft, 8), (.symbol .shiftRight, shiftRight, 8),
        (.symbol .rotateLeft, rotateLeft, 8), (.symbol .rotateRight, rotateRight, 8),
        (.symbol .plus, plus, 9), (.symbol .minus, minus, 9), (.symbol .star, multiply, 10)]) ∧
    (op.storeForm? = some form ↔
      (op, form) ∈ [(dereference, dereferenceStore), (index, indexStore)]) := by
  refine ⟨⟨fun h => ?_, fun h => ?_⟩, ⟨fun h => ?_, fun h => ?_⟩, ?_⟩
  · obtain ⟨ht, hform⟩ := h
    cases t with
    | symbol s => cases s <;> cases ht <;> cases hform <;> decide
    | _ => cases ht
  · cases op <;> simp at h
    all_goals
      obtain ⟨rfl, rfl⟩ := h
      exact ⟨rfl, rfl⟩
  · obtain ⟨ht, hop⟩ := h
    cases t with
    | symbol s => cases s <;> cases ht <;> first | cases hop; done | decide
    | _ => cases ht
  · cases op <;> simp [precedence] at h
    all_goals
      subst h
      exact ⟨rfl, rfl⟩
  · cases op <;> simp [storeForm?, eq_comm]

/-- An operator before a value takes one value, and it binds tightest. -/
theorem Operator.unaryForm_spec {t : Token} {op form : Operator} (ht : ofToken? t = some op)
    (hform : op.unaryForm? = some form) : form.isUnary = true ∧ form.precedence = 11 := by
  have hmem := (grammar_iff t op form).1.1 ⟨ht, hform⟩
  simp only [List.mem_cons, List.not_mem_nil, or_false, Prod.mk.injEq] at hmem
  rcases hmem with ⟨-, -, rfl⟩ | ⟨-, -, rfl⟩ | ⟨-, -, rfl⟩ | ⟨-, -, rfl⟩ | ⟨-, -, rfl⟩ <;>
    exact ⟨rfl, rfl⟩

end WordC
