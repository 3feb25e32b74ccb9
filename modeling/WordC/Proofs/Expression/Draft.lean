import Mathlib
import WordC.Proofs.Expression.Tree
/-!
# Drafts: what has been read of an expression

A `Draft` is the state of reading an expression token by token, kept as trees:
the value at hand, the operators that wait for a value on their right, and the
brackets and indexes around them, innermost first. `Draft.step` takes one
token and `Draft.complete?` ends the expression.
-/

namespace WordC

/-- An operator that waits for the value on its right. -/
inductive Waiting where
  | unary (op : Operator)
  | binary (op : Operator) (a : Expr)
  | assign (target : Expr)

namespace Waiting

/-- The operator itself. -/
def operator : Waiting → Operator
  | unary op | binary op _ => op
  | assign _ => .assign

/-- How tightly the operator binds. -/
def precedence (w : Waiting) : Nat :=
  w.operator.precedence

/-- The operator applied to the value on its right. -/
def apply : Waiting → Expr → Expr
  | unary op, e => .unary op e
  | binary op a, e => .binary op a e
  | assign target, e => .assign target e

/-- How tightly the value on its right must bind. -/
def need : Waiting → Nat
  | unary _ => 11
  | binary op _ => op.precedence + 1
  | assign _ => 0

/-- Applies the operators that bind at least as tightly as `p`, innermost
first. -/
def settle (p : Nat) : List Waiting → Expr → List Waiting × Expr
  | [], e => ([], e)
  | w :: ws, e => if p ≤ w.precedence then settle p ws (w.apply e) else (w :: ws, e)

/-- All operators applied, innermost first. -/
def applyAll (ws : List Waiting) (e : Expr) : Expr :=
  ws.foldl (fun e w => w.apply e) e

end Waiting

/-- A bracket or an index that is open, with the operators that wait outside. -/
inductive Enclosing where
  | group (waiting : List Waiting)
  /-- The bracket of a call and the arguments before the current one. -/
  | call (name : String) (args : List Expr) (waiting : List Waiting)
  | index (base : Expr) (waiting : List Waiting)

/-- What has been read after the last waiting operator. -/
inductive Hand where
  | nothing
  | value (e : Expr)
  /-- The name of a call, before its bracket. -/
  | callee (name : String)

/-- What has been read of an expression. -/
structure Draft where
  hand : Hand := .nothing
  waiting : List Waiting := []
  around : List Enclosing := []

namespace Draft

open Waiting

/-- Takes a value. -/
def takeValue (e : Expr) (d : Draft) : Option Draft :=
  match d.hand with
  | .nothing => some { d with hand := .value e }
  | _ => none

/-- Takes a name: a variable, or the name of a call. -/
def takeName (scopes : Scopes) (name : String) (d : Draft) : Option Draft :=
  match d.hand, scopes.find? name with
  | .nothing, some v => some { d with hand := .value (.var v) }
  | .nothing, none => some { d with hand := .callee name }
  | _, _ => none

/-- Takes an assignment. -/
def takeAssign (d : Draft) : Option Draft :=
  match d.hand with
  | .value e =>
    let (ws, e) := settle 1 d.waiting e
    e.place?.map fun target => { d with hand := .nothing, waiting := .assign target :: ws }
  | _ => none

/-- Takes an operator in the form it has between two values. -/
def takeOperator (op : Operator) (d : Draft) : Option Draft :=
  match d.hand with
  | .nothing => op.unaryForm?.map fun form => { d with waiting := .unary form :: d.waiting }
  | .value e =>
    if op.isInfix then
      let (ws, e) := settle op.precedence d.waiting e
      some { d with hand := .nothing, waiting := .binary op e :: ws }
    else none
  | .callee _ => none

/-- Takes an opening round bracket. -/
def openRound (d : Draft) : Option Draft :=
  match d.hand with
  | .nothing => some ⟨.nothing, [], .group d.waiting :: d.around⟩
  | .callee name => some ⟨.nothing, [], .call name [] d.waiting :: d.around⟩
  | .value _ => none

/-- Takes a closing round bracket. -/
def closeRound (d : Draft) : Option Draft :=
  match d.around, d.hand with
  | .group ws :: around, .value e => some ⟨.value (settle 0 d.waiting e).2, ws, around⟩
  | .call name args ws :: around, .value e =>
    some ⟨.value (.call name (args ++ [(settle 0 d.waiting e).2])), ws, around⟩
  | .call name [] ws :: around, .nothing =>
    if d.waiting.isEmpty then some ⟨.value (.call name []), ws, around⟩ else none
  | _, _ => none

/-- Takes a comma. -/
def takeComma (d : Draft) : Option Draft :=
  match d.around, d.hand with
  | .call name args ws :: around, .value e =>
    some ⟨.nothing, [], .call name (args ++ [(settle 0 d.waiting e).2]) ws :: around⟩
  | _, _ => none

/-- Takes an opening square bracket. -/
def openSquare (d : Draft) : Option Draft :=
  match d.hand with
  | .value e => some ⟨.nothing, [], .index e d.waiting :: d.around⟩
  | _ => none

/-- Takes a closing square bracket. -/
def closeSquare (d : Draft) : Option Draft :=
  match d.around, d.hand with
  | .index base ws :: around, .value e =>
    some ⟨.value (.binary .index base (settle 0 d.waiting e).2), ws, around⟩
  | _, _ => none

/-- Takes one token. -/
def step (scopes : Scopes) (t : Token) : Draft → Option Draft :=
  match t with
  | .ident name => takeName scopes name
  | .integer n => takeValue (.constant (.int n))
  | .truth b => takeValue (.constant (.bool b))
  | .char c => takeValue (.constant (.char c))
  | .symbol .assign => takeAssign
  | .symbol .parenOpen => openRound
  | .symbol .parenClose => closeRound
  | .symbol .squareOpen => openSquare
  | .symbol .squareClose => closeSquare
  | .symbol .comma => takeComma
  | t =>
    match Operator.ofToken? t with
    | some op => takeOperator op
    | none => fun _ => none

/-- Takes tokens in order. -/
def run (scopes : Scopes) : List Token → Draft → Option Draft
  | [], d => some d
  | t :: ts, d => (d.step scopes t).bind (run scopes ts)

/-- The tree of a finished expression. -/
def complete? (d : Draft) : Option Expr :=
  match d.around, d.hand with
  | [], .value e => some (settle 0 d.waiting e).2
  | _, _ => none

/-! What a step is, by token. -/

section Step

variable (scopes : Scopes) (d : Draft)

@[simp] theorem step_ident (name : String) :
    d.step scopes (.ident name) = d.takeName scopes name := rfl

@[simp] theorem step_assign : d.step scopes (.symbol .assign) = d.takeAssign := rfl

@[simp] theorem step_parenOpen : d.step scopes (.symbol .parenOpen) = d.openRound := rfl

@[simp] theorem step_parenClose : d.step scopes (.symbol .parenClose) = d.closeRound := rfl

@[simp] theorem step_squareOpen : d.step scopes (.symbol .squareOpen) = d.openSquare := rfl

@[simp] theorem step_squareClose : d.step scopes (.symbol .squareClose) = d.closeSquare := rfl

@[simp] theorem step_comma : d.step scopes (.symbol .comma) = d.takeComma := rfl

end Step

theorem step_of_operator {scopes : Scopes} {t : Token} {op : Operator}
    (ht : Operator.ofToken? t = some op) (hop : op ≠ .assign) (d : Draft) :
    d.step scopes t = d.takeOperator op := by
  cases t with
  | symbol s =>
    cases s with
    | assign => cases ht; exact absurd rfl hop
    | semicolon | comma | parenOpen | parenClose | squareOpen | squareClose | braceOpen
    | braceClose => cases ht
    | _ => cases ht; rfl
  | _ => cases ht

theorem run_append (scopes : Scopes) (ts us : List Token) (d : Draft) :
    run scopes (ts ++ us) d = (run scopes ts d).bind (run scopes us) := by
  induction ts generalizing d with
  | nil => rfl
  | cons t ts ih =>
    simp only [List.cons_append, run]
    cases d.step scopes t with
    | none => rfl
    | some d' => exact ih d'

end Draft

/-! ## Settling -/

namespace Waiting

/-- The innermost operator of `ws`, if there is one, gives no way to `p`. -/
def Stops (p : Nat) : List Waiting → Prop
  | [] => True
  | w :: _ => w.precedence < p

/-- An operator that gives way is applied. -/
theorem settle_cons_of_le {p : Nat} {w : Waiting} (h : p ≤ w.precedence) (ws : List Waiting)
    (e : Expr) : settle p (w :: ws) e = settle p ws (w.apply e) := by
  rw [settle, if_pos h]

/-- Operators stay where settling stops. -/
theorem settle_of_stops {p : Nat} {ws : List Waiting} (h : Stops p ws) (e : Expr) :
    settle p ws e = (ws, e) := by
  cases ws with
  | nil => rfl
  | cons w ws => rw [settle, if_neg (Nat.not_le.2 h)]

/-- Operators that give way to `p` are all applied. -/
theorem settle_append {p : Nat} {us : List Waiting} (h : ∀ w ∈ us, p ≤ w.precedence)
    (ws : List Waiting) (e : Expr) :
    settle p (us ++ ws) e = settle p ws (applyAll us e) := by
  induction us generalizing e with
  | nil => rfl
  | cons u us ih =>
    rw [List.cons_append, settle_cons_of_le (h u (by simp))]
    exact ih (fun w hw => h w (by simp [hw])) (u.apply e)

theorem applyAll_concat (ws : List Waiting) (w : Waiting) (e : Expr) :
    applyAll (ws ++ [w]) e = w.apply (applyAll ws e) := by
  simp [applyAll]

/-- Settling at level 0 leaves nothing behind. -/
theorem settle_zero (ws : List Waiting) (e : Expr) : settle 0 ws e = ([], applyAll ws e) := by
  have hall : ∀ w ∈ ws, 0 ≤ w.precedence := fun w _ => Nat.zero_le _
  have := settle_append hall [] e
  simpa [settle] using this

theorem stops_settle (p : Nat) (ws : List Waiting) (e : Expr) : Stops p (settle p ws e).1 := by
  induction ws generalizing e with
  | nil => trivial
  | cons w ws ih =>
    by_cases h : p ≤ w.precedence
    · rw [settle_cons_of_le h]
      exact ih _
    · rw [settle, if_neg h]
      exact Nat.not_le.1 h

end Waiting

end WordC
