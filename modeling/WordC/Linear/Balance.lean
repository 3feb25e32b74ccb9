import WordC.Linear.Program
/-!
# Balance of expressions

An expression balances when replaying it as a postfix program never lacks a
value, refers to each result once and after it was produced, and leaves exactly
one value. Results are numbered as they are when an expression is built: a
result takes the number of results that are not consumed yet.
-/

namespace WordC

/-- Why an expression does not balance. -/
inductive BalanceCause where
  | notProduced (n index : Nat)
  | underflow (index : Nat) (op : Operator)
  | stillLive (n index : Nat)
  | markerInside (m : Marker)
  | keywordInside (k : Keyword)
  | leftOver (operands results : Nat)
  | unterminated (before : Element)
  | endsInside
  deriving DecidableEq, Repr

/-- The wording of a cause. -/
def BalanceCause.message : BalanceCause → String
  | notProduced n index => s!"intermediate %{n} referenced at {index} before it was produced"
  | underflow index op =>
    s!"operand underflow at {index}, `{op.text}` needed {op.arity} operands"
  | stillLive n index => s!"intermediate %{n} produced at {index} while still live"
  | markerInside m => s!"marker {m.text} inside expression"
  | keywordInside k => s!"keyword `{k.text}` inside expression"
  | leftOver operands results =>
    s!"expression leaves {operands} operands and {results} results, expected one value"
  | unterminated before => s!"unterminated expression before {before.text}"
  | endsInside => "body ends inside an expression"

/-- An expression that does not balance, and the function it is part of. -/
structure BalanceError where
  function : Option String
  cause : BalanceCause
  deriving DecidableEq, Repr

/-- The wording of a balance error. -/
def BalanceError.message (e : BalanceError) : String :=
  match e.function with
  | some name => s!"balance error: in `{name}`: {e.cause.message}"
  | none => "balance error: " ++ e.cause.message

/-- The applications of an expression, and the operands they take. -/
structure Balance where
  unary : Nat := 0
  binary : Nat := 0
  operandSlots : Nat := 0
  deriving DecidableEq, Repr

/-- The state of replaying an expression. -/
structure Replay where
  /-- The values at hand, last first: whether each is an earlier result. -/
  slots : List Bool := []
  /-- The numbers of results that have not been referred to. -/
  live : List Nat := []
  /-- The number of results that have not been consumed. -/
  count : Nat := 0
  balance : Balance := {}
  deriving DecidableEq, Repr

namespace Replay

/-- Produces a result. -/
def produce (r : Replay) : Replay :=
  { r with live := r.count :: r.live, count := r.count + 1 }

/-- Takes the values of an operator and counts its application. -/
def consume (r : Replay) (op : Operator) : Replay :=
  { r with
    slots := r.slots.drop op.arity
    count := r.count - (r.slots.take op.arity).countP id
    balance := {
      unary := r.balance.unary + (if op.isUnary then 1 else 0)
      binary := r.balance.binary + (if op.isUnary then 0 else 1)
      operandSlots := r.balance.operandSlots + op.arity } }

/-- Replays the element at `index`. -/
def step (r : Replay) (index : Nat) : Element → Except BalanceCause Replay
  | .operand (.intermediate n) =>
    if r.live.contains n.toNat then
      .ok { r with live := r.live.erase n.toNat, slots := true :: r.slots }
    else .error (.notProduced n.toNat index)
  | .operand (.result _) => .ok r.produce
  | .operand _ => .ok { r with slots := false :: r.slots }
  | .operator op =>
    if r.slots.length < op.arity then .error (.underflow index op)
    else
      let r := r.consume op
      if !op.producesValue then .ok r
      else if r.live.contains r.count then .error (.stillLive r.count index)
      else .ok r.produce
  | .marker m => .error (.markerInside m)
  | .keyword k => .error (.keywordInside k)

/-- Replays elements, the first of which is at `index`. -/
def run (r : Replay) (index : Nat) : List Element → Except BalanceCause Replay
  | [] => .ok r
  | e :: rest =>
    match r.step index e with
    | .ok r => run r (index + 1) rest
    | .error cause => .error cause

end Replay

/-- Checks that an expression balances. -/
def checkExpression (code : List Element) : Except BalanceCause Balance :=
  match Replay.run {} 0 code with
  | .error cause => .error cause
  | .ok r =>
    match r.slots.length, r.live.length with
    | 1, 0 => .ok r.balance
    | 0, 1 => .ok r.balance
    | operands, results => .error (.leftOver operands results)

/-- Checks every expression of a body, given the reversed beginning of the
current one. -/
def checkBody : List Element → List Element → Except BalanceCause Unit
  | [], [] => .ok ()
  | _ :: _, [] => .error .endsInside
  | pending, e :: rest =>
    if e.inExpression then checkBody (e :: pending) rest
    else if pending.isEmpty then checkBody [] rest
    else if e.endsExpression then
      match checkExpression pending.reverse with
      | .ok _ => checkBody [] rest
      | .error cause => .error cause
    else .error (.unterminated e)

/-- Checks every expression of a function. A prototype has none. -/
def Function.checkBalance (f : Function) : Except BalanceError Unit :=
  match checkBody [] (f.body.getD []) with
  | .ok _ => .ok ()
  | .error cause => .error ⟨some f.name, cause⟩

/-- Checks every expression of a program. -/
def Program.checkBalance (p : Program) : Except BalanceError Unit :=
  p.functions.forM Function.checkBalance

end WordC
