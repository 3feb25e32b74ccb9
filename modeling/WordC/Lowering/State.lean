import WordC.Lowering.Assembler
import WordC.Lowering.Label
import WordC.Linear.Program
/-!
# The state of lowering a body

What is known while the elements of a body are lowered one by one: the
expression so far, the open scopes, and what the next scope belongs to.
-/

namespace WordC

/-- The expression that is being lowered. -/
structure ExpressionState where
  /-- The values that wait for an operator, the last one first. -/
  pending : List Operand := []
  /-- The number of the next result. -/
  count : Nat := 0
  /-- The results that are addresses to store to. -/
  storeTargets : List Nat := []
  /-- The register of the latest result. -/
  lastResult : Option Reg := none
  /-- The expression has an element. -/
  hasValues : Bool := false

/-- Part of a body: its first `length` elements count. What stands behind them
is kept, since an element may look ahead. -/
structure Stretch where
  elements : List Element
  length : Nat

/-- How far the head of a counted loop has been lowered. -/
inductive LoopPhase where
  /-- Before the end of the first expression. -/
  | init
  /-- Before the end of the condition. -/
  | condition
  /-- Within the step, which begins at `start`. It is lowered after the body. -/
  | step (start : List Element)
  /-- Behind the head. -/
  | ready (step : Stretch)

/-- A counted loop before its body. -/
structure LoopHead where
  base : LabelBase
  depth : Nat
  phase : LoopPhase

/-- What the next scope is the body of. -/
inductive Opening where
  | branch
  | otherwise
  | whileLoop (base : LabelBase) (depth : Nat)
  | forLoop

/-- An open scope. -/
inductive OpenScope where
  | block
  | branch
  | otherwise
  | whileLoop (base : LabelBase) (depth : Nat)
  | forLoop (base : LabelBase) (depth : Nat) (step : Stretch)

/-- An open chain of branches. -/
structure IfChain where
  base : LabelBase
  depth : Nat
  /-- The number of further branches so far. -/
  branches : Nat
  /-- Some branch jumps to the end of the chain. -/
  jumped : Bool
  /-- Where control goes on if the current branch is not taken. -/
  skip : String

/-- The state of lowering a body. -/
structure BodyState where
  assembler : Assembler
  labels : Labels := {}
  /-- The number of open control structures. -/
  depth : Nat := 0
  scopes : List OpenScope := []
  chains : List IfChain := []
  /-- The end labels of the open loops, innermost first. -/
  loops : List String := []
  loopHead : Option LoopHead := none
  opening : Option Opening := none
  /-- Where control goes if the condition is zero. -/
  conditionTarget : Option String := none
  /-- The expression is the value of a return. -/
  returning : Bool := false
  expression : ExpressionState := {}

/-- A step of lowering. It keeps its state when it fails. -/
abbrev Lower := EStateM LoweringError BodyState

namespace Lower

/-- Runs an operation on the register file. -/
def onAssembler {α : Type} (x : Assemble α) : Lower α := fun s =>
  match x s.assembler with
  | .ok a assembler => .ok a { s with assembler }
  | .error e assembler => .error e { s with assembler }

instance : MonadLift Assemble Lower where
  monadLift := onAssembler

/-- Changes the state of the expression. -/
def onExpression (f : ExpressionState → ExpressionState) : Lower Unit :=
  modify fun s => { s with expression := f s.expression }

/-- Emits an instruction. -/
def instruction (mnemonic : Mnemonic) (args : List Arg) : Lower Unit :=
  Assemble.instruction mnemonic args

/-- Emits an instruction with a comment. -/
def noted (mnemonic : Mnemonic) (args : List Arg) (comment : String) : Lower Unit :=
  Assemble.noted mnemonic args comment

/-- Emits a label. -/
def label (name : String) : Lower Unit :=
  Assemble.emit (.label name)

/-- Ends the use of the values of the current instruction. -/
def releaseOperands : Lower Unit :=
  Assemble.onFile (·.releaseOperands)

/-- Forgets the values in all registers. -/
def invalidate : Lower Unit :=
  Assemble.onFile (·.invalidate)

end Lower

/-- The failure at an element that does not fit. -/
def Function.unexpected (f : Function) (element : String) : LoweringError :=
  .unexpectedElement f.name element

end WordC
