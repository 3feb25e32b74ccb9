/-!
# Failures of lowering

A pool that is too small is the only failure a user can cause. All others say
that a body is not the linear form of any source text.
-/

namespace WordC

/-- The smallest pool of general registers. -/
def minRegisters : Nat := 2

/-- Why a program cannot be lowered. -/
inductive LoweringError where
  | poolTooSmall (requested : Nat)
  | intermediateNotFound (n : Nat)
  | noRegisterAvailable
  | spillAcrossCall (name : String)
  | unmatchedCall (name : String)
  | unexpectedElement (function element : String)
  | missingOperands (function operator : String)
  | breakOutsideLoop (function : String)
  | missingBody (function : String)
  /-- A spilled word lies above the top of the stack. -/
  | stackUnderflow
  /-- Two registers hold the same value. -/
  | valueHeldTwice
  deriving DecidableEq, Repr

/-- The wording of a failure. -/
def LoweringError.message : LoweringError → String
  | poolTooSmall requested =>
    s!"register pool of {requested} is too small, at least {minRegisters} registers are needed"
  | intermediateNotFound n =>
    s!"internal error: intermediate result %{n} is neither in a register nor spilled"
  | noRegisterAvailable => "internal error: every register is pinned by the current instruction"
  | spillAcrossCall name =>
    s!"internal error: a spilled result sits between the arguments of `{name}`"
  | unmatchedCall name =>
    s!"internal error: call to `{name}` returned without a recorded argument list"
  | unexpectedElement function element =>
    s!"internal error in `{function}`: unexpected {element}"
  | missingOperands function operator =>
    s!"internal error in `{function}`: `{operator}` is missing operands"
  | breakOutsideLoop function => s!"internal error in `{function}`: `break` outside of a loop"
  | missingBody function => s!"`{function}` has no body"
  | stackUnderflow => "internal error: a spilled word lies above the top of the stack"
  | valueHeldTwice => "internal error: two registers hold the same value"

end WordC
