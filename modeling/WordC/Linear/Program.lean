import WordC.Linear.Element
/-!
# Programs in linear form

File-scope words with their initial values, and functions with the linear form
of their bodies.
-/

namespace WordC

/-- A file-scope variable and its initial value. -/
structure Global where
  name : String
  type : DataType
  value : Int64
  deriving DecidableEq, Repr

/-- A function. A prototype has no body. -/
structure Function where
  name : String
  returnType : DataType
  parameters : List Variable
  body : Option (List Element)
  /-- The number of words reserved for locals. -/
  frameSize : UInt64
  deriving DecidableEq, Repr

/-- A whole source unit. -/
structure Program where
  globals : List Global := []
  functions : List Function := []
  deriving DecidableEq, Repr

namespace Function

/-- The number of parameters. -/
def arity (f : Function) : Nat :=
  f.parameters.length

/-- The function has a body. -/
def isDefined (f : Function) : Bool :=
  f.body.isSome

end Function

/-- The first function of the given name. -/
def Program.function? (p : Program) (name : String) : Option Function :=
  p.functions.find? fun f => f.name = name

end WordC
