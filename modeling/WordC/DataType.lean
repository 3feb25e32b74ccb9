import WordC.Token
/-!
# Types of values

Every value is one machine word. The type of a value matters for messages and
tells pointers apart from plain words.
-/

namespace WordC

/-- The declared type of a variable, a constant or a function result. -/
inductive DataType where
  | void
  | int
  | bool
  | char
  | pointer (target : DataType)
  deriving DecidableEq, Repr, Inhabited

namespace DataType

/-- The type as written in a declaration. -/
def text : DataType → String
  | void => "void"
  | int => "int"
  | bool => "bool"
  | char => "char"
  | pointer target => target.text ++ "*"

/-- The type without values. A pointer to it is not void. -/
def isVoid : DataType → Bool
  | void => true
  | _ => false

end DataType

/-- The type that a type name stands for. -/
def BaseType.dataType : BaseType → DataType
  | int => .int
  | bool => .bool
  | char => .char
  | void => .void

end WordC
