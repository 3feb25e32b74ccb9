import WordC.Variable
import WordC.Operator
/-!
# Elements of the linear form

The linear form of a function is a flat list of elements. Expressions are
postfix: the values an operator takes stand directly before it, and its result
is referred to by a number. Nesting is marked by markers and keywords.
-/

namespace WordC

/-- A call by name, with the number of its arguments. -/
structure CallRef where
  name : String
  arity : UInt64
  deriving DecidableEq, Repr

/-- A value of an expression. -/
inductive Operand where
  | var (v : Variable)
  | constant (c : Constant)
  /-- A result computed earlier in the same expression. -/
  | intermediate (n : UInt32)
  /-- The result of a call, directly after its arguments. -/
  | result (call : CallRef)
  /-- An argument slot of the pending call. -/
  | parameter (slot : UInt64)
  deriving DecidableEq, Repr

/-- Marks that structure the linear form. -/
inductive Marker where
  | expressionEnd
  | functionStart
  | functionEnd
  | scopeOpen
  | scopeClose
  /-- Ends a condition: control leaves when its value is zero. -/
  | zeroJump
  deriving DecidableEq, Repr

/-- Keywords that precede an expression or a scope. -/
inductive Keyword where
  | returning | ifThen | elseIf | otherwise | whileLoop | forLoop | breakLoop
  deriving DecidableEq, Repr

/-- One element of the linear form. -/
inductive Element where
  | operand (operand : Operand)
  | operator (operator : Operator)
  | marker (marker : Marker)
  | keyword (keyword : Keyword)
  deriving DecidableEq, Repr

/-- A value in a listing. -/
def Operand.text : Operand → String
  | var v => v.name
  | constant c => "#" ++ Text.decimal c.value
  | intermediate n => "%" ++ toString n.toNat
  | result call => call.name ++ "/" ++ toString call.arity.toNat ++ "()"
  | parameter slot => "P" ++ toString slot.toNat

/-- A marker in a listing. -/
def Marker.text : Marker → String
  | expressionEnd => "EXPRESSION_END"
  | functionStart => "FUNCTION_START"
  | functionEnd => "FUNCTION_END"
  | scopeOpen => "SCOPE_INCREMENT"
  | scopeClose => "SCOPE_DECREMENT"
  | zeroJump => "EQUAL_ZERO_JUMP"

/-- A keyword in a listing. -/
def Keyword.text : Keyword → String
  | returning => "return"
  | ifThen => "if"
  | elseIf => "else if"
  | otherwise => "else"
  | whileLoop => "while"
  | forLoop => "for"
  | breakLoop => "break"

namespace Element

/-- An element in a listing. -/
def text : Element → String
  | operand o => o.text
  | operator op => op.text
  | marker m => m.text
  | keyword k => k.text

/-- The element ends an expression. -/
def endsExpression : Element → Bool
  | marker .expressionEnd | marker .zeroJump => true
  | _ => false

/-- The element is part of an expression. -/
def inExpression : Element → Bool
  | operand _ | operator _ => true
  | _ => false

end Element

end WordC
