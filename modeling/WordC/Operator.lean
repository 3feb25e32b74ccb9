import WordC.Token
import WordC.Assembly.Mnemonic
/-!
# Operators of the linear form

Operators with their precedence, the number of values they take, the
instruction they become, and the forms they have beside the plain one.
-/

namespace WordC

/-- An operator of an expression in linear form. -/
inductive Operator where
  | logicalNot | bitwiseNot | unaryPlus | unaryMinus
  | dereference
  /-- A dereference left of `=`: it yields the address. -/
  | dereferenceStore
  | index
  /-- An index left of `=`: it yields the address. -/
  | indexStore
  | multiply
  | plus | minus
  | shiftLeft | shiftRight | rotateLeft | rotateRight
  | less | lessEqual | greater | greaterEqual
  | equal | notEqual
  | bitwiseAnd | bitwiseXor | bitwiseOr
  | logicalAnd | logicalOr
  | assign
  /-- Passes a value to an argument slot of the pending call. -/
  | argument
  /-- Stands for the first argument of a call until it is known whether there
  is one. -/
  | possibleArgument
  deriving DecidableEq, Repr

namespace Operator

/-- All operators, in the order of their codes. -/
def all : List Operator :=
  [logicalNot, bitwiseNot, unaryPlus, unaryMinus, dereference, dereferenceStore,
   index, indexStore, multiply, plus, minus, shiftLeft, shiftRight, rotateLeft, rotateRight,
   less, lessEqual, greater, greaterEqual, equal, notEqual, bitwiseAnd, bitwiseXor, bitwiseOr,
   logicalAnd, logicalOr, assign, argument, possibleArgument]

/-- How tightly an operator binds. -/
def precedence : Operator → Nat
  | logicalNot | bitwiseNot | unaryPlus | unaryMinus => 11
  | dereference | dereferenceStore | index | indexStore => 11
  | multiply => 10
  | plus | minus => 9
  | shiftLeft | shiftRight | rotateLeft | rotateRight => 8
  | less | lessEqual | greater | greaterEqual => 7
  | equal | notEqual => 6
  | bitwiseAnd => 5
  | bitwiseXor => 4
  | bitwiseOr => 3
  | logicalAnd => 2
  | logicalOr => 1
  | assign | argument | possibleArgument => 0

/-- The operator takes one value. -/
def isUnary : Operator → Bool
  | logicalNot | bitwiseNot | unaryPlus | unaryMinus | dereference | dereferenceStore => true
  | _ => false

/-- The number of values the operator takes. -/
def arity (op : Operator) : Nat :=
  if op.isUnary then 1 else 2

/-- The operator passes an argument. -/
def isArgument : Operator → Bool
  | argument | possibleArgument => true
  | _ => false

/-- Passing an argument leaves no value; every other operator leaves one. -/
def producesValue (op : Operator) : Bool :=
  !op.isArgument

/-- The instruction that an application becomes. A logical not compares with
zero and a unary plus adds zero. -/
def mnemonic : Operator → Mnemonic
  | logicalNot => .eq
  | bitwiseNot => .not
  | unaryPlus => .add
  | unaryMinus => .neg
  | dereference | index => .load
  | dereferenceStore => .mov
  | indexStore => .add
  | multiply => .mul
  | plus => .add
  | minus => .sub
  | shiftLeft => .shl
  | shiftRight => .shr
  | rotateLeft => .rol
  | rotateRight => .ror
  | less => .lt
  | lessEqual => .lte
  | greater => .gt
  | greaterEqual => .gte
  | equal => .eq
  | notEqual => .neq
  | bitwiseAnd | logicalAnd => .and
  | bitwiseXor => .xor
  | bitwiseOr | logicalOr => .or
  | assign => .mov
  | argument | possibleArgument => .push

/-- The form that yields an address, for the operators that read through one. -/
def storeForm? : Operator → Option Operator
  | dereference => some dereferenceStore
  | index => some indexStore
  | _ => none

/-- The form an operator takes where a value is expected. -/
def unaryForm? : Operator → Option Operator
  | plus | unaryPlus => some unaryPlus
  | minus | unaryMinus => some unaryMinus
  | multiply | dereference => some dereference
  | logicalNot => some logicalNot
  | bitwiseNot => some bitwiseNot
  | _ => none

/-- The operator that a symbol stands for between two values, or before one for
`!` and `~`. -/
def ofSymbol? : Symbol → Option Operator
  | .bang => some logicalNot
  | .tilde => some bitwiseNot
  | .star => some multiply
  | .plus => some plus
  | .minus => some minus
  | .shiftLeft => some shiftLeft
  | .shiftRight => some shiftRight
  | .rotateLeft => some rotateLeft
  | .rotateRight => some rotateRight
  | .less => some less
  | .lessEqual => some lessEqual
  | .greater => some greater
  | .greaterEqual => some greaterEqual
  | .equal => some equal
  | .notEqual => some notEqual
  | .amp => some bitwiseAnd
  | .caret => some bitwiseXor
  | .pipe => some bitwiseOr
  | .ampAmp => some logicalAnd
  | .pipePipe => some logicalOr
  | .assign => some assign
  | _ => none

/-- The operator that a token stands for. -/
def ofToken? : Token → Option Operator
  | .symbol s => ofSymbol? s
  | _ => none

/-- The operator in a listing of the linear form. -/
def text : Operator → String
  | logicalNot => "!"
  | bitwiseNot => "~"
  | unaryPlus => "U+"
  | unaryMinus => "U-"
  | dereference => "U*"
  | dereferenceStore => "U*="
  | index => "[]"
  | indexStore => "[]="
  | multiply => "*"
  | plus => "+"
  | minus => "-"
  | shiftLeft => "<<"
  | shiftRight => ">>"
  | rotateLeft => "<<<"
  | rotateRight => ">>>"
  | less => "<"
  | lessEqual => "<="
  | greater => ">"
  | greaterEqual => ">="
  | equal => "=="
  | notEqual => "!="
  | bitwiseAnd => "&"
  | bitwiseXor => "^"
  | bitwiseOr => "|"
  | logicalAnd => "&&"
  | logicalOr => "||"
  | assign => "="
  | argument => ":="
  | possibleArgument => "?="

end Operator

end WordC
