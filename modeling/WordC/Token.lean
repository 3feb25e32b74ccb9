import WordC.Position
import WordC.Text.Quoted
import WordC.Text.Numeral
/-!
# Tokens

What a source text is made of: literals, names, reserved words, type names and
symbols. Every token has a spelling, which is how it is written in a source
text, and a description, which names its kind and shows its content.
-/

namespace WordC

/-- Words that open or shape a statement. -/
inductive Reserved where
  | returnWord | ifWord | elseWord | whileWord | forWord | breakWord
  deriving DecidableEq, Repr

/-- The types a declaration can begin with. -/
inductive BaseType where
  | int | bool | char | void
  deriving DecidableEq, Repr

/-- Operators, brackets and punctuation. -/
inductive Symbol where
  | plus | minus | star
  | shiftLeft | shiftRight | rotateLeft | rotateRight
  | amp | pipe | caret | tilde
  | equal | notEqual | less | greater | lessEqual | greaterEqual
  | ampAmp | pipePipe | bang
  | assign | semicolon | comma
  | parenOpen | parenClose | squareOpen | squareClose | braceOpen | braceClose
  deriving DecidableEq, Repr

/-- One token. `eof` closes every token list. -/
inductive Token where
  | integer (value : Int64)
  | truth (value : Bool)
  | char (value : Char)
  | reserved (word : Reserved)
  | type (base : BaseType)
  | symbol (symbol : Symbol)
  | ident (name : String)
  | eof
  deriving DecidableEq, Repr

/-- A token and the position of its first character. -/
structure PlacedToken where
  token : Token
  position : Position
  deriving DecidableEq, Repr

namespace Reserved

/-- The word as written. -/
def spelling : Reserved → String
  | returnWord => "return"
  | ifWord => "if"
  | elseWord => "else"
  | whileWord => "while"
  | forWord => "for"
  | breakWord => "break"

/-- The word's kind in a token listing. -/
def described : Reserved → String
  | returnWord => "Return"
  | ifWord => "If"
  | elseWord => "Else"
  | whileWord => "While"
  | forWord => "For"
  | breakWord => "Break"

end Reserved

namespace BaseType

/-- The type as written. -/
def spelling : BaseType → String
  | int => "int"
  | bool => "bool"
  | char => "char"
  | void => "void"

/-- The type's kind in a token listing. -/
def described : BaseType → String
  | int => "Int"
  | bool => "BoolType"
  | char => "CharType"
  | void => "Void"

end BaseType

namespace Symbol

/-- The characters of a symbol. -/
def chars : Symbol → List Char
  | plus => ['+']
  | minus => ['-']
  | star => ['*']
  | shiftLeft => ['<', '<']
  | shiftRight => ['>', '>']
  | rotateLeft => ['<', '<', '<']
  | rotateRight => ['>', '>', '>']
  | amp => ['&']
  | pipe => ['|']
  | caret => ['^']
  | tilde => ['~']
  | equal => ['=', '=']
  | notEqual => ['!', '=']
  | less => ['<']
  | greater => ['>']
  | lessEqual => ['<', '=']
  | greaterEqual => ['>', '=']
  | ampAmp => ['&', '&']
  | pipePipe => ['|', '|']
  | bang => ['!']
  | assign => ['=']
  | semicolon => [';']
  | comma => [',']
  | parenOpen => ['(']
  | parenClose => [')']
  | squareOpen => ['[']
  | squareClose => [']']
  | braceOpen => ['{']
  | braceClose => ['}']

/-- The symbol as written. -/
def spelling (s : Symbol) : String :=
  String.ofList s.chars

/-- The symbol's kind in a token listing. -/
def described : Symbol → String
  | plus => "Plus"
  | minus => "Minus"
  | star => "Star"
  | shiftLeft => "ShiftLeft"
  | shiftRight => "ShiftRight"
  | rotateLeft => "RotateLeft"
  | rotateRight => "RotateRight"
  | amp => "Amp"
  | pipe => "Pipe"
  | caret => "Caret"
  | tilde => "Tilde"
  | equal => "EqEq"
  | notEqual => "NotEq"
  | less => "Lt"
  | greater => "Gt"
  | lessEqual => "LtEq"
  | greaterEqual => "GtEq"
  | ampAmp => "AmpAmp"
  | pipePipe => "PipePipe"
  | bang => "Bang"
  | assign => "Assign"
  | semicolon => "Semicolon"
  | comma => "Comma"
  | parenOpen => "LParen"
  | parenClose => "RParen"
  | squareOpen => "LBracket"
  | squareClose => "RBracket"
  | braceOpen => "LBrace"
  | braceClose => "RBrace"

/-- A comparison of two values. -/
def isComparison : Symbol → Bool
  | equal | notEqual | less | greater | lessEqual | greaterEqual => true
  | _ => false

/-- A symbol that stands for an operator of an expression. Assignment is not
counted among them. -/
def isOperator : Symbol → Bool
  | assign | semicolon | comma => false
  | parenOpen | parenClose | squareOpen | squareClose | braceOpen | braceClose => false
  | _ => true

end Symbol

namespace Token

/-- The token as it is written in a source text. -/
def spelling : Token → String
  | integer n => Text.decimal n
  | truth b => if b then "true" else "false"
  | char c => Text.quotedChar c
  | reserved w => w.spelling
  | type t => t.spelling
  | symbol s => s.spelling
  | ident name => name
  | eof => "EOF"

/-- The token's kind with its content. -/
def described : Token → String
  | integer n => "Integer(" ++ Text.decimal n ++ ")"
  | truth b => "Bool(" ++ (if b then "true" else "false") ++ ")"
  | char c => "Char(" ++ Text.quotedChar c ++ ")"
  | reserved w => w.described
  | type t => t.described
  | symbol s => s.described
  | ident name => "Ident(" ++ Text.quotedString name ++ ")"
  | eof => "Eof"

/-- The token names a type. -/
def isType : Token → Bool
  | type _ => true
  | _ => false

/-- The token can appear as an operator of an expression. -/
def isOperator : Token → Bool
  | symbol s => s.isOperator
  | _ => false

end Token

end WordC
