import WordC.Token
import WordC.Text.Layout
/-!
# Token listings

One line per token: its position, its kind, and either its description or its
spelling, in colour when asked for.
-/

namespace WordC

/-- How tokens are listed. -/
structure ListingStyle where
  /-- Use terminal colours. -/
  color : Bool := true
  /-- Show spellings in place of descriptions. -/
  spelled : Bool := false

namespace Token

/-- The kind of token, as a column of the listing. -/
def kind : Token → String
  | eof => "EOF"
  | integer _ => "INT"
  | truth _ => "BOOL"
  | char _ => "CHAR"
  | ident _ => "IDENT"
  | type _ => "TYPE"
  | reserved _ => "KEYWORD"
  | symbol .parenOpen | symbol .parenClose | symbol .squareOpen | symbol .squareClose => "BRACKET"
  | symbol .braceOpen | symbol .braceClose => "BRACE"
  | symbol .semicolon | symbol .comma => "PUNCT"
  | symbol .assign => "ASSIGN"
  | symbol s => if s.isComparison then "CMP" else "OP"

/-- The sequence that ends a colour. -/
def resetColor : String := "\x1b[0m"

/-- The terminal colour of a token. -/
def color : Token → String
  | eof | symbol .semicolon | symbol .comma => "\x1b[2m"
  | char _ => "\x1b[32m"
  | integer _ | truth _ => "\x1b[36m"
  | ident _ => "\x1b[33m"
  | symbol .assign => "\x1b[35m"
  | t => if t.isOperator then "\x1b[35m" else resetColor

end Token

/-- A number of at least two digits. -/
def twoDigits (n : Nat) : String :=
  if n < 10 then "0" ++ toString n else toString n

/-- The listing line of one token. -/
def PlacedToken.listed (style : ListingStyle) (t : PlacedToken) : String :=
  let color := if style.color then t.token.color else ""
  let reset := if style.color then Token.resetColor else ""
  let content := if style.spelled then t.token.spelling else t.token.described
  "[" ++ twoDigits t.position.line ++ ":" ++ twoDigits t.position.column ++ "] " ++ color
    ++ Text.padRight 8 t.token.kind ++ " " ++ content ++ reset

end WordC
