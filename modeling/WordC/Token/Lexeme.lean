import WordC.Token
import WordC.Text.Alphabetic
import WordC.Text.Numeric
import WordC.Text.Blank
/-!
# Lexemes

A lexeme is the run of characters that denotes one token. `Lexeme.read` takes
the longest one at the beginning of a text; `triviaLength` measures the white
space, comments and directive lines before it.
-/

namespace WordC

/-- Why a text cannot be split into tokens. -/
inductive LexicalError where
  | unterminatedComment
  | missingHexDigits
  | hexOutOfRange (digits : String)
  | integerSuffix (digits : String)
  | integerOutOfRange (digits : String)
  | unknownEscape (c : Char)
  | endInEscape
  | emptyChar
  | unterminatedChar
  | unexpectedChar (c : Char)
  deriving DecidableEq, Repr

/-- The wording of a lexical error. -/
def LexicalError.message : LexicalError → String
  | unterminatedComment => "unterminated block comment"
  | missingHexDigits => "expected hex digits after 0x"
  | hexOutOfRange digits => "invalid hex number: 0x" ++ digits
  | integerSuffix digits => "invalid suffix on integer " ++ digits
  | integerOutOfRange digits => "invalid integer: " ++ digits
  | unknownEscape c => "unknown escape sequence: \\" ++ c.toString
  | endInEscape => "unexpected EOF in escape sequence"
  | emptyChar => "empty or unterminated character literal"
  | unterminatedChar => "unterminated character literal"
  | unexpectedChar c => "unexpected character: '" ++ c.toString ++ "'"

/-- A lexical error and how many characters into the text it lies. -/
structure LexicalFault where
  offset : Nat
  error : LexicalError
  deriving DecidableEq, Repr

/-- A token and the number of characters that denote it. -/
structure Lexeme where
  token : Token
  length : Nat
  length_pos : 0 < length

/-- A character a name can begin with. -/
def isNameStart (c : Char) : Bool :=
  Text.isLetter c || c = '_'

/-- A character a name can go on with. -/
def isNamePart (c : Char) : Bool :=
  Text.isLetter c || Text.isNumber c || c = '_'

/-! ## Trivia -/

/-- The length of a block comment's rest up to and including its end. -/
def blockCommentLength : List Char → Option Nat
  | [] => none
  | '*' :: '/' :: _ => some 2
  | _ :: cs => (blockCommentLength cs).map (· + 1)

/-- The length of a line up to its end. -/
def lineLength (cs : List Char) : Nat :=
  (cs.takeWhile (· ≠ '\n')).length

/-- The piece of trivia at the beginning of a text, by its length: one blank,
the rest of a line from `//` or `#` on, or a block comment. Zero when none is
there, and an error when a block comment does not end. -/
def triviaPiece (cs : List Char) : Except LexicalError Nat :=
  match cs with
  | '/' :: '*' :: rest =>
    match blockCommentLength rest with
    | some n => .ok (n + 2)
    | none => .error .unterminatedComment
  | '/' :: '/' :: _ => .ok (lineLength cs)
  | '#' :: _ => .ok (lineLength cs)
  | c :: _ => .ok (if Text.isBlank c then 1 else 0)
  | [] => .ok 0

/-- The number of characters before the first lexeme. -/
def triviaLength (cs : List Char) : Except LexicalFault Nat :=
  match triviaPiece cs with
  | .error e => .error ⟨0, e⟩
  | .ok n =>
    if _h : 0 < n ∧ cs.isEmpty = false then
      match triviaLength (cs.drop n) with
      | .ok m => .ok (n + m)
      | .error f => .error { f with offset := n + f.offset }
    else .ok 0
termination_by cs.length
decreasing_by
  have := List.length_pos_iff.2 (List.isEmpty_eq_false_iff.1 _h.2)
  simp only [List.length_drop]
  omega

/-! ## Literals -/

/-- The lexeme of the hexadecimal integer whose digits `cs` begins with; its
first two characters stand before `cs`. -/
def readHexadecimal (cs : List Char) : Except LexicalError Lexeme :=
  let digits := cs.takeWhile Text.isHexDigit
  if digits.isEmpty then .error .missingHexDigits
  else
    match Text.int64? (Text.digitsValue 16 digits) with
    | some n => .ok ⟨.integer n, digits.length + 2, Nat.succ_pos _⟩
    | none => .error (.hexOutOfRange (String.ofList digits))

/-- The lexeme of an integer that begins with the digit `c`: hexadecimal after
`0x`, else decimal digits that no letter and no underscore follows. -/
def readInteger (c : Char) (cs : List Char) : Except LexicalError Lexeme :=
  match c, cs with
  | '0', 'x' :: rest => readHexadecimal rest
  | '0', 'X' :: rest => readHexadecimal rest
  | _, _ =>
    let more := cs.takeWhile Char.isDigit
    if ((cs.dropWhile Char.isDigit).head?.map isNameStart).getD false then
      .error (.integerSuffix (String.ofList (c :: more)))
    else
      match Text.int64? (Text.digitsValue 10 (c :: more)) with
      | some n => .ok ⟨.integer n, more.length + 1, Nat.succ_pos _⟩
      | none => .error (.integerOutOfRange (String.ofList (c :: more)))

/-- The character an escape denotes and the escape's length, both without the
backslash: a letter escape, a backslash, a quote, or up to three octal digits. -/
def readEscape (cs : List Char) : Except LexicalError (Char × Nat) :=
  match cs with
  | [] => .error .endInEscape
  | 'n' :: _ => .ok ('\n', 1)
  | 't' :: _ => .ok ('\t', 1)
  | 'r' :: _ => .ok ('\r', 1)
  | '\\' :: _ => .ok ('\\', 1)
  | '\'' :: _ => .ok ('\'', 1)
  | '"' :: _ => .ok ('"', 1)
  | c :: _ =>
    if Text.isOctalDigit c then
      let digits := (cs.takeWhile Text.isOctalDigit).take 3
      .ok (Char.ofNat (Text.digitsValue 8 digits), digits.length)
    else .error (.unknownEscape c)

/-- The lexeme of the literal for `c`, when its closing quote follows `n`
characters after the opening one. -/
def closeCharLiteral (c : Char) (n : Nat) (cs : List Char) : Except LexicalFault Lexeme :=
  match cs.drop n with
  | '\'' :: _ => .ok ⟨.char c, n + 2, by omega⟩
  | _ => .error ⟨0, .unterminatedChar⟩

/-- The lexeme of a character literal, from the text after its opening quote. -/
def readCharLiteral (cs : List Char) : Except LexicalFault Lexeme :=
  match cs with
  | [] => .error ⟨0, .emptyChar⟩
  | '\'' :: _ => .error ⟨0, .emptyChar⟩
  | '\n' :: _ => .error ⟨0, .emptyChar⟩
  | '\\' :: rest =>
    match readEscape rest with
    | .ok (c, n) => closeCharLiteral c (n + 1) cs
    | .error e => .error ⟨2, e⟩
  | c :: _ => closeCharLiteral c 1 cs

/-! ## Names and symbols -/

/-- The words that are not names. -/
def Token.words : List (String × Token) :=
  [("true", .truth true), ("false", .truth false),
   ("return", .reserved .returnWord), ("if", .reserved .ifWord), ("else", .reserved .elseWord),
   ("while", .reserved .whileWord), ("for", .reserved .forWord), ("break", .reserved .breakWord),
   ("int", .type .int), ("bool", .type .bool), ("char", .type .char), ("void", .type .void)]

/-- The token that a word denotes: a truth value, a reserved word, a type, or
else a name. -/
def Token.ofWord (word : String) : Token :=
  (Token.words.lookup word).getD (.ident word)

/-- The lexeme of the word that a text begins with. -/
def readWord (c : Char) (cs : List Char) : Lexeme :=
  let part := cs.takeWhile isNamePart
  ⟨Token.ofWord (String.ofList (c :: part)), part.length + 1, by omega⟩

/-- All symbols, longer ones before their beginnings. -/
def Symbol.longestFirst : List Symbol :=
  [.rotateLeft, .rotateRight,
   .shiftLeft, .shiftRight, .lessEqual, .greaterEqual, .equal, .notEqual, .ampAmp, .pipePipe,
   .less, .greater, .assign, .bang, .amp, .pipe, .plus, .minus, .star, .caret, .tilde,
   .parenOpen, .parenClose, .squareOpen, .squareClose, .braceOpen, .braceClose,
   .semicolon, .comma]

/-- The longest symbol that a text begins with. -/
def Symbol.read? (cs : List Char) : Option Symbol :=
  longestFirst.find? fun s => s.chars.isPrefixOf cs

theorem Symbol.chars_length_pos (s : Symbol) : 0 < s.chars.length := by
  cases s <;> decide

/-! ## One lexeme -/

/-- The lexeme at the beginning of a text that starts with `c`. -/
def Lexeme.read (c : Char) (cs : List Char) : Except LexicalFault Lexeme :=
  if c = '\'' then readCharLiteral cs
  else if c.isDigit then
    match readInteger c cs with
    | .ok l => .ok l
    | .error e => .error ⟨0, e⟩
  else if isNameStart c then .ok (readWord c cs)
  else
    match Symbol.read? (c :: cs) with
    | some s => .ok ⟨.symbol s, s.chars.length, s.chars_length_pos⟩
    | none => .error ⟨0, .unexpectedChar c⟩

end WordC
