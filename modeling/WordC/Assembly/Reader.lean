import WordC.Assembly.Line
import WordC.Text.Blank
/-!
# Reading lines of assembly

A line is read back from its text. Blanks around its parts are dropped, names
are made of plain letters, digits and underscores, and the names of labels may
have dots in them.
-/

namespace WordC

/-- What a line of text holds. -/
inductive LineContent where
  | line (l : Line)
  /-- The beginning of a library function, which sets up no frame. -/
  | frameless (name : String)
  | blank
  deriving DecidableEq, Repr

/-- A line of text: its content and its comment. -/
structure ReadLine where
  content : LineContent
  comment : Option String
  deriving DecidableEq, Repr

/-- A letter of the plain alphabet or an underscore. -/
def isPlainStart (c : Char) : Bool :=
  c.isAlpha || c = '_'

/-- A name. The names of labels may have dots after their first character. -/
def isPlainName (dots : Bool) : List Char → Bool
  | [] => false
  | c :: rest =>
    isPlainStart c && rest.all fun c => isPlainStart c || c.isDigit || (dots && c = '.')

/-- The text before a final `last`. -/
def dropFinal? (last : Char) (cs : List Char) : Option (List Char) :=
  if cs.getLast? = some last then some cs.dropLast else none

/-- The operand in square brackets: a register and a signed offset. -/
def readMemory? : List Char → Option Arg
  | [] => none
  | c :: rest => do
    let isSign := fun d : Char => d = '+' || d = '-'
    let base := c :: rest.takeWhile (!isSign ·)
    let offset := rest.dropWhile (!isSign ·)
    if offset.isEmpty then none
    else
      let base ← Reg.ofName? (Text.trim base)
      let offset ← Text.integer? (Text.trim offset)
      return .mem base offset

/-- The operand a word denotes. -/
def Arg.read? (word : List Char) : Option Arg :=
  match word with
  | '[' :: rest =>
    match dropFinal? ']' rest with
    | some inner => readMemory? inner
    | none => none
  | '@' :: name => if isPlainName false name then some (.global (String.ofList name)) else none
  | _ =>
    match Text.integer? word with
    | some n => some (.imm n)
    | none =>
      match Reg.ofName? word with
      | some r => some (.reg r)
      | none => if isPlainName true word then some (.label (String.ofList word)) else none

/-- The name before a final colon. -/
def readName? (dots : Bool) (cs : List Char) : Option String := do
  let name := Text.trim (← dropFinal? ':' cs)
  if isPlainName dots name then some (String.ofList name) else none

/-- A file-scope word and its value, separated by a colon. -/
def readGlobal? (cs : List Char) : Option Line := do
  let name := cs.takeWhile (· ≠ ':')
  match cs.drop name.length with
  | [] => none
  | _ :: value =>
    let value ← Text.integer? (Text.trim value)
    let name := Text.trim name
    if isPlainName false name then some (.global (String.ofList name) value) else none

/-- An instruction: its mnemonic and its operands, between blanks or commas. -/
def readInstruction? (cs : List Char) : Option Line := do
  match Text.words (fun c => Text.isBlank c || c = ',') cs with
  | [] => none
  | name :: args =>
    let mnemonic ← Mnemonic.ofName? name
    let args ← args.mapM Arg.read?
    return .plain mnemonic args

/-- The content of a line's code, which has no blanks around it. -/
def readCode? (code : List Char) : Option LineContent :=
  match code with
  | '@' :: rest => (readGlobal? rest).map .line
  | '$' :: rest => (readName? false rest).map fun name => .line (.function name)
  | '&' :: rest => (readName? false rest).map .frameless
  | _ =>
    if code.getLast? = some ':' then (readName? true code).map fun name => .line (.label name)
    else (readInstruction? code).map .line

/-- Reads a line. Its comment begins at the first semicolon; a comment without
code is a line of its own. -/
def readLine? (text : List Char) : Option ReadLine :=
  let code := Text.trim (text.takeWhile (· ≠ ';'))
  let comment := Text.trim ((text.dropWhile (· ≠ ';')).drop 1)
  let comment := if comment.isEmpty then none else some (String.ofList comment)
  if code.isEmpty then
    match comment with
    | some comment => some ⟨.line (.comment comment), none⟩
    | none => some ⟨.blank, none⟩
  else (readCode? code).map fun content => ⟨content, comment⟩

end WordC
