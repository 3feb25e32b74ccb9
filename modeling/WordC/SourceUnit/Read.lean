import WordC.SourceUnit.Body
import WordC.Log
/-!
# Reading source units

A source unit is a list of file-scope variables, prototypes and function
definitions. Parameter `i` of `n` lies at offset `n - i + 1` from the frame
pointer, above the saved frame pointer and the return address.
-/

namespace WordC

/-- A source unit that has been read: its program and its calls. -/
structure SourceUnit where
  program : Program
  calls : List CallSite

/-- One item of a source unit. -/
inductive Item where
  | global (g : Global)
  | prototype (f : Function)
  | definition (f : Function)

namespace Read

/-- The initial value of a file-scope variable: a literal, with a sign if it is
negative. -/
def initialValue : Read Int64 := do
  let negative ← sees .minus
  if negative then
    advance
  let value ← match ← peek with
    | .integer n => pure n
    | .truth b => pure (Constant.bool b).value
    | .char c => pure (Constant.char c).value
    | _ => fail .globalInitializer
  advance
  return if negative then -value else value

/-- The rest of a file-scope variable after its name, which stands at `p`. -/
def globalItem (type : DataType) (name : String) (p : Position) : Read Item := do
  if type.isVoid then
    failAt p (.voidVariable name)
  if ← sees .squareOpen then
    fail .globalArray
  let value ←
    if ← sees .assign then do
      advance
      initialValue
    else pure 0
  expect .semicolon .afterGlobal
  return .global ⟨name, type, value⟩

/-- A parameter as written: its name, its type and the position of its name. -/
structure Parameter where
  name : String
  type : DataType
  position : Position

/-- The parameters up to the closing bracket. `limit` bounds their number. -/
def parameters : (limit : Nat) → Read (List Parameter)
  | 0 => fail .nestedTooDeep
  | limit + 1 => do
    if ← sees .parenClose then return []
    let type ← pointers (← baseType)
    if type.isVoid then
      fail .voidParameter
    let (name, p) ← expectName .forParameter
    if !(← sees .parenClose) then
      expect .comma .betweenParameters
    return ⟨name, type, p⟩ :: (← parameters limit)

/-- The parameter list of a function with its brackets. A lone `void` stands
for no parameters. -/
def parameterList : Read (List Parameter) := do
  expect .parenOpen .afterFunctionName
  if (← peek) = .type .void && (← peekSecond) = .symbol .parenClose then
    advance
  let list ← parameters ((← get).tokens.length + 1)
  expect .parenClose .afterParameters
  return list

/-- The variables of `list`, the parameters from `count` on downwards. -/
def parameterVariables : (count : Nat) → List Parameter → List Variable
  | _, [] => []
  | count, p :: rest =>
    ⟨p.name, p.type, .frame (Int64.ofNat (count + 1)), none⟩ :: parameterVariables (count - 1) rest

/-- The braces of a function and what is between them. -/
def functionBody (returnType : DataType) (list : List Parameter) (placed : List Variable) :
    Read (List Stmt) := do
  expect .braceOpen .openBody
  enterScope
  (list.zip placed).forM fun (p, v) => declareVariable p.position v
  modify fun s => { s with frameSize := 0 }
  let inner ← statements { returnType := returnType } (4 * (← get).tokens.length + 4)
  exitScope
  return inner

/-- The rest of a function after its name. -/
def functionItem (type : DataType) (name : String) : Read Item := do
  let list ← parameterList
  let placed := parameterVariables list.length list
  if ← sees .semicolon then
    advance
    return .prototype ⟨name, type, placed, none, 0⟩
  else
    let inner ← functionBody type list placed
    let size := (← get).frameSize
    return .definition ⟨name, type, placed, some (bodyLinear inner), UInt64.ofNat size⟩

/-- The next item and the position of its name. -/
def item : Read (Item × Position) := do
  let type ← pointers (← baseType)
  let (name, p) ← expectName .afterType
  if ← sees .parenOpen then return (← functionItem type name, p)
  else return (← globalItem type name p, p)

/-- Declares a function whose name stands at `p`. -/
def declareFunction (p : Position) (f : Function) : Read Unit := do
  let s ← get
  match Declarations.declare f s.declarations with
  | .ok _ declarations => set { s with declarations := declarations }
  | .error e _ => failAt p (.declaration e)

/-- Makes an item known to the items after it. -/
def declareItem (p : Position) : Item → Read Unit
  | .global g => do
    declareVariable p ⟨g.name, g.type, .global g.name, none⟩
    modify fun s => { s with globals := s.globals ++ [g] }
  | .prototype f => declareFunction p f
  | .definition f => declareFunction p f

end Read

/-- What is noted about an item that has been read. -/
def Item.note? : Item → Option Note
  | definition f =>
    let elements := (f.body.getD []).length
    some ⟨.debug, s!"function `{f.name}`: {elements} elements, {f.frameSize.toNat} local words"⟩
  | _ => none

namespace SourceUnit

/-- Reads items up to the end of the text. `limit` bounds their number. -/
def readItems : (limit : Nat) → ReadState → Logged SyntaxError ReadState
  | 0, _ => throw ⟨.start, .nestedTooDeep⟩
  | limit + 1, s => do
    match (← Logged.ofExcept (Read.peek s)) with
    | (.eof, _) => return s
    | _ =>
      let ((item, p), s) ← Logged.ofExcept (Read.item s)
      if let some note := item.note? then
        Logged.note note.level note.text
      let (_, s) ← Logged.ofExcept (Read.declareItem p item s)
      readItems limit s

/-- Reads a source unit. -/
def read (tokens : List PlacedToken) : Logged SyntaxError SourceUnit := do
  let s ← readItems (tokens.length + 1) { tokens := tokens }
  return ⟨⟨s.globals, s.declarations.functions⟩, s.calls⟩

/-- The source unit that a token list holds. -/
def parse (tokens : List PlacedToken) : Except SyntaxError SourceUnit :=
  (read tokens).value

end SourceUnit

end WordC
