import WordC.Declarations
import WordC.Statement
import WordC.SourceUnit.Error
/-!
# Reading tokens

The state of reading a source unit, and the small steps all rules are made of:
looking at the next token, taking it, insisting on one. An expression is read
up to the token that ends it outside of all brackets.
-/

namespace WordC

/-- A call and the position where its expression begins. -/
structure CallSite where
  name : String
  arity : Nat
  position : Position
  deriving DecidableEq, Repr

/-- What is left to read and what has been read. -/
structure ReadState where
  tokens : List PlacedToken
  scopes : Scopes := {}
  calls : List CallSite := []
  globals : List Global := []
  declarations : Declarations := {}
  /-- The words reserved so far for the locals of the current function. -/
  frameSize : Nat := 0

/-- A step of reading. -/
abbrev Read := StateT ReadState (Except SyntaxError)

namespace Read

variable {α : Type}

/-- The next token. At the end of the list it is the end of the text. -/
def peek : Read Token := do
  return match (← get).tokens with
    | t :: _ => t.token
    | [] => .eof

/-- The token after the next one. -/
def peekSecond : Read Token := do
  return match (← get).tokens with
    | _ :: t :: _ => t.token
    | _ => .eof

/-- The position of the next token. -/
def position : Read Position := do
  return match (← get).tokens with
    | t :: _ => t.position
    | [] => .start

/-- Fails at a position. -/
def failAt (p : Position) (cause : SyntaxCause) : Read α :=
  throw ⟨p, cause⟩

/-- Fails at the next token. -/
def fail (cause : SyntaxCause) : Read α := do
  failAt (← position) cause

/-- Takes the next token. -/
def advance : Read Unit :=
  modify fun s => { s with tokens := s.tokens.tail }

/-- The next token is the given symbol. -/
def sees (symbol : Symbol) : Read Bool := do
  return (← peek) = .symbol symbol

/-- Takes the given symbol, or fails. -/
def expect (symbol : Symbol) (place : Place) : Read Unit := do
  let found ← peek
  if found = .symbol symbol then advance
  else fail (.expectedToken (.symbol symbol) place found)

/-- Takes a name, or fails. -/
def expectName (place : Place) : Read (String × Position) := do
  let p ← position
  match ← peek with
  | .ident name =>
    advance
    return (name, p)
  | _ => fail (.expectedName place)

/-- Opens a scope. -/
def enterScope : Read Unit :=
  modify fun s => { s with scopes := s.scopes.enter }

/-- Closes the innermost scope. -/
def exitScope : Read Unit :=
  modify fun s => { s with scopes := s.scopes.exit }

/-- Declares a variable whose name stands at `p`. -/
def declareVariable (p : Position) (v : Variable) : Read Unit := do
  let s ← get
  match s.scopes.declare v with
  | .ok scopes => set { s with scopes := scopes }
  | .error e => failAt p (.declaration e)

/-- Takes the name of a type. -/
def baseType : Read DataType := do
  match ← peek with
  | .type base =>
    advance
    return base.dataType
  | _ => fail .expectedType

/-- Takes the stars after a type, each of which makes a pointer of it. -/
def pointers (base : DataType) : Read DataType := do
  let s ← get
  let stars := s.tokens.takeWhile (·.token = .symbol .star)
  set { s with tokens := s.tokens.drop stars.length }
  return stars.foldl (fun type _ => .pointer type) base

/-! ## Expressions -/

/-- What ends an expression. -/
inductive Ending where
  /-- A semicolon. -/
  | semicolon
  /-- The closing bracket of a condition or a loop header. -/
  | bracket
  /-- A comma or a semicolon after a declared name. -/
  | declarator
  deriving DecidableEq, Repr

/-- The token ends an expression that is not inside a bracket. -/
def Ending.isAt : Ending → Token → Bool
  | semicolon, .symbol .semicolon => true
  | bracket, .symbol .parenClose => true
  | declarator, .symbol .semicolon => true
  | declarator, .symbol .comma => true
  | _, _ => false

/-- Why a token cannot stand in any expression. -/
def refusal? (t : Token) : Option SyntaxCause :=
  match t with
  | .eof | .symbol .braceOpen | .symbol .braceClose | .symbol .semicolon =>
    some (.unexpectedInExpression t)
  | .type _ => some (.typeInExpression t)
  | _ => none

/-- Gives tokens to the builder up to the one that ends the expression. -/
def collect (scopes : Scopes) (ending : Ending) :
    Builder → List PlacedToken → Except SyntaxError (Builder × List PlacedToken)
  | _, [] => .error ⟨.start, .endInExpression⟩
  | b, t :: rest =>
    if !b.isNested && ending.isAt t.token then .ok (b, t :: rest)
    else
      match refusal? t.token with
      | some cause => .error ⟨t.position, cause⟩
      | none =>
        match Builder.addToken scopes t.token b with
        | .ok _ b => collect scopes ending b rest
        | .error e _ => .error ⟨t.position, .expression e⟩

/-- The calls of an expression that begins at `p`. -/
def callSites (p : Position) (code : Code) : List CallSite :=
  code.filterMap fun
    | .operand (.result call) => some ⟨call.name, call.arity.toNat, p⟩
    | _ => none

/-- Continues the expression begun in `b` and records its calls. The result is
nothing when no token belongs to it. -/
def continueExpression (ending : Ending) (b : Builder) : Read (Option Code) := do
  let start ← position
  let s ← get
  let (b, rest) ← collect s.scopes ending b s.tokens
  set { s with tokens := rest }
  if b.isEmpty then return none
  match Builder.finish b with
  | .ok code _ =>
    modify fun s => { s with calls := s.calls ++ callSites start code }
    return some code
  | .error e _ => fail (.expression e)

/-- An expression that may be missing. -/
def optionalExpression (ending : Ending) : Read (Option Code) :=
  continueExpression ending {}

/-- Continues the expression begun in `b`, which may not be missing. -/
def requireExpression (ending : Ending) (b : Builder) : Read Code := do
  match ← continueExpression ending b with
  | some code => return code
  | none => fail .expectedExpression

/-- An expression. -/
def expression (ending : Ending) : Read Code :=
  requireExpression ending {}

end Read

end WordC
