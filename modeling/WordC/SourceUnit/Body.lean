import WordC.SourceUnit.Cursor
/-!
# Reading function bodies

Declarations and statements. Locals get consecutive negative offsets from the
frame pointer in the order of their declaration; an array reserves all its
words and is addressed by the lowest.

The rules for statements refer to each other. They take the number of rules
that may still be entered, which a body never exhausts: each rule takes a token
before it enters a third one.
-/

namespace WordC

namespace Read

/-! ## Declarations -/

/-- The number of words of an array, in square brackets after its name. -/
def arrayLength : Read (Option UInt64) := do
  if ← sees .squareOpen then
    advance
    match ← peek with
    | .integer n =>
      if 0 < n.toInt then
        advance
        expect .squareClose .afterArraySize
        return some n.toUInt64
      else fail .arraySize
    | _ => fail .arraySize
  else return none

/-- Reserves words for a local and gives their lowest offset. The frame may
reserve fewer than `2 ^ 64` words, and an offset has an absolute value below
`2 ^ 63`. -/
def reserve (words : Nat) : Read Int64 := do
  let s ← get
  let size := s.frameSize + words
  if size < UInt64.size ∧ 2 * size ≠ UInt64.size then
    set { s with frameSize := size }
    return -Int64.ofNat size
  else fail .frameOverflow

/-- The builder of an initialiser, which begins as an assignment to `v`. -/
def initialiser (v : Variable) : Except ExpressionError Builder :=
  match (do Builder.addVariable v; Builder.addAssignment : Build Unit) {} with
  | .ok _ b => .ok b
  | .error e _ => .error e

/-- One declared name: reserves its words, declares it, and reads its
initialiser if there is one. -/
def declarator (base : DataType) : Read (Option Code) := do
  let type ← pointers base
  let (name, p) ← expectName .inDeclaration
  if type.isVoid then
    failAt p (.voidVariable name)
  let length ← arrayLength
  let offset ← reserve ((length.map UInt64.toNat).getD 1)
  let v : Variable := ⟨name, type, .frame offset, length⟩
  declareVariable p v
  if ← sees .assign then
    if v.isArray then
      fail .arrayInitializer
    let p ← position
    advance
    match initialiser v with
    | .ok b => return some (← requireExpression .declarator b)
    | .error e => failAt p (.expression e)
  else return none

/-- The declared names up to the semicolon, and their initialisers. `limit`
bounds the number of names. -/
def declarators (base : DataType) : (limit : Nat) → Read (List Code)
  | 0 => fail .nestedTooDeep
  | limit + 1 => do
    let code ← declarator base
    if ← sees .comma then
      advance
      return code.toList ++ (← declarators base limit)
    else
      expect .semicolon .afterDeclaration
      return code.toList

/-- A declaration of locals, by its initialisers. -/
def declaration : Read (List Code) := do
  let base ← baseType
  declarators base (← get).tokens.length

/-! ## Statements -/

/-- What the statements of a body have around them. -/
structure Surroundings where
  returnType : DataType
  inLoop : Bool := false

/-- A condition in brackets. -/
def condition (place : Place) : Read Code := do
  expect .parenOpen place
  let code ← expression .bracket
  expect .parenClose .afterCondition
  return code

/-- A return from the function. A value is given exactly when the function has
one to return. -/
def returnStatement (around : Surroundings) : Read Stmt := do
  let p ← position
  advance
  if ← sees .semicolon then
    if !around.returnType.isVoid then
      failAt p (.returnWithoutValue around.returnType)
    advance
    return .ret none
  else
    if around.returnType.isVoid then
      failAt p .returnWithValue
    let code ← expression .semicolon
    expect .semicolon .afterReturnValue
    return .ret (some code)

/-- A jump out of the innermost loop. -/
def breakStatement (around : Surroundings) : Read Stmt := do
  if !around.inLoop then
    fail .breakOutsideLoop
  advance
  expect .semicolon .afterBreak
  return .leave

/-- An expression evaluated for its effect. -/
def expressionStatement : Read Stmt := do
  let code ← expression .semicolon
  expect .semicolon .afterExpression
  return .eval code

/-- The first part of a loop header: a declaration, or an expression that may
be missing. -/
def loopFirst : Read (List Code) := do
  if (← peek).isType then declaration
  else
    let code ← optionalExpression .semicolon
    expect .semicolon .afterForFirst
    return code.toList

/-- The header of a counting loop: its initialisers, its condition and its
step. A missing condition always holds. -/
def loopHeader : Read (List Code × Code × Option Code) := do
  let first ← loopFirst
  let condition ← optionalExpression .semicolon
  expect .semicolon .afterForCondition
  let step ← optionalExpression .bracket
  expect .parenClose .afterForHeader
  return (first, condition.getD [.operand (.constant (.int 1))], step)

mutual

/-- The statements that one statement of the source stands for. -/
def statement (around : Surroundings) : (limit : Nat) → Read (List Stmt)
  | 0 => fail .nestedTooDeep
  | limit + 1 => do
    match ← peek with
    | .type _ => return (← declaration).map .eval
    | .reserved .returnWord => return [← returnStatement around]
    | .reserved .breakWord => return [← breakStatement around]
    | .reserved .ifWord =>
      advance
      let code ← condition .afterIf
      let inner ← body around limit
      return [.branch code inner (← alternative around limit)]
    | .reserved .whileWord =>
      advance
      let code ← condition .afterWhile
      return [.loop code (← body { around with inLoop := true } limit)]
    | .reserved .forWord =>
      advance
      expect .parenOpen .afterFor
      enterScope
      let (first, code, step) ← loopHeader
      let inner ← body { around with inLoop := true } limit
      exitScope
      return first.dropLast.map .eval ++ [.count first.getLast? code step inner]
    | .symbol .braceOpen => return [.block (← body around limit)]
    | .symbol .semicolon =>
      advance
      return []
    | .reserved .elseWord => fail .strayElse
    | _ => return [← expressionStatement]

/-- A block, or a single statement, in a scope of its own. -/
def body (around : Surroundings) : (limit : Nat) → Read (List Stmt)
  | 0 => fail .nestedTooDeep
  | limit + 1 => do
    enterScope
    let inner ←
      if ← sees .braceOpen then do
        advance
        statements around limit
      else statement around limit
    exitScope
    return inner

/-- The statements of a block up to and including its closing brace. -/
def statements (around : Surroundings) : (limit : Nat) → Read (List Stmt)
  | 0 => fail .nestedTooDeep
  | limit + 1 => do
    if ← sees .braceClose then
      advance
      return []
    else if (← peek) = .eof then fail .unclosedBlock
    else
      let first ← statement around limit
      return first ++ (← statements around limit)

/-- What follows a branch: nothing, another branch, or the remaining case. -/
def alternative (around : Surroundings) : (limit : Nat) → Read Alternative
  | 0 => fail .nestedTooDeep
  | limit + 1 => do
    if (← peek) = .reserved .elseWord then
      advance
      if (← peek) = .reserved .ifWord then
        advance
        let code ← condition .afterElseIf
        let inner ← body around limit
        return .elseIf code inner (← alternative around limit)
      else return .otherwise (← body around limit)
    else return .none

end

end Read

end WordC
