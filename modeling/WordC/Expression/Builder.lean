import WordC.Linear.Element
import WordC.Scopes
/-!
# Building the linear form of an expression

A `Builder` takes the tokens of one expression in order and appends to its
linear form as soon as an operator's values are complete. Operators wait on a
stack until one that binds no tighter follows; brackets and indexes set the
stacks aside and take them up again when they close, so that nesting costs no
recursion. Results are numbered like stack slots: consuming one frees its
number for the next.

Every step is an operation in `Build`. A step that fails leaves the builder in
the state it had reached.
-/

namespace WordC

/-- Why a token does not continue an expression. -/
inductive ExpressionError where
  | unexpectedOperand (text : String)
  | unexpectedOperator (op : Operator)
  | unexpectedBracket (bracket : Char)
  | unexpectedComma
  | missingOperand (op : Operator)
  | notAssignable
  | interleavedBrackets
  | incomplete
  | undeclared (name : String)
  deriving DecidableEq, Repr

/-- The wording of an expression error. -/
def ExpressionError.message : ExpressionError → String
  | unexpectedOperand text => s!"malformed expression: unexpected operand `{text}`"
  | unexpectedOperator op => s!"malformed expression: unexpected operator `{op.text}`"
  | unexpectedBracket bracket => s!"malformed expression: unexpected `{bracket}`"
  | unexpectedComma => "malformed expression: `,` outside of a call"
  | missingOperand op => s!"malformed expression: missing operand for `{op.text}`"
  | notAssignable => "malformed expression: left side of `=` is not assignable"
  | interleavedBrackets => "malformed expression: `[` and `(` closed out of order"
  | incomplete => "malformed expression: expression is incomplete"
  | undeclared name => s!"use of undeclared identifier `{name}`"

/-- What may come next. -/
inductive Expecting where
  /-- A value, an operator before a value, or an opening bracket. -/
  | operand
  /-- An operator between values, a closing bracket, a comma or an index. -/
  | operator
  /-- The opening bracket of a call. -/
  | call
  deriving DecidableEq, Repr

/-- A call whose arguments are being read. -/
structure PendingCall where
  name : String
  arity : Nat
  deriving DecidableEq, Repr

/-- The stacks of one bracket level, top first, and the call it belongs to. -/
structure Level where
  operators : List Operator := []
  operands : List Operand := []
  call : Option PendingCall := none
  deriving DecidableEq, Repr

/-- A level set aside by `[`, with the number of round brackets open then. -/
structure IndexedLevel where
  level : Level
  bracketDepth : Nat
  deriving DecidableEq, Repr

/-- An expression under construction. -/
structure Builder where
  expecting : Expecting := .operand
  level : Level := {}
  /-- The linear form so far. -/
  output : Array Element := #[]
  /-- The levels set aside by round brackets, innermost first. -/
  brackets : List Level := []
  /-- The levels set aside by indexes, innermost first. -/
  indexes : List IndexedLevel := []
  /-- A name without a variable, waiting for the bracket of its call. -/
  callee : Option String := none
  /-- The number of results not consumed yet. -/
  count : Nat := 0
  deriving DecidableEq, Repr

/-- A step of a builder. It keeps the state it has reached when it fails. -/
abbrev Build := EStateM ExpressionError Builder

/-- The operand refers to an earlier result. -/
def Operand.isIntermediate : Operand → Bool
  | intermediate _ => true
  | _ => false

/-- The operator gives way to one of precedence `min`. Argument operators stay
until their argument ends. -/
def Operator.yieldsTo (op : Operator) (min : Nat) : Bool :=
  !op.isArgument && min ≤ op.precedence

namespace Builder

/-- The expression could end here. -/
def isValid (b : Builder) : Bool :=
  b.expecting = .operator && b.brackets.isEmpty && b.indexes.isEmpty && b.callee.isNone

/-- Inside a bracket or an index, or after the name of a call. -/
def isNested (b : Builder) : Bool :=
  !b.brackets.isEmpty || !b.indexes.isEmpty || b.expecting = .call

/-- Nothing has been taken in yet. -/
def isEmpty (b : Builder) : Bool :=
  b.expecting = .operand && b.level.operators.isEmpty && b.level.operands.isEmpty && !b.isNested

/-- The error for a token out of place. After the name of a call everything but
its bracket means that the name is not declared. -/
def misplaced (b : Builder) (e : ExpressionError) : ExpressionError :=
  match b.expecting, b.callee with
  | .call, some name => .undeclared name
  | _, _ => e

/-- Puts a value on the operand stack. -/
def pushOperand (b : Builder) (o : Operand) : Builder :=
  { b with level.operands := o :: b.level.operands }

/-- Puts an operator on its stack. -/
def pushOperator (b : Builder) (op : Operator) : Builder :=
  { b with level.operators := op :: b.level.operators }

/-- Puts a new result on the operand stack, under the lowest free number. -/
def pushIntermediate (b : Builder) : Builder :=
  { b.pushOperand (.intermediate (UInt32.ofNat b.count)) with count := b.count + 1 }

/-- Appends an application to the linear form. The results among its values are
consumed. -/
def emit (b : Builder) (args : List Operand) (op : Operator) : Builder :=
  let b := { b with
    count := b.count - args.countP Operand.isIntermediate
    output := b.output ++ args.map Element.operand ++ [Element.operator op] }
  if op.producesValue then b.pushIntermediate else b

/-- Sets the current level aside and opens one for `call`. -/
def openLevel (b : Builder) (call : Option PendingCall) : Builder :=
  { b with brackets := b.level :: b.brackets, level := { call := call } }

/-- A `)` or a `,` would stand directly inside an index. -/
def inIndex (b : Builder) : Bool :=
  match b.indexes with
  | index :: _ => index.bracketDepth = b.brackets.length
  | [] => false

/-! ## Reducing -/

/-- Applies the operator on top of the stack to the values before it. -/
def reduceOne : Build Unit := do
  let b ← get
  match b.level.operators with
  | [] => throw .incomplete
  | top :: rest =>
    let op := if top = .possibleArgument then .argument else top
    let b := { b with level.operators := rest }
    set b
    if b.level.operands.length < op.arity then
      throw (.missingOperand op)
    let args := (b.level.operands.take op.arity).reverse
    set ({ b with level.operands := b.level.operands.drop op.arity }.emit args op)

/-- Applies the operators on top of the stack that give way to precedence
`min`. -/
def reduceWhile (min : Nat) : Build Unit := do
  let b ← get
  (b.level.operators.takeWhile (·.yieldsTo min)).forM fun _ => reduceOne

/-- Ends an argument: applies what waits in it and passes it. -/
def finishArgument : Build Unit := do
  reduceWhile 0
  let b ← get
  match b.level.operators with
  | top :: _ => if top.isArgument then reduceOne else throw .incomplete
  | [] => throw .incomplete

/-- Takes the only value of a finished level. -/
def takeSingle : Build Operand := do
  let b ← get
  match b.level.operands, b.level.operators with
  | [value], [] =>
    set { b with level.operands := [] }
    return value
  | _, _ => throw .incomplete

/-- Takes up the level set aside by the innermost round bracket. -/
def closeLevel : Build Unit := do
  let b ← get
  match b.brackets with
  | level :: rest => set { b with level := level, brackets := rest }
  | [] => throw (.unexpectedBracket ')')

/-! ## Steps -/

/-- Refuses a value, shown as `text`, where none may stand. -/
def expectOperand (text : String) : Build Unit := do
  let b ← get
  if b.expecting ≠ .operand then
    throw (b.misplaced (.unexpectedOperand text))

/-- A value. -/
def addOperand (text : String) (o : Operand) : Build Unit := do
  expectOperand text
  modify fun b => { b.pushOperand o with expecting := .operator }

/-- A variable. -/
def addVariable (v : Variable) : Build Unit :=
  addOperand v.name (.var v)

/-- A literal. -/
def addConstant (c : Constant) : Build Unit :=
  addOperand (Text.decimal c.value) (.constant c)

/-- A name: a variable when one is visible, and the name of a call otherwise. -/
def addName (scopes : Scopes) (name : String) : Build Unit :=
  match scopes.find? name with
  | some v => addVariable v
  | none => do
    expectOperand name
    modify fun b => { b with callee := some name, expecting := .call }

/-- The builder with the last value as the left side of an assignment: a
variable, or the dereference or index just appended, which is given its store
form. -/
def takePlace : Build Builder := do
  let b ← get
  match b.level.operands with
  | .var v :: _ => if v.isArray then throw .notAssignable else pure b
  | .intermediate _ :: _ =>
    match b.output.back? with
    | some (.operator op) =>
      match op.storeForm? with
      | some form => pure { b with output := b.output.pop.push (.operator form) }
      | none => throw .notAssignable
    | _ => throw .notAssignable
  | _ => throw .notAssignable

/-- An assignment. What waits on the left is applied first. Assignments wait
for what is on their right. -/
def addAssignment : Build Unit := do
  let b ← get
  if b.expecting ≠ .operator then
    throw (b.misplaced (.unexpectedOperator .assign))
  reduceWhile 1
  let b ← takePlace
  set { b.pushOperator .assign with expecting := .operand }

/-- An operator in the form it has between two values. -/
def addOperator (op : Operator) : Build Unit := do
  let b ← get
  match b.expecting with
  | .operand =>
    match op.unaryForm? with
    | some form => set (b.pushOperator form)
    | none => throw (.unexpectedOperator op)
  | .operator =>
    if op = .assign then addAssignment
    else if op.isUnary then throw (.unexpectedOperator op)
    else
      reduceWhile op.precedence
      modify fun b => { b.pushOperator op with expecting := .operand }
  | .call => throw (b.misplaced (.unexpectedOperator op))

/-- An opening round bracket: of a call after its name, of a group before a
value. -/
def openBracket : Build Unit := do
  let b ← get
  match b.expecting with
  | .call =>
    match b.callee with
    | some name =>
      let b := { b with callee := none, expecting := .operand }.openLevel (some ⟨name, 0⟩)
      set ((b.pushOperator .possibleArgument).pushOperand (.parameter 0))
    | none => throw (.unexpectedBracket '(')
  | .operand => set (b.openLevel none)
  | .operator => throw (.unexpectedBracket '(')

/-- The brackets of a call were closed without an argument between them. -/
def isEmptyCall (b : Builder) (call : PendingCall) : Bool :=
  b.expecting = .operand && call.arity = 0 &&
    b.level.operators = [.possibleArgument] && b.level.operands = [.parameter 0]

/-- Ends the argument list of `call`, whose level is the current one. -/
def closeCall (call : PendingCall) : Build Unit := do
  let b ← get
  let arity ←
    if b.isEmptyCall call then pure call.arity
    else do
      if b.expecting ≠ .operator then
        throw (b.misplaced (.unexpectedBracket ')'))
      finishArgument
      pure (call.arity + 1)
  modify fun b => { b with
    output := b.output.push (.operand (.result ⟨call.name, UInt64.ofNat arity⟩)) }
  closeLevel
  modify pushIntermediate

/-- Ends a group: its value becomes a value of the level around it. -/
def closeGroup : Build Unit := do
  let b ← get
  if b.expecting ≠ .operator then
    throw (b.misplaced (.unexpectedBracket ')'))
  reduceWhile 0
  let value ← takeSingle
  closeLevel
  modify (·.pushOperand value)

/-- A closing round bracket. -/
def closeBracket : Build Unit := do
  let b ← get
  if b.brackets.isEmpty then
    throw (b.misplaced (.unexpectedBracket ')'))
  if b.inIndex then
    throw .interleavedBrackets
  set { b with level.call := none }
  match b.level.call with
  | some call => closeCall call
  | none => closeGroup
  modify fun b => { b with expecting := .operator }

/-- A comma between two arguments. -/
def addComma : Build Unit := do
  let b ← get
  if b.expecting ≠ .operator then
    throw (b.misplaced .unexpectedComma)
  if b.inIndex then
    throw .unexpectedComma
  match b.level.call with
  | none => throw .unexpectedComma
  | some call =>
    let arity := call.arity + 1
    set { b with level.call := some { call with arity := arity } }
    finishArgument
    modify fun b =>
      { (b.pushOperator .argument).pushOperand (.parameter (UInt64.ofNat arity)) with
        expecting := .operand }

/-- An opening square bracket after the value to be indexed. -/
def openIndex : Build Unit := do
  let b ← get
  if b.expecting ≠ .operator then
    throw (b.misplaced (.unexpectedBracket '['))
  set { b with
    indexes := ⟨b.level, b.brackets.length⟩ :: b.indexes
    level := {}
    expecting := .operand }

/-- A closing square bracket: the indexed value and the index are applied. -/
def closeIndex : Build Unit := do
  let b ← get
  if b.expecting ≠ .operator then
    throw (b.misplaced (.unexpectedBracket ']'))
  match b.indexes with
  | [] => throw (.unexpectedBracket ']')
  | index :: rest =>
    set { b with indexes := rest }
    if index.bracketDepth ≠ b.brackets.length then
      throw .interleavedBrackets
    reduceWhile 0
    let value ← takeSingle
    modify fun b => { b with level := index.level }
    match index.level.operands with
    | [] => throw (.missingOperand .index)
    | base :: operands =>
      modify fun b =>
        { { b with level.operands := operands }.emit [base, value] .index with
          expecting := .operator }

/-- One token of the expression. -/
def addToken (scopes : Scopes) (t : Token) : Build Unit :=
  match t with
  | .ident name => addName scopes name
  | .integer n => addConstant (.int n)
  | .truth v => addConstant (.bool v)
  | .char c => addConstant (.char c)
  | .symbol .assign => addAssignment
  | .symbol .parenOpen => openBracket
  | .symbol .parenClose => closeBracket
  | .symbol .squareOpen => openIndex
  | .symbol .squareClose => closeIndex
  | .symbol .comma => addComma
  | t =>
    match Operator.ofToken? t with
    | some op => addOperator op
    | none => throw (.unexpectedOperand t.spelling)

/-- Ends the expression and hands out its linear form. A value that is not a
result is appended to it. The builder is ready for the next expression. -/
def finish : Build (List Element) := do
  let b ← get
  if let some name := b.callee then
    set { b with callee := none }
    throw (.undeclared name)
  if !b.isValid then
    throw .incomplete
  reduceWhile 0
  let value ← takeSingle
  let b ← get
  if b.count ≠ (if value.isIntermediate then 1 else 0) then
    throw .incomplete
  let output := match value with
    | .var _ | .constant _ => b.output.push (.operand value)
    | _ => b.output
  set ({} : Builder)
  return output.toList

end Builder

end WordC
