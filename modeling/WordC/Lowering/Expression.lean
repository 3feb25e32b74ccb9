import WordC.Lowering.State
/-!
# Lowering expressions

Operands wait until their operator comes. Each application loads its operands,
takes a register for its result and emits one or two instructions. Results are
numbered as in the linear form.
-/

namespace WordC

namespace Lower

/-- Makes a value available in a register. -/
def load (f : Function) : Operand → Lower Reg
  | .var v => Assemble.loadOperand (.var v)
  | .constant c => Assemble.loadOperand (.constant c.value)
  | .intermediate n => Assemble.loadOperand (.intermediate n.toNat)
  | other => throw (f.unexpected other.text)

/-- A value as an operand of an instruction: constants are immediate. -/
def operandArg (f : Function) : Operand → Lower Arg
  | .constant c => return .imm c.value
  | other => return .reg (← load f other)

/-- Takes a register for result `n`. -/
def result (n : Nat) : Lower Reg :=
  Assemble.bindResult n

/-- Marks result `n` as an address to store to. -/
def addStoreTarget (n : Nat) : Lower Unit :=
  onExpression fun x => { x with storeTargets := n :: x.storeTargets }

/-- Applies an operator with one operand. -/
def unary (f : Function) (op : Operator) (a : Operand) (n : Nat) : Lower Reg := do
  match op, a with
  | .bitwiseNot, .constant c | .unaryMinus, .constant c =>
    let d ← result n
    instruction op.mnemonic [.reg d, .imm c.value]
    return d
  | _, _ =>
    let r ← load f a
    let d ← result n
    match op with
    | .logicalNot | .unaryPlus => instruction op.mnemonic [.reg d, .reg r, .imm 0]
    | .bitwiseNot | .unaryMinus => instruction op.mnemonic [.reg d, .reg r]
    | .dereference => instruction .load [.reg d, .mem r 0]
    | .dereferenceStore =>
      noted .mov [.reg d, .reg r] s!"address %{n}"
      addStoreTarget n
    | other => throw (f.unexpected other.text)
    return d

/-- Applies an operator with two operands. -/
def binary (f : Function) (op : Operator) (a b : Operand) (n : Nat) : Lower Reg := do
  let r ← load f a
  let second ← operandArg f b
  let d ← result n
  match op with
  | .index =>
    instruction .add [.reg d, .reg r, second]
    instruction .load [.reg d, .mem d 0]
  | .indexStore =>
    noted .add [.reg d, .reg r, second] s!"address %{n}"
    addStoreTarget n
  | _ => instruction op.mnemonic [.reg d, .reg r, second]
  return d

/-- Pushes an argument of the pending call. -/
def argument (f : Function) (slot value : Operand) : Lower Unit := do
  match slot with
  | .parameter k =>
    let r ← load f value
    if k = 0 then
      Assemble.beginCall
    noted .push [.reg r] s!"argument {k.toNat}"
    Assemble.onFile (·.recordPush)
    releaseOperands
  | other => throw (f.unexpected other.text)

/-- Calls a function. Written file-scope variables are stored before it and all
copies of file-scope variables are forgotten after it. -/
def call (c : CallRef) : Lower Unit := do
  onExpression fun x => { x with hasValues := true }
  releaseOperands
  Assemble.storeWrittenGlobals
  instruction .call [.label c.name]
  Assemble.endCall c.name c.arity.toNat
  Assemble.onFile (·.invalidateGlobals)
  let n := (← get).expression.count
  onExpression fun x => { x with count := n + 1 }
  let d ← result n
  instruction .mov [.reg d, .reg .eax]
  onExpression fun x => { x with lastResult := some d }

/-- Result `n` is used before the expression ends. -/
def resultNeeded (n : Nat) (rest : List Element) : Bool :=
  (rest.takeWhile fun e => !e.endsExpression).any fun
    | .operand (.intermediate m) => m.toNat = n
    | _ => false

/-- Writes a value to a variable or to an address, and gives the register with
the value. -/
def write (f : Function) (target value : Operand) : Lower Reg := do
  let unfit := f.unexpected target.text
  match target with
  | .var v =>
    if v.isArray then
      throw unfit
    let source ← operandArg f value
    let r ← Assemble.bindForWrite v
    noted .mov [.reg r, source] v.name
    releaseOperands
    return r
  | .intermediate t =>
    if !(← get).expression.storeTargets.contains t.toNat then
      throw unfit
    let address ← load f target
    let r ← load f value
    instruction .store [.mem address 0, .reg r]
    onExpression fun x => { x with storeTargets := x.storeTargets.filter (· != t.toNat) }
    releaseOperands
    return r
  | _ => throw unfit

/-- An assignment. The written value becomes a result only if it is used. -/
def assign (f : Function) (target value : Operand) (n : Nat) (rest : List Element) :
    Lower Reg := do
  let written ← write f target value
  if resultNeeded n rest then
    let d ← result n
    instruction .mov [.reg d, .reg written]
    return d
  else
    return written

/-- Applies an operator to the operands that wait. -/
def apply (f : Function) (op : Operator) (operands : List Operand) (n : Nat)
    (rest : List Element) : Lower (Option Reg) := do
  match operands with
  | [a] => return some (← unary f op a n)
  | [a, b] =>
    if op.isArgument then
      argument f a b
      return none
    else if op = .assign then
      return some (← assign f a b n rest)
    else
      return some (← binary f op a b n)
  | _ => throw (.missingOperands f.name op.text)

/-- Lowers an operator. The results it takes are free again, so their numbers
are given anew. -/
def operator (f : Function) (op : Operator) (rest : List Element) : Lower Unit := do
  let x := (← get).expression
  if x.pending.length < op.arity then
    throw (.missingOperands f.name op.text)
  let operands := (x.pending.take op.arity).reverse
  let n := x.count - operands.countP fun
    | .intermediate _ => true
    | _ => false
  onExpression fun x => { x with
    pending := x.pending.drop op.arity
    count := if op.producesValue then n + 1 else n
    hasValues := true }
  if let some r ← apply f op operands n rest then
    onExpression fun x => { x with lastResult := some r }
  if !(← Assemble.file).bindingsUnique then
    throw .valueHeldTwice

/-- Lowers an operand. -/
def operand : Operand → Lower Unit
  | .result c => call c
  | other => onExpression fun x => { x with pending := other :: x.pending, hasValues := true }

/-- The register with the value of the expression. -/
def expressionValue (f : Function) : Lower Reg := do
  let x := (← get).expression
  match x.pending, x.lastResult with
  | o :: rest, _ =>
    onExpression fun x => { x with pending := rest }
    let r ← load f o
    releaseOperands
    return r
  | [], some r => return r
  | [], none => throw (f.unexpected "empty expression")

/-- Ends the expression. -/
def finishExpression : Lower Unit := do
  Assemble.endExpression
  onExpression fun _ => {}

end Lower

end WordC
