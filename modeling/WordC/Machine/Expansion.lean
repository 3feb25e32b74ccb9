import WordC.Assembly.Reader
import WordC.Machine.Line
import WordC.Log
/-!
# Expansion to machine assembly

Assembly text is read line by line and each line becomes lines of the machine.
Functions become blocks of code, file-scope words blocks of data. The result
begins with the names of the special registers and ends with the block that
sets the machine up and calls `main`.
-/

namespace WordC

/-- Why a line cannot be expanded. -/
inductive ExpansionCause where
  /-- The line cannot be read. -/
  | unrecognized (text : String)
  /-- The operands do not fit the instruction. -/
  | badOperands (mnemonic : Mnemonic) (text : String)
  /-- The machine has no such register. -/
  | unsupportedRegister (register : Reg)
  /-- The number of words that a return drops leaves the number range. -/
  | returnOverflow
  deriving DecidableEq, Repr

/-- A failure at a line, counted from one. -/
structure ExpansionError where
  line : Nat
  cause : ExpansionCause
  deriving DecidableEq, Repr

/-- The wording of a failure. -/
def ExpansionError.message (e : ExpansionError) : String :=
  "line " ++ toString e.line ++ ": " ++
    match e.cause with
    | .unrecognized text => s!"unrecognized high assembly `{text}`"
    | .badOperands mnemonic text => s!"operands do not fit `{mnemonic.name}` in `{text}`"
    | .unsupportedRegister register =>
      s!"register `{register.name}` does not exist on the target"
    | .returnOverflow => "the number of words to drop is too large"

/-- A label of the machine, which has underscores for dots. -/
def machineLabel (name : String) : String :=
  name.map fun c => if c = '.' then '_' else c

/-! ## Instructions -/

/-- The number of general registers of the machine. -/
def machineRegisters : Nat := 3

/-- The register, if the machine has it. -/
def Reg.onMachine (r : Reg) : Except ExpansionCause Reg :=
  match r with
  | .general n => if machineRegisters < n.toNat then .error (.unsupportedRegister r) else .ok r
  | _ => .ok r

/-- Moves the stack pointer down. -/
def reserve (words : Int64) : MachineInstruction :=
  .aluImmediate .sub .esp .esp words

/-- Moves the stack pointer up. -/
def discard (words : Int64) : MachineInstruction :=
  .aluImmediate .add .esp .esp words

/-- A number as the machine's word. -/
def machineWord (n : Int64) : Int64 :=
  n &&& 0xFFFF

/-- The lines of an instruction. `unfit` is the failure of operands that do not
fit. -/
def expandInstruction (unfit : ExpansionCause) (mnemonic : Mnemonic) (args : List Arg)
    (note : Option String) : Except ExpansionCause (List MachineLine) := do
  match mnemonic, args with
  | .load, [.reg r, .mem base offset] =>
    return [.instruction (.load (← r.onMachine) (← base.onMachine) offset) note]
  | .load, [.reg r, .global name] =>
    return [.instruction (.loadGlobal (← r.onMachine) name) note]
  | .store, [.mem base offset, .reg r] =>
    return [.instruction (.store (← r.onMachine) (← base.onMachine) offset) note]
  | .store, [.global name, .reg r] =>
    return [.instruction (.storeGlobal (← r.onMachine) name) note]
  | .mov, [.reg d, .imm k] =>
    return [.instruction (.loadImmediate (← d.onMachine) k) note]
  | .mov, [.reg d, .reg s] =>
    return [.instruction (.move (← d.onMachine) (← s.onMachine)) note]
  | .push, [.reg r] =>
    return [.plain (reserve 1), .instruction (.store (← r.onMachine) .esp 0) note]
  | .pop, [.reg r] =>
    return [.instruction (.load (← r.onMachine) .esp 0) note, .plain (discard 1)]
  | .pusha, [] =>
    return [
      .instruction (reserve 3) (note <|> some "save r1..r3"),
      .plain (.store (.general 1) .esp 0),
      .plain (.store (.general 2) .esp 1),
      .plain (.store (.general 3) .esp 2)]
  | .popa, [] =>
    return [
      .instruction (.load (.general 3) .esp 2) (note <|> some "restore r1..r3"),
      .plain (.load (.general 2) .esp 1),
      .plain (.load (.general 1) .esp 0),
      .plain (discard 3)]
  | .not, [.reg d, .imm k] =>
    return [.instruction (.loadImmediate (← d.onMachine) (machineWord (~~~k))) note]
  | .not, [.reg d, .reg s] =>
    return [.instruction (.aluImmediate .xor (← d.onMachine) (← s.onMachine) (-1)) note]
  | .neg, [.reg d, .imm k] =>
    return [.instruction (.loadImmediate (← d.onMachine) (machineWord (-k))) note]
  | .neg, [.reg d, .reg s] =>
    return [
      .instruction (.aluImmediate .xor (← d.onMachine) (← s.onMachine) (-1)) note,
      .plain (.aluImmediate .add d d 1)]
  | .call, [.label name] => return [.instruction (.call name) note]
  | .ret, [.imm n] =>
    if n = Int64.maxValue then
      throw .returnOverflow
    return [
      .noted (.load .edx .esp 0) "return address",
      .plain (discard (n + 1)),
      .instruction (.jumpRegister .edx) note]
  | .ret, [] => return [.instruction (.jumpRegister .edx) note]
  | .jmp, [.label name] => return [.instruction (.jump (machineLabel name)) note]
  | .jz, [.reg r, .label name] =>
    return [.instruction (.branchZero (← r.onMachine) (machineLabel name)) note]
  | .jnz, [.reg r, .label name] =>
    return [.instruction (.branchNonZero (← r.onMachine) (machineLabel name)) note]
  | .inp, [.reg r, .imm channel] =>
    return [.instruction (.input (← r.onMachine) channel) note]
  | .out, [.reg r, .imm channel] =>
    return [.instruction (.output (← r.onMachine) channel) note]
  | _, [.reg d, .reg a, .imm k] =>
    if !mnemonic.isAlu then
      throw unfit
    return [.instruction (.aluImmediate mnemonic (← d.onMachine) (← a.onMachine) k) note]
  | _, [.reg d, .reg a, .reg b] =>
    if !mnemonic.isAlu then
      throw unfit
    return [.instruction
      (.alu mnemonic (← d.onMachine) (← a.onMachine) (← b.onMachine)) note]
  | _, _ => throw unfit

/-! ## Lines and texts -/

/-- The end of a block, if one is open. -/
def closing (isOpen : Bool) : List MachineLine :=
  if isOpen then [.closeBlock] else []

/-- The lines of one line, and whether a block is open behind them. -/
def expandLine (text : List Char) (isOpen : Bool) :
    Except ExpansionCause (List MachineLine × Bool) := do
  let trimmed := String.ofList (Text.trim text)
  match readLine? text with
  | none => throw (.unrecognized trimmed)
  | some ⟨content, note⟩ =>
    match content with
    | .blank => return ([], isOpen)
    | .frameless name => return (closing isOpen ++ [.openBlock .code name note], true)
    | .line (.comment text) => return ([.comment text], isOpen)
    | .line (.global name value) =>
      return (closing isOpen ++ [.openBlock .data name note, .word value, .closeBlock], false)
    | .line (.function name) =>
      return (closing isOpen ++ [
        .openBlock .code name note,
        .noted (reserve 1) "return address",
        .plain (.store .edx .esp 0)], true)
    | .line (.label name) => return ([.label (machineLabel name) note], isOpen)
    | .line (.instruction mnemonic args _) =>
      return (← expandInstruction (.badOperands mnemonic trimmed) mnemonic args note, isOpen)

/-- The lines of lines of text, the first of which has the given number. -/
def expandFrom (number : Nat) (isOpen : Bool) :
    List (List Char) → Except ExpansionError (List MachineLine)
  | [] => .ok (closing isOpen)
  | text :: rest =>
    match expandLine text isOpen with
    | .error cause => .error ⟨number, cause⟩
    | .ok (lines, isOpen) => (expandFrom (number + 1) isOpen rest).map (lines ++ ·)

/-- The names of the special registers. -/
def machineHeader : List MachineLine :=
  [.define "eax" "r4", .define "edx" "r5", .define "ebp" "r6", .define "esp" "r7", .blank]

/-- The block that sets the machine up, calls `main` and idles after it. -/
def machineStart : List MachineLine :=
  [.openBlock .code "__init" none,
   .noted .enableDataMemory "set data memory access",
   .noted .disableInterrupts "disable interrupts",
   .noted .resetStack "init stack pointer",
   .noted (.call "main") "call main",
   .label "idle" none,
   .noted (.jump "idle") "idle after main returns",
   .closeBlock]

/-- The machine lines of an assembly text. -/
def expand (source : String) : Except ExpansionError (List MachineLine) :=
  (expandFrom 1 false (Text.lines source)).map fun body => machineHeader ++ body ++ machineStart

/-- The machine assembly of an assembly text. -/
def expandText (source : String) : Logged ExpansionError String := do
  let lines ← Logged.ofExcept (expand source)
  Logged.note .debug s!"translated {(Text.lines source).length} lines"
  return renderMachineLines lines

end WordC
