import WordC.Linear.Element
import WordC.Lowering.RegisterFile
import WordC.Log
/-!
# The register file at work

The operations on the register file that emit instructions: bringing a value
into a register, making room by storing or pushing what a register holds,
taking results back from the stack, and setting up frames.

Every line goes into a journal, with the register file at that moment. The
journal also has the elements that were taken up and the registers that were
asked for, so that it tells what each line was emitted for.

An operation that fails leaves the journal and the register file as they were
when it failed.
-/

namespace WordC

/-- What a journal tells. -/
inductive Event where
  /-- An element is taken up. -/
  | takes (e : Element)
  /-- A register is asked for, to hold a value. -/
  | asks (b : Binding)
  /-- A line is emitted. -/
  | emits (l : Line)
  deriving DecidableEq, Repr

/-- The line that an event emits. -/
def Event.line? : Event → Option Line
  | emits l => some l
  | _ => none

/-- An event, and the register file when it came. -/
structure Moment where
  event : Event
  file : RegisterFile
  deriving DecidableEq, Repr

/-- The line that was emitted at a moment. -/
def Moment.line? (m : Moment) : Option Line :=
  m.event.line?

/-- The register file, what has happened so far, and the notes about it. -/
structure Assembler where
  file : RegisterFile
  journal : Array Moment := #[]
  notes : Array Note := #[]

/-- The lines emitted so far. -/
def Assembler.lines (a : Assembler) : Array Line :=
  a.journal.filterMap Moment.line?

/-- An operation that may emit lines. It keeps its state when it fails. -/
abbrev Assemble := EStateM LoweringError Assembler

/-- The memory operand of a variable. -/
def Variable.location (v : Variable) : Arg :=
  match v.storage with
  | .frame offset => .mem .ebp offset
  | .global label => .global label

namespace Assemble

/-- Puts an event into the journal. -/
def record (event : Event) : Assemble Unit :=
  modify fun a => { a with journal := a.journal.push ⟨event, a.file⟩ }

/-- Emits a line. -/
def emit (l : Line) : Assemble Unit :=
  record (.emits l)

/-- Emits an instruction. -/
def instruction (mnemonic : Mnemonic) (args : List Arg) : Assemble Unit :=
  emit (.plain mnemonic args)

/-- Emits an instruction with a comment. -/
def noted (mnemonic : Mnemonic) (args : List Arg) (comment : String) : Assemble Unit :=
  emit (.noted mnemonic args comment)

/-- Adds a note. -/
def note (level : LogLevel) (text : String) : Assemble Unit :=
  modify fun a => { a with notes := a.notes.push ⟨level, text⟩ }

/-- The register file. -/
def file : Assemble RegisterFile := do
  return (← get).file

/-- Changes the register file. -/
def onFile (f : RegisterFile → RegisterFile) : Assemble Unit :=
  modify fun a => { a with file := f a.file }

/-! ## Making room -/

/-- Empties a register. A result is pushed and a written variable is stored. -/
def evict (i : Nat) : Assemble Unit := do
  let f ← file
  let reg := f.regAt i
  match f.registers[i]? with
  | some { binding := some (.intermediate n), .. } =>
    note .trace s!"spilling %{n} from {reg.name} at depth {f.stackDepth}"
    noted .push [.reg reg] s!"spill %{n}"
    onFile fun f => { f with
      spills := f.spills ++ [⟨some n, f.stackDepth⟩]
      stackDepth := f.stackDepth + 1 }
  | some { binding := some (.var v), written := true, .. } =>
    note .trace s!"evicting dirty `{v.name}` from {reg.name}"
    instruction .store [v.location, .reg reg]
  | _ => pure ()
  onFile (·.clear i)

/-- Takes a register that the current instruction does not read. -/
def takeRegister : Assemble Nat := do
  match (← file).victim? with
  | none => throw .noRegisterAvailable
  | some i =>
    evict i
    return i

/-! ## Results on the stack -/

/-- The spilled words after those on top that were read have been dropped, the
stack depth then, and how many were dropped. Words are given newest first. -/
def dropRead : List SpillSlot → Nat → List SpillSlot × Nat × Nat
  | [], depth => ([], depth, 0)
  | slot :: rest, depth =>
    if slot.value.isNone && slot.position + 1 = depth then
      let (slots, remaining, dropped) := dropRead rest (depth - 1)
      (slots, remaining, dropped + 1)
    else (slot :: rest, depth, 0)

/-- Drops the words on top of the stack that were read. -/
def dropReadSlots : Assemble Unit := do
  let f ← file
  let (slots, depth, dropped) := dropRead f.spills.reverse f.stackDepth
  onFile fun f => { f with spills := slots.reverse, stackDepth := depth }
  if 0 < dropped then
    instruction .add [.reg .esp, .reg .esp, .imm (Int64.ofNat dropped)]

/-- Reads result `n` from the spilled word `slot`, the `k`-th one: popped from
the top of the stack, or read from below it. -/
def readSlot (reg : Reg) (n : Nat) (slot : SpillSlot) (k : Nat) : Assemble Unit := do
  let f ← file
  if slot.position + 1 = f.stackDepth then
    noted .pop [.reg reg] s!"fill %{n}"
    onFile fun f => { f with spills := f.spills.eraseIdx k, stackDepth := f.stackDepth - 1 }
  else if f.stackDepth ≤ slot.position then
    throw .stackUnderflow
  else
    let offset := f.stackDepth - 1 - slot.position
    noted .load [.reg reg, .mem .esp (Int64.ofNat offset)] s!"fill %{n}"
    onFile fun f => { f with spills := f.spills.set k { slot with value := none } }

/-- Takes a spilled result back into a register. -/
def fill (n : Nat) : Assemble Reg := do
  if !(← file).spills.any (·.value = some n) then
    throw (.intermediateNotFound n)
  let i ← takeRegister
  let f ← file
  let reg := f.regAt i
  match f.spills.zipIdx.find? (·.1.value = some n) with
  | none => throw (.intermediateNotFound n)
  | some (slot, k) =>
    note .trace s!"filling %{n} into {reg.name} from depth {slot.position}"
    readSlot reg n slot k
    dropReadSlots
    onFile fun f => (f.bind i (.intermediate n) .used).pin i
    return reg

/-! ## Values and results -/

/-- Emits the instruction that brings a variable or a constant into a register.
An array is its address. -/
def loadInto (reg : Reg) : Binding → Assemble Unit
  | .constant n => instruction .mov [.reg reg, .imm n]
  | .var v =>
    match v.isArray, v.storage with
    | true, .frame offset => instruction .add [.reg reg, .reg .ebp, .imm offset]
    | _, _ => instruction .load [.reg reg, v.location]
  | .intermediate _ => pure ()

/-- Makes a value available in a register for the current instruction. -/
def loadOperand (b : Binding) : Assemble Reg := do
  record (.asks b)
  let f ← file
  match f.find? b with
  | some i =>
    onFile fun f => (f.use i).pin i
    return f.regAt i
  | none =>
    match b with
    | .intermediate n => fill n
    | _ =>
      let i ← takeRegister
      let reg := (← file).regAt i
      loadInto reg b
      onFile fun f => (f.bind i b .used).pin i
      return reg

/-- The register that the current instruction writes a variable into. -/
def bindForWrite (v : Variable) : Assemble Reg := do
  record (.asks (.var v))
  let i ← match (← file).find? (.var v) with
    | some i => pure i
    | none => do
      let i ← takeRegister
      onFile (·.bind i (.var v) .used)
      pure i
  onFile fun f => ((f.use i).markWritten i).pin i
  return (← file).regAt i

/-- Ends the use of the values of the current instruction and takes a register
for its result. -/
def bindResult (n : Nat) : Assemble Reg := do
  record (.asks (.intermediate n))
  onFile (·.releaseOperands)
  let i ← takeRegister
  onFile (·.bind i (.intermediate n) .used)
  return (← file).regAt i

/-- Ends an expression: its results are forgotten, and words it has left on the
stack are dropped. -/
def endExpression : Assemble Unit := do
  onFile fun f => f.releaseOperands.clearIntermediates
  let f ← file
  match f.spills with
  | [] => pure ()
  | first :: _ =>
    if f.stackDepth < first.position then
      throw .stackUnderflow
    let count := f.stackDepth - first.position
    note .warn s!"dropping {count} stack word(s) left over by an expression"
    instruction .add [.reg .esp, .reg .esp, .imm (Int64.ofNat count)]
    onFile fun f => { f with stackDepth := first.position, spills := [] }
  onFile fun f => { f with callStarts := [] }

/-! ## Calls -/

/-- Begins the arguments of a call. Results that wait for the call are pushed
first, so that no word is pushed between the arguments. The first argument is
pinned and stays. -/
def beginCall : Assemble Unit := do
  (List.range (← file).size).forM fun i => do
    let f ← file
    if !f.pinned.contains i && (f.bindingAt i).any Binding.isIntermediate then
      evict i
  onFile fun f => { f with callStarts := f.stackDepth :: f.callStarts }

/-- Accounts for a call that has been emitted. -/
def endCall (name : String) (arity : Nat) : Assemble Unit := do
  let (outcome, f) := (← file).endCall name arity
  onFile fun _ => f
  match outcome with
  | .ok _ => pure ()
  | .error e => throw e

/-! ## Stores -/

/-- The variable to be stored for a register, if it is written and chosen. -/
def pendingStore? (chosen : Variable → Bool) (r : Register) : Option Variable :=
  match r.written, r.binding with
  | true, some (.var v) => if chosen v then some v else none
  | _, _ => none

/-- Stores the chosen written variables. Registers keep their copies. -/
def storeWhere (chosen : Variable → Bool) : Assemble Unit := do
  let f ← file
  f.registers.forM fun r =>
    match pendingStore? chosen r with
    | some v => instruction .store [v.location, .reg r.reg]
    | none => pure ()
  onFile fun f => { f with
    registers := f.registers.map fun r =>
      if (pendingStore? chosen r).isSome then { r with written := false } else r }

/-- Stores all written variables. -/
def storeWritten : Assemble Unit :=
  storeWhere fun _ => true

/-- Stores the written file-scope variables. -/
def storeWrittenGlobals : Assemble Unit :=
  storeWhere Variable.isGlobal

/-! ## Frames -/

/-- Sets up a frame with `words` words for locals. -/
def createFrame (words : UInt64) : Assemble Unit := do
  noted .push [.reg .ebp] "stack frame"
  instruction .mov [.reg .ebp, .reg .esp]
  if 0 < words then
    noted .sub [.reg .esp, .reg .esp, .imm words.toInt64] s!"{words.toNat} local word(s)"
  instruction .pusha []
  onFile fun f => { f.invalidate with stackDepth := 0, spills := [], callStarts := [] }

/-- Takes a frame down. -/
def destroyFrame : Assemble Unit := do
  instruction .popa []
  instruction .mov [.reg .esp, .reg .ebp]
  instruction .pop [.reg .ebp]

end Assemble

end WordC
