import WordC.Variable
import WordC.Assembly.Line
import WordC.Lowering.Error
/-!
# The register file

The general registers and what they hold. Variables and constants are kept as
copies; an assignment marks the register of its variable as written and the
store is left for later. Results of an expression live in registers too, or in
words pushed on the stack.

This file has the changes of the register file that need no instruction.
-/

namespace WordC

/-- What a register is free for. -/
inductive RegisterState where
  /-- Holds nothing. -/
  | empty
  /-- Holds a copy that may be reused or replaced. -/
  | free
  /-- Holds a result, or a value of the current instruction. -/
  | used
  deriving DecidableEq, Repr

/-- The value that a register holds. -/
inductive Binding where
  | var (v : Variable)
  | constant (n : Int64)
  | intermediate (n : Nat)
  deriving DecidableEq, Repr

/-- The register holds a result of the expression. -/
def Binding.isIntermediate : Binding → Bool
  | intermediate _ => true
  | _ => false

/-- The register holds a file-scope variable. -/
def Binding.isGlobal : Binding → Bool
  | var v => v.isGlobal
  | _ => false

/-- A general register. -/
structure Register where
  reg : Reg
  state : RegisterState := .empty
  binding : Option Binding := none
  /-- When the register was last asked for. -/
  lastUse : Nat := 0
  /-- The variable in memory is older than the copy. -/
  written : Bool := false
  deriving DecidableEq, Repr

/-- The register when it holds nothing. -/
def Register.cleared (r : Register) : Register :=
  { r with state := .empty, binding := none, written := false }

/-- A word pushed to make a register available. -/
structure SpillSlot where
  /-- The result in the word, until it is read from below the top. -/
  value : Option Nat
  /-- How many words lie below it. -/
  position : Nat
  deriving DecidableEq, Repr

/-- How many registers are in each state. -/
structure StateCounts where
  empty : Nat
  free : Nat := 0
  used : Nat := 0
  deriving DecidableEq, Repr

/-- The count of one state. -/
def StateCounts.get (c : StateCounts) : RegisterState → Nat
  | .empty => c.empty
  | .free => c.free
  | .used => c.used

/-- The counts after a register has changed its state. -/
def StateCounts.move (c : StateCounts) (old new : RegisterState) : StateCounts :=
  let c := match old with
    | .empty => { c with empty := c.empty - 1 }
    | .free => { c with free := c.free - 1 }
    | .used => { c with used := c.used - 1 }
  match new with
  | .empty => { c with empty := c.empty + 1 }
  | .free => { c with free := c.free + 1 }
  | .used => { c with used := c.used + 1 }

/-- The registers and the words pushed since the frame was set up. -/
structure RegisterFile where
  registers : List Register
  counts : StateCounts
  clock : Nat := 0
  /-- The registers read by the current instruction. -/
  pinned : List Nat := []
  /-- The number of words pushed. -/
  stackDepth : Nat := 0
  /-- The spilled words, oldest first. -/
  spills : List SpillSlot := []
  /-- The stack depth at the first argument of each pending call, innermost
  first. -/
  callStarts : List Nat := []
  deriving DecidableEq, Repr

namespace RegisterFile

/-- A file of `size` empty registers. -/
def ofSize (size : Nat) : Except LoweringError RegisterFile :=
  if size < minRegisters then .error (.poolTooSmall size)
  else .ok {
    registers := (List.range size).map fun i =>
      { reg := .general (UInt8.ofNat (min (i + 1) 255)) }
    counts := { empty := size } }

/-- The number of registers. -/
def size (f : RegisterFile) : Nat :=
  f.registers.length

/-- The name of a register. -/
def regAt (f : RegisterFile) (i : Nat) : Reg :=
  (f.registers[i]?.map (·.reg)).getD .zero

/-- What a register holds. -/
def bindingAt (f : RegisterFile) (i : Nat) : Option Binding :=
  f.registers[i]?.bind (·.binding)

/-- The register that holds a value. -/
def find? (f : RegisterFile) (b : Binding) : Option Nat :=
  f.registers.findIdx? fun r => r.binding = some b

/-- All values held by registers. -/
def bindings (f : RegisterFile) : List Binding :=
  f.registers.filterMap (·.binding)

/-- No value is held by two registers. -/
def bindingsUnique (f : RegisterFile) : Bool :=
  decide f.bindings.Nodup

/-- Notes that a register was asked for. -/
def touch (f : RegisterFile) (i : Nat) : RegisterFile :=
  { f with
    clock := f.clock + 1
    registers := f.registers.modify i fun r => { r with lastUse := f.clock + 1 } }

/-- Keeps a register for the current instruction. -/
def pin (f : RegisterFile) (i : Nat) : RegisterFile :=
  if f.pinned.contains i then f else { f with pinned := f.pinned ++ [i] }

/-- Changes the state of a register. -/
def setState (f : RegisterFile) (i : Nat) (state : RegisterState) : RegisterFile :=
  match f.registers[i]? with
  | none => f
  | some r =>
    { f with
      registers := f.registers.set i { r with state := state }
      counts := f.counts.move r.state state }

/-- Puts a value into a register. -/
def bind (f : RegisterFile) (i : Nat) (b : Binding) (state : RegisterState) : RegisterFile :=
  let f := { f with
    registers := f.registers.modify i fun r => { r with binding := some b, written := false } }
  (f.setState i state).touch i

/-- Empties a register. -/
def clear (f : RegisterFile) (i : Nat) : RegisterFile :=
  match f.registers[i]? with
  | none => f
  | some r =>
    { f with
      registers := f.registers.set i r.cleared
      counts := f.counts.move r.state .empty }

/-- Marks the variable in a register as written. -/
def markWritten (f : RegisterFile) (i : Nat) : RegisterFile :=
  { f with registers := f.registers.modify i fun r => { r with written := true } }

/-- A register that is asked for again: its value is used by the current
instruction. -/
def use (f : RegisterFile) (i : Nat) : RegisterFile :=
  (f.touch i).setState i .used

/-- Ends the use of one register. A result is consumed, a copy stays. -/
def release (f : RegisterFile) (i : Nat) : RegisterFile :=
  match f.bindingAt i with
  | some (.intermediate _) => f.clear i
  | some _ => f.setState i .free
  | none => f

/-- Ends the current instruction. -/
def releaseOperands (f : RegisterFile) : RegisterFile :=
  f.pinned.foldl release { f with pinned := [] }

/-- Empties the registers chosen by `p`. -/
def clearWhere (p : Register → Bool) (f : RegisterFile) : RegisterFile :=
  { f with
    registers := f.registers.map fun r => if p r then r.cleared else r
    counts := (f.registers.filter p).foldl (fun c r => c.move r.state .empty) f.counts }

/-- Forgets all values. -/
def invalidate (f : RegisterFile) : RegisterFile :=
  { f.clearWhere fun _ => true with pinned := [] }

/-- Forgets the values of file-scope variables. -/
def invalidateGlobals (f : RegisterFile) : RegisterFile :=
  f.clearWhere fun r => r.binding.any Binding.isGlobal

/-- Forgets all results. -/
def clearIntermediates (f : RegisterFile) : RegisterFile :=
  f.clearWhere fun r => r.binding.any Binding.isIntermediate

/-- Accounts for the push of an argument. -/
def recordPush (f : RegisterFile) : RegisterFile :=
  { f with stackDepth := f.stackDepth + 1 }

/-- Accounts for a call, which takes its arguments off the stack. No spilled
word may lie among them. -/
def endCall (f : RegisterFile) (name : String) (arity : Nat) :
    Except LoweringError Unit × RegisterFile :=
  if arity = 0 then (.ok (), f)
  else
    match f.callStarts with
    | [] => (.error (.unmatchedCall name), f)
    | start :: rest =>
      let f := { f with callStarts := rest }
      if f.spills.any (start ≤ ·.position) then (.error (.spillAcrossCall name), f)
      else (.ok (), { f with stackDepth := f.stackDepth - arity })

/-! ## Choosing a register -/

/-- The order in which registers are taken: empty ones, then copies, unwritten
ones before written ones, then results. Within a class the one that was not
asked for the longest comes first. -/
def takingOrder (r : Register) : Nat × Nat :=
  match r.state with
  | .empty => (0, 0)
  | .free => if r.written then (2, r.lastUse) else (1, r.lastUse)
  | .used => (3, r.lastUse)

/-- One register is taken before another. -/
def takenBefore (r s : Register) : Bool :=
  let (a, b) := (takingOrder r, takingOrder s)
  a.1 < b.1 || (a.1 = b.1 && a.2 < b.2)

/-- The first of the registers that none is taken before. -/
def firstTaken : List (Register × Nat) → Option (Register × Nat)
  | [] => none
  | r :: rest =>
    match firstTaken rest with
    | none => some r
    | some s => if takenBefore s.1 r.1 then some s else some r

/-- The register to take next. Registers of the current instruction are kept. -/
def victim? (f : RegisterFile) : Option Nat :=
  (firstTaken (f.registers.zipIdx.filter fun (_, i) => !f.pinned.contains i)).map (·.2)

end RegisterFile

end WordC
