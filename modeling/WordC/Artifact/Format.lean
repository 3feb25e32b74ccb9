import WordC.Artifact.Varint
import WordC.Linear.Program
/-!
# Programs as bytes

The saved form of a program. A record is its fields in order, a list is its
length and its members, a text is its size and its bytes, and one of several
alternatives is its code and its content.
-/

namespace WordC

/-! ## Parts -/

/-- The bytes of a text. -/
def writeText (s : String) : List UInt8 :=
  writeNumber s.utf8ByteSize ++ s.toUTF8.toList

/-- The bytes of a list. -/
def writeList {α : Type} (write : α → List UInt8) (xs : List α) : List UInt8 :=
  writeNumber xs.length ++ xs.flatMap write

/-- The bytes of an optional value. -/
def writeOption {α : Type} (write : α → List UInt8) : Option α → List UInt8
  | none => [0]
  | some a => 1 :: write a

/-- The bytes of a member of a list of alternatives. -/
def writeCode {α : Type} [DecidableEq α] (all : List α) (a : α) : List UInt8 :=
  writeNumber (all.idxOf a)

namespace Reader

/-- Takes a text. -/
def text : Reader String := do
  let size ← number64
  let bytes ← get
  if bytes.length < size then
    throw .endOfBytes
  match String.fromUTF8? ⟨(bytes.take size).toArray⟩ with
  | some s =>
    set (bytes.drop size)
    return s
  | none => throw .badText

/-- Takes a number of values. -/
def times {α : Type} (read : Reader α) : Nat → Reader (List α)
  | 0 => return []
  | n + 1 => return (← read) :: (← times read n)

/-- Takes a list. -/
def list {α : Type} (read : Reader α) : Reader (List α) := do
  times read (← number64)

/-- Takes an optional value. -/
def option {α : Type} (read : Reader α) : Reader (Option α) := do
  match ← byte with
  | 0 => return none
  | 1 => return some (← read)
  | _ => throw .badOption

/-- Takes a member of a list of alternatives. -/
def code {α : Type} (all : List α) : Reader α := do
  match all[← number32]? with
  | some a => return a
  | none => throw .badCode

end Reader

/-! ## Types and variables -/

namespace DataType

/-- The bytes of a type. -/
def write : DataType → List UInt8
  | void => [0]
  | int => [1]
  | bool => [2]
  | char => [3]
  | pointer target => 4 :: target.write

/-- Takes a type with at most `limit` codes. -/
def readUpTo : (limit : Nat) → Reader DataType
  | 0 => throw .endOfBytes
  | limit + 1 => do
    match ← Reader.number32 with
    | 0 => return void
    | 1 => return int
    | 2 => return bool
    | 3 => return char
    | 4 => return pointer (← readUpTo limit)
    | _ => throw .badCode

/-- Takes a type. Every code takes a byte, so there are no more codes than
bytes. -/
def read : Reader DataType := do
  readUpTo ((← get).length + 1)

end DataType

namespace Storage

/-- The bytes of a storage place. -/
def write : Storage → List UInt8
  | frame offset => 0 :: writeSigned offset
  | global label => 1 :: writeText label

/-- Takes a storage place. -/
def read : Reader Storage := do
  match ← Reader.number32 with
  | 0 => return frame (← Reader.signed)
  | 1 => return global (← Reader.text)
  | _ => throw .badCode

end Storage

namespace Variable

/-- The bytes of a variable. -/
def write (v : Variable) : List UInt8 :=
  writeText v.name ++ v.type.write ++ v.storage.write
    ++ writeOption (fun n => writeNumber n.toNat) v.length

/-- Takes a variable. -/
def read : Reader Variable := do
  let name ← Reader.text
  let type ← DataType.read
  let storage ← Storage.read
  let length ← Reader.option (return UInt64.ofNat (← Reader.number64))
  return { name, type, storage, length }

end Variable

namespace Constant

/-- The bytes of a constant. -/
def write (c : Constant) : List UInt8 :=
  c.type.write ++ writeSigned c.value

/-- Takes a constant. -/
def read : Reader Constant := do
  let type ← DataType.read
  let value ← Reader.signed
  return { type, value }

end Constant

/-! ## Elements -/

namespace CallRef

/-- The bytes of a call. -/
def write (c : CallRef) : List UInt8 :=
  writeText c.name ++ writeNumber c.arity.toNat

/-- Takes a call. -/
def read : Reader CallRef := do
  let name ← Reader.text
  let arity := UInt64.ofNat (← Reader.number64)
  return { name, arity }

end CallRef

namespace Operand

/-- The bytes of an operand. -/
def write : Operand → List UInt8
  | var v => 0 :: v.write
  | constant c => 1 :: c.write
  | intermediate n => 2 :: writeNumber n.toNat
  | result call => 3 :: call.write
  | parameter slot => 4 :: writeNumber slot.toNat

/-- Takes an operand. -/
def read : Reader Operand := do
  match ← Reader.number32 with
  | 0 => return var (← Variable.read)
  | 1 => return constant (← Constant.read)
  | 2 => return intermediate (UInt32.ofNat (← Reader.number32))
  | 3 => return result (← CallRef.read)
  | 4 => return parameter (UInt64.ofNat (← Reader.number64))
  | _ => throw .badCode

end Operand

/-- All markers, in the order of their codes. -/
def Marker.all : List Marker :=
  [expressionEnd, functionStart, functionEnd, scopeOpen, scopeClose, zeroJump]

/-- All keywords, in the order of their codes. -/
def Keyword.all : List Keyword :=
  [returning, ifThen, elseIf, otherwise, whileLoop, forLoop, breakLoop]

namespace Element

/-- The bytes of an element. -/
def write : Element → List UInt8
  | operand o => 0 :: o.write
  | operator op => 1 :: writeCode Operator.all op
  | marker m => 2 :: writeCode Marker.all m
  | keyword k => 3 :: writeCode Keyword.all k

/-- Takes an element. -/
def read : Reader Element := do
  match ← Reader.number32 with
  | 0 => return operand (← Operand.read)
  | 1 => return operator (← Reader.code Operator.all)
  | 2 => return marker (← Reader.code Marker.all)
  | 3 => return keyword (← Reader.code Keyword.all)
  | _ => throw .badCode

end Element

/-! ## Programs -/

namespace Global

/-- The bytes of a file-scope variable. -/
def write (g : Global) : List UInt8 :=
  writeText g.name ++ g.type.write ++ writeSigned g.value

/-- Takes a file-scope variable. -/
def read : Reader Global := do
  let name ← Reader.text
  let type ← DataType.read
  let value ← Reader.signed
  return { name, type, value }

end Global

namespace Function

/-- The bytes of a function. -/
def write (f : Function) : List UInt8 :=
  writeText f.name ++ f.returnType.write ++ writeList Variable.write f.parameters
    ++ writeOption (writeList Element.write) f.body ++ writeNumber f.frameSize.toNat

/-- Takes a function. -/
def read : Reader Function := do
  let name ← Reader.text
  let returnType ← DataType.read
  let parameters ← Reader.list Variable.read
  let body ← Reader.option (Reader.list Element.read)
  let frameSize := UInt64.ofNat (← Reader.number64)
  return { name, returnType, parameters, body, frameSize }

end Function

namespace Program

/-- The bytes of a program. -/
def write (p : Program) : List UInt8 :=
  writeList Global.write p.globals ++ writeList Function.write p.functions

/-- Takes a program. -/
def read : Reader Program := do
  let globals ← Reader.list Global.read
  let functions ← Reader.list Function.read
  return { globals, functions }

/-- The program that bytes begin with. What stands behind it is ignored. -/
def ofBytes (bytes : List UInt8) : Except ArtifactError Program :=
  (read bytes).map (·.1)

end Program

end WordC
