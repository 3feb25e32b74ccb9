import WordC.DataType
/-!
# Variables and constants

A variable is declared once with its storage, which never changes: an offset
from the frame pointer, or the label of a file-scope word.
-/

namespace WordC

/-- Where a variable lives. -/
inductive Storage where
  /-- An offset from the frame pointer: negative for locals, positive for
  parameters. -/
  | frame (offset : Int64)
  /-- A file-scope word, addressed by its label. -/
  | global (label : String)
  deriving DecidableEq, Repr

/-- A declared variable. -/
structure Variable where
  name : String
  type : DataType
  storage : Storage
  /-- The number of words of an array. An array evaluates to its address. -/
  length : Option UInt64
  deriving DecidableEq, Repr

namespace Variable

/-- The variable names a run of words. -/
def isArray (v : Variable) : Bool :=
  v.length.isSome

/-- The variable is declared at file scope. -/
def isGlobal (v : Variable) : Bool :=
  match v.storage with
  | .global _ => true
  | .frame _ => false

end Variable

/-- A literal value with its type. -/
structure Constant where
  type : DataType
  value : Int64
  deriving DecidableEq, Repr

namespace Constant

/-- An integer literal. -/
def int (n : Int64) : Constant := ⟨.int, n⟩

/-- A truth value: one or zero. -/
def bool (b : Bool) : Constant := ⟨.bool, if b then 1 else 0⟩

/-- A character: its code point. -/
def char (c : Char) : Constant := ⟨.char, Int64.ofNat c.toNat⟩

end Constant

end WordC
