import WordC.Lowering.Error
import WordC.SourceUnit.Check
/-!
# Settings of the compiler

What changes the compiled program beside its source: the size of the register
pool and the functions that libraries supply.
-/

namespace WordC

/-- The largest pool of general registers. -/
def maxRegisters : Nat := 64

/-- The pool of general registers when none is asked for. -/
def defaultRegisters : Nat := 3

/-- The settings of a compilation. -/
structure Settings where
  /-- The number of general registers. -/
  registers : Nat := defaultRegisters
  library : List LibraryFunction := []
  deriving DecidableEq, Repr

/-- The settings with another pool, as near to the asked size as pools go. -/
def Settings.withRegisters (s : Settings) (registers : Nat) : Settings :=
  { s with registers := min (max registers minRegisters) maxRegisters }

end WordC
