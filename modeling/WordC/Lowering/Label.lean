/-!
# Labels of control structures

A control structure is named by its function, its kind and its path: how many
structures of its kind came before it at each depth of nesting.
-/

namespace WordC

/-- A control structure that owns labels. -/
inductive Construct where
  | ifChain | whileLoop | forLoop
  deriving DecidableEq, Repr

/-- The word for a structure in its labels. -/
def Construct.keyword : Construct → String
  | ifChain => "if"
  | whileLoop => "while"
  | forLoop => "for"

/-- One control structure of a function. -/
structure LabelBase where
  function : String
  construct : Construct
  path : List Nat
  deriving DecidableEq, Repr

namespace LabelBase

/-- The path with dots between its parts. -/
def pathText (b : LabelBase) : String :=
  String.intercalate "." (b.path.map toString)

/-- The label of the structure with a given ending. -/
def label (b : LabelBase) (ending : String) : String :=
  b.function ++ "." ++ b.construct.keyword ++ "_" ++ b.pathText ++ "_" ++ ending

/-- Where a loop begins. -/
def startLabel (b : LabelBase) : String := b.label "start"

/-- Where the structure ends. -/
def endLabel (b : LabelBase) : String := b.label "end"

/-- Where a branch that is not taken continues. -/
def skipLabel (b : LabelBase) : String := b.label "skip"

/-- Where the `index`-th further branch continues when it is not taken. -/
def branchSkipLabel (b : LabelBase) (index : Nat) : String :=
  b.function ++ ".elseif_" ++ b.pathText ++ "." ++ toString index ++ "_skip"

end LabelBase

/-- How many structures of each kind are complete, by depth of nesting. -/
structure Labels where
  ifChains : List Nat := []
  whileLoops : List Nat := []
  forLoops : List Nat := []
  deriving DecidableEq, Repr

namespace Labels

/-- The counters of one kind. -/
def counters (l : Labels) : Construct → List Nat
  | .ifChain => l.ifChains
  | .whileLoop => l.whileLoops
  | .forLoop => l.forLoops

/-- Changes the counters of one kind. -/
def setCounters (l : Labels) (c : Construct) (counters : List Nat) : Labels :=
  match c with
  | .ifChain => { l with ifChains := counters }
  | .whileLoop => { l with whileLoops := counters }
  | .forLoop => { l with forLoops := counters }

/-- The counters of one kind down to a depth, missing ones at zero. -/
def countersTo (l : Labels) (c : Construct) (depth : Nat) : List Nat :=
  l.counters c ++ List.replicate (depth + 1 - (l.counters c).length) 0

/-- Names a structure that opens with `depth` structures around it. -/
def openAt (l : Labels) (function : String) (c : Construct) (depth : Nat) : LabelBase × Labels :=
  let counters := l.countersTo c depth
  (⟨function, c, counters.take (depth + 1)⟩, l.setCounters c counters)

/-- Counts a structure at a depth as complete. -/
def closeAt (l : Labels) (c : Construct) (depth : Nat) : Labels :=
  l.setCounters c ((l.counters c).modify depth (· + 1))

end Labels

end WordC
