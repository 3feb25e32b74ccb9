import WordC.Linear.Program
import WordC.Scopes
/-!
# Declared functions

The functions of a source unit in the order of their first declaration, and an
index that leads from a name to the place of its function. A definition may
follow or precede prototypes with the same number of parameters.
-/

namespace WordC

/-- The functions declared so far, and where the function of a name is among
them. -/
structure Declarations where
  functions : List Function := []
  /-- Names with the places of their functions, the entry made last in front. -/
  index : List (String × Nat) := []
  deriving Repr

namespace Declarations

/-- The place of the function of a name. -/
def place? (d : Declarations) (name : String) : Option Nat :=
  d.index.lookup name

/-- The function of a name. -/
def find? (d : Declarations) (name : String) : Option Function :=
  (d.place? name).bind fun i => d.functions[i]?

/-- Adds a function behind the others. -/
def add (d : Declarations) (f : Function) : Declarations where
  functions := d.functions ++ [f]
  index := (f.name, d.functions.length) :: d.index

/-- Puts a function in the place of another one. -/
def replace (d : Declarations) (i : Nat) (f : Function) : Declarations :=
  { d with functions := d.functions.set i f }

/-- Records a prototype or a definition. The number of parameters must agree
with an earlier declaration, and a name is defined at most once. -/
def declare (f : Function) : EStateM DeclarationError Declarations Unit := do
  let d ← get
  match d.place? f.name with
  | none => set (d.add f)
  | some i =>
    match d.functions[i]? with
    | none => throw (.misplaced f.name)
    | some known =>
      if known.arity ≠ f.arity then
        throw (.conflicting f.name known.arity f.arity)
      if known.isDefined && f.isDefined then
        throw (.redefined f.name)
      if f.isDefined then
        set (d.replace i f)

end Declarations

end WordC
