/-!
# Log notes

What a stage reports while it works. `Logged` is a computation that may fail
and whose notes are kept in either case.
-/

namespace WordC

/-- How much a note matters, gravest first. -/
inductive LogLevel where
  | error | warn | info | debug | trace
  deriving DecidableEq, Repr

namespace LogLevel

/-- The rank of a level: graver levels come first. -/
def rank : LogLevel → Nat
  | error => 0
  | warn => 1
  | info => 2
  | debug => 3
  | trace => 4

/-- The word that opens a note. -/
def label : LogLevel → String
  | error => "error"
  | warn => "warning"
  | info => "info"
  | debug => "debug"
  | trace => "trace"

/-- The level that is shown after `verbosity` requests for more, or when only
failures are asked for. -/
def ofVerbosity (verbosity : Nat) (quiet : Bool) : LogLevel :=
  if quiet then error
  else
    match verbosity with
    | 0 => warn
    | 1 => info
    | 2 => debug
    | _ => trace

end LogLevel

/-- One note. -/
structure Note where
  level : LogLevel
  text : String
  deriving DecidableEq, Repr

namespace Note

/-- The note passes a limit on levels. -/
def passes (limit : LogLevel) (n : Note) : Bool :=
  n.level.rank ≤ limit.rank

/-- The line of a note. -/
def line (n : Note) : String :=
  n.level.label ++ ": " ++ n.text ++ "\n"

end Note

/-- A computation that keeps notes, also when it fails. -/
abbrev Logged (ε : Type) := EStateM ε (Array Note)

namespace Logged

variable {ε ε' α : Type}

/-- Adds a note. -/
def note (level : LogLevel) (text : String) : Logged ε Unit :=
  modify fun notes => notes.push ⟨level, text⟩

/-- The outcome without its notes. -/
def value (x : Logged ε α) : Except ε α :=
  match x #[] with
  | .ok a _ => .ok a
  | .error e _ => .error e

/-- A computation without notes. -/
def ofExcept (x : Except ε α) : Logged ε α :=
  match x with
  | .ok a => pure a
  | .error e => throw e

/-- The same computation, its failure seen as another one. -/
def mapError (f : ε → ε') (x : Logged ε α) : Logged ε' α := fun notes =>
  match x notes with
  | .ok a notes => .ok a notes
  | .error e notes => .error (f e) notes

end Logged

end WordC
