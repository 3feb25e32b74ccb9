/-!
# Positions in a source text

A position is a line and a column, both counted from one. Columns count
characters.
-/

namespace WordC

/-- A place in a source text. -/
structure Position where
  line : Nat
  column : Nat
  deriving DecidableEq, Repr, Inhabited

namespace Position

/-- Where every text begins. -/
def start : Position := ⟨1, 1⟩

/-- The position after one character. -/
def next (p : Position) (c : Char) : Position :=
  if c = '\n' then ⟨p.line + 1, 1⟩ else ⟨p.line, p.column + 1⟩

/-- The position after a run of characters. -/
def after (p : Position) (cs : List Char) : Position :=
  cs.foldl next p

/-- Line and column, as they open a message. -/
def text (p : Position) : String :=
  s!"{p.line}:{p.column}"

end Position

/-- A cause of failure together with its place in the source. -/
structure Located (ε : Type) where
  position : Position
  cause : ε
  deriving Repr

end WordC
