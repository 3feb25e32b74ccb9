import WordC.Lowering.Control
/-!
# Lowering bodies

A body is lowered element by element. The step of a counted loop is passed over
where it stands and lowered at the end of the loop.
-/

namespace WordC

/-- Applies an action to each element of a list and to what stands behind it,
for the first `n` elements. -/
def forFirst (action : Element → List Element → Lower Unit) :
    List Element → Nat → Lower Unit
  | e :: rest, n + 1 => do
    action e rest
    forFirst action rest n
  | _, _ => pure ()

namespace Lower

/-- Lowers the beginning of a function. -/
def functionStart (f : Function) : Lower Unit := do
  Assemble.emit (.function f.name)
  Assemble.createFrame f.frameSize

/-- Lowers the end of a function, which needs no return directly behind one. -/
def functionEnd (f : Function) : Lower Unit := do
  if (← get).assembler.lines.back?.bind Line.mnemonic? ≠ some .ret then
    epilogue f

/-- Lowers an element that is followed by `rest`. The step of a counted loop is
lowered by `step`. -/
def elementWith (f : Function) (step : Stretch → Lower Unit) (e : Element)
    (rest : List Element) : Lower Unit := do
  Assemble.record (.takes e)
  match e with
  | .operand o => operand o
  | .operator op => operator f op rest
  | .keyword k => keyword f k
  | .marker .functionStart => functionStart f
  | .marker .functionEnd => functionEnd f
  | .marker .expressionEnd => expressionEnd f
  | .marker .zeroJump => zeroJump f rest
  | .marker .scopeOpen => openScope f
  | .marker .scopeClose => closeScope f step rest

/-- Lowers an element. A step that closes the scope of another counted loop
brings in the step of that loop, up to `nesting` times. -/
def element (f : Function) : (nesting : Nat) → Element → List Element → Lower Unit
  | 0 => elementWith f fun _ => throw (f.unexpected Keyword.forLoop.text)
  | nesting + 1 =>
    elementWith f fun s => forFirst (element f nesting) s.elements s.length

/-- Passes over an element of the step of a counted loop that begins at
`start`. -/
def passOver (head : LoopHead) (start : List Element) (e : Element) (rest : List Element) :
    Lower Unit :=
  if e = .marker .expressionEnd then
    let step : Stretch := ⟨start, start.length - (rest.length + 1)⟩
    modify fun s => { s with loopHead := some { head with phase := .ready step } }
  else pure ()

/-- Lowers the elements of a body. Each counted loop is entered through an
element of its own, so the number of elements bounds the nesting of steps. -/
def elements (f : Function) (nesting : Nat) : List Element → Lower Unit
  | [] => pure ()
  | e :: rest => do
    match (← get).loopHead with
    | some head =>
      match head.phase with
      | .step start => passOver head start e rest
      | _ => element f nesting e rest
    | none => element f nesting e rest
    elements f nesting rest

end Lower

end WordC
