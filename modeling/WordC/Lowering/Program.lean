import WordC.Lowering.Body
/-!
# Lowering programs

The lines of a program: first its file-scope words, then its defined functions,
in order.
-/

namespace WordC

/-- Lowers the body of a function, with a pool of `registers` registers. -/
def Function.assemble (f : Function) (registers : Nat) : Logged LoweringError Assembler :=
  fun notes =>
    match f.body, RegisterFile.ofSize registers with
    | none, _ => .error (.missingBody f.name) notes
    | some _, .error e => .error e notes
    | some body, .ok file =>
      match Lower.elements f body.length body { assembler := { file, notes } } with
      | .ok _ s => .ok s.assembler s.assembler.notes
      | .error e s => .error e s.assembler.notes

/-- The lines of a function, with a pool of `registers` registers. -/
def Function.lower (f : Function) (registers : Nat) : Logged LoweringError (List Line) := do
  return (← f.assemble registers).lines.toList

/-- The line of a file-scope word. -/
def Global.line (g : Global) : Line :=
  .global g.name g.value

/-- The lines of a program, with a pool of `registers` registers. -/
def Program.lower (p : Program) (registers : Nat) : Logged LoweringError (List Line) := do
  if registers < minRegisters then
    throw (.poolTooSmall registers)
  let bodies ← (p.functions.filter (·.isDefined)).mapM fun f => do
    Logged.note .debug s!"generating `{f.name}`"
    f.lower registers
  let lines := p.globals.map Global.line ++ bodies.flatten
  Logged.note .info s!"generated {lines.length} lines of high assembly"
  return lines

end WordC
