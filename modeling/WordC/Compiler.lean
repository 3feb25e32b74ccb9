import WordC.Settings
import WordC.Error
import WordC.Lowering.Program
/-!
# The compiler

The stages from a source text to machine assembly, in order. Each stage notes
what it has done.
-/

namespace WordC

/-- A compilation step. Its notes are kept when it fails. -/
abbrev Compile := Logged Error

/-- The two assembly texts of a program. -/
structure CompiledText where
  /-- Register assembly. -/
  high : String
  /-- Machine assembly. -/
  target : String
  deriving DecidableEq, Repr

/-- The tokens of a source text. -/
def tokens (source : String) : Compile (List PlacedToken) := do
  let tokens ← Logged.ofExcept ((scan source).mapError .scan)
  Logged.note .debug s!"scanned {tokens.length} tokens"
  return tokens

/-- The source unit of a source text, without checks of its calls. -/
def sourceUnit (source : String) : Compile SourceUnit := do
  (SourceUnit.read (← tokens source)).mapError .grammar

/-- The checked program of a source text. The first failed check is the
failure; the others are noted. -/
def frontEnd (settings : Settings) (source : String) : Compile Program := do
  let unit ← sourceUnit source
  let (globals, functions, calls) :=
    (unit.program.globals.length, unit.program.functions.length, unit.calls.length)
  Logged.note .info s!"parsed {globals} globals, {functions} functions, {calls} calls"
  match unit.check settings.library with
  | [] => return unit.program
  | first :: others =>
    others.forM fun e => Logged.note .debug s!"also: {e.message}"
    throw (.check first)

/-- The register assembly of a program. -/
def registerAssembly (settings : Settings) (p : Program) : Compile String := do
  Logged.ofExcept (p.checkBalance.mapError .balance)
  let lines ← (p.lower settings.registers).mapError .lowering
  return renderLines lines

/-- Both assembly texts of a program. -/
def backEnd (settings : Settings) (p : Program) : Compile CompiledText := do
  let high ← registerAssembly settings p
  let target ← (expandText high).mapError .expansion
  Logged.note .info s!"translated to {(Text.lines target).length} lines of target assembly"
  return ⟨high, target⟩

/-- Both assembly texts of a source text. -/
def compile (settings : Settings) (source : String) : Compile CompiledText := do
  backEnd settings (← frontEnd settings source)

end WordC
