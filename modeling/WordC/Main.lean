import WordC.Command.Session
/-!
# The command line

Reads the input, carries out the effects of the session and sets the exit code.
-/

namespace WordC

/-- The cause of a failed file operation. -/
def FileCause.ofError : IO.Error → FileCause
  | .noFileOrDirectory .. => .missing
  | .inappropriateType _ 20 _ => .notADirectory
  | .inappropriateType _ 21 _ => .isADirectory
  | e => .other (toString e)

/-- The content of a file. -/
def readInput (path : String) : IO (Except FileCause (List UInt8)) := do
  try
    return .ok (← IO.FS.readBinFile path).toList
  catch e =>
    return .error (.ofError e)

/-- Carries out an effect on the real files. -/
def performEffect (limit : LogLevel) : Effect → IO (Option Error)
  | .note n => do
    if n.passes limit then
      IO.eprint n.line
    return none
  | .print text => do
    IO.print text
    return none
  | .write path content => do
    try
      IO.FS.writeBinFile path ⟨content.toArray⟩
      return none
    catch e =>
      return some (.file path (.ofError e))

/-- Carries out effects until one fails. -/
def performEffects (limit : LogLevel) : List Effect → IO (Option Error)
  | [] => return none
  | e :: rest => do
    match ← performEffect limit e with
    | none => performEffects limit rest
    | some failure => return some failure

/-- How the command line is used. -/
def usageText : String :=
  "usage: wordc [OPTIONS] INPUT\n"

end WordC

open WordC in
def main (args : List String) : IO UInt32 := do
  match Options.parse args with
  | .error stop =>
    if stop.exitCode = 0 then IO.print usageText else IO.eprint usageText
    return UInt32.ofNat stop.exitCode
  | .ok o =>
    let (effects, failure) := Session.effects o (← readInput o.input)
    match (← performEffects o.logLevel effects) <|> failure with
    | none => return 0
    | some e =>
      IO.eprint ("error: " ++ e.message ++ "\n")
      return if e.isAbort then 101 else 1
