import WordC.Command.Options
import WordC.Command.Disk
import WordC.Compiler
import WordC.Artifact.Format
import WordC.Linear.Listing
import WordC.Token.Listing
/-!
# Sessions

What a command line does, as a list of effects: notes, text to print and files
to write. The effects follow from the options and the content of the input.
Carrying them out stops at the first file that cannot be written.
-/

namespace WordC

/-- One effect of a session. -/
inductive Effect where
  | note (n : Note)
  | print (text : String)
  | write (path : String) (content : List UInt8)
  deriving DecidableEq, Repr

/-- A session: its effects so far, and its failure. -/
abbrev Session := EStateM Error (Array Effect)

namespace Session

/-- Adds an effect. -/
def effect (e : Effect) : Session Unit :=
  modify (·.push e)

/-- Adds a note. -/
def note (level : LogLevel) (text : String) : Session Unit :=
  effect (.note ⟨level, text⟩)

/-- Prints a text. -/
def print (text : String) : Session Unit :=
  effect (.print text)

/-- Writes a text. -/
def writeText (path text : String) : Session Unit :=
  effect (.write path text.toUTF8.toList)

/-- A stage of the compiler, whose notes are effects. -/
def stage {α : Type} (x : Compile α) : Session α := fun effects =>
  match x #[] with
  | .ok a notes => .ok a (effects ++ notes.map .note)
  | .error e notes => .error e (effects ++ notes.map .note)

/-- The settings that options ask for. -/
def settings (o : Options) : Settings :=
  { library := o.library : Settings }.withRegisters o.registers

/-- The content of the input. -/
def inputContent (o : Options) (content : Except FileCause (List UInt8)) :
    Session (List UInt8) :=
  match content with
  | .ok bytes => pure bytes
  | .error cause => throw (.file o.input cause)

/-- The saved program that the input holds. -/
def savedProgram (o : Options) (content : Except FileCause (List UInt8)) : Session Program := do
  if o.emit = .tokens then
    note .warn "an IR artifact has no tokens, emitting the linear form"
  let bytes ← inputContent o content
  match Program.ofBytes bytes with
  | .error e => throw (.artifact e)
  | .ok p =>
    note .info s!"loaded IR artifact {o.input} ({p.functions.length} functions)"
    return p

/-- The source text that the input holds. -/
def sourceText (o : Options) (content : Except FileCause (List UInt8)) : Session String := do
  if pathExtension? o.input ≠ some "c" then
    note .warn s!"expected a .c file, got {o.input}"
  let bytes ← inputContent o content
  match String.fromUTF8? ⟨bytes.toArray⟩ with
  | none => throw (.file o.input .notText)
  | some source =>
    note .info s!"read {o.input} ({bytes.length} bytes)"
    return source

/-- Prints the tokens of a source text. -/
def printTokens (o : Options) (source : String) : Session Unit := do
  let style : ListingStyle := { color := !o.noColor, spelled := o.pretty }
  let tokens ← stage (tokens source)
  print (String.join (tokens.map fun t => t.listed style ++ "\n"))

/-- Saves a program if options ask for it. -/
def save (o : Options) (p : Program) : Session Unit := do
  if let some path := o.saveTo then
    let bytes := p.write
    effect (.write path bytes)
    note .info s!"wrote {bytes.length} byte IR artifact to {path}"

/-- Writes the result to the output, or prints it if there is none. -/
def writeOutput (o : Options) (text : String) : Session Unit := do
  match o.output with
  | some path =>
    writeText path text
    note .info s!"wrote {path}"
  | none => print text

/-- Carries a program to the stage that options ask for. A program has no
tokens, so its linear form stands for them. -/
def emit (o : Options) (p : Program) : Session Unit := do
  match o.emit with
  | .tokens | .linear => print (p.listed "  ")
  | .high => writeOutput o (← stage (registerAssembly (settings o) p))
  | .target =>
    let texts ← stage (backEnd (settings o) p)
    if let some path := o.high then
      writeText path texts.high
    writeOutput o texts.target

/-- What options do with the content of the input. -/
def run (o : Options) (content : Except FileCause (List UInt8)) : Session Unit := do
  if o.fromSaved then
    let p ← savedProgram o content
    save o p
    emit o p
  else
    let source ← sourceText o content
    if o.emit = .tokens then
      printTokens o source
    else
      let p ← stage (frontEnd (settings o) source)
      save o p
      emit o p

/-- The effects of a session and its failure. -/
def effects (o : Options) (content : Except FileCause (List UInt8)) :
    List Effect × Option Error :=
  match run o content #[] with
  | .ok _ effects => (effects.toList, none)
  | .error e effects => (effects.toList, some e)

end Session

/-- The level of notes that options ask for. -/
def Options.logLevel (o : Options) : LogLevel :=
  .ofVerbosity o.verbosity o.quiet

/-! ## Carrying out effects -/

/-- Files and what has been printed. -/
structure World where
  disk : Disk
  printed : String := ""
  /-- Notes and the failure. -/
  reported : String := ""

namespace World

/-- Carries out an effect. -/
def perform (limit : LogLevel) (w : World) : Effect → Except Error World
  | .note n => .ok (if n.passes limit then { w with reported := w.reported ++ n.line } else w)
  | .print text => .ok { w with printed := w.printed ++ text }
  | .write path content =>
    match w.disk.write path content with
    | .ok disk => .ok { w with disk }
    | .error cause => .error (.file path cause)

/-- Carries out effects until one fails. -/
def performAll (limit : LogLevel) (w : World) : List Effect → World × Option Error
  | [] => (w, none)
  | e :: rest =>
    match w.perform limit e with
    | .ok w => performAll limit w rest
    | .error failure => (w, some failure)

/-- A session on a disk: the world after it, and its failure. -/
def session (o : Options) (disk : Disk) : World × Option Error :=
  let (effects, failure) := Session.effects o (disk.read o.input)
  let (w, refused) := performAll o.logLevel { disk } effects
  match refused <|> failure with
  | none => (w, none)
  | some e => ({ w with reported := w.reported ++ "error: " ++ e.message ++ "\n" }, some e)

end World

end WordC
