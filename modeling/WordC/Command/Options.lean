import WordC.Settings
/-!
# The words of a command line

Options, flags and the input are read word by word. An option takes the text
attached to it or the next word. A value that stands in a word of its own is
looked at when the next option, flag or input comes, or at the end, so a word
that is no option is reported before it.
-/

namespace WordC

/-- How far a compilation goes. -/
inductive Stage where
  | tokens | linear | high | target
  deriving DecidableEq, Repr

/-- The stage of a given name. -/
def Stage.ofName? : String → Option Stage
  | "tokens" => some tokens
  | "linear" => some linear
  | "high" => some high
  | "target" => some target
  | _ => none

/-- What a command line asks for. -/
structure Options where
  /-- The path of the source, or of a saved program. -/
  input : String := ""
  output : Option String := none
  /-- Where register assembly is written besides. -/
  high : Option String := none
  emit : Stage := .target
  noColor : Bool := false
  /-- List spellings of tokens. -/
  pretty : Bool := false
  registers : Nat := defaultRegisters
  library : List LibraryFunction := []
  /-- Where the program is saved. -/
  saveTo : Option String := none
  /-- The input is a saved program. -/
  fromSaved : Bool := false
  verbosity : Nat := 0
  quiet : Bool := false
  deriving DecidableEq, Repr

/-- Why a command line is not carried out. -/
inductive UsageStop where
  /-- The help text is asked for. -/
  | help
  /-- The version is asked for. -/
  | version
  /-- A word that is no option, or one input too many. -/
  | unknownWord
  /-- A text attached to a flag. -/
  | unneededValue
  /-- A value that is missing or not one of those offered. -/
  | invalidValue
  /-- A value that does not have the required form. -/
  | refusedValue
  /-- An option or a flag given twice. -/
  | repeated
  | missingInput
  deriving DecidableEq, Repr

/-- The exit code of a command line that is not carried out. -/
def UsageStop.exitCode : UsageStop → Nat
  | help | version => 0
  | _ => 2

/-- What takes a value. -/
inductive ValueName where
  | input | output | high | emit | registers | library | saveTo
  deriving DecidableEq, Repr

/-- What takes no value. -/
inductive FlagName where
  | noColor | pretty | fromSaved | verbose | quiet | help | version
  deriving DecidableEq, Repr

/-- An option or a flag. -/
inductive OptionName where
  | value (name : ValueName)
  | flag (name : FlagName)
  deriving DecidableEq, Repr

/-- The option or flag of a long name. -/
def OptionName.ofLong? : String → Option OptionName
  | "output" => some (value .output)
  | "high" => some (value .high)
  | "emit" => some (value .emit)
  | "no-color" => some (flag .noColor)
  | "pretty" => some (flag .pretty)
  | "registers" => some (value .registers)
  | "extern" => some (value .library)
  | "emit-ir" => some (value .saveTo)
  | "from-ir" => some (flag .fromSaved)
  | "verbose" => some (flag .verbose)
  | "quiet" => some (flag .quiet)
  | "help" => some (flag .help)
  | "version" => some (flag .version)
  | _ => none

/-- The option or flag of a letter. -/
def OptionName.ofShort? : Char → Option OptionName
  | 'o' => some (value .output)
  | 'v' => some (flag .verbose)
  | 'q' => some (flag .quiet)
  | 'h' => some (flag .help)
  | 'V' => some (flag .version)
  | _ => none

namespace Options

/-- A path, which is not empty. -/
def path (text : String) : Except UsageStop String :=
  if text.isEmpty then .error .invalidValue else .ok text

/-- A number of registers. -/
def poolSize (text : String) : Except UsageStop Nat :=
  match Text.integer? text.toList with
  | some n =>
    if (minRegisters : Int) ≤ n.toInt ∧ n.toInt ≤ (maxRegisters : Int) then .ok n.toInt.toNat
    else .error .refusedValue
  | none => .error .refusedValue

/-- Takes the value of an option. -/
def store (o : Options) (name : ValueName) (text : String) : Except UsageStop Options := do
  match name with
  | .input => return { o with input := ← path text }
  | .output => return { o with output := some (← path text) }
  | .high => return { o with high := some (← path text) }
  | .saveTo => return { o with saveTo := some (← path text) }
  | .registers => return { o with registers := ← poolSize text }
  | .emit =>
    match Stage.ofName? text with
    | some stage => return { o with emit := stage }
    | none => throw .invalidValue
  | .library =>
    match LibraryFunction.parse text with
    | .ok f => return { o with library := o.library ++ [f] }
    | .error _ => throw .refusedValue

/-- Takes a flag. -/
def raise (o : Options) : FlagName → Except UsageStop Options
  | .noColor => .ok { o with noColor := true }
  | .pretty => .ok { o with pretty := true }
  | .fromSaved => .ok { o with fromSaved := true }
  | .verbose => .ok { o with verbosity := o.verbosity + 1 }
  | .quiet => .ok { o with quiet := true }
  | .help => .error .help
  | .version => .error .version

end Options

/-- The state of reading a command line. -/
structure CommandLine where
  options : Options := {}
  /-- What has been given so far. -/
  given : List OptionName := []
  /-- The option or input that is taken next, and its value once it is known. -/
  pending : Option (ValueName × Option String) := none
  /-- An input has been seen. -/
  hasInput : Bool := false

namespace CommandLine

/-- Takes the value of an option, which may be given once. Library functions
add up. -/
def give (c : CommandLine) (name : ValueName) (text : String) :
    Except UsageStop CommandLine := do
  if name ≠ .library && c.given.contains (.value name) then
    throw .repeated
  return { c with options := ← c.options.store name text, given := .value name :: c.given }

/-- Takes what is pending. -/
def settle (c : CommandLine) : Except UsageStop CommandLine :=
  match c.pending with
  | none => .ok c
  | some (_, none) => .error .invalidValue
  | some (name, some text) => { c with pending := none }.give name text

/-- An option with a text attached to it. -/
def attached (c : CommandLine) (name : ValueName) (text : String) :
    Except UsageStop CommandLine := do
  (← c.settle).give name text

/-- An option that takes the next word. -/
def await (c : CommandLine) (name : ValueName) : Except UsageStop CommandLine := do
  return { ← c.settle with pending := some (name, none) }

/-- A flag, which may be given once. Requests for more notes add up. -/
def flag (c : CommandLine) (name : FlagName) : Except UsageStop CommandLine := do
  let c ← c.settle
  if name ≠ .verbose && c.given.contains (.flag name) then
    throw .repeated
  return { c with options := ← c.options.raise name, given := .flag name :: c.given }

/-- An input. -/
def positional (c : CommandLine) (text : String) : Except UsageStop CommandLine := do
  if c.hasInput then
    throw .unknownWord
  return { ← c.settle with pending := some (.input, some text), hasInput := true }

/-- A word that is no option: a value if an option waits for one. -/
def plainWord (c : CommandLine) (text : String) : Except UsageStop CommandLine :=
  match c.pending with
  | some (name, none) => .ok { c with pending := some (name, some text) }
  | _ => c.positional text

/-- A long option. Its value may follow an equals sign. -/
def long (c : CommandLine) (cs : List Char) : Except UsageStop CommandLine :=
  let name := cs.takeWhile (· ≠ '=')
  match OptionName.ofLong? (String.ofList name), cs.drop name.length with
  | none, _ => .error .unknownWord
  | some (.value name), [] => c.await name
  | some (.value name), _ :: text => c.attached name (String.ofList text)
  | some (.flag name), [] => c.flag name
  | some (.flag _), _ :: _ => .error .unneededValue

/-- Letters that stand for flags. The first option among them takes what
follows it. -/
def letters (c : CommandLine) : List Char → Except UsageStop CommandLine
  | [] => .ok c
  | letter :: rest =>
    match OptionName.ofShort? letter, rest with
    | none, _ => .error .unknownWord
    | some (.flag name), _ => do letters (← c.flag name) rest
    | some (.value name), [] => c.await name
    | some (.value name), '=' :: text => c.attached name (String.ofList text)
    | some (.value name), text => c.attached name (String.ofList text)

/-- One word. -/
def word (c : CommandLine) (text : String) : Except UsageStop CommandLine :=
  match text.toList with
  | '-' :: '-' :: cs => c.long cs
  | '-' :: letter :: cs => c.letters (letter :: cs)
  | _ => c.plainWord text

/-- All words. Behind `--` every word is an input. -/
def words (c : CommandLine) : List String → Except UsageStop CommandLine
  | [] => .ok c
  | "--" :: rest => rest.foldlM positional c
  | text :: rest => do words (← c.word text) rest

end CommandLine

/-- The options of a command line. -/
def Options.parse (args : List String) : Except UsageStop Options := do
  let c ← ({} : CommandLine).words args
  let c ← c.settle
  if c.hasInput then return c.options else throw .missingInput

end WordC
