import WordC.Assembly.Mnemonic
import WordC.Text.Numeral
import WordC.Text.Layout
/-!
# Lines of register assembly

Registers, operands and lines, and how they are written.
-/

namespace WordC

/-- A register. -/
inductive Reg where
  /-- `r0`, which always holds zero. -/
  | zero
  /-- A general purpose register, counted from one. -/
  | general (n : UInt8)
  /-- The accumulator, which holds the value a function returns. -/
  | eax
  /-- A spare register. -/
  | edx
  /-- The frame pointer. -/
  | ebp
  /-- The stack pointer. -/
  | esp
  deriving DecidableEq, Repr

namespace Reg

/-- The register as written. -/
def name : Reg → String
  | zero => "r0"
  | general n => "r" ++ toString n.toNat
  | eax => "eax"
  | edx => "edx"
  | ebp => "ebp"
  | esp => "esp"

/-- The register of a given name. Letters of either case are accepted, and the
number of a general register may have a sign and leading zeros. -/
def ofName? (name : List Char) : Option Reg :=
  let lower := name.map Char.toLower
  if lower = ['r', '0'] then some zero
  else if lower = ['e', 'a', 'x'] then some eax
  else if lower = ['e', 'd', 'x'] then some edx
  else if lower = ['e', 'b', 'p'] then some ebp
  else if lower = ['e', 's', 'p'] then some esp
  else
    match lower with
    | 'r' :: number =>
      ((Text.natural? 256 number).filter (0 < ·)).map fun n => general (UInt8.ofNat n)
    | _ => none

end Reg

/-- An operand of an instruction. -/
inductive Arg where
  | reg (r : Reg)
  | imm (n : Int64)
  /-- The word at an offset from a register. -/
  | mem (base : Reg) (offset : Int64)
  /-- A file-scope word. -/
  | global (name : String)
  /-- The target of a jump or a call. -/
  | label (name : String)
  deriving DecidableEq, Repr

/-- The operand as written. -/
def Arg.text : Arg → String
  | reg r => r.name
  | imm n => Text.decimal n
  | mem base offset => "[" ++ base.name ++ Text.signed offset ++ "]"
  | global name => "@" ++ name
  | label name => name

/-- A line of assembly. -/
inductive Line where
  /-- A file-scope word and its initial value. -/
  | global (name : String) (value : Int64)
  /-- The beginning of a function. -/
  | function (name : String)
  | label (name : String)
  | instruction (mnemonic : Mnemonic) (args : List Arg) (comment : Option String)
  | comment (text : String)
  deriving DecidableEq, Repr

namespace Line

/-- The line as written. -/
def text : Line → String
  | global name value => "@" ++ name ++ ": " ++ Text.decimal value
  | function name => "$" ++ name ++ ":"
  | label name => name ++ ":"
  | comment text => "; " ++ text
  | instruction mnemonic args note =>
    let code := "    " ++ mnemonic.name ++ String.join (args.map fun a => " " ++ a.text)
    match note with
    | some note => Text.withComment code note
    | none => code

/-- The mnemonic of an instruction. -/
def mnemonic? : Line → Option Mnemonic
  | instruction mnemonic _ _ => some mnemonic
  | _ => none

/-- An instruction without a comment. -/
def plain (mnemonic : Mnemonic) (args : List Arg) : Line :=
  instruction mnemonic args none

/-- An instruction with a comment. -/
def noted (mnemonic : Mnemonic) (args : List Arg) (comment : String) : Line :=
  instruction mnemonic args (some comment)

end Line

/-- Lines as a text, each with a line break at its end. -/
def renderLines (lines : List Line) : String :=
  String.join (lines.map fun l => l.text ++ "\n")

end WordC
