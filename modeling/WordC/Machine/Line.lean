import WordC.Assembly.Line
/-!
# Lines of machine assembly

The instructions and directives of the target machine, and how they are
written. Code and data stand in named blocks.
-/

namespace WordC

/-- What a block holds. -/
inductive BlockKind where
  | code | data
  deriving DecidableEq, Repr

/-- The word for a kind of block. -/
def BlockKind.word : BlockKind → String
  | code => "code"
  | data => "data"

/-- An instruction of the target machine. -/
inductive MachineInstruction where
  | load (target base : Reg) (offset : Int64)
  | loadGlobal (target : Reg) (name : String)
  | store (source base : Reg) (offset : Int64)
  | storeGlobal (source : Reg) (name : String)
  | loadImmediate (target : Reg) (value : Int64)
  | move (target source : Reg)
  | alu (operation : Mnemonic) (target first second : Reg)
  | aluImmediate (operation : Mnemonic) (target first : Reg) (second : Int64)
  /-- Continues at a function and leaves the way back in `edx`. -/
  | call (function : String)
  | jump (label : String)
  /-- Continues where a register says. -/
  | jumpRegister (target : Reg)
  | branchZero (tested : Reg) (label : String)
  | branchNonZero (tested : Reg) (label : String)
  | input (target : Reg) (channel : Int64)
  | output (source : Reg) (channel : Int64)
  /-- Turns data memory on. -/
  | enableDataMemory
  | disableInterrupts
  /-- Puts the stack at the end of data memory. -/
  | resetStack
  deriving DecidableEq, Repr

/-- The machine's name for an operation of the arithmetic unit. -/
def Mnemonic.aluName : Mnemonic → String
  | .rol => "CSHL"
  | .ror => "CSHR"
  | .eq => "SEQ"
  | .neq => "SNE"
  | .lt => "SLT"
  | .gt => "SGT"
  | .lte => "SLE"
  | .gte => "SGR"
  | other => other.name

/-- A register as the machine writes it. -/
def Reg.machineName (r : Reg) : String :=
  "@" ++ r.name

namespace MachineInstruction

/-- An instruction name and its operands. -/
def written (name : String) (operands : List String) : String :=
  name ++ " " ++ String.intercalate ", " operands

/-- A number as the machine writes it. -/
def number (n : Int64) : String :=
  "#" ++ Text.decimal n

/-- The instruction as written. -/
def text : MachineInstruction → String
  | load r base offset => written "LOAD" [r.machineName, base.machineName, number offset]
  | loadGlobal r name => written "LOAD" [r.machineName, Reg.zero.machineName, "*d*" ++ name]
  | store r base offset => written "STORE" [r.machineName, base.machineName, number offset]
  | storeGlobal r name => written "STORE" [r.machineName, Reg.zero.machineName, "*d*" ++ name]
  | loadImmediate r value => written "LDI" [r.machineName, number value]
  | move d s => written "MOV" [d.machineName, s.machineName]
  | alu op d a b => written op.aluName [d.machineName, a.machineName, b.machineName]
  | aluImmediate op d a k =>
    written (op.aluName ++ "I") [d.machineName, a.machineName, number k]
  | call function => written "JAL" [Reg.edx.machineName, "*" ++ function]
  | jump label => written "JMP" ["#" ++ label]
  | jumpRegister r => written "JREG" [r.machineName]
  | branchZero r label => written "BEQZ" [r.machineName, "#" ++ label]
  | branchNonZero r label => written "BNEZ" [r.machineName, "#" ++ label]
  | input r channel => written "IN" [r.machineName, number channel]
  | output r channel => written "OUT" [r.machineName, number channel]
  | enableDataMemory => "DPMA"
  | disableInterrupts => "DEI"
  | resetStack => written "LDI" [Reg.esp.machineName, "#0x7FFF"]

end MachineInstruction

/-- A line of machine assembly. -/
inductive MachineLine where
  /-- Gives a register a second name. -/
  | define (name register : String)
  | blank
  | openBlock (kind : BlockKind) (name : String) (comment : Option String)
  | closeBlock
  /-- A word of a data block. -/
  | word (value : Int64)
  | label (name : String) (comment : Option String)
  | instruction (instruction : MachineInstruction) (comment : Option String)
  | comment (text : String)
  deriving DecidableEq, Repr

namespace MachineLine

/-- The space before what stands inside a block. -/
def indentation : String := "   "

/-- A line with its comment, if it has one. -/
def withComment? (line : String) : Option String → String
  | some note => Text.withComment line note
  | none => line

/-- The line as written. -/
def text : MachineLine → String
  | define name register =>
    Text.withComment ("#define " ++ name ++ " \"" ++ register ++ "\"") "register definitions"
  | blank => ""
  | openBlock kind name note => withComment? ("@" ++ kind.word ++ " " ++ name ++ " \x7b") note
  | closeBlock => "@\x7d"
  | word value => indentation ++ "#" ++ Text.decimal value
  | label name note => withComment? (name ++ ":") note
  | instruction i note => withComment? (indentation ++ i.text) note
  | comment text => "; " ++ text

/-- An instruction without a comment. -/
def plain (i : MachineInstruction) : MachineLine :=
  instruction i none

/-- An instruction with a comment. -/
def noted (i : MachineInstruction) (note : String) : MachineLine :=
  instruction i (some note)

end MachineLine

/-- Lines as a text, each with a line break at its end. -/
def renderMachineLines (lines : List MachineLine) : String :=
  String.join (lines.map fun l => l.text ++ "\n")

end WordC
