/-!
# Mnemonics

The instruction names of the register assembly.
-/

namespace WordC

/-- An instruction name. -/
inductive Mnemonic where
  | load | store | mov | push | pop | pusha | popa
  | add | sub | mul | and | or | xor | shl | shr | rol | ror | not | neg
  | lt | lte | gt | gte | eq | neq
  | call | ret | jmp | jz | jnz
  | inp | out
  deriving DecidableEq, Repr

namespace Mnemonic

/-- All mnemonics. -/
def all : List Mnemonic :=
  [load, store, mov, push, pop, pusha, popa,
   add, sub, mul, and, or, xor, shl, shr, rol, ror, not, neg,
   lt, lte, gt, gte, eq, neq,
   call, ret, jmp, jz, jnz,
   inp, out]

/-- The mnemonic as written. -/
def name : Mnemonic → String
  | load => "LOAD"
  | store => "STORE"
  | mov => "MOV"
  | push => "PUSH"
  | pop => "POP"
  | pusha => "PUSHA"
  | popa => "POPA"
  | add => "ADD"
  | sub => "SUB"
  | mul => "MUL"
  | and => "AND"
  | or => "OR"
  | xor => "XOR"
  | shl => "SHL"
  | shr => "SHR"
  | rol => "ROL"
  | ror => "ROR"
  | not => "NOT"
  | neg => "NEG"
  | lt => "LT"
  | lte => "LTE"
  | gt => "GT"
  | gte => "GTE"
  | eq => "EQ"
  | neq => "NEQ"
  | call => "CALL"
  | ret => "RET"
  | jmp => "JMP"
  | jz => "JZ"
  | jnz => "JNZ"
  | inp => "IN"
  | out => "OUT"

/-- The mnemonic of a given name. Letters of either case are accepted. -/
def ofName? (name : List Char) : Option Mnemonic :=
  all.find? fun m => m.name.toList = name.map Char.toUpper

/-- Operations on two values whose second one may be an immediate. -/
def isAlu : Mnemonic → Bool
  | add | sub | mul | and | or | xor | shl | shr | rol | ror => true
  | lt | lte | gt | gte | eq | neq => true
  | _ => false

end Mnemonic

end WordC
