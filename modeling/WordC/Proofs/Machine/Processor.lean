import Mathlib
import WordC.Proofs.Machine.Statements
/-!
# The processor

The machine that machine texts are written for. Its words have 16 bits, its registers are `r0`
to `r7`, and `r0` always holds zero. A text gives registers other names, and what a statement does
is told from its own name and operands (`MachineStatement.exec`), with the numbers in it taken
modulo `2 ^ 16`.

`Reaches` says what becomes of the machine when statements run that stand one behind the other,
wherever they stand.
-/

namespace WordC

/-! ## Words -/

/-- A word of the machine. -/
abbrev Word := BitVec 16

/-- The word of a number, which is the number modulo `2 ^ 16`. -/
def wordOf (n : Int64) : Word :=
  BitVec.ofInt 16 n.toInt

theorem wordOf_eq_setWidth (n : Int64) : wordOf n = n.toBitVec.setWidth 16 :=
  BitVec.signExtend_eq_setWidth_of_le _ (by decide)

theorem wordOf_add (n k : Int64) : wordOf (n + k) = wordOf n + wordOf k := by
  rw [wordOf_eq_setWidth, wordOf_eq_setWidth, wordOf_eq_setWidth, Int64.toBitVec_add,
    BitVec.setWidth_add _ _ (by decide)]

/-- What is masked off is not in the word. -/
theorem wordOf_machineWord (n : Int64) : wordOf (machineWord n) = wordOf n := by
  have hmask : ((0xFFFF : Int64).toBitVec).setWidth 16 = BitVec.allOnes 16 := by decide
  rw [wordOf_eq_setWidth, wordOf_eq_setWidth, machineWord, Int64.toBitVec_and, BitVec.setWidth_and,
    hmask, BitVec.and_allOnes]

theorem wordOf_not (n : Int64) : wordOf (~~~n) = ~~~wordOf n := by
  rw [wordOf_eq_setWidth, wordOf_eq_setWidth, Int64.toBitVec_not, BitVec.setWidth_not (by decide)]

theorem wordOf_neg (n : Int64) : wordOf (-n) = -wordOf n := by
  rw [wordOf_eq_setWidth, wordOf_eq_setWidth, Int64.toBitVec_neg,
    BitVec.setWidth_neg_of_le (by decide)]

/-! ## The machine -/

/-- What is left open about the machine. -/
structure Platform (δ : Type) where
  /-- Whether words compare, and are shifted to the right, as signed numbers. -/
  signed : Bool
  /-- Where a block of data stands. -/
  data : String → Word
  /-- Where a block of code stands. -/
  code : String → Word
  /-- Where a label of the running block stands. -/
  label : String → Word
  /-- What a channel of the devices gives. -/
  input : Word → δ → Word × δ
  /-- What the devices become when a channel is given a word. -/
  output : Word → Word → δ → δ

/-- The registers, the memory and the devices of the machine. Nothing is kept for `r0`. -/
structure Core (δ : Type) where
  /-- The words in `r1` to `r7`. -/
  registers : Fin 7 → Word
  memory : Word → Word
  devices : δ

/-- The machine, with the address that it goes on at. -/
structure Processor (δ : Type) where
  core : Core δ
  pc : Word

variable {δ : Type}

namespace Core

/-- The word in a register. -/
def read (c : Core δ) : Fin 8 → Word :=
  Fin.cases 0 c.registers

/-- Puts a word in a register. `r0` stays as it is. -/
def write (c : Core δ) (i : Fin 8) (w : Word) : Core δ :=
  Fin.cases c (fun j => { c with registers := Function.update c.registers j w }) i

/-- Puts a word in memory. -/
def store (c : Core δ) (address w : Word) : Core δ :=
  { c with memory := Function.update c.memory address w }

/-- Takes a word from a channel into a register. -/
def input (c : Core δ) (P : Platform δ) (channel : Word) (i : Fin 8) : Core δ :=
  let (w, devices) := P.input channel c.devices
  { c with devices }.write i w

/-- Gives a word to a channel. -/
def output (c : Core δ) (P : Platform δ) (channel w : Word) : Core δ :=
  { c with devices := P.output channel w c.devices }

@[simp] theorem read_zero (c : Core δ) : c.read 0 = 0 :=
  rfl

@[simp] theorem write_zero (c : Core δ) (w : Word) : c.write 0 w = c :=
  rfl

theorem read_write (c : Core δ) (i j : Fin 8) (w : Word) :
    (c.write i w).read j = if j = i ∧ i ≠ 0 then w else c.read j := by
  cases i using Fin.cases with
  | zero => simp
  | succ i =>
    cases j using Fin.cases with
    | zero => simp [(Fin.succ_ne_zero i).symm]
    | succ j => simp [write, read, Function.update_apply]

theorem read_write_self (c : Core δ) {i : Fin 8} (h : i ≠ 0) (w : Word) :
    (c.write i w).read i = w := by
  rw [read_write, if_pos ⟨rfl, h⟩]

theorem read_write_of_ne (c : Core δ) {i j : Fin 8} (h : j ≠ i) (w : Word) :
    (c.write i w).read j = c.read j := by
  rw [read_write, if_neg fun hand => h hand.1]

@[simp] theorem memory_write (c : Core δ) (i : Fin 8) (w : Word) :
    (c.write i w).memory = c.memory := by
  cases i using Fin.cases <;> rfl

theorem memory_store (c : Core δ) (address w a : Word) :
    (c.store address w).memory a = if a = address then w else c.memory a :=
  Function.update_apply ..

end Core

namespace Platform

/-- The number that a word stands for in a comparison. -/
def value (P : Platform δ) (w : Word) : Int :=
  if P.signed then w.toInt else w.toNat

/-- A word moved to the right. -/
def shiftRight (P : Platform δ) (a b : Word) : Word :=
  if P.signed then a.sshiftRight b.toNat else a >>> b.toNat

end Platform

/-- The word of a truth value. -/
def truth (p : Prop) [Decidable p] : Word :=
  if p then 1 else 0

/-! ## Statements -/

/-- The operations of the arithmetic unit. -/
def Platform.operations (P : Platform δ) : List (String × (Word → Word → Word)) :=
  [("ADD", fun a b => a + b), ("SUB", fun a b => a - b), ("MUL", fun a b => a * b),
   ("AND", fun a b => a &&& b), ("OR", fun a b => a ||| b), ("XOR", fun a b => a ^^^ b),
   ("SHL", fun a b => a <<< b.toNat), ("SHR", P.shiftRight),
   ("CSHL", fun a b => a.rotateLeft b.toNat), ("CSHR", fun a b => a.rotateRight b.toNat),
   ("SEQ", fun a b => truth (a = b)), ("SNE", fun a b => truth (a ≠ b)),
   ("SLT", fun a b => truth (P.value a < P.value b)),
   ("SGT", fun a b => truth (P.value b < P.value a)),
   ("SLE", fun a b => truth (P.value a ≤ P.value b)),
   ("SGR", fun a b => truth (P.value b ≤ P.value a))]

/-- The operation of a given name. -/
def Platform.operation? (P : Platform δ) (name : String) : Option (Word → Word → Word) :=
  P.operations.lookup name

/-- The operation that a given name has if its second operand is a number. -/
def Platform.immediate? (P : Platform δ) (name : String) : Option (Word → Word → Word) :=
  (P.operations.map fun (name, f) => (name ++ "I", f)).lookup name

/-- The register of a given name, where some have other names. -/
def register? (names : List (String × String)) (name : String) : Option (Fin 8) :=
  ["r0", "r1", "r2", "r3", "r4", "r5", "r6", "r7"].finIdxOf? ((names.lookup name).getD name)

/-- An operand as the machine sees it: the number of a register, or a word. -/
inductive MachineValue where
  | register (i : Fin 8)
  | number (w : Word)
  | label (address : Word)
  | data (address : Word)
  | code (address : Word)

/-- What an operand stands for. -/
def MachineOperand.resolve? (P : Platform δ) (names : List (String × String)) :
    MachineOperand → Option MachineValue
  | register name => (register? names name).map .register
  | number n => some (.number (wordOf n))
  | label name => some (.label (P.label name))
  | data name => some (.data (P.data name))
  | code name => some (.code (P.code name))

/-- What the statement of a given name does to the machine, where `next` is the address behind
it. -/
def MachineStatement.perform (P : Platform δ) (name : String) (operands : List MachineValue)
    (next : Word) (c : Core δ) : Option (Processor δ) :=
  match name, operands with
  | "LOAD", [.register d, .register b, .number k] =>
    some ⟨c.write d (c.memory (c.read b + k)), next⟩
  | "LOAD", [.register d, .register b, .data k] =>
    some ⟨c.write d (c.memory (c.read b + k)), next⟩
  | "STORE", [.register a, .register b, .number k] =>
    some ⟨c.store (c.read b + k) (c.read a), next⟩
  | "STORE", [.register a, .register b, .data k] =>
    some ⟨c.store (c.read b + k) (c.read a), next⟩
  | "LDI", [.register d, .number k] => some ⟨c.write d k, next⟩
  | "MOV", [.register d, .register a] => some ⟨c.write d (c.read a), next⟩
  | "JAL", [.register d, .code f] => some ⟨c.write d next, f⟩
  | "JMP", [.label l] => some ⟨c, l⟩
  | "JREG", [.register a] => some ⟨c, c.read a⟩
  | "BEQZ", [.register a, .label l] => some ⟨c, if c.read a = 0 then l else next⟩
  | "BNEZ", [.register a, .label l] => some ⟨c, if c.read a = 0 then next else l⟩
  | "IN", [.register d, .number k] => some ⟨c.input P k d, next⟩
  | "OUT", [.register a, .number k] => some ⟨c.output P k (c.read a), next⟩
  | name, [.register d, .register a, .register b] =>
    (P.operation? name).map fun f => ⟨c.write d (f (c.read a) (c.read b)), next⟩
  | name, [.register d, .register a, .number k] =>
    (P.immediate? name).map fun f => ⟨c.write d (f (c.read a) k), next⟩
  | _, _ => none

/-- **What a statement does** in a text that gives registers other names. -/
def MachineStatement.exec (P : Platform δ) (names : List (String × String))
    (s : MachineStatement) (next : Word) (c : Core δ) : Option (Processor δ) :=
  (s.operands.mapM (MachineOperand.resolve? P names)).bind fun operands =>
    perform P s.name operands next c

/-! ## Runs -/

/-- What stands at the addresses of the code: a statement, and the address behind it. -/
abbrev MachineCode := Word → Option (MachineStatement × Word)

namespace Processor

variable (P : Platform δ) (names : List (String × String)) (code : MachineCode)

/-- One statement. -/
def step (p : Processor δ) : Option (Processor δ) :=
  (code p.pc).bind fun (s, next) => s.exec P names next p.core

theorem step_eq {c : Core δ} {a next : Word} {s : MachineStatement} (h : code a = some (s, next)) :
    step P names code ⟨c, a⟩ = s.exec P names next c := by
  rw [step, h]
  rfl

/-- A number of statements. -/
def run : Nat → Processor δ → Option (Processor δ)
  | 0, p => some p
  | n + 1, p => (p.step P names code).bind (run n)

theorem run_add (m n : Nat) (p : Processor δ) :
    run P names code (m + n) p = (run P names code m p).bind (run P names code n) := by
  induction m generalizing p with
  | zero => rw [Nat.zero_add, run, Option.bind_some]
  | succ m ih =>
    rw [Nat.add_right_comm, run, run, Option.bind_assoc]
    exact congrArg _ (funext ih)

end Processor

/-- Statements stand in the code one behind the other, from an address to another. -/
def MachineCode.Holds (code : MachineCode) : Word → List MachineStatement → Word → Prop
  | a, [], next => a = next
  | a, s :: ss, next => ∃ b, code a = some (s, b) ∧ Holds code b ss next

/-- **What becomes of the machine** when statements run, wherever they stand: `out` has it for
each address behind them. -/
def Reaches (P : Platform δ) (names : List (String × String)) (ss : List MachineStatement)
    (c : Core δ) (out : Word → Processor δ) : Prop :=
  ∀ (code : MachineCode) a next, code.Holds a ss next →
    Processor.run P names code ss.length ⟨c, a⟩ = some (out next)

namespace Reaches

variable {P : Platform δ} {names : List (String × String)} {c : Core δ}

theorem nil : Reaches P names [] c fun next => ⟨c, next⟩ := by
  rintro code a next rfl
  rfl

/-- The last statement may jump. -/
theorem single {s : MachineStatement} {out : Word → Processor δ}
    (h : ∀ next, s.exec P names next c = some (out next)) : Reaches P names [s] c out := by
  rintro code a next ⟨b, hs, rfl⟩
  rw [List.length_singleton, Processor.run, Processor.step_eq P names code hs, h, Option.bind_some]
  rfl

/-- A statement in front of others goes on behind itself. -/
theorem cons {s : MachineStatement} {ss : List MachineStatement} {c' : Core δ}
    {out : Word → Processor δ}
    (h : ∀ next, s.exec P names next c = some ⟨c', next⟩) (hss : Reaches P names ss c' out) :
    Reaches P names (s :: ss) c out := by
  rintro code a next ⟨b, hs, hrest⟩
  rw [List.length_cons, Processor.run, Processor.step_eq P names code hs, h, Option.bind_some]
  exact hss code b next hrest

end Reaches

/-! ## Machine instructions -/

/-- The number of a register on the machine. -/
def Reg.number : Reg → Fin 8
  | zero => 0
  | general n => Fin.ofNat 8 n.toNat
  | eax => 4
  | edx => 5
  | ebp => 6
  | esp => 7

theorem Reg.toNat_le_of_onMachine {n : UInt8} {r : Reg} (h : (general n).onMachine = .ok r) :
    n.toNat ≤ machineRegisters := by
  by_contra hlt
  rw [onMachine, if_pos (Nat.lt_of_not_le hlt)] at h
  cases h

/-- **A register of the machine has the number that its name stands for.** -/
theorem Reg.register?_name {r : Reg} (h : r.onMachine = .ok r) :
    register? specialRegisters r.name = some r.number := by
  cases r with
  | general n =>
    have hn := toNat_le_of_onMachine h
    obtain ⟨k, rfl⟩ : ∃ k : Fin 4, n = UInt8.ofNat k := by
      refine ⟨⟨n.toNat, Nat.lt_succ_of_le hn⟩, ?_⟩
      simp
    revert k
    decide
  | _ => decide

/-- The machine has the registers of the instruction, and it is none that only sets the machine
up. -/
def MachineInstruction.Runnable : MachineInstruction → Prop
  | load r b _ | store r b _ | move r b => r.onMachine = .ok r ∧ b.onMachine = .ok b
  | loadGlobal r _ | storeGlobal r _ | loadImmediate r _ | jumpRegister r | branchZero r _
  | branchNonZero r _ | input r _ | output r _ => r.onMachine = .ok r
  | alu op d a b =>
    op.isAlu = true ∧ d.onMachine = .ok d ∧ a.onMachine = .ok a ∧ b.onMachine = .ok b
  | aluImmediate op d a _ => op.isAlu = true ∧ d.onMachine = .ok d ∧ a.onMachine = .ok a
  | call _ | jump _ => True
  | enableDataMemory | disableInterrupts | resetStack => False

namespace Core

/-- The word in a register. -/
def get (c : Core δ) (r : Reg) : Word :=
  c.read r.number

/-- Puts a word in a register. -/
def set (c : Core δ) (r : Reg) (w : Word) : Core δ :=
  c.write r.number w

end Core

/-- What an operation makes of two words. -/
def Mnemonic.compute (P : Platform δ) (a b : Word) : Mnemonic → Word
  | add => a + b
  | sub => a - b
  | mul => a * b
  | and => a &&& b
  | or => a ||| b
  | xor => a ^^^ b
  | shl => a <<< b.toNat
  | shr => P.shiftRight a b
  | rol => a.rotateLeft b.toNat
  | ror => a.rotateRight b.toNat
  | lt => truth (P.value a < P.value b)
  | lte => truth (P.value a ≤ P.value b)
  | gt => truth (P.value b < P.value a)
  | gte => truth (P.value b ≤ P.value a)
  | eq => truth (a = b)
  | neq => truth (a ≠ b)
  | _ => 0

/-- What an instruction does to the machine. -/
def MachineInstruction.effect (P : Platform δ) (next : Word) (c : Core δ) :
    MachineInstruction → Processor δ
  | load r b k => ⟨c.set r (c.memory (c.get b + wordOf k)), next⟩
  | loadGlobal r g => ⟨c.set r (c.memory (P.data g)), next⟩
  | store r b k => ⟨c.store (c.get b + wordOf k) (c.get r), next⟩
  | storeGlobal r g => ⟨c.store (P.data g) (c.get r), next⟩
  | loadImmediate r k => ⟨c.set r (wordOf k), next⟩
  | move d a => ⟨c.set d (c.get a), next⟩
  | alu op d a b => ⟨c.set d (op.compute P (c.get a) (c.get b)), next⟩
  | aluImmediate op d a k => ⟨c.set d (op.compute P (c.get a) (wordOf k)), next⟩
  | call f => ⟨c.set .edx next, P.code f⟩
  | jump l => ⟨c, P.label l⟩
  | jumpRegister r => ⟨c, c.get r⟩
  | branchZero r l => ⟨c, if c.get r = 0 then P.label l else next⟩
  | branchNonZero r l => ⟨c, if c.get r = 0 then next else P.label l⟩
  | input r k => ⟨c.input P (wordOf k) r.number, next⟩
  | output r k => ⟨c.output P (wordOf k) (c.get r), next⟩
  | enableDataMemory | disableInterrupts | resetStack => ⟨c, next⟩

section Operations

variable (P : Platform δ) {m : Mnemonic} (h : m.isAlu = true) (d a : Fin 8) (next : Word)
  (c : Core δ)

include h

theorem MachineStatement.perform_alu (b : Fin 8) :
    perform P m.aluName [.register d, .register a, .register b] next c =
      some ⟨c.write d (m.compute P (c.read a) (c.read b)), next⟩ := by
  cases m <;> first | rfl | cases h

theorem MachineStatement.perform_aluImmediate (k : Word) :
    perform P (m.aluName ++ "I") [.register d, .register a, .number k] next c =
      some ⟨c.write d (m.compute P (c.read a) k), next⟩ := by
  cases m <;> first | rfl | cases h

end Operations

/-- **The statement of an instruction does what the instruction does.** -/
theorem MachineInstruction.exec_statement (P : Platform δ) {i : MachineInstruction}
    (h : i.Runnable) : ∃ s, i.statement? = some s ∧
      ∀ next c, s.exec P specialRegisters next c = some (i.effect P next c) := by
  -- it is enough to look at the operands once their registers have been found
  have hresolved : ∀ {s : MachineStatement} (operands : List MachineValue), i.statement? = some s →
      s.operands.mapM (MachineOperand.resolve? P specialRegisters) = some operands →
      (∀ next c, MachineStatement.perform P s.name operands next c = some (i.effect P next c)) →
      ∃ s, i.statement? = some s ∧
        ∀ next c, s.exec P specialRegisters next c = some (i.effect P next c) := by
    intro s operands hs hoperands hperform
    refine ⟨s, hs, fun next c => ?_⟩
    rw [MachineStatement.exec, hoperands, Option.bind_some, hperform]
  have hzero := Reg.register?_name (r := .zero) rfl
  have hedx := Reg.register?_name (r := .edx) rfl
  cases i with
  | load r b k | store r b k =>
    have hr := Reg.register?_name h.1
    have hb := Reg.register?_name h.2
    exact hresolved [.register r.number, .register b.number, .number (wordOf k)] rfl
      (by simp [MachineOperand.resolve?, hr, hb]) fun _ _ => rfl
  | move d a =>
    have hd := Reg.register?_name h.1
    have ha := Reg.register?_name h.2
    exact hresolved [.register d.number, .register a.number] rfl
      (by simp [MachineOperand.resolve?, hd, ha]) fun _ _ => rfl
  | loadGlobal r g =>
    have hr := Reg.register?_name h
    refine hresolved [.register r.number, .register Reg.zero.number, .data (P.data g)] rfl
      (by simp [MachineOperand.resolve?, hr, hzero]) fun next c => ?_
    change some (Processor.mk (c.write r.number (c.memory (0 + P.data g))) next) = _
    rw [zero_add]
    rfl
  | storeGlobal r g =>
    have hr := Reg.register?_name h
    refine hresolved [.register r.number, .register Reg.zero.number, .data (P.data g)] rfl
      (by simp [MachineOperand.resolve?, hr, hzero]) fun next c => ?_
    change some (Processor.mk (c.store (0 + P.data g) (c.read r.number)) next) = _
    rw [zero_add]
    rfl
  | loadImmediate r k | input r k | output r k =>
    have hr := Reg.register?_name h
    exact hresolved [.register r.number, .number (wordOf k)] rfl
      (by simp [MachineOperand.resolve?, hr]) fun _ _ => rfl
  | jumpRegister r =>
    have hr := Reg.register?_name h
    exact hresolved [.register r.number] rfl (by simp [MachineOperand.resolve?, hr])
      fun _ _ => rfl
  | branchZero r l | branchNonZero r l =>
    have hr := Reg.register?_name h
    exact hresolved [.register r.number, .label (P.label l)] rfl
      (by simp [MachineOperand.resolve?, hr]) fun _ _ => rfl
  | alu op d a b =>
    obtain ⟨hop, hd, ha, hb⟩ := h
    have hd := Reg.register?_name hd
    have ha := Reg.register?_name ha
    have hb := Reg.register?_name hb
    exact hresolved [.register d.number, .register a.number, .register b.number] rfl
      (by simp [MachineOperand.resolve?, hd, ha, hb])
      fun next c => MachineStatement.perform_alu P hop _ _ next c _
  | aluImmediate op d a k =>
    obtain ⟨hop, hd, ha⟩ := h
    have hd := Reg.register?_name hd
    have ha := Reg.register?_name ha
    exact hresolved [.register d.number, .register a.number, .number (wordOf k)] rfl
      (by simp [MachineOperand.resolve?, hd, ha])
      fun next c => MachineStatement.perform_aluImmediate P hop _ _ next c _
  | call f =>
    exact hresolved [.register Reg.edx.number, .code (P.code f)] rfl
      (by simp [MachineOperand.resolve?, hedx]) fun _ _ => rfl
  | jump l =>
    exact hresolved [.label (P.label l)] rfl (by simp [MachineOperand.resolve?]) fun _ _ => rfl
  | enableDataMemory | disableInterrupts | resetStack => exact h.elim

end WordC
