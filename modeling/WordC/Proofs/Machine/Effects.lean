import Mathlib
import WordC.Proofs.Machine.Processor
/-!
# What assembly means on the machine

A line of assembly has a meaning of its own, which is told here without the machine lines that it
is expanded to: it moves words between registers, memory and the stack, and says where the machine
goes on. The stack grows down from high addresses, and `esp` holds the address of the word last
pushed.
-/

namespace WordC

variable {δ : Type}

/-! ## Registers -/

namespace Reg

/-- Of the registers that the machine has, only the stack pointer has its number. -/
theorem number_ne_esp {r : Reg} (h : r.onMachine = .ok r) (hne : r ≠ .esp) :
    r.number ≠ esp.number := by
  cases r with
  | general n =>
    have hn : n.toNat ≤ machineRegisters := toNat_le_of_onMachine h
    intro heq
    have hval : n.toNat % 8 = 7 := congrArg Fin.val heq
    unfold machineRegisters at hn
    omega
  | esp => exact absurd rfl hne
  | _ => decide

end Reg

namespace Core

variable (c : Core δ)

theorem get_set_self {r : Reg} (h : r.number ≠ 0) (w : Word) : (c.set r w).get r = w :=
  c.read_write_self h w

theorem get_set_of_ne {r r' : Reg} (h : r'.number ≠ r.number) (w : Word) :
    (c.set r w).get r' = c.get r' :=
  c.read_write_of_ne h w

@[simp] theorem get_set_esp (w : Word) : (c.set .esp w).get .esp = w :=
  c.get_set_self (by decide) w

@[simp] theorem memory_set (r : Reg) (w : Word) : (c.set r w).memory = c.memory :=
  c.memory_write _ w

@[simp] theorem get_store (a w : Word) : (c.store a w).get = c.get :=
  rfl

theorem get_zero {r : Reg} (h : r.number = 0) : c.get r = 0 := by
  rw [get, h, read_zero]

theorem set_zero {r : Reg} (h : r.number = 0) (w : Word) : c.set r w = c := by
  rw [set, h, write_zero]

/-- The last word in a register stays. -/
@[simp] theorem set_set (r : Reg) (w w' : Word) : (c.set r w).set r w' = c.set r w' := by
  unfold set
  cases r.number using Fin.cases with
  | zero => rfl
  | succ i => simp [write]

theorem set_comm {r r' : Reg} (h : r.number ≠ r'.number) (w w' : Word) :
    (c.set r w).set r' w' = (c.set r' w').set r w := by
  unfold set
  cases hr : r.number using Fin.cases with
  | zero => rfl
  | succ i =>
    cases hr' : r'.number using Fin.cases with
    | zero => rfl
    | succ j =>
      have hij : i ≠ j := by
        rintro rfl
        exact h (hr.trans hr'.symm)
      simp [write, Function.update_comm hij]

theorem set_store (r : Reg) (a w w' : Word) :
    (c.store a w).set r w' = (c.set r w').store a w := by
  unfold set
  cases r.number using Fin.cases <;> rfl

theorem store_comm {a b : Word} (h : a ≠ b) (w w' : Word) :
    (c.store a w).store b w' = (c.store b w').store a w := by
  simp [store, Function.update_comm h]

/-! ## The stack -/

/-- Puts a word on the stack. -/
def push (w : Word) : Core δ :=
  (c.set .esp (c.get .esp - 1)).store (c.get .esp - 1) w

/-- Takes a word off the stack, into a register. -/
def pop (r : Reg) : Core δ :=
  (c.set .esp (c.get .esp + 1)).set r (c.memory (c.get .esp))

@[simp] theorem get_esp_push (w : Word) : (c.push w).get .esp = c.get .esp - 1 := by
  rw [push, get_store, get_set_esp]

theorem get_push {r : Reg} (h : r.number ≠ Reg.esp.number) (w : Word) :
    (c.push w).get r = c.get r := by
  rw [push, get_store, get_set_of_ne c h]

theorem memory_push (w a : Word) :
    (c.push w).memory a = if a = c.get .esp - 1 then w else c.memory a := by
  rw [push, memory_store, memory_set]

theorem get_esp_pop {r : Reg} (h : r.number ≠ Reg.esp.number) :
    (c.pop r).get .esp = c.get .esp + 1 := by
  rw [pop, get_set_of_ne _ h.symm, get_set_esp]

@[simp] theorem memory_pop (r : Reg) : (c.pop r).memory = c.memory := by
  rw [pop, memory_set, memory_set]

/-- Three words that are pushed one after the other stand one above the other, the last of them on
top. -/
theorem push_push_push (w₁ w₂ w₃ : Word) :
    ((c.push w₃).push w₂).push w₁ =
      (((c.set .esp (c.get .esp - 3)).store (c.get .esp - 3) w₁).store
        (c.get .esp - 3 + 1) w₂).store (c.get .esp - 3 + 2) w₃ := by
  have hone : c.get .esp - 1 = c.get .esp - 3 + 2 := by bv_omega
  have htwo : c.get .esp - 1 - 1 = c.get .esp - 3 + 1 := by bv_omega
  have hthree : c.get .esp - 1 - 1 - 1 = c.get .esp - 3 := by bv_omega
  simp only [push, get_store, get_set_esp, set_store, set_set]
  rw [hthree, htwo, hone]
  generalize c.get .esp - 3 = top
  have h₁ : top + 1 ≠ top := by bv_omega
  have h₂ : top + 2 ≠ top := by bv_omega
  have h₃ : top + 2 ≠ top + 1 := by bv_omega
  rw [store_comm _ h₃, store_comm _ h₂, store_comm _ h₁]

/-- The three general registers, popped one after the other. -/
theorem pop_pop_pop :
    ((c.pop (.general 1)).pop (.general 2)).pop (.general 3) =
      (((c.set .esp (c.get .esp + 3)).set (.general 1) (c.memory (c.get .esp))).set
        (.general 2) (c.memory (c.get .esp + 1))).set
        (.general 3) (c.memory (c.get .esp + 2)) := by
  have h₁ : (Reg.general 1).number ≠ Reg.esp.number := by decide
  have h₂ : (Reg.general 2).number ≠ Reg.esp.number := by decide
  have htwo : c.get .esp + 1 + 1 = c.get .esp + 2 := by bv_omega
  have hthree : c.get .esp + 1 + 1 + 1 = c.get .esp + 3 := by bv_omega
  rw [pop, get_esp_pop _ h₂, get_esp_pop _ h₁, memory_pop, memory_pop, pop, get_esp_pop _ h₁,
    memory_pop, pop, set_comm _ h₁, set_set, set_comm _ h₂, set_comm _ h₁, set_set, hthree, htwo]

/-- Takes the words of some registers from another state of the machine. -/
def adopt (c' : Core δ) (rs : List Reg) : Core δ :=
  rs.foldl (fun x r => x.set r (c'.get r)) c

theorem get_adopt (c' : Core δ) (rs : List Reg) (q : Reg) :
    (c.adopt c' rs).get q = if q.number ∈ rs.map Reg.number then c'.get q else c.get q := by
  induction rs generalizing c with
  | nil => rfl
  | cons r rs ih =>
    change ((c.set r (c'.get r)).adopt c' rs).get q = _
    rw [ih, List.map_cons]
    by_cases hrs : q.number ∈ rs.map Reg.number
    · rw [if_pos hrs, if_pos (List.mem_cons_of_mem _ hrs)]
    · by_cases hr : q.number = r.number
      · rw [if_neg hrs, if_pos (List.mem_cons.2 (.inl hr))]
        -- what is read from a register depends on its number only
        unfold get set
        rw [read_write, hr]
        by_cases hzero : r.number = 0
        · simp [hzero]
        · rw [if_pos ⟨rfl, hzero⟩]
      · have hnone : q.number ∉ r.number :: rs.map Reg.number :=
          List.not_mem_cons_of_ne_of_not_mem hr hrs
        rw [if_neg hrs, if_neg hnone, get_set_of_ne c hr]

/-- Nothing is left to take if the machines differ in those registers only. -/
theorem get_adopt_eq {c' : Core δ} {rs : List Reg}
    (h : ∀ q : Reg, q.number ∉ rs.map Reg.number → c.get q = c'.get q) (q : Reg) :
    (c.adopt c' rs).get q = c'.get q := by
  rw [get_adopt]
  by_cases hq : q.number ∈ rs.map Reg.number
  · rw [if_pos hq]
  · rw [if_neg hq, h q hq]

section Saved

variable {c} {c₂ : Core δ}

/-- **A pushed word is popped again**, if the stack pointer is back and the word is still there. -/
theorem pop_of_push {w : Word} (hpointer : c₂.get .esp = (c.push w).get .esp)
    (hword : c₂.memory ((c.push w).get .esp) = (c.push w).memory ((c.push w).get .esp))
    (r : Reg) : c₂.pop r = (c₂.set .esp (c.get .esp)).set r w := by
  rw [get_esp_push] at hpointer hword
  rw [memory_push, if_pos rfl] at hword
  rw [pop, hpointer, hword, BitVec.sub_add_cancel]

/-- **So are the three general registers.** -/
theorem pop_of_push_three {c₁ : Core δ}
    (hpushed : ((c.push (c.get (.general 3))).push (c.get (.general 2))).push
      (c.get (.general 1)) = c₁)
    (hpointer : c₂.get .esp = c₁.get .esp)
    (hwords : ∀ k ∈ ([0, 1, 2] : List Word),
      c₂.memory (c₁.get .esp + k) = c₁.memory (c₁.get .esp + k)) :
    ((c₂.pop (.general 1)).pop (.general 2)).pop (.general 3) =
      c₂.adopt c [.esp, .general 1, .general 2, .general 3] := by
  rw [push_push_push] at hpushed
  have hback : c.get .esp - 3 + 3 = c.get .esp := BitVec.sub_add_cancel _ _
  generalize c.get .esp - 3 = top at hpushed hback
  have htop : c₁.get .esp = top := by
    rw [← hpushed, get_store, get_store, get_store, get_set_esp]
  rw [htop] at hpointer hwords
  -- the three words lie at three addresses, whatever the top is
  have hmemory : c₁.memory top = c.get (.general 1) ∧ c₁.memory (top + 1) = c.get (.general 2) ∧
      c₁.memory (top + 2) = c.get (.general 3) := by
    rw [← hpushed]
    simp [memory_store]
  simp only [List.forall_mem_cons, add_zero, hmemory] at hwords
  obtain ⟨h₁, h₂, h₃, -⟩ := hwords
  rw [pop_pop_pop, hpointer, hback, h₁, h₂, h₃]
  rfl

end Saved

end Core

/-! ## Lines -/

/-- The word that an operand is, apart from memory. -/
def Arg.value (c : Core δ) : Arg → Word
  | reg r => c.get r
  | imm k => wordOf k
  | _ => 0

/-- The address of an operand in memory. -/
def Arg.address (P : Platform δ) (c : Core δ) : Arg → Word
  | mem base k => c.get base + wordOf k
  | global g => P.data g
  | _ => 0

/-- **What an instruction means**: the machine behind it, where `next` is the address of the
instruction after it. A shape of operands that no mnemonic takes does nothing. -/
def Mnemonic.effect (P : Platform δ) (next : Word) (c : Core δ) :
    Mnemonic → List Arg → Processor δ
  | load, [.reg r, a] => ⟨c.set r (c.memory (a.address P c)), next⟩
  | store, [a, .reg r] => ⟨c.store (a.address P c) (c.get r), next⟩
  | mov, [.reg d, a] => ⟨c.set d (a.value c), next⟩
  | push, [.reg r] => ⟨c.push (c.get r), next⟩
  | pop, [.reg r] => ⟨c.pop r, next⟩
  | pusha, [] =>
    ⟨((c.push (c.get (.general 3))).push (c.get (.general 2))).push (c.get (.general 1)), next⟩
  | popa, [] => ⟨((c.pop (.general 1)).pop (.general 2)).pop (.general 3), next⟩
  | not, [.reg d, a] => ⟨c.set d (~~~a.value c), next⟩
  | neg, [.reg d, a] => ⟨c.set d (-a.value c), next⟩
  | call, [.label f] => ⟨c.set .edx next, P.code f⟩
  | ret, [.imm n] =>
    -- the way back is on top of the stack, and `n` words below it are dropped
    let c' := c.pop .edx
    ⟨c'.set .esp (c'.get .esp + wordOf n), c'.get .edx⟩
  | ret, [] => ⟨c, c.get .edx⟩
  | jmp, [.label l] => ⟨c, P.label (machineLabel l)⟩
  | jz, [.reg r, .label l] => ⟨c, if c.get r = 0 then P.label (machineLabel l) else next⟩
  | jnz, [.reg r, .label l] => ⟨c, if c.get r = 0 then next else P.label (machineLabel l)⟩
  | inp, [.reg r, .imm k] => ⟨c.input P (wordOf k) r.number, next⟩
  | out, [.reg r, .imm k] => ⟨c.output P (wordOf k) (c.get r), next⟩
  | op, [.reg d, .reg a, b] =>
    if op.isAlu then ⟨c.set d (op.compute P (c.get a) (b.value c)), next⟩ else ⟨c, next⟩
  | _, _ => ⟨c, next⟩

theorem Mnemonic.effect_operation (P : Platform δ) (next : Word) (c : Core δ) {m : Mnemonic}
    (h : m.isAlu = true) (d a : Reg) (b : Arg) :
    m.effect P next c [.reg d, .reg a, b] =
      ⟨c.set d (m.compute P (c.get a) (b.value c)), next⟩ := by
  cases m <;> first | rfl | cases h

/-- **What a line means.** A function begins by saving the way back, which its caller has left in
`edx`. -/
def LineContent.effect (P : Platform δ) (next : Word) (c : Core δ) : LineContent → Processor δ
  | line (.instruction m args _) => m.effect P next c args
  | line (.function _) => ⟨c.push (c.get .edx), next⟩
  | _ => ⟨c, next⟩

/-- Whether a line has the stack pointer itself as the word that goes on or off the stack. -/
def LineContent.stacksPointer : LineContent → Bool
  | line (.instruction .push [.reg .esp] _) | line (.instruction .pop [.reg .esp] _) => true
  | _ => false

end WordC
