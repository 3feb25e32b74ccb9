import Mathlib
import WordC.Proofs.Machine.Effects
/-!
# Machine lines do what assembly means

Each way of expanding an instruction is followed on the machine, once for all operands. The
machine lines leave it as the instruction says it does (`realizes_of_accepts`), and so do the
lines of a whole line of assembly (`Expanded.drives`).
-/

namespace WordC

variable {δ : Type} {P : Platform δ}

/-! ## Machine lines -/

/-- What becomes of the machine when the statements of machine lines run. -/
def Drives (P : Platform δ) (ls : List MachineLine) (c : Core δ) (out : Word → Processor δ) :
    Prop :=
  (∀ l ∈ ls, l.Runs) ∧ Reaches P specialRegisters (ls.filterMap MachineLine.statement?) c out

namespace Drives

variable {ls : List MachineLine} {c c' : Core δ} {out : Word → Processor δ}

theorem nil : Drives P [] c fun next => ⟨c, next⟩ :=
  ⟨List.forall_mem_nil _, .nil⟩

/-- Lines that are no instructions do nothing. -/
theorem skip {l : MachineLine} (hruns : l.Runs) (hl : l.statement? = none)
    (h : Drives P ls c out) : Drives P (l :: ls) c out := by
  refine ⟨List.forall_mem_cons.2 ⟨hruns, h.1⟩, ?_⟩
  rw [List.filterMap_cons_none hl]
  exact h.2

/-- The last instruction may jump. -/
theorem single {i : MachineInstruction} {note : Option String} (hi : i.Runnable)
    (h : ∀ next, i.effect P next c = out next) : Drives P [.instruction i note] c out := by
  obtain ⟨s, hs, hexec⟩ := i.exec_statement P hi
  refine ⟨List.forall_mem_singleton.2 (Option.isSome_of_eq_some hs), ?_⟩
  have hl : (MachineLine.instruction i note).statement? = some s := hs
  rw [List.filterMap_cons_some hl, List.filterMap_nil]
  exact .single fun next => by rw [hexec, h]

/-- An instruction in front of others goes on behind itself. -/
theorem cons {i : MachineInstruction} {note : Option String} (hi : i.Runnable)
    (h : ∀ next, i.effect P next c = ⟨c', next⟩) (hls : Drives P ls c' out) :
    Drives P (.instruction i note :: ls) c out := by
  obtain ⟨s, hs, hexec⟩ := i.exec_statement P hi
  refine ⟨List.forall_mem_cons.2 ⟨Option.isSome_of_eq_some hs, hls.1⟩, ?_⟩
  have hl : (MachineLine.instruction i note).statement? = some s := hs
  rw [List.filterMap_cons_some hl]
  exact .cons (fun next => by rw [hexec, h]) hls.2

end Drives

/-- The stack pointer moves by a number of words. -/
theorem effect_reserve (next : Word) (c : Core δ) (n : Int64) :
    (reserve n).effect P next c = ⟨c.set .esp (c.get .esp - wordOf n), next⟩ :=
  rfl

theorem effect_discard (next : Word) (c : Core δ) (n : Int64) :
    (discard n).effect P next c = ⟨c.set .esp (c.get .esp + wordOf n), next⟩ :=
  rfl

/-- The word on top of the stack is loaded. -/
theorem effect_load_top (c : Core δ) (r : Reg) (next : Word) :
    (MachineInstruction.load r .esp 0).effect P next c =
      ⟨c.set r (c.memory (c.get .esp)), next⟩ := by
  have haddress : c.get .esp + wordOf 0 = c.get .esp := add_zero _
  rw [MachineInstruction.effect, haddress]

theorem runnable_reserve (n : Int64) : (reserve n).Runnable :=
  ⟨rfl, rfl, rfl⟩

theorem runnable_discard (n : Int64) : (discard n).Runnable :=
  ⟨rfl, rfl, rfl⟩

/-! ## Instructions -/

/-- What an expansion comes to, if it does, has the given outcome. -/
def Realizes (P : Platform δ) (x : Except ExpansionCause (List MachineLine)) (c : Core δ)
    (out : Word → Processor δ) : Prop :=
  ∀ ls, x = .ok ls → Drives P ls c out

theorem Realizes.pure {ls : List MachineLine} {c : Core δ} {out : Word → Processor δ}
    (h : Drives P ls c out) : Realizes P (.ok ls) c out := by
  rintro _ ⟨⟩
  exact h

/-- What is behind the test of a register may use that the machine has it. -/
theorem Realizes.onMachine {r : Reg} {next : Reg → Except ExpansionCause (List MachineLine)}
    {c : Core δ} {out : Word → Processor δ}
    (h : r.onMachine = .ok r → Realizes P (next r) c out) :
    Realizes P (r.onMachine >>= next) c out := by
  cases hr : r.onMachine with
  | error cause => exact nofun
  | ok r' =>
    have heq : r' = r := by
      cases r with
      | general n =>
        rw [Reg.onMachine, if_neg (Nat.not_lt.2 (Reg.toNat_le_of_onMachine hr))] at hr
        cases hr
        rfl
      | _ =>
        cases hr
        rfl
    subst heq
    exact h hr

variable (c : Core δ) (unfit : ExpansionCause) (note : Option String)

/-- Pushing is storing below the stack pointer, which moves first. -/
theorem drives_push {r : Reg} (hr : r.onMachine = .ok r) (hne : r ≠ .esp)
    (note' : Option String) :
    Drives P [.instruction (reserve 1) note, .instruction (.store r .esp 0) note'] c
      fun next => ⟨c.push (c.get r), next⟩ := by
  refine .cons (runnable_reserve 1) (fun next => effect_reserve next c 1) ?_
  refine .single ⟨hr, rfl⟩ fun next => ?_
  have hpointer : (c.set .esp (c.get .esp - 1)).get r = c.get r :=
    c.get_set_of_ne (Reg.number_ne_esp hr hne) _
  change Processor.mk ((c.set .esp (c.get .esp - 1)).store
    ((c.set .esp (c.get .esp - 1)).get .esp + 0) ((c.set .esp (c.get .esp - 1)).get r)) next = _
  rw [hpointer, Core.get_set_esp, add_zero]
  rfl

/-- Popping is loading from above the stack pointer, before it moves. -/
theorem realizes_pop {r : Reg} (hne : r ≠ .esp) :
    Realizes P (expandInstruction unfit .pop [.reg r] note) c
      fun next => Mnemonic.effect P next c .pop [.reg r] := by
  refine .onMachine fun hr => .pure ?_
  have hnumber := Reg.number_ne_esp hr hne
  refine .cons ⟨hr, rfl⟩ (effect_load_top c r) (.single (runnable_discard 1) fun next => ?_)
  rw [effect_discard, c.get_set_of_ne hnumber.symm, c.set_comm hnumber]
  rfl

/-- The three words are pushed at once: the stack pointer moves first. -/
theorem realizes_pusha :
    Realizes P (expandInstruction unfit .pusha [] note) c
      fun next => Mnemonic.effect P next c .pusha [] := by
  refine .pure (.cons (runnable_reserve 3) (fun next => effect_reserve next c 3) ?_)
  refine .cons ⟨rfl, rfl⟩ (fun _ => rfl) (.cons ⟨rfl, rfl⟩ (fun _ => rfl) (.single ⟨rfl, rfl⟩ ?_))
  intro next
  have hwords : wordOf 0 = 0 ∧ wordOf 1 = 1 ∧ wordOf 2 = 2 ∧ wordOf 3 = 3 := by decide
  have h₁ : (Reg.general 1).number ≠ Reg.esp.number := by decide
  have h₂ : (Reg.general 2).number ≠ Reg.esp.number := by decide
  have h₃ : (Reg.general 3).number ≠ Reg.esp.number := by decide
  refine Eq.trans ?_ (congrArg (Processor.mk · next) (c.push_push_push _ _ _)).symm
  simp only [MachineInstruction.effect, Core.get_store, Core.get_set_esp, c.get_set_of_ne h₁,
    c.get_set_of_ne h₂, c.get_set_of_ne h₃, hwords, add_zero]

theorem realizes_popa :
    Realizes P (expandInstruction unfit .popa [] note) c
      fun next => Mnemonic.effect P next c .popa [] := by
  refine .pure (.cons ⟨rfl, rfl⟩ (fun _ => rfl) (.cons ⟨rfl, rfl⟩ (fun _ => rfl)
    (.cons ⟨rfl, rfl⟩ (fun _ => rfl) (.single (runnable_discard 3) fun next => ?_))))
  have hwords : wordOf 0 = 0 ∧ wordOf 1 = 1 ∧ wordOf 2 = 2 ∧ wordOf 3 = 3 := by decide
  have h₁ : (Reg.general 1).number ≠ Reg.esp.number := by decide
  have h₂ : (Reg.general 2).number ≠ Reg.esp.number := by decide
  have h₃ : (Reg.general 3).number ≠ Reg.esp.number := by decide
  have h₁₂ : (Reg.general 2).number ≠ (Reg.general 1).number := by decide
  have h₁₃ : (Reg.general 3).number ≠ (Reg.general 1).number := by decide
  have h₂₃ : (Reg.general 3).number ≠ (Reg.general 2).number := by decide
  refine Eq.trans ?_ (congrArg (Processor.mk · next) c.pop_pop_pop).symm
  simp only [effect_discard, Core.memory_set, Core.get_set_of_ne _ h₁.symm,
    Core.get_set_of_ne _ h₂.symm, Core.get_set_of_ne _ h₃.symm, hwords, add_zero]
  rw [Core.set_comm _ h₁, Core.set_comm _ h₂, Core.set_comm _ h₃, Core.set_comm _ h₂₃,
    Core.set_comm _ h₁₃, Core.set_comm _ h₁₂]

/-- Inverting all bits is the exclusive or with minus one. -/
theorem xor_wordOf_neg_one (w : Word) : w ^^^ wordOf (-1) = ~~~w := by
  have hones : wordOf (-1) = BitVec.allOnes 16 := by decide
  rw [hones, BitVec.xor_allOnes]

theorem realizes_not (d a : Reg) :
    Realizes P (expandInstruction unfit .not [.reg d, .reg a] note) c
      fun next => Mnemonic.effect P next c .not [.reg d, .reg a] := by
  refine .onMachine fun hd => .onMachine fun ha => .pure ?_
  refine .single ⟨rfl, hd, ha⟩ fun next => ?_
  change Processor.mk (c.set d (c.get a ^^^ wordOf (-1))) next = _
  rw [xor_wordOf_neg_one]
  rfl

/-- A word is negated in place, so it does not matter whether the registers are the same. -/
theorem realizes_neg (d a : Reg) :
    Realizes P (expandInstruction unfit .neg [.reg d, .reg a] note) c
      fun next => Mnemonic.effect P next c .neg [.reg d, .reg a] := by
  refine .onMachine fun hd => .onMachine fun ha => .pure ?_
  have hxor : ∀ next, (MachineInstruction.aluImmediate .xor d a (-1)).effect P next c =
      ⟨c.set d (~~~c.get a), next⟩ := by
    intro next
    rw [← xor_wordOf_neg_one]
    rfl
  refine .cons ⟨rfl, hd, ha⟩ hxor (.single ⟨rfl, hd, hd⟩ fun next => ?_)
  change Processor.mk ((c.set d (~~~c.get a)).set d ((c.set d (~~~c.get a)).get d + 1)) next =
    ⟨c.set d (-c.get a), next⟩
  -- nothing is kept in `r0`
  by_cases hzero : d.number = 0
  · rw [c.set_zero hzero, c.set_zero hzero, c.set_zero hzero]
  · rw [c.get_set_self hzero, c.set_set, BitVec.neg_eq_not_add]
    rfl

theorem realizes_notImmediate (d : Reg) (k : Int64) :
    Realizes P (expandInstruction unfit .not [.reg d, .imm k] note) c
      fun next => Mnemonic.effect P next c .not [.reg d, .imm k] := by
  refine .onMachine fun hd => .pure (.single hd fun next => ?_)
  rw [MachineInstruction.effect, wordOf_machineWord, wordOf_not]
  rfl

theorem realizes_negImmediate (d : Reg) (k : Int64) :
    Realizes P (expandInstruction unfit .neg [.reg d, .imm k] note) c
      fun next => Mnemonic.effect P next c .neg [.reg d, .imm k] := by
  refine .onMachine fun hd => .pure (.single hd fun next => ?_)
  rw [MachineInstruction.effect, wordOf_machineWord, wordOf_neg]
  rfl

/-- A return takes the way back off the stack together with the words it drops. -/
theorem realizes_ret (n : Int64) :
    Realizes P (expandInstruction unfit .ret [.imm n] note) c
      fun next => Mnemonic.effect P next c .ret [.imm n] := by
  intro ls hls
  -- the words that are dropped must leave room for the return address
  change (if n = Int64.maxValue then _ else _) = _ at hls
  split at hls
  · cases hls
  · cases hls
    refine .cons ⟨rfl, rfl⟩ (effect_load_top c .edx) (.cons (runnable_discard _)
      (fun next => effect_discard next _ _) (.single rfl fun next => ?_))
    have hedx : Reg.edx.number ≠ Reg.esp.number := by decide
    have hdrop : c.get .esp + wordOf (n + 1) = c.get .esp + 1 + wordOf n := by
      rw [wordOf_add, add_comm (wordOf n), ← add_assoc]
      rfl
    have hpop : (c.pop .edx).set .esp ((c.pop .edx).get .esp + wordOf n) =
        (c.set .edx (c.memory (c.get .esp))).set .esp (c.get .esp + 1 + wordOf n) := by
      rw [c.get_esp_pop hedx, Core.pop, Core.set_comm _ hedx, Core.set_set, Core.set_comm _ hedx]
    have hback : (c.pop .edx).get .edx = c.memory (c.get .esp) := Core.get_set_self _ (by decide) _
    rw [c.get_set_of_ne hedx.symm, hdrop]
    change Processor.mk _ (Core.get _ .edx) = ⟨(c.pop .edx).set .esp _, (c.pop .edx).get .edx⟩
    rw [hpop, hback, Core.get_set_of_ne _ hedx, Core.get_set_self _ (by decide)]

/-- **An instruction is expanded to what it means.** Only the stack pointer cannot go on the stack
or off it. -/
theorem realizes_of_accepts {m : Mnemonic} {args : List Arg} (h : Accepts m args)
    (hpush : m = .push → args ≠ [.reg .esp]) (hpop : m = .pop → args ≠ [.reg .esp]) :
    Realizes P (expandInstruction unfit m args note) c fun next => m.effect P next c args := by
  cases h with
  | goBack => exact .pure (.single rfl fun _ => rfl)
  | jnz | inp | out => exact .onMachine fun hr => .pure (.single hr fun _ => rfl)
  | fits hfits =>
    cases hfits with
    | load | store | mov =>
      exact .onMachine fun hr => .onMachine fun hb => .pure (.single ⟨hr, hb⟩ fun _ => rfl)
    | loadGlobal | storeGlobal | movImmediate | jz =>
      exact .onMachine fun hr => .pure (.single hr fun _ => rfl)
    | call | jmp => exact .pure (.single trivial fun _ => rfl)
    | push r =>
      refine .onMachine fun hr => .pure (drives_push c none hr ?_ note)
      rintro rfl
      exact hpush rfl rfl
    | pop r =>
      refine realizes_pop c unfit note ?_
      rintro rfl
      exact hpop rfl rfl
    | pusha => exact realizes_pusha c unfit note
    | popa => exact realizes_popa c unfit note
    | notImmediate d k => exact realizes_notImmediate c unfit note d k
    | not d a => exact realizes_not c unfit note d a
    | negImmediate d k => exact realizes_negImmediate c unfit note d k
    | neg d a => exact realizes_neg c unfit note d a
    | ret n => exact realizes_ret c unfit note n
    -- an arithmetic instruction stays one instruction
    | aluImmediate m hm d a k =>
      rw [expandInstruction_immediate hm]
      refine .onMachine fun hd => .onMachine fun ha => .pure (.single ⟨hm, hd, ha⟩ fun next => ?_)
      rw [Mnemonic.effect_operation P next c hm]
      rfl
    | alu m hm d a b =>
      rw [expandInstruction_registers hm]
      refine .onMachine fun hd => .onMachine fun ha => .onMachine fun hb =>
        .pure (.single ⟨hm, hd, ha, hb⟩ fun next => ?_)
      rw [Mnemonic.effect_operation P next c hm]
      rfl

/-! ## Lines -/

theorem Drives.closing {ls : List MachineLine} {out : Word → Processor δ} (isOpen : Bool)
    (h : Drives P ls c out) : Drives P (closing isOpen ++ ls) c out := by
  cases isOpen with
  | false => exact h
  | true => exact .skip trivial rfl h

/-- **A line is expanded to what it means.** -/
theorem Expanded.drives {content : LineContent} {note : Option String} {isOpen isOpen' : Bool}
    {ls : List MachineLine} (h : Expanded ⟨content, note⟩ isOpen ls isOpen')
    (hpointer : content.stacksPointer = false) :
    Drives P ls c fun next => content.effect P next c := by
  cases h with
  | blank => exact .nil
  | comment | label => exact .skip trivial rfl .nil
  | frameless => exact .closing c isOpen (.skip trivial rfl .nil)
  | global =>
    exact .closing c isOpen (.skip trivial rfl (.skip trivial rfl (.skip trivial rfl .nil)))
  | function =>
    -- a function begins with what the instruction that pushes `edx` is expanded to
    have hedx : Reg.edx.onMachine = .ok .edx := rfl
    exact .closing c isOpen (.skip trivial rfl (drives_push c _ hedx (by decide) none))
  | instruction hls =>
    refine realizes_of_accepts c _ note (accepts_of_expandInstruction hls) ?_ ?_ ls hls
    · rintro rfl rfl
      cases hpointer
    · rintro rfl rfl
      cases hpointer

end WordC
