import WordC.Machine.Expansion
import WordC.Proofs.Assembly.ReadBack
/-!
# What can be expanded

A text is expanded if each of its lines is. A line is expanded if it can be
read, its operands have a shape that its mnemonic takes, and the machine has
its registers.
-/

namespace WordC

/-! ## Instructions -/

/-- The machine has the registers of the operand. -/
def Arg.OnMachine : Arg → Prop
  | reg r => r.onMachine = .ok r
  | mem base _ => base.onMachine = .ok base
  | imm _ | global _ | label _ => True

/-- **The shapes of operands** that a mnemonic takes. -/
inductive Fits : Mnemonic → List Arg → Prop where
  | load (r base : Reg) (offset : Int64) : Fits .load [.reg r, .mem base offset]
  | loadGlobal (r : Reg) (name : String) : Fits .load [.reg r, .global name]
  | store (r base : Reg) (offset : Int64) : Fits .store [.mem base offset, .reg r]
  | storeGlobal (r : Reg) (name : String) : Fits .store [.global name, .reg r]
  | movImmediate (d : Reg) (k : Int64) : Fits .mov [.reg d, .imm k]
  | mov (d a : Reg) : Fits .mov [.reg d, .reg a]
  | push (r : Reg) : Fits .push [.reg r]
  | pop (r : Reg) : Fits .pop [.reg r]
  | pusha : Fits .pusha []
  | popa : Fits .popa []
  | notImmediate (d : Reg) (k : Int64) : Fits .not [.reg d, .imm k]
  | not (d a : Reg) : Fits .not [.reg d, .reg a]
  | negImmediate (d : Reg) (k : Int64) : Fits .neg [.reg d, .imm k]
  | neg (d a : Reg) : Fits .neg [.reg d, .reg a]
  | call (name : String) : Fits .call [.label name]
  | ret (n : Int64) : Fits .ret [.imm n]
  | jmp (name : String) : Fits .jmp [.label name]
  | jz (r : Reg) (name : String) : Fits .jz [.reg r, .label name]
  | aluImmediate (m : Mnemonic) (h : m.isAlu = true) (d a : Reg) (k : Int64) :
    Fits m [.reg d, .reg a, .imm k]
  | alu (m : Mnemonic) (h : m.isAlu = true) (d a b : Reg) : Fits m [.reg d, .reg a, .reg b]

section Operations

variable {m : Mnemonic} (h : m.isAlu = true) (unfit : ExpansionCause) (d a : Reg)
  (note : Option String)

include h

theorem expandInstruction_immediate (k : Int64) :
    expandInstruction unfit m [.reg d, .reg a, .imm k] note = do
      return [.instruction (.aluImmediate m (← d.onMachine) (← a.onMachine) k) note] := by
  cases m <;> first | rfl | cases h

theorem expandInstruction_registers (b : Reg) :
    expandInstruction unfit m [.reg d, .reg a, .reg b] note = do
      return [.instruction
        (.alu m (← d.onMachine) (← a.onMachine) (← b.onMachine)) note] := by
  cases m <;> first | rfl | cases h

end Operations

theorem Reg.exists_onMachine_bind {r : Reg} (h : r.onMachine = .ok r)
    {f : Reg → Except ExpansionCause (List MachineLine)} (hf : ∃ lines, f r = .ok lines) :
    ∃ lines, (r.onMachine >>= f) = .ok lines := by
  rw [h]
  exact hf

/-- **Operands of a fitting shape are expanded**, on registers of the machine. The
words that a return drops must leave room for the return address. -/
theorem expandInstruction_ok {m : Mnemonic} {args : List Arg} (hfits : Fits m args)
    (hargs : ∀ a ∈ args, a.OnMachine) (hret : m = .ret → .imm Int64.maxValue ∉ args)
    (unfit : ExpansionCause) (note : Option String) :
    ∃ lines, expandInstruction unfit m args note = .ok lines := by
  cases hfits
  all_goals simp only [List.forall_mem_cons, Arg.OnMachine, true_and] at hargs
  -- An operation on two values is the last branch, behind the mnemonic's test.
  case aluImmediate _ _ _ h =>
    rw [expandInstruction_immediate h]
    exact Reg.exists_onMachine_bind hargs.1 (Reg.exists_onMachine_bind hargs.2.1 ⟨_, rfl⟩)
  case alu _ _ _ h =>
    rw [expandInstruction_registers h]
    exact Reg.exists_onMachine_bind hargs.1 (Reg.exists_onMachine_bind hargs.2.1
      (Reg.exists_onMachine_bind hargs.2.2.1 ⟨_, rfl⟩))
  case ret n =>
    have hn : n ≠ Int64.maxValue := by
      rintro rfl
      exact hret rfl List.mem_cons_self
    exact ⟨_, if_neg hn⟩
  case pusha | popa | call | jmp => exact ⟨_, rfl⟩
  case store =>
    exact Reg.exists_onMachine_bind hargs.2.1 (Reg.exists_onMachine_bind hargs.1 ⟨_, rfl⟩)
  case load | mov | not | neg =>
    exact Reg.exists_onMachine_bind hargs.1 (Reg.exists_onMachine_bind hargs.2.1 ⟨_, rfl⟩)
  all_goals exact Reg.exists_onMachine_bind hargs.1 ⟨_, rfl⟩

theorem expandInstruction_ret_maxValue (unfit : ExpansionCause) (note : Option String) :
    expandInstruction unfit .ret [.imm Int64.maxValue] note = .error .returnOverflow :=
  rfl

/-! ## Lines -/

/-- The text is a line that can be expanded. -/
def Expands (text : List Char) : Prop :=
  ∃ r, expandLine text false = .ok r

/-- Whether a line can be expanded does not depend on an open block. -/
theorem expandLine_ok_iff {text : List Char} (isOpen : Bool) :
    (∃ r, expandLine text isOpen = .ok r) ↔ Expands text := by
  unfold Expands expandLine
  cases readLine? text with
  | none => exact ⟨nofun, nofun⟩
  | some found =>
    obtain ⟨content, note⟩ := found
    cases content with
    | line l =>
      cases l with
      | instruction m args _ =>
        dsimp only
        cases expandInstruction _ m args note with
        | error cause => exact ⟨nofun, nofun⟩
        | ok lines => exact ⟨fun _ => ⟨_, rfl⟩, fun _ => ⟨_, rfl⟩⟩
      | _ => exact ⟨fun _ => ⟨_, rfl⟩, fun _ => ⟨_, rfl⟩⟩
    | _ => exact ⟨fun _ => ⟨_, rfl⟩, fun _ => ⟨_, rfl⟩⟩

/-- What is expanded can be read. -/
theorem Expands.readLine? {text : List Char} (h : Expands text) : readLine? text ≠ none := by
  intro hnone
  obtain ⟨r, hr⟩ := h
  unfold expandLine at hr
  rw [hnone] at hr
  cases hr

/-- An instruction is expanded as its operands are. -/
theorem expands_instruction_iff {text : List Char} {m : Mnemonic} {args : List Arg}
    {note : Option String} (h : WordC.readLine? text = some ⟨.line (.plain m args), note⟩) :
    Expands text ↔ ∃ lines,
      expandInstruction (.badOperands m (String.ofList (Text.trim text))) m args note =
        .ok lines := by
  unfold Expands expandLine
  rw [h]
  dsimp only [Line.plain]
  cases expandInstruction _ m args note with
  | error cause => exact ⟨nofun, nofun⟩
  | ok lines => exact ⟨fun _ => ⟨_, rfl⟩, fun _ => ⟨_, rfl⟩⟩

namespace Line

/-- A line without operands is expanded just if it can be read. -/
theorem expands_iff_of_read {text : List Char} {l : Line} (hl : l.mnemonic? = none) {p : Prop}
    [Decidable p] (hread : WordC.readLine? text = if p then some ⟨.line l, none⟩ else none) :
    Expands text ↔ p := by
  constructor
  · intro hexpands
    by_contra hp
    exact hexpands.readLine? (hread.trans (if_neg hp))
  · intro hp
    unfold Expands expandLine
    rw [hread, if_pos hp]
    cases l with
    | instruction => cases hl
    | _ => exact ⟨_, rfl⟩

/-- **A file-scope word is expanded just if its name is plain.** -/
theorem expands_global_iff {name : String} (h : IsWord name.toList) (value : Int64) :
    Expands (global name value).text.toList ↔ isPlainName false name.toList = true :=
  expands_iff_of_read rfl (readLine?_global h value)

/-- **The beginning of a function is expanded just if its name is plain.** -/
theorem expands_function_iff {name : String} (h : IsWord name.toList) :
    Expands (function name).text.toList ↔ isPlainName false name.toList = true :=
  expands_iff_of_read rfl (readLine?_function h)

theorem expands_label {name : String} (h : isPlainName true name.toList = true) :
    Expands (label name).text.toList := by
  have hread : WordC.readLine? (label name).text.toList = some (label name).asRead :=
    readLine?_text h nofun
  exact (expands_iff_of_read (p := True) rfl (hread.trans (if_pos trivial).symm)).mpr trivial

/-- **An instruction is expanded** if its operands can be read, have a shape that
fits, and are on the machine. -/
theorem expands_instruction {m : Mnemonic} {args : List Arg} (hlegible : ∀ a ∈ args, a.Legible)
    (hfits : Fits m args) (hargs : ∀ a ∈ args, a.OnMachine)
    (hret : m = .ret → .imm Int64.maxValue ∉ args) (note : Option String) :
    Expands (instruction m args note).text.toList := by
  have hwords : ∀ a ∈ args, IsWord a.text.toList := fun a ha => Arg.isWord_text (hlegible a ha)
  have hread := readLine?_instruction m hwords note
  rw [Arg.mapM_read?_text hlegible, Option.map_some] at hread
  exact (expands_instruction_iff hread).mpr (expandInstruction_ok hfits hargs hret _ _)

/-- A return that drops too many words is not expanded. -/
theorem not_expands_ret (note : Option String) :
    ¬Expands (instruction .ret [.imm Int64.maxValue] note).text.toList := by
  have hlegible : ∀ a ∈ [Arg.imm Int64.maxValue], a.Legible :=
    List.forall_mem_singleton.mpr trivial
  have hwords : ∀ a ∈ [Arg.imm Int64.maxValue], IsWord a.text.toList :=
    fun a ha => Arg.isWord_text (hlegible a ha)
  have hread := readLine?_instruction .ret hwords note
  rw [Arg.mapM_read?_text hlegible, Option.map_some] at hread
  intro hexpands
  obtain ⟨lines, hlines⟩ := (expands_instruction_iff hread).mp hexpands
  rw [expandInstruction_ret_maxValue] at hlines
  cases hlines

/-- **A call is expanded only if its target can be told from a register.** The word
does not begin as a number or an address does. -/
theorem legible_of_expands_call {name : String} {c : Char} {rest : List Char}
    (hname : name.toList = c :: rest) (hword : IsWord name.toList) (hdigit : c.isDigit = false)
    (hc : c ∉ ['+', '-', '[', '@']) (hplus : '+' ∉ name.toList)
    (h : Expands (plain .call [.label name]).text.toList) : (Arg.label name).Legible := by
  have hwords : ∀ a ∈ [Arg.label name], IsWord a.text.toList :=
    List.forall_mem_singleton.mpr hword
  simp only [List.mem_cons, List.not_mem_nil, or_false, not_or] at hc
  obtain ⟨hpositive, hnegative, hbracket, hat⟩ := hc
  have hread := readLine?_instruction .call hwords none
  rw [List.map_singleton, Arg.text, hname] at hread
  have hnumber : Text.integer? (c :: rest) = none :=
    Text.integer?_eq_none hdigit hnegative hpositive
  -- a register is read as such, and no call goes to a register
  have hregister : ¬IsRegisterName name.toList := by
    intro hregister
    obtain ⟨r, hr⟩ := Reg.exists_ofName? hregister
    have hoperand : Arg.read? (c :: rest) = some (.reg r) := by
      rw [Arg.read?_cons hbracket hat, hnumber, ← hname, hr]
    rw [List.mapM_cons, hoperand] at hread
    obtain ⟨lines, hlines⟩ := (expands_instruction_iff hread).mp h
    cases hlines
  have hnone : Reg.ofName? (c :: rest) = none := hname ▸ Reg.ofName?_eq_none hplus hregister
  have hplain : isPlainName true name.toList = true := by
    by_contra hplain
    have hoperand : Arg.read? (c :: rest) = none := by
      rw [Arg.read?_cons hbracket hat, hnumber, hnone]
      exact if_neg (hname ▸ hplain)
    rw [List.mapM_cons, hoperand] at hread
    exact h.readLine? hread
  exact ⟨hplain, hregister⟩

end Line

/-! ## Texts -/

/-- Lines are expanded just if each of them is. -/
theorem expandFrom_ok_iff (number : Nat) (isOpen : Bool) (texts : List (List Char)) :
    (∃ lines, expandFrom number isOpen texts = .ok lines) ↔ ∀ text ∈ texts, Expands text := by
  induction texts generalizing number isOpen with
  | nil => exact ⟨fun _ => nofun, fun _ => ⟨_, rfl⟩⟩
  | cons text texts ih =>
    rw [List.forall_mem_cons, ← expandLine_ok_iff isOpen, expandFrom]
    cases hline : expandLine text isOpen with
    | error cause => exact ⟨nofun, nofun⟩
    | ok r =>
      obtain ⟨lines, isOpen'⟩ := r
      rw [← ih (number + 1) isOpen']
      dsimp only
      cases expandFrom (number + 1) isOpen' texts with
      | error e => exact ⟨nofun, nofun⟩
      | ok rest => exact ⟨fun _ => ⟨⟨_, rfl⟩, _, rfl⟩, fun _ => ⟨_, rfl⟩⟩

/-- **A text is expanded just if each of its lines is.** -/
theorem expandText_ok_iff (source : String) :
    (∃ target, (expandText source).value = .ok target) ↔
      ∀ text ∈ Text.lines source, Expands text := by
  rw [← expandFrom_ok_iff 1 false]
  unfold expandText expand Logged.value
  cases expandFrom 1 false (Text.lines source) with
  | error e => exact ⟨nofun, nofun⟩
  | ok lines => exact ⟨fun _ => ⟨_, rfl⟩, fun _ => ⟨_, rfl⟩⟩

end WordC
