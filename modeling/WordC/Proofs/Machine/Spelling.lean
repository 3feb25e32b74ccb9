import Mathlib
import WordC.Proofs.Machine.Acceptance
/-!
# How machine assembly is spelled

Names reach the machine only through the reader, so whatever text is expanded, the
names in its machine lines are plain (`exists_of_expandText`). Such a line is one line of
the machine text, so the lines of that text are the machine lines
(`lines_renderMachineLines`).

Expansion goes line by line. `ExpandedText` says so once, and what holds of an expanded text
follows by induction on it.
-/

namespace WordC

/-! ## Line breaks -/

namespace Text

/-- No line break is in the text. -/
def Unbroken (s : String) : Prop :=
  ∀ c ∈ s.toList, c ≠ '\n' ∧ c ≠ '\r'

@[simp] theorem unbroken_append {s t : String} : Unbroken (s ++ t) ↔ Unbroken s ∧ Unbroken t := by
  unfold Unbroken
  rw [String.toList_append, List.forall_mem_append]

theorem unbroken_intercalate {sep : String} {ss : List String} (hsep : Unbroken sep)
    (h : ∀ s ∈ ss, Unbroken s) : Unbroken (String.intercalate sep ss) := by
  induction ss with
  | nil =>
    rw [String.intercalate_nil]
    simp [Unbroken]
  | cons s ss ih =>
    obtain ⟨hs, hss⟩ := List.forall_mem_cons.1 h
    cases ss with
    | nil => rwa [String.intercalate_singleton]
    | cons t ss =>
      rw [String.intercalate_cons_cons, unbroken_append, unbroken_append]
      exact ⟨⟨hs, hsep⟩, ih hss⟩

theorem unbroken_of_isWord {s : String} (h : IsWord s.toList) : Unbroken s := by
  intro c hc
  constructor <;> (rintro rfl; exact absurd (h.2 _ hc) (by decide))

/-- A line of a text has no line feed in it. -/
theorem lineFeed_notMem_of_mem_linesFrom {current cs line : List Char} (h : '\n' ∉ current)
    (hline : line ∈ linesFrom current cs) : '\n' ∉ line := by
  fun_induction linesFrom current cs with
  | case1 => cases hline
  | case2 current =>
    rw [List.mem_singleton.1 hline, List.mem_reverse]
    exact h
  | case3 cs current ih =>
    rcases List.mem_cons.1 hline with rfl | hline
    · rw [List.mem_reverse]
      exact fun hmem => h (List.mem_cons_of_mem _ hmem)
    · exact ih nofun hline
  | case4 cs current _ ih =>
    rcases List.mem_cons.1 hline with rfl | hline
    · rwa [List.mem_reverse]
    · exact ih nofun hline
  | case5 current c cs _ hc ih =>
    refine ih (fun hmem => ?_) hline
    rcases List.mem_cons.1 hmem with rfl | hmem
    · exact hc rfl
    · exact h hmem

theorem mem_of_mem_trim {cs : List Char} {c : Char} (h : c ∈ trim cs) : c ∈ cs := by
  unfold trim at h
  rw [List.mem_reverse] at h
  have hmem := (List.dropWhile_sublist _).mem h
  rw [List.mem_reverse] at hmem
  exact (List.dropWhile_sublist _).mem hmem

/-- What is left of a text without line feeds is one line. -/
theorem oneLine_trim {cs : List Char} (h : '\n' ∉ cs) : OneLine (trim cs) := by
  refine ⟨fun hmem => h (mem_of_mem_trim hmem), fun hlast => ?_⟩
  unfold trim at hlast
  rw [List.getLast?_reverse] at hlast
  have hblank := List.head?_dropWhile_not isBlank (cs.dropWhile isBlank).reverse
  rw [hlast] at hblank
  exact absurd hblank (by decide)

end Text

/-! ## What is read -/

/-- The names in an operand. -/
def Arg.names : Arg → List String
  | global name | label name => [name]
  | reg _ | imm _ | mem _ _ => []

/-- The names of a content are plain, and a comment in it is one line. -/
def LineContent.Spelled : LineContent → Prop
  | line (.global name _) | line (.function name) | frameless name =>
    isPlainName false name.toList = true
  | line (.label name) => isPlainName true name.toList = true
  | line (.instruction _ args _) =>
    ∀ a ∈ args, ∀ name ∈ a.names, isPlainName true name.toList = true
  | line (.comment text) => Text.OneLine text.toList
  | blank => True

theorem exists_of_mem_mapM {α β : Type} {g : α → Option β} {as : List α} {bs : List β}
    (h : as.mapM g = some bs) {b : β} (hb : b ∈ bs) : ∃ a ∈ as, g a = some b := by
  induction as generalizing bs with
  | nil =>
    cases h
    cases hb
  | cons a as ih =>
    rw [List.mapM_cons] at h
    obtain ⟨b', hb', h⟩ := Option.bind_eq_some_iff.1 h
    obtain ⟨rest, hrest, h⟩ := Option.bind_eq_some_iff.1 h
    cases h
    rcases List.mem_cons.1 hb with rfl | hb
    · exact ⟨a, List.mem_cons_self, hb'⟩
    · obtain ⟨a', ha', hread⟩ := ih hrest hb
      exact ⟨a', List.mem_cons_of_mem _ ha', hread⟩

theorem Arg.plain_of_read? {word : List Char} {a : Arg} (h : read? word = some a) :
    ∀ name ∈ a.names, isPlainName true name.toList = true := by
  have hlabel : ∀ {dots : Bool} {cs : List Char} {make : String → Arg},
      (∀ name, (make name).names = [name]) →
      (if isPlainName dots cs then some (make (String.ofList cs)) else none) = some a →
      ∀ name ∈ a.names, isPlainName true name.toList = true := by
    intro dots cs make hmake hread
    split at hread
    · next hplain =>
      cases hread
      rw [hmake, List.forall_mem_singleton, String.toList_ofList]
      exact isPlainName_true hplain
    · cases hread
  unfold read? at h
  split at h
  · -- an address has no names in it
    split at h
    · unfold readMemory? at h
      split at h
      · cases h
      · dsimp only at h
        split at h
        · cases h
        · obtain ⟨base, -, h⟩ := Option.bind_eq_some_iff.1 h
          obtain ⟨offset, -, h⟩ := Option.bind_eq_some_iff.1 h
          cases h
          exact nofun
    · cases h
  · exact hlabel (fun _ => rfl) h
  · split at h
    · cases h
      exact nofun
    · split at h
      · cases h
        exact nofun
      · exact hlabel (fun _ => rfl) h

theorem isPlainName_of_readName? {dots : Bool} {cs : List Char} {name : String}
    (h : readName? dots cs = some name) : isPlainName dots name.toList = true := by
  unfold readName? at h
  obtain ⟨front, -, h⟩ := Option.bind_eq_some_iff.1 h
  dsimp only at h
  split at h
  · next hplain =>
    cases h
    rwa [String.toList_ofList]
  · cases h

theorem spelled_of_readGlobal? {cs : List Char} {l : Line} (h : readGlobal? cs = some l) :
    (LineContent.line l).Spelled := by
  unfold readGlobal? at h
  dsimp only at h
  split at h
  · cases h
  · obtain ⟨value, -, h⟩ := Option.bind_eq_some_iff.1 h
    split at h
    · next hplain =>
      cases h
      change isPlainName false (String.ofList _).toList = true
      rwa [String.toList_ofList]
    · cases h

theorem spelled_of_readInstruction? {cs : List Char} {l : Line}
    (h : readInstruction? cs = some l) : (LineContent.line l).Spelled := by
  unfold readInstruction? at h
  split at h
  · cases h
  · obtain ⟨mnemonic, -, h⟩ := Option.bind_eq_some_iff.1 h
    obtain ⟨args, hargs, h⟩ := Option.bind_eq_some_iff.1 h
    cases h
    intro a ha
    obtain ⟨word, -, hword⟩ := exists_of_mem_mapM hargs ha
    exact Arg.plain_of_read? hword

theorem spelled_of_readCode? {code : List Char} {content : LineContent}
    (h : readCode? code = some content) : content.Spelled := by
  unfold readCode? at h
  split at h
  · obtain ⟨l, hl, rfl⟩ := Option.map_eq_some_iff.1 h
    exact spelled_of_readGlobal? hl
  · obtain ⟨name, hname, rfl⟩ := Option.map_eq_some_iff.1 h
    exact isPlainName_of_readName? hname
  · obtain ⟨name, hname, rfl⟩ := Option.map_eq_some_iff.1 h
    exact isPlainName_of_readName? hname
  · split at h
    · obtain ⟨name, hname, rfl⟩ := Option.map_eq_some_iff.1 h
      exact isPlainName_of_readName? hname
    · obtain ⟨l, hl, rfl⟩ := Option.map_eq_some_iff.1 h
      exact spelled_of_readInstruction? hl

/-- **What is read from a line is plain**, and its comment is one line. -/
theorem spelled_of_readLine? {text : List Char} {content : LineContent} {note : Option String}
    (hbreak : '\n' ∉ text) (h : readLine? text = some ⟨content, note⟩) :
    content.Spelled ∧ ∀ s ∈ note, Text.OneLine s.toList := by
  -- a note is a part of the line, so it has no line break either
  have hnote : ∀ s ∈ readNote? ((text.dropWhile (· ≠ ';')).drop 1), Text.OneLine s.toList := by
    intro s hs
    unfold readNote? at hs
    split at hs
    · cases hs
    · cases hs
      rw [String.toList_ofList]
      refine Text.oneLine_trim fun hmem => hbreak ?_
      exact (List.dropWhile_sublist _).mem ((List.drop_sublist _ _).mem hmem)
  rw [readLine?_eq] at h
  split at h
  · cases hcomment : readNote? ((text.dropWhile (· ≠ ';')).drop 1) with
    | some comment =>
      rw [hcomment] at h
      cases h
      exact ⟨hnote comment hcomment, by simp⟩
    | none =>
      rw [hcomment] at h
      cases h
      exact ⟨trivial, by simp⟩
  · obtain ⟨found, hfound, heq⟩ := Option.map_eq_some_iff.1 h
    cases heq
    exact ⟨spelled_of_readCode? hfound, hnote⟩

/-! ## Machine lines -/

/-- The names in an instruction. -/
def MachineInstruction.names : MachineInstruction → List String
  | loadGlobal _ name | storeGlobal _ name | call name | jump name | branchZero _ name
  | branchNonZero _ name => [name]
  | _ => []

/-- **A machine line that is one line of text**: its names are plain, and its comment is one
line. -/
def MachineLine.Spelled : MachineLine → Prop
  | define name register => IsWord name.toList ∧ IsWord register.toList
  | blank | closeBlock | word _ => True
  | openBlock _ name note =>
    isPlainName false name.toList = true ∧ ∀ s ∈ note, Text.OneLine s.toList
  | label name note => isPlainName true name.toList = true ∧ ∀ s ∈ note, Text.OneLine s.toList
  | instruction i note =>
    (∀ name ∈ i.names, isPlainName true name.toList = true) ∧ ∀ s ∈ note, Text.OneLine s.toList
  | comment text => Text.OneLine text.toList

/-- An instruction that is spelled. -/
def MachineLine.Instructs : MachineLine → Prop
  | instruction i note => (instruction i note).Spelled
  | _ => False

theorem MachineLine.Instructs.spelled {l : MachineLine} (h : l.Instructs) : l.Spelled := by
  cases l with
  | instruction i note => exact h
  | _ => exact h.elim

theorem isPlainName_machineLabel {name : String} (h : isPlainName true name.toList = true) :
    isPlainName true (machineLabel name).toList = true := by
  obtain ⟨c, rest, hname, hc⟩ := exists_cons_of_isPlainName h
  rw [hname] at h
  have hdot : c ≠ '.' := by
    rintro rfl
    exact absurd hc (by decide)
  rw [machineLabel, String.toList_map, hname, List.map_cons, if_neg hdot, isPlainName_cons_iff]
  refine ⟨hc, List.forall_mem_map.2 fun d hd => ?_⟩
  split
  · exact .inl (by decide)
  · exact (isPlainName_cons_iff.1 h).2 d hd

/-! ## Instructions -/

/-- **The shapes of operands that are expanded**: those that fit, and four more that only a
text written by hand has. -/
inductive Accepts : Mnemonic → List Arg → Prop where
  | fits {m : Mnemonic} {args : List Arg} (h : Fits m args) : Accepts m args
  | goBack : Accepts .ret []
  | jnz (r : Reg) (name : String) : Accepts .jnz [.reg r, .label name]
  | inp (r : Reg) (channel : Int64) : Accepts .inp [.reg r, .imm channel]
  | out (r : Reg) (channel : Int64) : Accepts .out [.reg r, .imm channel]

/-- **What is expanded has a shape that is accepted.** -/
theorem accepts_of_expandInstruction {unfit : ExpansionCause} {m : Mnemonic} {args : List Arg}
    {note : Option String} {lines : List MachineLine}
    (h : expandInstruction unfit m args note = .ok lines) : Accepts m args := by
  -- the operands are opened one by one, only as far as the mnemonic looks at them
  rcases args with _ | ⟨a, _ | ⟨b, _ | ⟨c, _ | ⟨d, args⟩⟩⟩⟩
  · cases m
    case pusha => exact .fits .pusha
    case popa => exact .fits .popa
    case ret => exact .goBack
    all_goals cases h
  · cases m
    case push => cases a <;> first | exact .fits (.push _) | cases h
    case pop => cases a <;> first | exact .fits (.pop _) | cases h
    case call => cases a <;> first | exact .fits (.call _) | cases h
    case jmp => cases a <;> first | exact .fits (.jmp _) | cases h
    case ret => cases a <;> first | exact .fits (.ret _) | cases h
    all_goals first | cases h | (cases a <;> cases h)
  · cases m
    case store =>
      cases a <;> try cases h
      all_goals
        cases b <;> first | exact .fits (.store _ _ _) | exact .fits (.storeGlobal _ _) | cases h
    all_goals cases a <;> try cases h
    case load.reg =>
      cases b <;> first | exact .fits (.load _ _ _) | exact .fits (.loadGlobal _ _) | cases h
    case mov.reg =>
      cases b <;> first | exact .fits (.mov _ _) | exact .fits (.movImmediate _ _) | cases h
    case not.reg =>
      cases b <;> first | exact .fits (.not _ _) | exact .fits (.notImmediate _ _) | cases h
    case neg.reg =>
      cases b <;> first | exact .fits (.neg _ _) | exact .fits (.negImmediate _ _) | cases h
    case jz.reg => cases b <;> first | exact .fits (.jz _ _) | cases h
    case jnz.reg => cases b <;> first | exact .jnz _ _ | cases h
    case inp.reg => cases b <;> first | exact .inp _ _ | cases h
    case out.reg => cases b <;> first | exact .out _ _ | cases h
    all_goals cases b <;> cases h
  · cases m
    all_goals cases a <;> try cases h
    all_goals cases b <;> try cases h
    all_goals
      cases c <;>
        first | exact .fits (.alu _ rfl _ _ _) | exact .fits (.aluImmediate _ rfl _ _ _) | cases h
  · cases m
    all_goals cases a <;> try cases h
    all_goals cases b <;> try cases h
    all_goals cases c <;> cases h

/-- All lines that an expansion comes to, if it does, are instructions that are spelled. -/
def Emits (x : Except ExpansionCause (List MachineLine)) : Prop :=
  ∀ lines, x = .ok lines → ∀ l ∈ lines, l.Instructs

namespace Emits

theorem pure {lines : List MachineLine} (h : ∀ l ∈ lines, l.Instructs) : Emits (.ok lines) := by
  rintro _ ⟨⟩
  exact h

theorem onMachine {r : Reg} {next : Reg → Except ExpansionCause (List MachineLine)}
    (h : ∀ r, Emits (next r)) : Emits (r.onMachine >>= next) := by
  cases hr : r.onMachine with
  | error cause => exact nofun
  | ok r => exact h r

end Emits

theorem MachineLine.Instructs.plain {i : MachineInstruction} (h : i.names = []) :
    (MachineLine.plain i).Instructs :=
  ⟨by rw [h]; exact nofun, nofun⟩

/-- One line with the comment, and lines without names behind it. -/
theorem MachineLine.instructs_cons {i : MachineInstruction} {note : Option String}
    {lines : List MachineLine} (hnames : ∀ name ∈ i.names, isPlainName true name.toList = true)
    (hnote : ∀ s ∈ note, Text.OneLine s.toList) (hlines : ∀ l ∈ lines, l.Instructs) :
    ∀ l ∈ MachineLine.instruction i note :: lines, l.Instructs :=
  List.forall_mem_cons.2 ⟨⟨hnames, hnote⟩, hlines⟩

theorem oneLine_orElse {note : Option String} {text : String} (htext : Text.Unbroken text)
    (hnote : ∀ s ∈ note, Text.OneLine s.toList) :
    ∀ s ∈ (note <|> some text), Text.OneLine s.toList := by
  cases note with
  | none =>
    rintro s ⟨⟩
    exact .of_forall htext
  | some s => exact hnote

/-- **The lines of an instruction are instructions**, and they are spelled if its operands
and its comment are. -/
theorem emits_of_accepts {unfit : ExpansionCause} {m : Mnemonic} {args : List Arg}
    {note : Option String} (h : Accepts m args)
    (hargs : ∀ a ∈ args, ∀ name ∈ a.names, isPlainName true name.toList = true)
    (hnote : ∀ s ∈ note, Text.OneLine s.toList) : Emits (expandInstruction unfit m args note) := by
  have hname : ∀ {i : MachineInstruction} {name : String}, i.names = [name] →
      isPlainName true name.toList = true →
      ∀ l ∈ [MachineLine.instruction i note], l.Instructs := by
    intro i name hi hname
    refine MachineLine.instructs_cons ?_ hnote (List.forall_mem_nil _)
    rw [hi]
    exact List.forall_mem_singleton.2 hname
  have hquiet : ∀ {i : MachineInstruction} {lines : List MachineLine}, i.names = [] →
      (∀ l ∈ lines, l.Instructs) →
      ∀ l ∈ MachineLine.instruction i note :: lines, l.Instructs := by
    intro i lines hi hlines
    refine MachineLine.instructs_cons ?_ hnote hlines
    rw [hi]
    exact nofun
  have hnil : ∀ l ∈ ([] : List MachineLine), l.Instructs := List.forall_mem_nil _
  cases h with
  | goBack => exact .pure (hquiet rfl hnil)
  | jnz r name =>
    have hlabel := hargs _ (List.mem_cons_of_mem _ List.mem_cons_self) name List.mem_cons_self
    exact .onMachine fun _ => .pure (hname rfl (isPlainName_machineLabel hlabel))
  | inp | out => exact .onMachine fun _ => .pure (hquiet rfl hnil)
  | fits hfits =>
    cases hfits with
    | load | store | mov | not =>
      exact .onMachine fun _ => .onMachine fun _ => .pure (hquiet rfl hnil)
    | movImmediate | notImmediate | negImmediate =>
      exact .onMachine fun _ => .pure (hquiet rfl hnil)
    | aluImmediate m hm =>
      rw [expandInstruction_immediate hm]
      exact .onMachine fun _ => .onMachine fun _ => .pure (hquiet rfl hnil)
    | alu m hm =>
      rw [expandInstruction_registers hm]
      exact .onMachine fun _ => .onMachine fun _ => .onMachine fun _ => .pure (hquiet rfl hnil)
    | loadGlobal r name =>
      have hglobal := hargs _ (List.mem_cons_of_mem _ List.mem_cons_self) name List.mem_cons_self
      exact .onMachine fun _ => .pure (hname rfl hglobal)
    | storeGlobal r name =>
      have hglobal := hargs _ List.mem_cons_self name List.mem_cons_self
      exact .onMachine fun _ => .pure (hname rfl hglobal)
    | call name => exact .pure (hname rfl (hargs _ List.mem_cons_self name List.mem_cons_self))
    | jmp name =>
      have hlabel := hargs _ List.mem_cons_self name List.mem_cons_self
      exact .pure (hname rfl (isPlainName_machineLabel hlabel))
    | jz r name =>
      have hlabel := hargs _ (List.mem_cons_of_mem _ List.mem_cons_self) name List.mem_cons_self
      exact .onMachine fun _ => .pure (hname rfl (isPlainName_machineLabel hlabel))
    | push =>
      exact .onMachine fun _ => .pure
        (List.forall_mem_cons.2 ⟨.plain rfl, hquiet rfl hnil⟩)
    | pop =>
      exact .onMachine fun _ => .pure
        (hquiet rfl (List.forall_mem_singleton.2 (.plain rfl)))
    | neg =>
      exact .onMachine fun _ => .onMachine fun _ => .pure
        (hquiet rfl (List.forall_mem_singleton.2 (.plain rfl)))
    | pusha | popa =>
      refine .pure (MachineLine.instructs_cons nofun (oneLine_orElse ?_ hnote) ?_)
      · simp [Text.Unbroken]
      · simp only [List.forall_mem_cons]
        exact ⟨.plain rfl, .plain rfl, .plain rfl, hnil⟩
    | ret n =>
      intro lines hlines
      -- the words that are dropped must leave room for the return address
      change (if n = Int64.maxValue then _ else _) = _ at hlines
      split at hlines
      · cases hlines
      · cases hlines
        refine MachineLine.instructs_cons nofun ?_
          (List.forall_mem_cons.2 ⟨.plain rfl, hquiet rfl hnil⟩)
        rintro s ⟨⟩
        exact .of_forall (by simp)

theorem instructs_of_expandInstruction {unfit : ExpansionCause} {m : Mnemonic} {args : List Arg}
    {note : Option String} {lines : List MachineLine}
    (h : expandInstruction unfit m args note = .ok lines)
    (hargs : ∀ a ∈ args, ∀ name ∈ a.names, isPlainName true name.toList = true)
    (hnote : ∀ s ∈ note, Text.OneLine s.toList) : ∀ l ∈ lines, l.Instructs :=
  emits_of_accepts (accepts_of_expandInstruction h) hargs hnote lines h

/-! ## Lines and texts -/

/-- **What a line is expanded to**, and whether a block is open before and behind it. -/
inductive Expanded : ReadLine → Bool → List MachineLine → Bool → Prop where
  | blank {note : Option String} {isOpen : Bool} : Expanded ⟨.blank, note⟩ isOpen [] isOpen
  | frameless {name : String} {note : Option String} {isOpen : Bool} :
    Expanded ⟨.frameless name, note⟩ isOpen (closing isOpen ++ [.openBlock .code name note]) true
  | comment {text : String} {note : Option String} {isOpen : Bool} :
    Expanded ⟨.line (.comment text), note⟩ isOpen [.comment text] isOpen
  | global {name : String} {value : Int64} {note : Option String} {isOpen : Bool} :
    Expanded ⟨.line (.global name value), note⟩ isOpen
      (closing isOpen ++ [.openBlock .data name note, .word value, .closeBlock]) false
  | function {name : String} {note : Option String} {isOpen : Bool} :
    Expanded ⟨.line (.function name), note⟩ isOpen
      (closing isOpen ++ [.openBlock .code name note, .noted (reserve 1) "return address",
        .plain (.store .edx .esp 0)]) true
  | label {name : String} {note : Option String} {isOpen : Bool} :
    Expanded ⟨.line (.label name), note⟩ isOpen [.label (machineLabel name) note] isOpen
  | instruction {m : Mnemonic} {args : List Arg} {old note : Option String} {isOpen : Bool}
    {unfit : ExpansionCause} {lines : List MachineLine}
    (h : expandInstruction unfit m args note = .ok lines) :
    Expanded ⟨.line (.instruction m args old), note⟩ isOpen lines isOpen

theorem expanded_of_expandLine {text : List Char} {isOpen isOpen' : Bool}
    {lines : List MachineLine} (h : expandLine text isOpen = .ok (lines, isOpen')) :
    ∃ found, readLine? text = some found ∧ Expanded found isOpen lines isOpen' := by
  unfold expandLine at h
  cases hread : readLine? text with
  | none =>
    rw [hread] at h
    cases h
  | some found =>
    rw [hread] at h
    refine ⟨found, rfl, ?_⟩
    obtain ⟨content, note⟩ := found
    cases content with
    | blank =>
      cases h
      exact .blank
    | frameless name =>
      cases h
      exact .frameless
    | line l =>
      cases l with
      | comment text =>
        cases h
        exact .comment
      | global name value =>
        cases h
        exact .global
      | function name =>
        cases h
        exact .function
      | label name =>
        cases h
        exact .label
      | instruction m args old =>
        dsimp only at h
        cases hlines : expandInstruction _ m args note with
        | error cause =>
          rw [hlines] at h
          cases h
        | ok found =>
          rw [hlines] at h
          cases h
          exact .instruction hlines

/-- The expansion of lines goes line by line. -/
theorem expandFrom_cons {number : Nat} {isOpen : Bool} {text : List Char}
    {texts : List (List Char)} {lines : List MachineLine}
    (h : expandFrom number isOpen (text :: texts) = .ok lines) :
    ∃ found first isOpen' rest, readLine? text = some found ∧
      Expanded found isOpen first isOpen' ∧
      expandFrom (number + 1) isOpen' texts = .ok rest ∧ lines = first ++ rest := by
  rw [expandFrom] at h
  cases hline : expandLine text isOpen with
  | error cause =>
    rw [hline] at h
    cases h
  | ok step =>
    obtain ⟨first, isOpen'⟩ := step
    rw [hline] at h
    dsimp only at h
    obtain ⟨found, hread, hexpanded⟩ := expanded_of_expandLine hline
    cases hrest : expandFrom (number + 1) isOpen' texts with
    | error e =>
      rw [hrest] at h
      cases h
    | ok rest =>
      rw [hrest] at h
      cases h
      exact ⟨found, first, isOpen', rest, hread, hexpanded, hrest, rfl⟩

theorem spelled_closing (isOpen : Bool) : ∀ l ∈ closing isOpen, l.Spelled := by
  cases isOpen with
  | false => exact List.forall_mem_nil _
  | true => exact List.forall_mem_singleton.2 trivial

/-- **The machine lines of a line are spelled** if what is read from it is. -/
theorem Expanded.spelled {content : LineContent} {note : Option String} {isOpen isOpen' : Bool}
    {lines : List MachineLine} (h : Expanded ⟨content, note⟩ isOpen lines isOpen')
    (hcontent : content.Spelled) (hnote : ∀ s ∈ note, Text.OneLine s.toList) :
    ∀ l ∈ lines, l.Spelled := by
  have hstore : (MachineLine.plain (.store .edx .esp 0)).Instructs := .plain rfl
  -- the two lines with which a function saves its return address
  have hreserve : (MachineLine.noted (reserve 1) "return address").Spelled := by
    refine ⟨nofun, ?_⟩
    rintro s ⟨⟩
    exact .of_forall (by simp)
  cases h with
  | blank => exact List.forall_mem_nil _
  | frameless =>
    exact List.forall_mem_append.2
      ⟨spelled_closing isOpen, List.forall_mem_singleton.2 ⟨hcontent, hnote⟩⟩
  | comment => exact List.forall_mem_singleton.2 hcontent
  | global =>
    refine List.forall_mem_append.2 ⟨spelled_closing isOpen, ?_⟩
    simp only [List.forall_mem_cons]
    exact ⟨⟨hcontent, hnote⟩, trivial, trivial, List.forall_mem_nil _⟩
  | function =>
    refine List.forall_mem_append.2 ⟨spelled_closing isOpen, ?_⟩
    simp only [List.forall_mem_cons]
    exact ⟨⟨hcontent, hnote⟩, hreserve, hstore.spelled, List.forall_mem_nil _⟩
  | label => exact List.forall_mem_singleton.2 ⟨isPlainName_machineLabel hcontent, hnote⟩
  | instruction hlines =>
    exact fun l hl => (instructs_of_expandInstruction hlines hcontent hnote l hl).spelled

/-- **What lines of text are expanded to**, one line after the other. Whatever is read from a
line is spelled, and a block that is open behind the last line is closed. -/
inductive ExpandedText : Bool → List (List Char) → List MachineLine → Prop where
  | nil {isOpen : Bool} : ExpandedText isOpen [] (closing isOpen)
  | cons {text : List Char} {content : LineContent} {note : Option String} {isOpen isOpen' : Bool}
    {first rest : List MachineLine} {texts : List (List Char)}
    (hread : readLine? text = some ⟨content, note⟩) (hcontent : content.Spelled)
    (hnote : ∀ s ∈ note, Text.OneLine s.toList)
    (hfirst : Expanded ⟨content, note⟩ isOpen first isOpen')
    (hrest : ExpandedText isOpen' texts rest) : ExpandedText isOpen (text :: texts) (first ++ rest)

theorem expandedText_of_expandFrom {number : Nat} {isOpen : Bool} {texts : List (List Char)}
    {lines : List MachineLine} (htexts : ∀ text ∈ texts, '\n' ∉ text)
    (h : expandFrom number isOpen texts = .ok lines) : ExpandedText isOpen texts lines := by
  induction texts generalizing number isOpen lines with
  | nil =>
    cases h
    exact .nil
  | cons text texts ih =>
    obtain ⟨htext, htexts⟩ := List.forall_mem_cons.1 htexts
    obtain ⟨⟨content, note⟩, first, isOpen', rest, hread, hexpanded, hrest, rfl⟩ :=
      expandFrom_cons h
    obtain ⟨hcontent, hnote⟩ := spelled_of_readLine? htext hread
    exact .cons hread hcontent hnote hexpanded (ih htexts hrest)

theorem ExpandedText.spelled {isOpen : Bool} {texts : List (List Char)} {lines : List MachineLine}
    (h : ExpandedText isOpen texts lines) : ∀ l ∈ lines, l.Spelled := by
  induction h with
  | nil => exact spelled_closing _
  | cons _ hcontent hnote hfirst _ ih =>
    exact List.forall_mem_append.2 ⟨hfirst.spelled hcontent hnote, ih⟩

theorem spelled_machineHeader : ∀ l ∈ machineHeader, l.Spelled := by
  have hdefine : ∀ {name register : String}, isPlainName false name.toList = true →
      isPlainName false register.toList = true → (MachineLine.define name register).Spelled :=
    fun hname hregister => ⟨.of_isPlainName hname, .of_isPlainName hregister⟩
  simp only [machineHeader, List.forall_mem_cons]
  exact ⟨hdefine (by decide) (by decide), hdefine (by decide) (by decide),
    hdefine (by decide) (by decide), hdefine (by decide) (by decide), trivial,
    List.forall_mem_nil _⟩

theorem spelled_machineStart : ∀ l ∈ machineStart, l.Spelled := by
  have hnoted : ∀ {i : MachineInstruction} {note : String},
      (∀ name ∈ i.names, isPlainName true name.toList = true) → Text.Unbroken note →
      (MachineLine.noted i note).Spelled := by
    intro i note hnames hnote
    refine ⟨hnames, ?_⟩
    rintro s ⟨⟩
    exact .of_forall hnote
  simp only [machineStart, List.forall_mem_cons]
  refine ⟨⟨by decide, nofun⟩, hnoted nofun ?_, hnoted nofun ?_, hnoted nofun ?_,
    hnoted (List.forall_mem_singleton.2 (by decide)) ?_, ⟨by decide, nofun⟩,
    hnoted (List.forall_mem_singleton.2 (by decide)) ?_, trivial, List.forall_mem_nil _⟩
  all_goals simp [Text.Unbroken]

/-- **An expanded text** has the lines of its source between a header and the block that starts
the machine, and all of them are spelled for the machine. -/
theorem exists_of_expandText {source target : String}
    (h : (expandText source).value = .ok target) :
    ∃ body, ExpandedText false (Text.lines source) body ∧
      (∀ l ∈ machineHeader ++ body ++ machineStart, l.Spelled) ∧
      target = renderMachineLines (machineHeader ++ body ++ machineStart) := by
  unfold expandText expand Logged.value at h
  cases hbody : expandFrom 1 false (Text.lines source) with
  | error e =>
    rw [hbody] at h
    cases h
  | ok body =>
    rw [hbody] at h
    cases h
    have hexpanded : ExpandedText false (Text.lines source) body :=
      expandedText_of_expandFrom
        (fun text htext => Text.lineFeed_notMem_of_mem_linesFrom List.not_mem_nil htext) hbody
    refine ⟨body, hexpanded, ?_, rfl⟩
    simp only [List.forall_mem_append]
    exact ⟨⟨spelled_machineHeader, hexpanded.spelled⟩, spelled_machineStart⟩

/-! ## Texts of machine lines -/

namespace MachineInstruction

theorem unbroken_written {name : String} {operands : List String} (hname : Text.Unbroken name)
    (h : ∀ s ∈ operands, Text.Unbroken s) : Text.Unbroken (written name operands) := by
  unfold written
  rw [Text.unbroken_append, Text.unbroken_append]
  exact ⟨⟨hname, by simp [Text.Unbroken]⟩,
    Text.unbroken_intercalate (by simp [Text.Unbroken]) h⟩

theorem unbroken_aluName (m : Mnemonic) : Text.Unbroken m.aluName := by
  refine Text.unbroken_of_isWord (.of_isPlainName (?_ : isPlainName false _ = true))
  cases m <;> decide

theorem unbroken_machineName (r : Reg) : Text.Unbroken r.machineName := by
  rw [Reg.machineName, Text.unbroken_append]
  exact ⟨by simp [Text.Unbroken],
    Text.unbroken_of_isWord (.of_isPlainName (Reg.isPlainName_name r))⟩

theorem unbroken_number (n : Int64) : Text.Unbroken (number n) := by
  rw [number, Text.unbroken_append]
  exact ⟨by simp [Text.Unbroken], Text.unbroken_of_isWord (Arg.isWord_decimal n)⟩

theorem unbroken_text {i : MachineInstruction}
    (h : ∀ name ∈ i.names, isPlainName true name.toList = true) : Text.Unbroken i.text := by
  have hname : ∀ name ∈ i.names, Text.Unbroken name := fun name hname =>
    Text.unbroken_of_isWord (.of_isPlainName (h name hname))
  cases i with
  | load | store | loadImmediate | move | jumpRegister | input | output =>
    exact unbroken_written (by simp [Text.Unbroken])
      (by simp [unbroken_machineName, unbroken_number])
  | alu op =>
    exact unbroken_written (unbroken_aluName op) (by simp [unbroken_machineName])
  | aluImmediate op =>
    refine unbroken_written (Text.unbroken_append.2 ⟨unbroken_aluName op, ?_⟩) ?_
    · simp [Text.Unbroken]
    · simp [unbroken_machineName, unbroken_number]
  | loadGlobal _ name | storeGlobal _ name | branchZero _ name | branchNonZero _ name
  | call name | jump name =>
    have hmark : Text.Unbroken "*d*" ∧ Text.Unbroken "*" ∧ Text.Unbroken "#" := by
      simp [Text.Unbroken]
    refine unbroken_written (by simp [Text.Unbroken]) ?_
    simp [unbroken_machineName, hmark, hname name List.mem_cons_self]
  | enableDataMemory | disableInterrupts => simp [Text.Unbroken, text]
  | resetStack =>
    have hend : Text.Unbroken "#0x7FFF" := by simp [Text.Unbroken]
    exact unbroken_written (by simp [Text.Unbroken]) (by simp [unbroken_machineName, hend])

end MachineInstruction

namespace MachineLine

theorem oneLine_withComment? {line : String} {note : Option String} (hline : Text.Unbroken line)
    (hnote : ∀ s ∈ note, Text.OneLine s.toList) :
    Text.OneLine (withComment? line note).toList := by
  cases note with
  | none => exact .of_forall hline
  | some s =>
    obtain ⟨spaces, hspaces, htext⟩ := Text.toList_withComment line s
    have htail : Text.OneLine (Line.commentTail (some s)) :=
      Line.oneLine_commentTail (List.forall_mem_singleton.2 (hnote s rfl))
    rw [withComment?, htext]
    refine .append (List.forall_mem_append.2 ⟨hline, fun c hc => ?_⟩) htail
    rw [hspaces c hc]
    decide

/-- **A machine line that is spelled is one line.** -/
theorem Spelled.oneLine {l : MachineLine} (h : l.Spelled) : Text.OneLine l.text.toList := by
  have hplain : ∀ {dots : Bool} {name : String}, isPlainName dots name.toList = true →
      Text.Unbroken name := fun hname => Text.unbroken_of_isWord (.of_isPlainName hname)
  -- what a line has besides names and numbers
  have hmarks : ∀ s ∈ ["#define ", " \"", "\"", "@", " ", " \x7b", "#", ":"], Text.Unbroken s := by
    simp [Text.Unbroken]
  simp only [List.forall_mem_cons] at hmarks
  obtain ⟨hdefine, hopening, hquote, hat, hspace, hbrace, hnumber, hcolon, -⟩ := hmarks
  have hindentation : Text.Unbroken indentation := by simp [Text.Unbroken, indentation]
  cases l with
  | define name register =>
    have hline : Text.Unbroken ("#define " ++ name ++ " \"" ++ register ++ "\"") := by
      simp only [Text.unbroken_append]
      exact ⟨⟨⟨⟨hdefine, Text.unbroken_of_isWord h.1⟩, hopening⟩,
        Text.unbroken_of_isWord h.2⟩, hquote⟩
    have hnote : ∀ s ∈ some "register definitions", Text.OneLine s.toList := by
      rintro s ⟨⟩
      exact .of_forall (by simp)
    simpa only [text, withComment?] using oneLine_withComment? hline hnote
  | blank => exact .of_forall (by simp [text])
  | closeBlock => exact .of_forall (by simp [text])
  | openBlock kind name note =>
    have hkind : Text.Unbroken kind.word := by
      cases kind <;> simp [Text.Unbroken, BlockKind.word]
    refine oneLine_withComment? ?_ h.2
    simp only [Text.unbroken_append]
    exact ⟨⟨⟨⟨hat, hkind⟩, hspace⟩, hplain h.1⟩, hbrace⟩
  | word value =>
    refine .of_forall ?_
    change Text.Unbroken (indentation ++ "#" ++ Text.decimal value)
    simp only [Text.unbroken_append]
    exact ⟨⟨hindentation, hnumber⟩, Text.unbroken_of_isWord (Arg.isWord_decimal value)⟩
  | label name note =>
    exact oneLine_withComment? (Text.unbroken_append.2 ⟨hplain h.1, hcolon⟩) h.2
  | instruction i note =>
    exact oneLine_withComment?
      (Text.unbroken_append.2 ⟨hindentation, MachineInstruction.unbroken_text h.1⟩) h.2
  | comment text =>
    have htail : Text.OneLine (Line.commentTail (some text)) :=
      Line.oneLine_commentTail (List.forall_mem_singleton.2 h)
    rw [Line.commentTail, ← Line.toList_text_comment] at htail
    exact htail

end MachineLine

/-- The lines of a machine text are its machine lines. -/
theorem lines_renderMachineLines {ls : List MachineLine} (h : ∀ l ∈ ls, l.Spelled) :
    Text.lines (renderMachineLines ls) = ls.map (·.text.toList) := by
  have htext : (renderMachineLines ls).toList =
      (ls.map (·.text.toList)).flatMap (· ++ ['\n']) := by
    simp [renderMachineLines, List.flatMap_map]
  rw [Text.lines, htext]
  exact Text.linesFrom_flatMap _ (List.forall_mem_map.2 fun l hl => (h l hl).oneLine)

end WordC
