import Mathlib
import WordC.Proofs.Machine.Blocks
/-!
# The statements of a machine text

A line inside a block of code names an instruction and its operands. `MachineStatement.read?`
reads them from the text of the line, and `registerNames` which registers the text has given other
names. Neither looks at the machine lines that the text was written from. What is read are the
names and operands that those lines stand for (`machineStatements_map_text`).
-/

namespace WordC

/-- An operand of a machine instruction. -/
inductive MachineOperand where
  | register (name : String)
  | number (n : Int64)
  /-- A place in the code of the same block. -/
  | label (name : String)
  /-- A block of data. -/
  | data (name : String)
  /-- A block of code. -/
  | code (name : String)
  deriving DecidableEq, Repr

/-- A machine instruction by its name. -/
structure MachineStatement where
  name : String
  operands : List MachineOperand
  deriving DecidableEq, Repr

/-! ## Reading -/

/-- The operand that a word denotes. -/
def MachineOperand.read? : List Char → Option MachineOperand
  | '@' :: name => some (.register (String.ofList name))
  | '*' :: 'd' :: '*' :: name => some (.data (String.ofList name))
  | '*' :: name => some (.code (String.ofList name))
  | '#' :: rest =>
    match Text.integer? rest with
    | some n => some (.number n)
    | none => some (.label (String.ofList rest))
  | _ => none

/-- What stands between an instruction and its operands. -/
def isGap (c : Char) : Bool :=
  c = ' ' || c = ','

/-- The statement on a line of a machine text. It is indented, and a comment may stand behind it.
A line that begins with a number is a word of data. -/
def MachineStatement.read? (line : List Char) : Option MachineStatement :=
  match line.head?, Text.words isGap (line.takeWhile (· ≠ ';')) with
  | some ' ', name :: operands =>
    if name.head? = some '#' then none
    else (operands.mapM MachineOperand.read?).map fun operands => ⟨String.ofList name, operands⟩
  | _, _ => none

/-- **The statements on lines of a machine text.** -/
def machineStatements (lines : List (List Char)) : List MachineStatement :=
  lines.filterMap MachineStatement.read?

/-- The register that a line of a machine text gives another name: the name, and the register
behind it in quotes. -/
def readDefinition? : List Char → Option (String × String)
  | '#' :: line =>
    let rest := (line.dropWhile (· ≠ ' ')).drop 1
    if line.takeWhile (· ≠ ' ') = "define".toList then
      some (String.ofList (rest.takeWhile (· ≠ ' ')),
        String.ofList (((rest.dropWhile (· ≠ ' ')).drop 2).takeWhile (· ≠ '"')))
    else none
  | _ => none

/-- **The names that a machine text gives registers.** -/
def registerNames (target : String) : List (String × String) :=
  (Text.lines target).filterMap readDefinition?

/-! ## Words between gaps -/

namespace Text

variable {isSeparator : Char → Bool}

/-- A separator in front is skipped. -/
theorem words_cons_separator {sep : Char} (h : isSeparator sep = true) (cs : List Char) :
    words isSeparator (sep :: cs) = words isSeparator cs := by
  have hsplit : List.splitOnP isSeparator (sep :: cs) = [] :: List.splitOnP isSeparator cs :=
    List.splitOnP_append_cons_of_forall_mem (List.forall_mem_nil _) sep h cs
  rw [words, hsplit, words]
  rfl

theorem words_append_separators {front : List Char} (h : ∀ c ∈ front, isSeparator c = true)
    (cs : List Char) : words isSeparator (front ++ cs) = words isSeparator cs := by
  induction front with
  | nil => rfl
  | cons c front ih =>
    obtain ⟨hc, hfront⟩ := List.forall_mem_cons.1 h
    rw [List.cons_append, words_cons_separator hc, ih hfront]

/-- The first word of a text. -/
theorem words_word_append {word : List Char} (hne : word ≠ [])
    (hword : ∀ c ∈ word, isSeparator c = false) {sep : Char} (hsep : isSeparator sep = true)
    (cs : List Char) : words isSeparator (word ++ sep :: cs) = word :: words isSeparator cs := by
  rw [words, List.splitOnP_append_cons_of_forall_mem hword sep hsep, words]
  simp [hne]

/-- A word with nothing but separators behind it. -/
theorem words_word {word back : List Char} (hne : word ≠ [])
    (hword : ∀ c ∈ word, isSeparator c = false) (hback : ∀ c ∈ back, isSeparator c = true) :
    words isSeparator (word ++ back) = [word] := by
  cases back with
  | nil =>
    rw [List.append_nil, words, List.splitOnP_eq_singleton hword]
    simp [hne]
  | cons sep back =>
    obtain ⟨hsep, hback⟩ := List.forall_mem_cons.1 hback
    have hrest := words_append_separators hback []
    rw [List.append_nil] at hrest
    rw [words_word_append hne hword hsep, hrest]
    rfl

end Text

theorem isGap_of_isWordChar {c : Char} (h : isWordChar c = true) : isGap c = false := by
  unfold isGap
  rw [Bool.or_eq_false_iff, decide_eq_false_iff_not, decide_eq_false_iff_not]
  constructor <;> (rintro rfl; exact absurd h (by decide))

/-- Operands that are written with commas between them are found again. -/
theorem words_intercalate {operands : List String} (h : ∀ s ∈ operands, IsWord s.toList)
    {back : List Char} (hback : ∀ c ∈ back, isGap c = true) :
    Text.words isGap ((String.intercalate ", " operands).toList ++ back) =
      operands.map String.toList := by
  induction operands with
  | nil =>
    have hrest := Text.words_append_separators hback []
    rw [List.append_nil] at hrest
    rw [String.intercalate_nil]
    exact hrest
  | cons s operands ih =>
    obtain ⟨⟨hne, hs⟩, hrest⟩ := List.forall_mem_cons.1 h
    have hgap : ∀ c ∈ s.toList, isGap c = false := fun c hc => isGap_of_isWordChar (hs c hc)
    cases operands with
    | nil =>
      rw [String.intercalate_singleton]
      exact Text.words_word hne hgap hback
    | cons t operands =>
      -- a comma and a space are two separators in a row
      have htext : (String.intercalate ", " (s :: t :: operands)).toList ++ back =
          s.toList ++ ',' :: (' ' :: ((String.intercalate ", " (t :: operands)).toList ++
            back)) := by
        rw [String.intercalate_cons_cons]
        simp
      rw [htext, Text.words_word_append hne hgap (by decide), Text.words_cons_separator (by decide),
        ih hrest]
      rfl

/-! ## What machine lines say -/

namespace MachineOperand

/-- The operand as written. -/
def text : MachineOperand → String
  | register name => "@" ++ name
  | number n => "#" ++ Text.decimal n
  | label name => "#" ++ name
  | data name => "*d*" ++ name
  | code name => "*" ++ name

/-- The names in the operand are plain. -/
def Plain : MachineOperand → Prop
  | register name | label name | data name | code name => isPlainName true name.toList = true
  | number _ => True

theorem isWord_text {o : MachineOperand} (h : o.Plain) : IsWord o.text.toList := by
  have hmark : ∀ {mark s : String}, (∀ c ∈ mark.toList, isWordChar c = true) → IsWord s.toList →
      IsWord (mark ++ s).toList := by
    intro mark s hmark hs
    rw [String.toList_append]
    exact ⟨List.append_ne_nil_of_right_ne_nil _ hs.1, List.forall_mem_append.2 ⟨hmark, hs.2⟩⟩
  have hchars : isWordChar '@' = true ∧ isWordChar '#' = true ∧ isWordChar '*' = true ∧
      isWordChar 'd' = true := ⟨by decide, by decide, by decide, by decide⟩
  cases o with
  | number n => exact hmark (by simp [hchars]) (Arg.isWord_decimal n)
  | register | label | data | code => exact hmark (by simp [hchars]) (.of_isPlainName h)

/-- A plain name is no number. -/
theorem integer?_of_isPlainName {name : List Char} (h : isPlainName true name = true) :
    Text.integer? name = none := by
  obtain ⟨c, rest, rfl, hc⟩ := exists_cons_of_isPlainName h
  refine Text.integer?_eq_none ?_ ?_ ?_
  · by_contra hdigit
    exact isPlainStart_of_isDigit (by simpa using hdigit) hc
  · rintro rfl
    exact absurd hc (by decide)
  · rintro rfl
    exact absurd hc (by decide)

/-- A plain name has no star in it, so it is not taken for a block of data. -/
theorem read?_star {name : List Char} (h : isPlainName true name = true) :
    read? ('*' :: name) = some (code (String.ofList name)) := by
  have hstar : '*' ∉ name := fun hmem => absurd (isPlainName_chars h '*' hmem) (by decide)
  unfold read?
  split
  · next heq => cases heq
  · next rest heq =>
    rw [List.cons.injEq] at heq
    rw [heq.2] at hstar
    exact absurd (by simp) hstar
  · next heq =>
    cases heq
    rfl
  · next heq => cases heq
  · next hother _ => exact absurd rfl (hother _)

/-- **An operand is read back.** -/
theorem read?_text {o : MachineOperand} (h : o.Plain) : read? o.text.toList = some o := by
  cases o with
  | register name =>
    rw [text, String.toList_append]
    change some (register (String.ofList name.toList)) = _
    rw [String.ofList_toList]
  | number n =>
    rw [text, String.toList_append]
    change (match Text.integer? (Text.decimal n).toList with
      | some n => some (number n)
      | none => some (label (String.ofList (Text.decimal n).toList))) = _
    rw [Text.integer?_decimal]
  | data name =>
    rw [text, String.toList_append]
    change some (data (String.ofList name.toList)) = _
    rw [String.ofList_toList]
  | label name =>
    rw [text, String.toList_append]
    change (match Text.integer? name.toList with
      | some n => some (number n)
      | none => some (label (String.ofList name.toList))) = _
    rw [integer?_of_isPlainName h, String.ofList_toList]
  | code name =>
    rw [text, String.toList_append]
    refine (read?_star h).trans ?_
    rw [String.ofList_toList]

end MachineOperand

namespace MachineStatement

/-- The statement as written. -/
def text (s : MachineStatement) : String :=
  MachineInstruction.written s.name (s.operands.map MachineOperand.text)

/-- The name and the operands are words. -/
def Plain (s : MachineStatement) : Prop :=
  isPlainName false s.name.toList = true ∧ ∀ o ∈ s.operands, o.Plain

theorem mapM_read?_text {os : List MachineOperand} (h : ∀ o ∈ os, o.Plain) :
    ((os.map MachineOperand.text).map String.toList).mapM MachineOperand.read? = some os := by
  induction os with
  | nil => rfl
  | cons o os ih =>
    obtain ⟨ho, hos⟩ := List.forall_mem_cons.1 h
    rw [List.map_cons, List.map_cons, List.mapM_cons, MachineOperand.read?_text ho, ih hos]
    rfl

/-- The words of a statement. -/
theorem words_text {s : MachineStatement} (h : s.Plain) {back : List Char}
    (hback : ∀ c ∈ back, isGap c = true) :
    Text.words isGap (s.text.toList ++ back) =
      s.name.toList :: (s.operands.map MachineOperand.text).map String.toList := by
  have hoperands : ∀ t ∈ s.operands.map MachineOperand.text, IsWord t.toList :=
    List.forall_mem_map.2 fun o ho => MachineOperand.isWord_text (h.2 o ho)
  obtain ⟨hne, hname⟩ : IsWord s.name.toList := .of_isPlainName h.1
  have htext : s.text.toList ++ back = s.name.toList ++ ' ' ::
      ((String.intercalate ", " (s.operands.map MachineOperand.text)).toList ++ back) := by
    simp [text, MachineInstruction.written]
  rw [htext, Text.words_word_append hne (fun c hc => isGap_of_isWordChar (hname c hc)) (by decide),
    words_intercalate hoperands hback]

/-- No comment begins in a statement. -/
theorem semicolon_notMem_text {s : MachineStatement} (h : s.Plain) : ';' ∉ s.text.toList := by
  have hword : ∀ {cs : List Char}, IsWord cs → ';' ∉ cs := fun hcs => hcs.not_mem (by decide)
  have hoperands : ∀ ts : List String, (∀ t ∈ ts, IsWord t.toList) →
      ';' ∉ (String.intercalate ", " ts).toList := by
    intro ts hts
    induction ts with
    | nil => simp [String.intercalate_nil]
    | cons t ts ih =>
      obtain ⟨ht, hts⟩ := List.forall_mem_cons.1 hts
      cases ts with
      | nil =>
        rw [String.intercalate_singleton]
        exact hword ht
      | cons u ts =>
        have hcomma : ';' ∉ ", ".toList := by simp
        rw [String.intercalate_cons_cons, String.toList_append, String.toList_append,
          List.mem_append, List.mem_append, not_or, not_or]
        exact ⟨⟨hword ht, hcomma⟩, ih hts⟩
  have htexts : ∀ t ∈ s.operands.map MachineOperand.text, IsWord t.toList :=
    List.forall_mem_map.2 fun o ho => MachineOperand.isWord_text (h.2 o ho)
  have hspace : ';' ∉ " ".toList := by simp
  rw [text, MachineInstruction.written, String.toList_append, String.toList_append,
    List.mem_append, List.mem_append, not_or, not_or]
  exact ⟨⟨hword (.of_isPlainName h.1), hspace⟩, hoperands _ htexts⟩

/-- A line and its comment: spaces, and a semicolon in front of the comment. -/
theorem toList_withComment? (line : String) (note : Option String) :
    ∃ back tail, (∀ c ∈ back, c = ' ') ∧ (∀ c ∈ tail.head?, c = ';') ∧
      (MachineLine.withComment? line note).toList = line.toList ++ back ++ tail := by
  cases note with
  | none => exact ⟨[], [], nofun, nofun, by simp [MachineLine.withComment?]⟩
  | some comment =>
    obtain ⟨spaces, hspaces, htext⟩ := Text.toList_withComment line comment
    refine ⟨spaces, _, hspaces, ?_, htext⟩
    rintro c ⟨⟩
    rfl

/-- **A statement is read back** from its line, with or without a comment. -/
theorem read?_text {s : MachineStatement} (h : s.Plain) (note : Option String) :
    read? (MachineLine.withComment? (MachineLine.indentation ++ s.text) note).toList = some s := by
  obtain ⟨back, tail, hback, htail, htext⟩ :=
    toList_withComment? (MachineLine.indentation ++ s.text) note
  have hindent : (MachineLine.indentation ++ s.text).toList = [' ', ' ', ' '] ++ s.text.toList := by
    simp [MachineLine.indentation]
  -- nothing before the note is a semicolon, so the reader cuts the line where the note starts
  have hcode : ∀ c ∈ [' ', ' ', ' '] ++ s.text.toList ++ back, decide (c ≠ ';') = true := by
    have hstatement := semicolon_notMem_text h
    intro c hc
    rw [decide_eq_true_iff]
    rintro rfl
    rcases List.mem_append.1 hc with hc | hc
    · rcases List.mem_append.1 hc with hc | hc
      · simp at hc
      · exact hstatement hc
    · cases hback _ hc
  have hstop : ∀ c ∈ tail.head?, decide (c ≠ ';') = false := by
    intro c hc
    simp [htail c hc]
  have hwords : Text.words isGap ([' ', ' ', ' '] ++ s.text.toList ++ back) =
      s.name.toList :: (s.operands.map MachineOperand.text).map String.toList := by
    have hspaces : ∀ c ∈ [' ', ' ', ' '], isGap c = true := by simp [isGap]
    have hgap : ∀ c ∈ back, isGap c = true := by
      intro c hc
      rw [hback c hc]
      decide
    rw [List.append_assoc, Text.words_append_separators hspaces, words_text h hgap]
  -- a mnemonic is a name, so the line is not taken for a word of data
  have hname : ¬ s.name.toList.head? = some '#' := by
    obtain ⟨c, rest, hname, hc⟩ := exists_cons_of_isPlainName h.1
    rw [hname]
    rintro ⟨⟩
    exact absurd hc (by decide)
  unfold read?
  rw [htext, hindent, Text.takeWhile_append_stop hcode hstop, hwords]
  change (if s.name.toList.head? = some '#' then none else _) = _
  rw [if_neg hname, mapM_read?_text h.2, Option.map_some, String.ofList_toList]

end MachineStatement

/-! ## Machine lines -/

/-- The statement of an instruction. Those that only set the machine up have none here. -/
def MachineInstruction.statement? : MachineInstruction → Option MachineStatement
  | load r base offset => some ⟨"LOAD", [.register r.name, .register base.name, .number offset]⟩
  | loadGlobal r name => some ⟨"LOAD", [.register r.name, .register Reg.zero.name, .data name]⟩
  | store r base offset => some ⟨"STORE", [.register r.name, .register base.name, .number offset]⟩
  | storeGlobal r name => some ⟨"STORE", [.register r.name, .register Reg.zero.name, .data name]⟩
  | loadImmediate r value => some ⟨"LDI", [.register r.name, .number value]⟩
  | move d s => some ⟨"MOV", [.register d.name, .register s.name]⟩
  | alu op d a b => some ⟨op.aluName, [.register d.name, .register a.name, .register b.name]⟩
  | aluImmediate op d a k =>
    some ⟨op.aluName ++ "I", [.register d.name, .register a.name, .number k]⟩
  | call function => some ⟨"JAL", [.register Reg.edx.name, .code function]⟩
  | jump label => some ⟨"JMP", [.label label]⟩
  | jumpRegister r => some ⟨"JREG", [.register r.name]⟩
  | branchZero r label => some ⟨"BEQZ", [.register r.name, .label label]⟩
  | branchNonZero r label => some ⟨"BNEZ", [.register r.name, .label label]⟩
  | input r channel => some ⟨"IN", [.register r.name, .number channel]⟩
  | output r channel => some ⟨"OUT", [.register r.name, .number channel]⟩
  | enableDataMemory | disableInterrupts | resetStack => none

/-- The statement of a machine line. -/
def MachineLine.statement? : MachineLine → Option MachineStatement
  | instruction i _ => i.statement?
  | _ => none

namespace MachineInstruction

theorem text_eq {i : MachineInstruction} {s : MachineStatement} (h : i.statement? = some s) :
    i.text = s.text := by
  cases i <;> cases h <;> rfl

theorem plain_mk {name : String} {os : List MachineOperand}
    (hname : isPlainName false name.toList = true) (hos : ∀ o ∈ os, o.Plain) :
    MachineStatement.Plain ⟨name, os⟩ :=
  ⟨hname, hos⟩

theorem isPlainName_aluName (m : Mnemonic) :
    isPlainName false m.aluName.toList = true ∧
      isPlainName false (m.aluName ++ "I").toList = true := by
  cases m <;> decide

theorem plain_statement {i : MachineInstruction} {s : MachineStatement} (h : i.statement? = some s)
    (hnames : ∀ name ∈ i.names, isPlainName true name.toList = true) : s.Plain := by
  have hregister : ∀ r : Reg, (MachineOperand.register r.name).Plain := fun r =>
    isPlainName_true (Reg.isPlainName_name r)
  have hnumber : ∀ n : Int64, (MachineOperand.number n).Plain := fun _ => trivial
  cases i with
  | load | store | loadImmediate | move | jumpRegister | input | output =>
    cases h
    exact plain_mk (by decide) (by simp [hregister, hnumber])
  -- the operands that hold a name of the text
  | loadGlobal _ name | storeGlobal _ name | call name | jump name | branchZero _ name
  | branchNonZero _ name =>
    cases h
    have hname := hnames name List.mem_cons_self
    have hplain : (MachineOperand.data name).Plain ∧ (MachineOperand.code name).Plain ∧
        (MachineOperand.label name).Plain := ⟨hname, hname, hname⟩
    exact plain_mk (by decide) (by simp [hregister, hplain])
  | alu op =>
    cases h
    exact ⟨(isPlainName_aluName op).1, by simp [hregister]⟩
  | aluImmediate op =>
    cases h
    exact ⟨(isPlainName_aluName op).2, by simp [hregister, hnumber]⟩
  | enableDataMemory | disableInterrupts | resetStack => cases h

end MachineInstruction

namespace MachineLine

/-- The line is no instruction that sets the machine up. -/
def Runs : MachineLine → Prop
  | instruction i _ => i.statement?.isSome = true
  | _ => True

/-- **What a machine line says is read back from its text.** -/
theorem Spelled.read?_statement {l : MachineLine} (h : l.Spelled) (hruns : l.Runs) :
    MachineStatement.read? l.text.toList = l.statement? := by
  -- statements are indented; everything else but words of data starts at the margin
  have hmargin : ∀ {cs : List Char}, cs.head? ≠ some ' ' → MachineStatement.read? cs = none := by
    intro cs hcs
    unfold MachineStatement.read?
    split
    · next heq _ => exact absurd heq hcs
    · rfl
  cases l with
  | instruction i note =>
    obtain ⟨s, hs⟩ := Option.isSome_iff_exists.1 hruns
    rw [text, MachineInstruction.text_eq hs, statement?, hs]
    exact MachineStatement.read?_text (MachineInstruction.plain_statement hs h.1) note
  | define | blank | openBlock | closeBlock | label | comment =>
    exact hmargin fun hhead => Bool.false_ne_true (h.begins hhead)
  | word value =>
    -- a word of data is indented too, and told apart by its `#`
    obtain ⟨hne, hvalue⟩ := Arg.isWord_decimal value
    have htext : (word value).text.toList =
        [' ', ' ', ' '] ++ ('#' :: (Text.decimal value).toList ++ []) := by
      simp [text, indentation]
    have hcode : ∀ c ∈ [' ', ' ', ' '] ++ ('#' :: (Text.decimal value).toList ++ []),
        decide (c ≠ ';') = true := by
      have hsemicolon := (Arg.isWord_decimal value).not_mem (c := ';') (by decide)
      intro c hc
      rw [decide_eq_true_iff]
      rintro rfl
      simp [hsemicolon] at hc
    have hgap : ∀ c ∈ '#' :: (Text.decimal value).toList, isGap c = false :=
      List.forall_mem_cons.2 ⟨by decide, fun c hc => isGap_of_isWordChar (hvalue c hc)⟩
    have hspaces : ∀ c ∈ [' ', ' ', ' '], isGap c = true := by simp [isGap]
    unfold MachineStatement.read?
    rw [htext, List.takeWhile_eq_self_iff.2 hcode, Text.words_append_separators hspaces,
      Text.words_word (List.cons_ne_nil _ _) hgap (List.forall_mem_nil _)]
    rfl

end MachineLine

/-- The statements of machine lines are those of their texts. -/
theorem machineStatements_map_text {ls : List MachineLine} (h : ∀ l ∈ ls, l.Spelled)
    (hruns : ∀ l ∈ ls, l.Runs) :
    machineStatements (ls.map (·.text.toList)) = ls.filterMap MachineLine.statement? := by
  rw [machineStatements, List.filterMap_map]
  exact List.filterMap_congr fun l hl => (h l hl).read?_statement (hruns l hl)

/-! ## Names of registers -/

namespace MachineLine

/-- The register that a machine line gives another name. -/
def definition? : MachineLine → Option (String × String)
  | define name register => some (name, register)
  | _ => none

/-- The definition of a name is read back. -/
theorem readDefinition?_define {name register : String} (hname : IsWord name.toList)
    (hquotes : '"' ∉ register.toList) :
    readDefinition? (define name register).text.toList = some (name, register) := by
  obtain ⟨tail, htail⟩ := exists_toList_withComment?
    ("#define " ++ name ++ " \"" ++ register ++ "\"") (some "register definitions")
  -- the spaces and quotes at which the reader divides the line
  have htext : (define name register).text.toList =
      '#' :: ("define".toList ++ ' ' :: (name.toList ++ ' ' :: ('"' :: (register.toList ++
        '"' :: tail)))) := by
    rw [text, ← withComment?, htail]
    simp
  have hspace : ∀ {cs : List Char}, IsWord cs → ∀ c ∈ cs, decide (c ≠ ' ') = true := by
    intro cs hcs c hc
    rw [decide_eq_true_iff]
    rintro rfl
    exact hcs.not_mem (by decide) hc
  have hquote : ∀ c ∈ register.toList, decide (c ≠ '"') = true := by
    intro c hc
    rw [decide_eq_true_iff]
    rintro rfl
    exact hquotes hc
  have hstop : ∀ cs : List Char, ∀ c ∈ (' ' :: cs).head?, decide (c ≠ ' ') = false := by
    rintro cs c ⟨⟩
    decide
  have hend : ∀ c ∈ ('"' :: tail).head?, decide (c ≠ '"') = false := by
    rintro c ⟨⟩
    decide
  have hdefine : ∀ c ∈ "define".toList, decide (c ≠ ' ') = true := by simp
  rw [htext, readDefinition?, Text.takeWhile_append_stop hdefine (hstop _),
    Text.dropWhile_append_stop hdefine (hstop _), if_pos rfl]
  simp only [List.drop_succ_cons, List.drop_zero]
  rw [Text.takeWhile_append_stop (hspace hname) (hstop _),
    Text.dropWhile_append_stop (hspace hname) (hstop _)]
  simp only [List.drop_succ_cons, List.drop_zero]
  rw [Text.takeWhile_append_stop hquote hend, String.ofList_toList, String.ofList_toList]

/-- **What a machine line defines is read back from its text.** -/
theorem Spelled.readDefinition?_text {l : MachineLine} (h : l.Spelled)
    (hquotes : ∀ d ∈ l.definition?, '"' ∉ d.2.toList) :
    readDefinition? l.text.toList = l.definition? := by
  have hnone : ∀ {cs : List Char}, cs.head? ≠ some '#' → readDefinition? cs = none := by
    intro cs hcs
    unfold readDefinition?
    split
    · exact absurd rfl hcs
    · rfl
  cases l with
  | define name register => exact readDefinition?_define h.1 (hquotes _ rfl)
  | blank | openBlock | closeBlock | word | label | instruction | comment =>
    exact hnone fun hhead => Bool.false_ne_true (h.begins hhead)

end MachineLine

/-- **An expanded line gives no register another name.** -/
theorem Expanded.definition? {content : LineContent} {note : Option String}
    {isOpen isOpen' : Bool} {lines : List MachineLine}
    (h : Expanded ⟨content, note⟩ isOpen lines isOpen') (hcontent : content.Spelled)
    (hnote : ∀ s ∈ note, Text.OneLine s.toList) : lines.filterMap MachineLine.definition? = [] := by
  cases h with
  | blank | comment | label => rfl
  | frameless | global | function => cases isOpen <;> rfl
  | instruction hlines =>
    refine List.filterMap_eq_nil_iff.2 fun l hl => ?_
    have hinstructs := instructs_of_expandInstruction hlines hcontent hnote l hl
    cases l with
    | define => exact hinstructs.elim
    | _ => rfl

theorem ExpandedText.definition? {isOpen : Bool} {texts : List (List Char)}
    {lines : List MachineLine} (h : ExpandedText isOpen texts lines) :
    lines.filterMap MachineLine.definition? = [] := by
  induction h with
  | @nil isOpen => cases isOpen <;> rfl
  | cons _ hcontent hnote hfirst _ ih =>
    rw [List.filterMap_append, hfirst.definition? hcontent hnote, ih]
    rfl

/-- The special registers and the registers of the machine that they are. -/
def specialRegisters : List (String × String) :=
  [("eax", "r4"), ("edx", "r5"), ("ebp", "r6"), ("esp", "r7")]

/-- **An expanded text gives the special registers their names**, and no others. -/
theorem registerNames_of_expandText {source target : String}
    (h : (expandText source).value = .ok target) : registerNames target = specialRegisters := by
  obtain ⟨body, hbody, hspelled, rfl⟩ := exists_of_expandText h
  have hdefined : (machineHeader ++ body ++ machineStart).filterMap MachineLine.definition? =
      specialRegisters := by
    rw [List.filterMap_append, List.filterMap_append, hbody.definition?]
    rfl
  have hquotes : ∀ l ∈ machineHeader ++ body ++ machineStart,
      ∀ d ∈ l.definition?, '"' ∉ d.2.toList := by
    have hspecial : ∀ d ∈ specialRegisters, '"' ∉ d.2.toList := by simp [specialRegisters]
    intro l hl d hd
    exact hspecial d (hdefined ▸ List.mem_filterMap.2 ⟨l, hl, hd⟩)
  rw [registerNames, lines_renderMachineLines hspelled, List.filterMap_map, ← hdefined]
  exact List.filterMap_congr fun l hl => (hspelled l hl).readDefinition?_text (hquotes l hl)

end WordC
