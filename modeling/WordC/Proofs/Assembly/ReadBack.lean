import WordC.Proofs.Assembly.Operands
/-!
# Lines of assembly are read back

The code of a line is found between the blanks and the comment around it, and
its first and last characters say what kind of line it is. So a line is read
back from its text, and a text of lines line by line.
-/

namespace WordC

/-! ## The code of a line -/

/-- The code of a line, which has no blanks around it and neither a comment nor
a line break in it. -/
structure IsCode (cs : List Char) : Prop where
  nonempty : cs ≠ []
  trimmed : Text.Trimmed cs
  chars : ∀ c ∈ cs, isWordChar c = true ∨ c = ' ' ∨ c = ':'

theorem IsCode.semicolon_not_mem {cs : List Char} (h : IsCode cs) : ';' ∉ cs :=
  fun hmem => absurd (h.chars ';' hmem) (by decide)

theorem IsCode.not_lineBreak {cs : List Char} (h : IsCode cs) :
    ∀ c ∈ cs, c ≠ '\n' ∧ c ≠ '\r' := by
  intro c hc
  refine ⟨?_, ?_⟩
  all_goals
    rintro rfl
    exact absurd (h.chars _ hc) (by decide)

/-- The mnemonic and the operands of an instruction, with a space before each
operand. -/
def instructionCode (mnemonic : Mnemonic) (args : List Arg) : List Char :=
  mnemonic.name.toList ++ args.flatMap fun a => ' ' :: a.text.toList

theorem Mnemonic.isPlainName_name (m : Mnemonic) : isPlainName false m.name.toList = true := by
  cases m <;> decide

theorem Mnemonic.ofName?_name (m : Mnemonic) : ofName? m.name.toList = some m := by
  cases m <;> decide

/-- Code that begins like a name is a label if a colon ends it, and an
instruction otherwise. -/
theorem readCode?_cons {c : Char} (hc : isPlainStart c = true) (rest : List Char) :
    readCode? (c :: rest) =
      if (c :: rest).getLast? = some ':' then
        (readName? true (c :: rest)).map fun name => .line (.label name)
      else (readInstruction? (c :: rest)).map .line := by
  have hne : ∀ d, isPlainStart d = false → c ≠ d := by
    rintro d hd rfl
    rw [hc] at hd
    cases hd
  rw [readCode?]
  · exact fun _ h => hne '@' (by decide) (List.cons.inj h).1
  · exact fun _ h => hne '$' (by decide) (List.cons.inj h).1
  · exact fun _ h => hne '&' (by decide) (List.cons.inj h).1

section Instruction

variable (m : Mnemonic) {args : List Arg} (h : ∀ a ∈ args, IsWord a.text.toList)

include h

theorem instructionCode_chars : ∀ c ∈ instructionCode m args, isWordChar c = true ∨ c = ' ' := by
  intro c hc
  rcases List.mem_append.mp hc with hc | hc
  · exact .inl ((IsWord.of_isPlainName m.isPlainName_name).2 c hc)
  · obtain ⟨a, ha, hc⟩ := List.mem_flatMap.mp hc
    rcases List.mem_cons.mp hc with rfl | hc
    · exact .inr rfl
    · exact .inl ((h a ha).2 c hc)

theorem instructionCode_trimmed : Text.Trimmed (instructionCode m args) := by
  have hrun : ∀ word : List Char, Text.Trimmed word → word ≠ [] →
      Text.Trimmed (word ++ args.flatMap fun a => ' ' :: a.text.toList) := by
    induction args with
    | nil =>
      intro word hword _
      rwa [List.flatMap_nil, List.append_nil]
    | cons a args ih =>
      intro word hword hne
      obtain ⟨ha, hargs⟩ := List.forall_mem_cons.mp h
      have hlonger : Text.Trimmed (word ++ ([' '] ++ a.text.toList)) :=
        hword.enclose ha.trimmed hne ha.1 [' ']
      have hall := ih hargs _ hlonger (by simp)
      rwa [List.append_assoc, List.append_assoc] at hall
  have hname := IsWord.of_isPlainName m.isPlainName_name
  exact hrun _ hname.trimmed hname.1

theorem isCode_instructionCode : IsCode (instructionCode m args) where
  nonempty := List.append_ne_nil_of_left_ne_nil (IsWord.of_isPlainName m.isPlainName_name).1 _
  trimmed := instructionCode_trimmed m h
  chars c hc := (instructionCode_chars m h c hc).imp_right .inl

/-- The mnemonic and the operands are the words of the code. -/
theorem readInstruction?_code :
    readInstruction? (instructionCode m args) =
      ((args.map (·.text.toList)).mapM Arg.read?).map (.plain m) := by
  have hseparator : ∀ {w : List Char}, IsWord w → w ≠ [] ∧
      ∀ c ∈ w, (Text.isBlank c || decide (c = ',')) = false := by
    intro w hw
    refine ⟨hw.1, fun c hc => ?_⟩
    have hcomma : c ≠ ',' := by
      rintro rfl
      exact hw.not_mem (by decide) hc
    simp [isBlank_of_isWordChar (hw.2 c hc), hcomma]
  have hwords : Text.words (fun c => Text.isBlank c || c = ',') (instructionCode m args) =
      m.name.toList :: args.map (·.text.toList) := by
    have hspace : (Text.isBlank ' ' || decide (' ' = ',')) = true := by decide
    -- no piece has a blank or a comma in it, so the separators divide the text into the pieces
    have hpieces : ∀ w ∈ m.name.toList :: args.map (·.text.toList), w ≠ [] ∧
        ∀ c ∈ w, (Text.isBlank c || decide (c = ',')) = false := by
      refine List.forall_mem_cons.mpr ⟨hseparator (.of_isPlainName m.isPlainName_name), ?_⟩
      exact List.forall_mem_map.mpr fun a ha => hseparator (h a ha)
    have hfound := Text.words_join hspace m.name.toList (args.map (·.text.toList)) hpieces
    rwa [List.flatMap_map] at hfound
  rw [readInstruction?, hwords]
  simp only [Mnemonic.ofName?_name, Option.map_eq_bind]
  rfl

/-- The code of an instruction is taken for nothing else. -/
theorem readCode?_instruction :
    readCode? (instructionCode m args) =
      ((args.map (·.text.toList)).mapM Arg.read?).map fun args => .line (.plain m args) := by
  have hread := readInstruction?_code m h
  have hlast : (instructionCode m args).getLast? ≠ some ':' := by
    intro hlast
    have hchars := instructionCode_chars m h ':' (List.mem_of_getLast? hlast)
    exact absurd hchars (by decide)
  obtain ⟨c, rest, hname, hc⟩ := exists_cons_of_isPlainName m.isPlainName_name
  have hcode : instructionCode m args =
      c :: (rest ++ args.flatMap fun a => ' ' :: a.text.toList) := by
    rw [instructionCode, hname, List.cons_append]
  rw [hcode] at hlast hread ⊢
  rw [readCode?_cons hc, if_neg hlast, hread, Option.map_map]
  rfl

end Instruction

section Names

variable {name : String} (h : IsWord name.toList)

include h

theorem readName?_concat (dots : Bool) :
    readName? dots (name.toList ++ [':']) =
      if isPlainName dots name.toList then some name else none := by
  simp [readName?, dropFinal?_concat, Text.trim_eq_self h.trimmed]

/-- The beginning of a function is read if its name is plain. -/
theorem readCode?_function :
    readCode? ('$' :: (name.toList ++ [':'])) =
      if isPlainName false name.toList then some (.line (.function name)) else none := by
  rw [readCode?, readName?_concat h]
  split <;> rfl

/-- A file-scope word is read if its name is plain. -/
theorem readCode?_global (value : Int64) :
    readCode? ('@' :: (name.toList ++ ':' :: ' ' :: (Text.decimal value).toList)) =
      if isPlainName false name.toList then some (.line (.global name value)) else none := by
  have hcolon : ∀ c ∈ name.toList, decide (c ≠ ':') = true := by
    intro c hc
    have hne : c ≠ ':' := by
      rintro rfl
      exact h.not_mem (by decide) hc
    simpa using hne
  have hstop : ∀ c ∈ (':' :: ' ' :: (Text.decimal value).toList).head?,
      decide (c ≠ ':') = false := by
    rintro c ⟨rfl⟩
    decide
  -- the first colon ends the name
  have htake := Text.takeWhile_append_stop hcolon hstop
  have hname := Text.trim_eq_self h.trimmed
  have hvalue := Text.trim_space_cons (Arg.isWord_decimal value).trimmed
  have hread : readGlobal? (name.toList ++ ':' :: ' ' :: (Text.decimal value).toList) =
      if isPlainName false name.toList then some (.global name value) else none := by
    simp only [readGlobal?, htake, List.drop_left, hvalue, hname, Text.integer?_decimal,
      String.ofList_toList]
    rfl
  rw [readCode?, hread]
  split <;> rfl

end Names

theorem readCode?_label {name : String} (h : isPlainName true name.toList = true) :
    readCode? (name.toList ++ [':']) = some (.line (.label name)) := by
  have hread := readName?_concat (.of_isPlainName h) true
  obtain ⟨c, rest, hname, hc⟩ := exists_cons_of_isPlainName h
  rw [if_pos h] at hread
  rw [hname, List.cons_append] at hread ⊢
  have hlast : (c :: (rest ++ [':'])).getLast? = some ':' := by
    rw [← List.cons_append]
    exact List.getLast?_concat
  rw [readCode?_cons hc, if_pos hlast, hread]
  rfl

/-! ## Lines -/

/-- A line whose names can be read back. -/
def Line.Legible : Line → Prop
  | global name _ | function name => isPlainName false name.toList = true
  | label name => isPlainName true name.toList = true
  | instruction _ args _ => ∀ a ∈ args, a.Legible
  | comment _ => True

/-- A line whose names and operands are words. -/
def Line.Worded : Line → Prop
  | global name _ | function name | label name => IsWord name.toList
  | instruction _ args _ => ∀ a ∈ args, IsWord a.text.toList
  | comment _ => True

theorem Line.Legible.worded {l : Line} (h : l.Legible) : l.Worded := by
  cases l with
  | global name value => exact .of_isPlainName h
  | function name => exact .of_isPlainName h
  | label name => exact .of_isPlainName h
  | instruction m args note => exact fun a ha => Arg.isWord_text (h a ha)
  | comment text => trivial

/-- The comments of a line. -/
def Line.notes : Line → List String
  | instruction _ _ note => note.toList
  | comment text => [text]
  | global .. | function _ | label _ => []

/-- A text that is kept as a comment: it is not empty, no white space is around
it, and it is one line. -/
structure IsNote (s : String) : Prop where
  nonempty : s.toList ≠ []
  trimmed : Text.Trimmed s.toList
  oneLine : '\n' ∉ s.toList

/-- The comment that is read from the text behind a semicolon. -/
def readNote? (cs : List Char) : Option String :=
  if (Text.trim cs).isEmpty then none else some (String.ofList (Text.trim cs))

/-- A line as it is read: an instruction is kept apart from its comment. -/
def Line.asRead : Line → ReadLine
  | instruction mnemonic args note => ⟨.line (.plain mnemonic args), note⟩
  | line => ⟨.line line, none⟩

theorem readNote?_of_isNote {s : String} (h : IsNote s) : readNote? (' ' :: s.toList) = some s := by
  have htrim := Text.trim_space_cons h.trimmed
  have hsome : ¬s.toList.isEmpty = true := by simpa using h.nonempty
  rw [readNote?, htrim, if_neg hsome, String.ofList_toList]

/-- A line without code is its comment, or blank. The comment of any other line stands behind
its code. -/
theorem readLine?_eq (text : List Char) :
    readLine? text =
      if (Text.trim (text.takeWhile (· ≠ ';'))).isEmpty then
        some ((readNote? ((text.dropWhile (· ≠ ';')).drop 1)).elim ⟨.blank, none⟩
          fun note => ⟨.line (.comment note), none⟩)
      else (readCode? (Text.trim (text.takeWhile (· ≠ ';')))).map fun content =>
        ⟨content, readNote? ((text.dropWhile (· ≠ ';')).drop 1)⟩ := by
  simp only [readLine?, readNote?]
  congr 1
  split
  · next hnote =>
    rw [hnote]
    rfl
  · next hnote =>
    rw [hnote]
    rfl

/-- Code with blanks around it, and behind it a comment or nothing. -/
theorem readLine?_code {front code back tail : List Char} (hfront : ∀ c ∈ front, c = ' ')
    (hcode : IsCode code) (hback : ∀ c ∈ back, c = ' ') (htail : ∀ c ∈ tail.head?, c = ';') :
    readLine? (front ++ code ++ back ++ tail) =
      (readCode? code).map fun content => ⟨content, readNote? (tail.drop 1)⟩ := by
  have hbefore : ∀ c ∈ front ++ code ++ back, decide (c ≠ ';') = true := by
    intro c hc
    have hne : c ≠ ';' := by
      rintro rfl
      rcases List.mem_append.mp hc with hc | hc
      · rcases List.mem_append.mp hc with hc | hc
        · exact absurd (hfront ';' hc) (by decide)
        · exact hcode.semicolon_not_mem hc
      · exact absurd (hback ';' hc) (by decide)
    simpa using hne
  have hstop : ∀ c ∈ tail.head?, decide (c ≠ ';') = false := by
    intro c hc
    rw [htail c hc]
    decide
  -- the first semicolon is the one of the comment
  have hpart := Text.takeWhile_append_stop hbefore hstop
  have hrest := Text.dropWhile_append_stop hbefore hstop
  have hblank := Text.trim_append (Text.isBlank_of_spaces hfront) (Text.isBlank_of_spaces hback)
    hcode.trimmed
  have hsome : ¬code.isEmpty = true := by simpa using hcode.nonempty
  simp only [readLine?, hpart, hrest, hblank, if_neg hsome, readNote?]

namespace Line

theorem toList_indented (m : Mnemonic) (args : List Arg) :
    ("    " ++ m.name ++ String.join (args.map fun a => " " ++ a.text)).toList =
      List.replicate 4 ' ' ++ instructionCode m args := by
  simp only [String.toList_append, String.toList_join, List.flatMap_map, List.append_assoc,
    instructionCode]
  rfl

/-- What stands behind the code of an instruction. -/
def commentTail : Option String → List Char
  | some note => ';' :: ' ' :: note.toList
  | none => []

/-- The text of an instruction is its code behind four spaces, and behind it
its comment. -/
theorem toList_text_instruction (m : Mnemonic) (args : List Arg) (note : Option String) :
    ∃ back, (∀ c ∈ back, c = ' ') ∧ (instruction m args note).text.toList =
        List.replicate 4 ' ' ++ instructionCode m args ++ back ++ commentTail note := by
  cases note with
  | none =>
    refine ⟨[], nofun, ?_⟩
    rw [← toList_indented, commentTail, List.append_nil, List.append_nil]
    rfl
  | some note =>
    obtain ⟨spaces, hspaces, htext⟩ := Text.toList_withComment
      ("    " ++ m.name ++ String.join (args.map fun a => " " ++ a.text)) note
    refine ⟨spaces, hspaces, ?_⟩
    rw [← toList_indented]
    exact htext

/-- An instruction is read as its operands are, whatever its comment is. -/
theorem readLine?_instruction (m : Mnemonic) {args : List Arg}
    (h : ∀ a ∈ args, IsWord a.text.toList) (note : Option String) :
    readLine? (instruction m args note).text.toList =
      ((args.map (·.text.toList)).mapM Arg.read?).map fun args =>
        ⟨.line (.plain m args), readNote? ((commentTail note).drop 1)⟩ := by
  obtain ⟨back, hback, htext⟩ := toList_text_instruction m args note
  have hfront : ∀ c ∈ List.replicate 4 ' ', c = ' ' := fun c hc => List.eq_of_mem_replicate hc
  have htail : ∀ c ∈ (commentTail note).head?, c = ';' := by
    cases note with
    | none => exact nofun
    | some note =>
      rintro c ⟨rfl⟩
      rfl
  rw [htext, readLine?_code hfront (isCode_instructionCode m h) hback htail,
    readCode?_instruction m h, Option.map_map]
  rfl

/-- A line without a comment is read as its code. -/
theorem readLine?_bare {code : List Char} (h : IsCode code) :
    readLine? code = (readCode? code).map fun content => ⟨content, none⟩ := by
  have hread : readLine? ([] ++ code ++ [] ++ []) =
      (readCode? code).map fun content => ⟨content, none⟩ :=
    readLine?_code nofun h nofun nofun
  rwa [List.nil_append, List.append_nil, List.append_nil] at hread

theorem toList_text_global (name : String) (value : Int64) :
    (global name value).text.toList =
      '@' :: (name.toList ++ ':' :: ' ' :: (Text.decimal value).toList) := by
  simp only [text, String.toList_append, List.append_assoc]
  rfl

theorem toList_text_function (name : String) :
    (function name).text.toList = '$' :: (name.toList ++ [':']) := by
  simp only [text, String.toList_append, List.append_assoc]
  rfl

theorem toList_text_label (name : String) : (label name).text.toList = name.toList ++ [':'] := by
  rw [text, String.toList_append]
  rfl

theorem toList_text_comment (text : String) :
    (comment text).text.toList = ';' :: ' ' :: text.toList := by
  rw [Line.text, String.toList_append]
  rfl

theorem trimmed_singleton {c : Char} (h : Text.isBlank c = false) : Text.Trimmed [c] :=
  .of_forall (List.forall_mem_singleton.mpr h)

theorem isCode_global {name : String} (h : IsWord name.toList) (value : Int64) :
    IsCode (global name value).text.toList := by
  have hvalue := Arg.isWord_decimal value
  have hat : Text.Trimmed ['@'] := trimmed_singleton (by decide)
  rw [toList_text_global]
  refine ⟨List.cons_ne_nil _ _, ?_, ?_⟩
  · have henclosed := hat.enclose hvalue.trimmed (List.cons_ne_nil _ _) hvalue.1
      (name.toList ++ [':', ' '])
    rwa [List.append_assoc] at henclosed
  · simp only [List.forall_mem_cons, List.forall_mem_append]
    exact ⟨by decide, fun c hc => .inl (h.2 c hc), by decide, by decide,
      fun c hc => .inl (hvalue.2 c hc)⟩

theorem isCode_function {name : String} (h : IsWord name.toList) :
    IsCode (function name).text.toList := by
  have hdollar : Text.Trimmed ['$'] := trimmed_singleton (by decide)
  have hcolon : Text.Trimmed [':'] := trimmed_singleton (by decide)
  rw [toList_text_function]
  refine ⟨List.cons_ne_nil _ _, ?_, ?_⟩
  · exact hdollar.enclose hcolon (List.cons_ne_nil _ _) (List.cons_ne_nil _ _) name.toList
  · simp only [List.forall_mem_cons, List.forall_mem_append]
    exact ⟨by decide, fun c hc => .inl (h.2 c hc), by decide, nofun⟩

theorem isCode_label {name : String} (h : IsWord name.toList) :
    IsCode (label name).text.toList := by
  have hcolon : Text.Trimmed [':'] := trimmed_singleton (by decide)
  rw [toList_text_label]
  refine ⟨List.append_ne_nil_of_left_ne_nil h.1 _, ?_, ?_⟩
  · exact h.trimmed.enclose hcolon h.1 (List.cons_ne_nil _ _) []
  · simp only [List.forall_mem_cons, List.forall_mem_append]
    exact ⟨fun c hc => .inl (h.2 c hc), by decide, nofun⟩

/-- A file-scope word is read if its name is plain. -/
theorem readLine?_global {name : String} (h : IsWord name.toList) (value : Int64) :
    readLine? (global name value).text.toList =
      if isPlainName false name.toList then some ⟨.line (.global name value), none⟩ else none := by
  rw [readLine?_bare (isCode_global h value), toList_text_global, readCode?_global h]
  split <;> rfl

/-- The beginning of a function is read if its name is plain. -/
theorem readLine?_function {name : String} (h : IsWord name.toList) :
    readLine? (function name).text.toList =
      if isPlainName false name.toList then some ⟨.line (.function name), none⟩ else none := by
  rw [readLine?_bare (isCode_function h), toList_text_function, readCode?_function h]
  split <;> rfl

/-- A comment is read as a comment, or as a blank line if nothing is in it. -/
theorem readLine?_comment (text : String) :
    readLine? (comment text).text.toList =
      some ((readNote? (' ' :: text.toList)).elim ⟨.blank, none⟩
        fun note => ⟨.line (.comment note), none⟩) := by
  rw [toList_text_comment, readLine?_eq]
  rfl

/-- A line is read back. -/
theorem readLine?_text {l : Line} (h : l.Legible) (hnotes : ∀ s ∈ l.notes, IsNote s) :
    readLine? l.text.toList = some l.asRead := by
  cases l with
  | global name value =>
    rw [readLine?_global (.of_isPlainName h) value]
    exact if_pos h
  | function name =>
    rw [readLine?_function (.of_isPlainName h)]
    exact if_pos h
  | label name =>
    rw [readLine?_bare (isCode_label (.of_isPlainName h)), toList_text_label, readCode?_label h]
    rfl
  | instruction m args note =>
    have hwords : ∀ a ∈ args, IsWord a.text.toList := Legible.worded h
    rw [readLine?_instruction m hwords, Arg.mapM_read?_text h, Option.map_some, asRead]
    cases note with
    | none => rfl
    | some note =>
      have hnote := readNote?_of_isNote (hnotes note List.mem_cons_self)
      rw [commentTail, List.drop_one, List.tail_cons, hnote]
  | comment text =>
    have hnote := readNote?_of_isNote (hnotes text List.mem_cons_self)
    rw [readLine?_comment, hnote]
    rfl

theorem oneLine_commentTail {note : Option String}
    (h : ∀ s ∈ note.toList, Text.OneLine s.toList) : Text.OneLine (commentTail note) := by
  cases note with
  | none => exact ⟨nofun, nofun⟩
  | some note =>
    have hmark : ∀ c ∈ [';', ' '], c ≠ '\n' ∧ c ≠ '\r' := by
      simp only [List.forall_mem_cons]
      exact ⟨by decide, by decide, nofun⟩
    exact .append hmark (h note List.mem_cons_self)

/-- A line is one line of text if its comments are. -/
theorem oneLine_text {l : Line} (h : l.Worded)
    (hnotes : ∀ s ∈ l.notes, Text.OneLine s.toList) : Text.OneLine l.text.toList := by
  cases l with
  | global name value => exact .of_forall (isCode_global h value).not_lineBreak
  | function name => exact .of_forall (isCode_function h).not_lineBreak
  | label name => exact .of_forall (isCode_label h).not_lineBreak
  | instruction m args note =>
    obtain ⟨back, hback, htext⟩ := toList_text_instruction m args note
    have hspace : ∀ c : Char, c = ' ' → c ≠ '\n' ∧ c ≠ '\r' := by
      rintro c rfl
      decide
    rw [htext]
    refine .append ?_ (oneLine_commentTail hnotes)
    simp only [List.forall_mem_append]
    exact ⟨⟨fun c hc => hspace c (List.eq_of_mem_replicate hc),
      (isCode_instructionCode m h).not_lineBreak⟩, fun c hc => hspace c (hback c hc)⟩
  | comment text =>
    have htail : Text.OneLine (commentTail (some text)) := oneLine_commentTail hnotes
    rw [toList_text_comment]
    exact htail

end Line

theorem IsNote.oneLine_toList {s : String} (h : IsNote s) : Text.OneLine s.toList := by
  refine ⟨h.oneLine, fun hlast => ?_⟩
  exact absurd (h.trimmed.2 '\r' hlast) (by decide)

/-- The lines of a text of lines are their texts. -/
theorem lines_renderLines {ls : List Line} (h : ∀ l ∈ ls, Text.OneLine l.text.toList) :
    Text.lines (renderLines ls) = ls.map (·.text.toList) := by
  have htext : (renderLines ls).toList = (ls.map (·.text.toList)).flatMap (· ++ ['\n']) := by
    simp [renderLines, List.flatMap_map]
  rw [Text.lines, htext]
  exact Text.linesFrom_flatMap _ (List.forall_mem_map.mpr h)

/-- **Assembly is read back.** A line with plain names is read back from its
text, with the comment of an instruction beside it, and a text of such lines is
read back line by line. -/
theorem renderLines_readBack (ls : List Line) (h : ∀ l ∈ ls, l.Legible)
    (hnotes : ∀ l ∈ ls, ∀ s ∈ l.notes, IsNote s) :
    (∀ l ∈ ls, readLine? l.text.toList = some l.asRead) ∧
      (Text.lines (renderLines ls)).map readLine? = ls.map fun l => some l.asRead := by
  have hread : ∀ l ∈ ls, readLine? l.text.toList = some l.asRead :=
    fun l hl => Line.readLine?_text (h l hl) (hnotes l hl)
  have hlines : ∀ l ∈ ls, Text.OneLine l.text.toList :=
    fun l hl => Line.oneLine_text (h l hl).worded fun s hs => (hnotes l hl s hs).oneLine_toList
  refine ⟨hread, ?_⟩
  rw [lines_renderLines hlines, List.map_map]
  exact List.map_congr_left hread

/-- Lines with the ends of the number range, a comment that holds a semicolon,
and the name of a register that does not exist. -/
def extremeLines : List Line :=
  [.global "_g" Int64.minValue,
   .function "main",
   .label "main.while_1_start",
   .noted .load [.reg (.general 255), .mem .ebp Int64.minValue] "a ; b",
   .plain .call [.label "r256"],
   .comment "größe"]

theorem renderLines_readBack_extremeLines :
    (∀ l ∈ extremeLines, l.Legible) ∧ (∀ l ∈ extremeLines, ∀ s ∈ l.notes, IsNote s) ∧
      (∀ l ∈ extremeLines, readLine? l.text.toList = some l.asRead) ∧
      (Text.lines (renderLines extremeLines)).map readLine? =
        extremeLines.map fun l => some l.asRead := by
  -- `r256` is past the last register, so it reads as a label
  have htarget : ¬IsRegisterName "r256".toList := by
    rintro (hspecial | ⟨digits, n, hname, hvalue, _, hn⟩)
    · exact absurd hspecial (by decide)
    · have hdigits : digits = ['2', '5', '6'] := by
        have hlist : "r256".toList.map Char.toLower = ['r', '2', '5', '6'] := by decide
        rw [hlist] at hname
        exact (List.cons.inj hname).2.symm
      rw [hdigits] at hvalue
      have hn' : n = 256 := (Option.some.inj hvalue).symm
      omega
  have hlegible : ∀ l ∈ extremeLines, l.Legible := by
    simp only [extremeLines, List.forall_mem_cons]
    refine ⟨?_, ?_, ?_, ?_, ?_, trivial, nofun⟩
    · exact (by decide : isPlainName false "_g".toList = true)
    · exact (by decide : isPlainName false "main".toList = true)
    · exact (by decide : isPlainName true "main.while_1_start".toList = true)
    · exact List.forall_mem_cons.mpr ⟨(by decide : (255 : UInt8) ≠ 0),
        List.forall_mem_singleton.mpr trivial⟩
    · exact List.forall_mem_singleton.mpr ⟨by decide, htarget⟩
  have hnotes : ∀ l ∈ extremeLines, ∀ s ∈ l.notes, IsNote s := by
    simp only [extremeLines, List.forall_mem_cons]
    refine ⟨nofun, nofun, nofun, ?_, nofun, ?_, nofun⟩
    all_goals
      refine List.forall_mem_singleton.mpr ⟨by decide, ⟨?_, ?_⟩, by decide⟩
      all_goals
        rintro c ⟨rfl⟩
        decide
  exact ⟨hlegible, hnotes, renderLines_readBack extremeLines hlegible hnotes⟩

end WordC
