import Mathlib
import WordC.Proofs.Machine.Spelling
/-!
# The blocks of a machine text

The blocks that a machine text opens can be read from its lines (`blockNames`). They are
those of the text it was expanded from, one for each function and each file-scope word and
in the same order, with the block that starts the machine behind them
(`blockNames_of_expandText`).
-/

namespace WordC

/-! ## Marks -/

/-- Where a block begins or ends. -/
inductive BlockMark where
  | opens (kind : BlockKind) (name : String)
  | closes
  deriving DecidableEq, Repr

/-- The kind of block that a word stands for. -/
def BlockKind.ofWord? (word : List Char) : Option BlockKind :=
  [code, data].find? fun kind => kind.word.toList = word

namespace BlockMark

/-- The mark that a line of a machine text is. An opening line has the kind of the block and
its name, with spaces behind them. -/
def read? : List Char → Option BlockMark
  | '@' :: text =>
    if text = "\x7d".toList then some closes
    else
      (BlockKind.ofWord? (text.takeWhile (· ≠ ' '))).map fun kind =>
        opens kind (String.ofList (((text.dropWhile (· ≠ ' ')).drop 1).takeWhile (· ≠ ' ')))
  | _ => none

/-- The name of a block of the given kind that is opened. -/
def name? (kind : BlockKind) : BlockMark → Option String
  | opens kind' name => if kind' = kind then some name else none
  | closes => none

end BlockMark

/-- **The names of the blocks that a machine text opens**, of the given kind and in order. -/
def blockNames (kind : BlockKind) (target : String) : List String :=
  (Text.lines target).filterMap fun line => (BlockMark.read? line).bind (BlockMark.name? kind)

/-- The mark that a machine line is. -/
def MachineLine.mark? : MachineLine → Option BlockMark
  | openBlock kind name _ => some (.opens kind name)
  | closeBlock => some .closes
  | _ => none

/-- The name of the block of the given kind that a machine line opens. -/
def MachineLine.opened? (kind : BlockKind) (l : MachineLine) : Option String :=
  l.mark?.bind (BlockMark.name? kind)

/-- The name of the block of the given kind that a line of assembly stands for. -/
def LineContent.opened? (kind : BlockKind) : LineContent → Option String
  | line (.function name) | frameless name => if kind = .code then some name else none
  | line (.global name _) => if kind = .data then some name else none
  | _ => none

theorem BlockMark.read?_eq_none {text : List Char} (h : text.head? ≠ some '@') :
    read? text = none := by
  unfold read?
  split
  · exact absurd rfl h
  · rfl

namespace MachineLine

theorem exists_toList_withComment? (line : String) (note : Option String) :
    ∃ tail, (withComment? line note).toList = line.toList ++ tail := by
  cases note with
  | none => exact ⟨[], (List.append_nil _).symm⟩
  | some s =>
    obtain ⟨spaces, -, htext⟩ := Text.toList_withComment line s
    exact ⟨spaces ++ ';' :: ' ' :: s.toList, htext.trans (List.append_assoc _ _ _)⟩

/-- An opening line is read back. -/
theorem read?_openBlock (kind : BlockKind) {name : String} (note : Option String)
    (h : isPlainName false name.toList = true) :
    BlockMark.read? (openBlock kind name note).text.toList = some (.opens kind name) := by
  obtain ⟨tail, htail⟩ :=
    exists_toList_withComment? ("@" ++ kind.word ++ " " ++ name ++ " \x7b") note
  have htext : (openBlock kind name note).text.toList =
      '@' :: (kind.word.toList ++ ' ' :: (name.toList ++ ' ' :: ('\x7b' :: tail))) := by
    rw [text, htail]
    simp
  have hword : ∀ c ∈ kind.word.toList, decide (c ≠ ' ') = true := by
    cases kind <;> simp [BlockKind.word]
  have hname : ∀ c ∈ name.toList, decide (c ≠ ' ') = true := by
    intro c hc
    have hspace : ' ' ∉ name.toList := (IsWord.of_isPlainName h).not_mem (by decide)
    rw [decide_eq_true_iff]
    rintro rfl
    exact hspace hc
  -- the reader divides the line at its spaces, and neither the word nor the name has one
  have hstop : ∀ cs : List Char, ∀ c ∈ (' ' :: cs).head?, decide (c ≠ ' ') = false := by
    rintro cs c ⟨⟩
    decide
  have hkind : BlockKind.ofWord? kind.word.toList = some kind := by
    cases kind <;> decide
  rw [htext, BlockMark.read?, if_neg ?_, Text.takeWhile_append_stop hword (hstop _), hkind,
    Text.dropWhile_append_stop hword (hstop _), List.drop_one, List.tail_cons,
    Text.takeWhile_append_stop hname (hstop _), Option.map_some, String.ofList_toList]
  cases kind <;> simp [BlockKind.word]

/-- The characters that a machine line may begin with. -/
def begins : MachineLine → Char → Bool
  | define _ _, c => c = '#'
  | openBlock _ _ _, c | closeBlock, c => c = '@'
  | word _, c | instruction _ _, c => c = ' '
  | label _ _, c => isPlainStart c
  | comment _, c => c = ';'
  | blank, _ => false

theorem Spelled.begins {l : MachineLine} (h : l.Spelled) {c : Char}
    (hc : l.text.toList.head? = some c) : l.begins c = true := by
  -- a note stands behind the line, so it does not change the first character
  have hfirst : ∀ (note : Option String) {line : String} {first : Char},
      line.toList.head? = some first → (withComment? line note).toList.head? = some c →
      c = first := by
    intro note line first hline hhead
    obtain ⟨tail, htail⟩ := exists_toList_withComment? line note
    rw [htail, List.head?_append, hline] at hhead
    exact (Option.some.inj hhead).symm
  cases l with
  | define name register =>
    have hline : ("#define " ++ name ++ " \"" ++ register ++ "\"").toList.head? = some '#' := by
      simp
    exact decide_eq_true (hfirst (some "register definitions") hline hc)
  | blank => cases hc
  | openBlock kind name note =>
    have hline : ("@" ++ kind.word ++ " " ++ name ++ " \x7b").toList.head? = some '@' := by simp
    exact decide_eq_true (hfirst note hline hc)
  | closeBlock => exact decide_eq_true (Option.some.inj hc).symm
  | word value =>
    have hline : (indentation ++ "#" ++ Text.decimal value).toList.head? = some ' ' := by
      simp [indentation]
    exact decide_eq_true (hfirst none hline hc)
  | label name note =>
    obtain ⟨first, rest, hname, hplain⟩ := exists_cons_of_isPlainName h.1
    have hline : (name ++ ":").toList.head? = some first := by simp [hname]
    rw [hfirst note hline hc]
    exact hplain
  | instruction i note =>
    have hline : (indentation ++ i.text).toList.head? = some ' ' := by simp [indentation]
    exact decide_eq_true (hfirst note hline hc)
  | comment text =>
    have hline : ("; " ++ text).toList.head? = some ';' := by simp
    exact decide_eq_true (hfirst none hline hc)

/-- **The mark of a machine line is read back from its text.** -/
theorem Spelled.read?_text {l : MachineLine} (h : l.Spelled) :
    BlockMark.read? l.text.toList = l.mark? := by
  cases l with
  | openBlock kind name note => exact read?_openBlock kind note h.1
  | closeBlock => rfl
  | blank | define | word | label | instruction | comment =>
    exact BlockMark.read?_eq_none fun hhead => Bool.false_ne_true (h.begins hhead)

end MachineLine

/-- The blocks of a machine text are those of its machine lines. -/
theorem blockNames_renderMachineLines (kind : BlockKind) {ls : List MachineLine}
    (h : ∀ l ∈ ls, l.Spelled) :
    blockNames kind (renderMachineLines ls) = ls.filterMap (MachineLine.opened? kind) := by
  rw [blockNames, lines_renderMachineLines h, List.filterMap_map]
  refine List.filterMap_congr fun l hl => ?_
  rw [Function.comp_apply, (h l hl).read?_text, MachineLine.opened?]

/-! ## Expansion -/

theorem opened?_closing (kind : BlockKind) (isOpen : Bool) :
    (closing isOpen).filterMap (MachineLine.opened? kind) = [] := by
  cases isOpen with
  | false => rfl
  | true => rfl

theorem MachineLine.Instructs.opened? {l : MachineLine} (h : l.Instructs) (kind : BlockKind) :
    l.opened? kind = none := by
  cases l with
  | instruction i note => rfl
  | _ => exact h.elim

/-- **A line is expanded to the block that it stands for**, or to none. -/
theorem Expanded.opened? {content : LineContent} {note : Option String}
    {isOpen isOpen' : Bool} {lines : List MachineLine}
    (h : Expanded ⟨content, note⟩ isOpen lines isOpen') (hcontent : content.Spelled)
    (hnote : ∀ s ∈ note, Text.OneLine s.toList) (kind : BlockKind) :
    lines.filterMap (MachineLine.opened? kind) = (content.opened? kind).toList := by
  cases h with
  | blank | comment | label => rfl
  | frameless | global | function =>
    rw [List.filterMap_append, opened?_closing]
    cases kind <;> rfl
  | instruction hlines =>
    refine List.filterMap_eq_nil_iff.2 fun l hl => ?_
    exact (instructs_of_expandInstruction hlines hcontent hnote l hl).opened? kind

theorem ExpandedText.opened? {isOpen : Bool} {texts : List (List Char)} {lines : List MachineLine}
    (h : ExpandedText isOpen texts lines) (kind : BlockKind) :
    lines.filterMap (MachineLine.opened? kind) =
      texts.filterMap fun text => (readLine? text).bind (·.content.opened? kind) := by
  induction h with
  | nil => exact opened?_closing kind _
  | @cons _ content _ _ _ _ _ _ hread hcontent hnote hfirst _ ih =>
    rw [List.filterMap_append, hfirst.opened? hcontent hnote, ih, List.filterMap_cons, hread,
      Option.bind_some]
    cases content.opened? kind with
    | none => rfl
    | some name => rfl

/-- **The blocks of an expanded text.** There is one for each function and each file-scope
word of the text, in the same order, and behind them the one that starts the machine. -/
theorem blockNames_of_expandText {source target : String}
    (h : (expandText source).value = .ok target) (kind : BlockKind) :
    blockNames kind target =
      ((Text.lines source).filterMap fun text =>
        (readLine? text).bind (·.content.opened? kind)) ++
      if kind = .code then ["__init"] else [] := by
  obtain ⟨body, hbody, hspelled, rfl⟩ := exists_of_expandText h
  have hheader : machineHeader.filterMap (MachineLine.opened? kind) = [] := rfl
  have hstart : machineStart.filterMap (MachineLine.opened? kind) =
      if kind = .code then ["__init"] else [] := by
    cases kind <;> rfl
  rw [blockNames_renderMachineLines kind hspelled, List.filterMap_append, List.filterMap_append,
    hbody.opened?, hheader, hstart, List.nil_append]

end WordC
