import Mathlib
import WordC.Proofs.Log
import WordC.Proofs.Machine.Statements
/-!
# The blocks of a machine text are closed

A block is closed by whatever comes next, so it takes the whole text to see that none is left
open. The lines of an expanded text are in blocks or between them (`Bracketed`). Each block is
opened and closed once, no block is in another, and the blocks are those of the text that was
expanded, in its order and with the block that starts the machine behind them
(`expandText_bracketed`).
-/

namespace WordC

/-! ## Blocks of a text -/

/-- The line opens or closes a block. No other line of a machine text begins so. -/
def isMark (line : List Char) : Bool :=
  line.head? = some '@'

/-- The line that closes a block. -/
def closingMark : List Char :=
  "@\x7d".toList

/-- **A block of a machine text**, with no other block in it. -/
structure TextBlock where
  kind : BlockKind
  name : String
  /-- The line that opens the block. -/
  opening : List Char
  /-- The lines between its marks. -/
  inner : List (List Char)
  /-- Without its comment, the opening line is the kind and the name of the block. -/
  opens : Text.trim (opening.takeWhile (· ≠ ';')) =
    ("@" ++ kind.word ++ " " ++ name ++ " \x7b").toList
  isMark_opening : isMark opening = true
  unmarked : ∀ line ∈ inner, isMark line = false

namespace TextBlock

/-- The lines of a block. -/
def lines (b : TextBlock) : List (List Char) :=
  b.opening :: (b.inner ++ [closingMark])

/-- The lines that open and close a block. -/
def marks (b : TextBlock) : List (List Char) :=
  [b.opening, closingMark]

theorem filter_isMark_lines (b : TextBlock) : b.lines.filter isMark = b.marks := by
  have hinner : b.inner.filter isMark = [] :=
    List.filter_eq_nil_iff.2 fun line hline => by simp [b.unmarked line hline]
  have hclosing : [closingMark].filter isMark = [closingMark] := by decide
  rw [lines, List.filter_cons_of_pos b.isMark_opening, List.filter_append, hinner, hclosing, marks,
    List.nil_append]

end TextBlock

/-- **Lines in blocks and between them.** -/
inductive Bracketed : List (List Char) → List TextBlock → Prop where
  | done : Bracketed [] []
  | between {line : List Char} {lines : List (List Char)} {blocks : List TextBlock}
    (hline : isMark line = false) (hrest : Bracketed lines blocks) :
    Bracketed (line :: lines) blocks
  | block {b : TextBlock} {lines : List (List Char)} {blocks : List TextBlock}
    (hrest : Bracketed lines blocks) : Bracketed (b.lines ++ lines) (b :: blocks)

namespace Bracketed

variable {lines lines' : List (List Char)} {blocks blocks' : List TextBlock}

/-- Lines without marks may stand before all others. -/
theorem unmarked_append (h : ∀ line ∈ lines', isMark line = false)
    (hrest : Bracketed lines blocks) : Bracketed (lines' ++ lines) blocks := by
  induction lines' with
  | nil => exact hrest
  | cons line lines' ih =>
    obtain ⟨hline, hlines⟩ := List.forall_mem_cons.1 h
    exact .between hline (ih hlines)

theorem append (h : Bracketed lines blocks) (h' : Bracketed lines' blocks') :
    Bracketed (lines ++ lines') (blocks ++ blocks') := by
  induction h with
  | done => exact h'
  | between hline _ ih => exact .between hline ih
  | block _ ih =>
    rw [List.append_assoc, List.cons_append]
    exact .block ih

/-- **Marks alternate.** Behind the line that opens a block comes the one that closes it. -/
theorem filter_isMark (h : Bracketed lines blocks) :
    lines.filter isMark = blocks.flatMap TextBlock.marks := by
  induction h with
  | done => rfl
  | between hline _ ih => rw [List.filter_cons_of_neg (by simp [hline]), ih]
  | @block b _ _ _ ih =>
    rw [List.filter_append, b.filter_isMark_lines, ih, List.flatMap_cons]

end Bracketed

/-! ## Machine lines -/

namespace MachineLine

/-- A line that is no mark of a block does not begin like one. -/
theorem Spelled.isMark_eq_false {l : MachineLine} (h : l.Spelled) (hmark : l.mark? = none) :
    isMark l.text.toList = false := by
  refine decide_eq_false fun hhead => ?_
  have hbegins := h.begins hhead
  cases l with
  | openBlock | closeBlock => cases hmark
  | blank | define | word | label | instruction | comment => exact Bool.false_ne_true hbegins

/-- Without its comment, an opening line is the kind and the name of a block. -/
theorem trim_openBlock (kind : BlockKind) {name : String} (note : Option String)
    (h : isPlainName false name.toList = true) :
    Text.trim ((openBlock kind name note).text.toList.takeWhile (· ≠ ';')) =
      ("@" ++ kind.word ++ " " ++ name ++ " \x7b").toList := by
  obtain ⟨back, tail, hback, htail, htext⟩ := MachineStatement.toList_withComment?
    ("@" ++ kind.word ++ " " ++ name ++ " \x7b") note
  have hname : ';' ∉ name.toList := (IsWord.of_isPlainName h).not_mem (by decide)
  have hcode : ∀ c ∈ ("@" ++ kind.word ++ " " ++ name ++ " \x7b").toList ++ back,
      decide (c ≠ ';') = true := by
    intro c hc
    rw [decide_eq_true_iff]
    rintro rfl
    rcases List.mem_append.1 hc with hc | hc
    · cases kind <;> simp [BlockKind.word, hname] at hc
    · cases hback _ hc
  have hstop : ∀ c ∈ tail.head?, decide (c ≠ ';') = false := by
    intro c hc
    simp [htail c hc]
  -- the line starts with `@` and ends with a brace
  have htrimmed : Text.Trimmed ("@" ++ kind.word ++ " " ++ name ++ " \x7b").toList := by
    have henclosed := (Line.trimmed_singleton (by decide : Text.isBlank '@' = false)).enclose
      (Line.trimmed_singleton (by decide : Text.isBlank '\x7b' = false)) (List.cons_ne_nil _ _)
      (List.cons_ne_nil _ _) (kind.word.toList ++ ' ' :: (name.toList ++ [' ']))
    simpa using henclosed
  have hpadded := Text.trim_append (List.forall_mem_nil _) (Text.isBlank_of_spaces hback) htrimmed
  rw [List.nil_append] at hpadded
  rw [text, htext, Text.takeWhile_append_stop hcode hstop, hpadded]

/-- The block of an opening line, the lines behind it and a closing line. -/
theorem exists_block (kind : BlockKind) {name : String} (note : Option String)
    (hname : isPlainName false name.toList = true) {ls : List MachineLine}
    (hls : ∀ l ∈ ls, isMark l.text.toList = false) :
    ∃ b : TextBlock, b.kind = kind ∧ b.name = name ∧ b.inner = ls.map (·.text.toList) ∧
      b.lines = (openBlock kind name note :: (ls ++ [closeBlock])).map (·.text.toList) := by
  have hopening : isMark (openBlock kind name note).text.toList = true := by
    obtain ⟨tail, htail⟩ :=
      exists_toList_withComment? ("@" ++ kind.word ++ " " ++ name ++ " \x7b") note
    rw [text, htail]
    simp [isMark]
  refine ⟨⟨kind, name, _, _, trim_openBlock kind note hname, hopening,
    List.forall_mem_map.2 hls⟩, rfl, rfl, rfl, ?_⟩
  simp [TextBlock.lines, text, closingMark]

end MachineLine

/-! ## Expansion -/

namespace LineContent

/-- The beginning of a function, with or without a frame. -/
def isFunction : LineContent → Bool
  | line (.function _) | frameless _ => true
  | _ => false

/-- The beginning of a function, or a file-scope word. -/
def opensBlock : LineContent → Bool
  | line (.global _ _) => true
  | content => content.isFunction

/-- **The block that a line of assembly becomes.** The one of a file-scope word holds its value
and nothing else. -/
inductive Becomes : LineContent → TextBlock → Prop where
  | function {name : String} {b : TextBlock} (hkind : b.kind = .code) (hname : b.name = name) :
    Becomes (line (.function name)) b
  | frameless {name : String} {b : TextBlock} (hkind : b.kind = .code) (hname : b.name = name) :
    Becomes (frameless name) b
  | global {name : String} {value : Int64} {b : TextBlock} (hkind : b.kind = .data)
    (hname : b.name = name) (hinner : b.inner = [(MachineLine.word value).text.toList]) :
    Becomes (line (.global name value)) b

end LineContent

/-- The blocks are those of the given contents, in order. -/
def Become (contents : List LineContent) (blocks : List TextBlock) : Prop :=
  List.Forall₂ LineContent.Becomes (contents.filter (·.opensBlock)) blocks

/-- Machine lines of the given contents, behind lines that leave a block open or none. An open
block is closed before another one begins. -/
def Continues (isOpen : Bool) (contents : List LineContent) (ls : List MachineLine) : Prop :=
  ∃ inner rest blocks, ls = inner ++ closing isOpen ++ rest ∧
    (∀ l ∈ inner, isMark l.text.toList = false) ∧
    Bracketed (rest.map (·.text.toList)) blocks ∧ Become contents blocks

namespace Continues

variable {isOpen : Bool} {content : LineContent} {contents : List LineContent}
  {first ls : List MachineLine} {name : String} {note : Option String}

theorem nil (isOpen : Bool) : Continues isOpen [] (closing isOpen) :=
  ⟨[], [], [], by simp, List.forall_mem_nil _, .done, .nil⟩

/-- Lines without marks stand in the open block, or between blocks. -/
theorem unmarked (hfirst : ∀ l ∈ first, isMark l.text.toList = false)
    (hcontent : content.opensBlock = false)
    (h : Continues isOpen contents ls) : Continues isOpen (content :: contents) (first ++ ls) := by
  obtain ⟨inner, rest, blocks, rfl, hinner, hrest, hblocks⟩ := h
  refine ⟨first ++ inner, rest, blocks, ?_, List.forall_mem_append.2 ⟨hfirst, hinner⟩, hrest, ?_⟩
  · simp only [List.append_assoc]
  · rwa [Become, List.filter_cons_of_neg (by simp [hcontent])]

/-- A block of code stays open, and what comes next closes it. -/
theorem code (hname : isPlainName false name.toList = true)
    (hfirst : ∀ l ∈ first, isMark l.text.toList = false)
    (hcontent : content.opensBlock = true)
    (hbecomes : ∀ b : TextBlock, b.kind = .code → b.name = name → content.Becomes b)
    (h : Continues true contents ls) :
    Continues isOpen (content :: contents)
      (closing isOpen ++ .openBlock .code name note :: first ++ ls) := by
  obtain ⟨inner, rest, blocks, rfl, hinner, hrest, hblocks⟩ := h
  obtain ⟨b, hkind, hbname, -, hlines⟩ := MachineLine.exists_block .code note hname
    (List.forall_mem_append.2 ⟨hfirst, hinner⟩)
  refine ⟨[], .openBlock .code name note :: (first ++ inner ++ .closeBlock :: rest), b :: blocks,
    ?_, List.forall_mem_nil _, ?_, ?_⟩
  · simp [closing]
  · have hblock := Bracketed.block (b := b) hrest
    rw [hlines] at hblock
    simpa using hblock
  · rw [Become, List.filter_cons_of_pos hcontent]
    exact .cons (hbecomes b hkind hbname) hblocks

/-- A block of data is closed at once. -/
theorem global {value : Int64} (hname : isPlainName false name.toList = true)
    (h : Continues false contents ls) :
    Continues isOpen (.line (.global name value) :: contents)
      (closing isOpen ++ [.openBlock .data name note, .word value, .closeBlock] ++ ls) := by
  obtain ⟨inner, rest, blocks, rfl, hinner, hrest, hblocks⟩ := h
  have hword : ∀ l ∈ [MachineLine.word value], isMark l.text.toList = false :=
    List.forall_mem_singleton.2 (MachineLine.Spelled.isMark_eq_false trivial rfl)
  obtain ⟨b, hkind, hbname, hbinner, hlines⟩ := MachineLine.exists_block .data note hname hword
  refine ⟨[], [.openBlock .data name note, .word value, .closeBlock] ++ (inner ++ rest),
    b :: blocks, ?_, List.forall_mem_nil _, ?_, .cons (.global hkind hbname hbinner) hblocks⟩
  · simp [closing]
  · have hblock := Bracketed.block (b := b)
      (hrest.unmarked_append (List.forall_mem_map.2 hinner))
    rw [hlines] at hblock
    simpa using hblock

end Continues

/-- **One line** keeps blocks closed, whether one is open before it or not. -/
theorem Expanded.continues {content : LineContent} {note : Option String} {isOpen isOpen' : Bool}
    {first ls : List MachineLine} {contents : List LineContent}
    (h : Expanded ⟨content, note⟩ isOpen first isOpen') (hcontent : content.Spelled)
    (hnote : ∀ s ∈ note, Text.OneLine s.toList) (hls : Continues isOpen' contents ls) :
    Continues isOpen (content :: contents) (first ++ ls) := by
  have hspelled := h.spelled hcontent hnote
  cases h with
  | blank => exact .unmarked (List.forall_mem_nil _) rfl hls
  | comment | label =>
    exact .unmarked (fun l hl => (hspelled l hl).isMark_eq_false
      (by rw [List.mem_singleton.1 hl]; rfl)) rfl hls
  | instruction hlines =>
    refine .unmarked (fun l hl => (hspelled l hl).isMark_eq_false ?_) rfl hls
    -- the lines of an instruction are instructions, none of which opens or closes a block
    have hinstructs := instructs_of_expandInstruction hlines hcontent hnote l hl
    cases l with
    | instruction i note => rfl
    | _ => exact hinstructs.elim
  | frameless =>
    exact .code hcontent (List.forall_mem_nil _) rfl (fun _ => .frameless) hls
  | global => exact .global hcontent hls
  | function =>
    refine .code hcontent (fun l hl => ?_) rfl (fun _ => .function) hls
    refine (hspelled l (List.mem_append_right _ (List.mem_cons_of_mem _ hl))).isMark_eq_false ?_
    simp only [List.mem_cons, List.not_mem_nil, or_false] at hl
    rcases hl with rfl | rfl
    · rfl
    · rfl

/-- **All lines**, from any state on. -/
theorem ExpandedText.continues {isOpen : Bool} {texts : List (List Char)}
    {lines : List MachineLine} (h : ExpandedText isOpen texts lines) :
    Continues isOpen (texts.filterMap fun text => (readLine? text).map (·.content)) lines := by
  induction h with
  | nil => exact .nil _
  | cons hread hcontent hnote hfirst _ ih =>
    rw [List.filterMap_cons, hread]
    exact hfirst.continues hcontent hnote ih

/-! ## Texts -/

/-- What the lines of an assembly text hold. -/
def lineContents (source : String) : List LineContent :=
  (Text.lines source).filterMap fun text => (readLine? text).map (·.content)

/-- **How a machine text is divided into blocks**, when it was expanded from `source`. The last
block, `start`, is the one that starts the machine. -/
structure Divided (source target : String) (blocks : List TextBlock) (start : TextBlock) :
    Prop where
  /-- No block is in another, and none is left open. -/
  bracketed : Bracketed (Text.lines target) (blocks ++ [start])
  /-- Opening and closing lines alternate. -/
  alternate : (Text.lines target).filter isMark = (blocks ++ [start]).flatMap TextBlock.marks
  /-- There is one block for each function and each file-scope word, in order. -/
  become : Become (lineContents source) blocks
  /-- A block of data holds one word. -/
  word : ∀ b ∈ blocks ++ [start], b.kind = .data →
    ∃ value, b.inner = [(MachineLine.word value).text.toList]
  /-- The blocks of code are the functions in order, and `start` behind them. -/
  names : ((blocks ++ [start]).filter (·.kind = .code)).map (·.name) =
    (lineContents source).filterMap (LineContent.opened? .code) ++ ["__init"]
  /-- There is one block of code more than there are functions. -/
  count : ((blocks ++ [start]).filter (·.kind = .code)).length =
    (lineContents source).countP LineContent.isFunction + 1

section Blocks

variable {contents : List LineContent} {blocks : List TextBlock}

/-- A block of data is that of a file-scope word. -/
theorem exists_word (h : List.Forall₂ LineContent.Becomes contents blocks) :
    ∀ b ∈ blocks, b.kind = .data → ∃ value, b.inner = [(MachineLine.word value).text.toList] := by
  induction h with
  | nil => exact List.forall_mem_nil _
  | cons hbecomes _ ih =>
    refine List.forall_mem_cons.2 ⟨fun hdata => ?_, ih⟩
    cases hbecomes with
    | function hkind | frameless hkind =>
      rw [hkind] at hdata
      cases hdata
    | global _ _ hinner => exact ⟨_, hinner⟩

/-- A block of code is that of a function. -/
theorem names_code (h : List.Forall₂ LineContent.Becomes contents blocks) :
    (blocks.filter (·.kind = .code)).map (·.name) =
      contents.filterMap (LineContent.opened? .code) := by
  induction h with
  | nil => rfl
  | cons hbecomes _ ih =>
    cases hbecomes with
    | function hkind hname | frameless hkind hname =>
      simp [hkind, hname, LineContent.opened?, ih]
    | global hkind => simp [hkind, LineContent.opened?, ih]

theorem LineContent.isSome_opened? (content : LineContent) :
    (content.opened? .code).isSome = content.isFunction := by
  cases content with
  | line l => cases l <;> rfl
  | frameless | blank => rfl

theorem Become.names (h : Become contents blocks) :
    (blocks.filter (·.kind = .code)).map (·.name) =
      contents.filterMap (LineContent.opened? .code) := by
  rw [names_code h, List.filterMap_filter]
  refine List.filterMap_congr fun content _ => ?_
  cases content with
  | line l => cases l <;> rfl
  | frameless | blank => rfl

end Blocks

/-- The block that starts the machine. -/
theorem exists_start : ∃ start : TextBlock, start.kind = .code ∧ start.name = "__init" ∧
    start.lines = machineStart.map (·.text.toList) := by
  have hinit : isPlainName false "__init".toList = true := by decide
  have hmarks : ∀ l ∈ machineStart.tail.dropLast, l.mark? = none := by decide
  have hinner : ∀ l ∈ machineStart.tail.dropLast, isMark l.text.toList = false := by
    intro l hl
    have hmem : l ∈ machineStart := List.mem_of_mem_tail (List.mem_of_mem_dropLast hl)
    exact (spelled_machineStart l hmem).isMark_eq_false (hmarks l hl)
  obtain ⟨start, hkind, hname, -, hlines⟩ :=
    MachineLine.exists_block .code none hinit hinner
  exact ⟨start, hkind, hname, hlines⟩

theorem isMark_machineHeader : ∀ l ∈ machineHeader, isMark l.text.toList = false := by
  have hmarks : ∀ l ∈ machineHeader, l.mark? = none := by decide
  exact fun l hl => (spelled_machineHeader l hl).isMark_eq_false (hmarks l hl)

/-- **The blocks of an expanded text are closed**, and they are those of the text. -/
theorem expandText_bracketed {source target : String}
    (h : (expandText source).value = .ok target) :
    ∃ blocks start, Divided source target blocks start := by
  obtain ⟨body, hbody, hspelled, rfl⟩ := exists_of_expandText h
  obtain ⟨inner, rest, blocks, rfl, hinner, hrest, hblocks⟩ := hbody.continues
  obtain ⟨start, hkind, hname, hstart⟩ := exists_start
  -- the header has no marks, then come the blocks of the body, and the start is the last one
  have hbracketed : Bracketed
      (Text.lines (renderMachineLines (machineHeader ++ (inner ++ closing false ++ rest) ++
        machineStart))) (blocks ++ [start]) := by
    have hbody := hrest.unmarked_append (List.forall_mem_map.2 hinner)
    have hwhole := (hbody.append (.block (b := start) .done)).unmarked_append
      (List.forall_mem_map.2 isMark_machineHeader)
    rw [hstart] at hwhole
    rw [lines_renderMachineLines hspelled]
    simpa [closing] using hwhole
  have hnames : ((blocks ++ [start]).filter (·.kind = .code)).map (·.name) =
      (lineContents source).filterMap (LineContent.opened? .code) ++ ["__init"] := by
    have hlast : ([start].filter (·.kind = .code)).map (·.name) = ["__init"] := by
      simp [hkind, hname]
    rw [List.filter_append, List.map_append, hblocks.names, hlast]
    rfl
  have hcount := congrArg List.length hnames
  rw [List.length_map, List.length_append, List.length_filterMap_eq_countP] at hcount
  simp only [LineContent.isSome_opened?] at hcount
  refine ⟨blocks, start, hbracketed, hbracketed.filter_isMark, hblocks,
    List.forall_mem_append.2 ⟨exists_word hblocks, ?_⟩, hnames, hcount⟩
  refine List.forall_mem_singleton.2 fun hdata => ?_
  rw [hkind] at hdata
  cases hdata

/-- Code in front of all functions, a file-scope word between two of them, a function without a
frame, and a comment that looks like a mark. -/
def scatteredText : String :=
  "MOV r1 1\n$f: ; @\x7d\nRET 0\n@g: -2\nlost:\n; @code x \x7b\n&put:\nOUT r1 1\n@h: 7"

theorem expandText_bracketed_scatteredText :
    ∃ target blocks start, (expandText scatteredText).value = .ok target ∧
      Divided scatteredText target blocks start ∧
      ((blocks ++ [start]).filter (·.kind = .code)).map (·.name) = ["f", "put", "__init"] := by
  have hrun : (expandText scatteredText).value.toOption.isSome = true := by decide +kernel
  obtain ⟨target, htarget⟩ := Option.isSome_iff_exists.1 hrun
  have hok : (expandText scatteredText).value = .ok target := Logged.value_of_toOption htarget
  obtain ⟨blocks, start, hdivided⟩ := expandText_bracketed hok
  have hfunctions : (lineContents scatteredText).filterMap (LineContent.opened? .code) =
      ["f", "put"] := by
    decide +kernel
  refine ⟨target, blocks, start, hok, hdivided, ?_⟩
  rw [hdivided.names, hfunctions]
  rfl

end WordC
