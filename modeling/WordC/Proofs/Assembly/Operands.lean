import WordC.Assembly.Reader
import WordC.Proofs.Text.Layout
import WordC.Proofs.Text.Numeral
/-!
# Operands are read back

An operand is printed and read by code that shares nothing, so each kind has
its own law: numbers, registers, places in memory, names. What can be read back
is said by `Legible`: names are plain, and the target of a jump is not spelled
like a register, which the reader would take it for.
-/

namespace WordC

/-! ## Characters and words -/

/-- A character that is no blank and no punctuation between words. -/
def isWordChar (c : Char) : Bool :=
  !Text.isBlank c && !";:,".toList.contains c

theorem isBlank_of_isWordChar {c : Char} (h : isWordChar c = true) : Text.isBlank c = false := by
  rw [isWordChar, Bool.and_eq_true] at h
  simpa using h.1

/-- The characters of plain names stand in words. -/
theorem isWordChar_of_plain {c : Char} (h : isPlainStart c = true ∨ c.isDigit = true ∨ c = '.') :
    isWordChar c = true := by
  have hcode : 0x21 ≤ c.toNat ∧ c.toNat < 0x85 ∧ c ≠ ';' ∧ c ≠ ':' ∧ c ≠ ',' := by
    have hpunctuation : ∀ d : Char, ¬(isPlainStart d = true ∨ d.isDigit = true ∨ d = '.') →
        c ≠ d := by
      rintro d hd rfl
      exact hd h
    have hrange : 0x21 ≤ c.toNat ∧ c.toNat < 0x85 := by
      simp only [isPlainStart, Char.isAlpha, Char.isUpper, Char.isLower, Char.isDigit,
        UInt32.le_iff_toNat_le] at h
      simp at h
      rcases h with (h | h) | h | h
      any_goals omega
      all_goals
        subst c
        decide
    exact ⟨hrange.1, hrange.2, hpunctuation ';' (by decide), hpunctuation ':' (by decide),
      hpunctuation ',' (by decide)⟩
  obtain ⟨hlow, hhigh, hpunctuation⟩ := hcode
  -- blanks below `0x85` are all below `0x21`
  have hblank : Text.isBlank c = false := by
    simp only [Text.isBlank, Text.within, Text.blankBounds, Text.insideAt]
    rw [if_neg (by omega), if_neg (by omega), if_neg (by omega), if_neg (by omega), if_pos hhigh]
    rfl
  simp [isWordChar, hblank, hpunctuation]

theorem isPlainStart_of_isDigit {c : Char} (h : c.isDigit = true) : ¬isPlainStart c = true := by
  simp only [isPlainStart, Char.isDigit, Char.isAlpha, Char.isUpper, Char.isLower,
    UInt32.le_iff_toNat_le] at h ⊢
  simp at h ⊢
  refine ⟨by omega, ?_⟩
  rintro rfl
  exact absurd h (by decide)

/-- A run of characters without blanks and punctuation between operands. -/
def IsWord (cs : List Char) : Prop :=
  cs ≠ [] ∧ ∀ c ∈ cs, isWordChar c = true

/-- What a word does not contain. -/
theorem IsWord.not_mem {cs : List Char} (h : IsWord cs) {c : Char} (hc : isWordChar c = false) :
    c ∉ cs := by
  intro hmem
  rw [h.2 c hmem] at hc
  cases hc

theorem IsWord.trimmed {cs : List Char} (h : IsWord cs) : Text.Trimmed cs :=
  .of_forall fun c hc => isBlank_of_isWordChar (h.2 c hc)

theorem isPlainName_cons_iff {dots : Bool} {c : Char} {cs : List Char} :
    isPlainName dots (c :: cs) = true ↔ isPlainStart c = true ∧
      ∀ d ∈ cs, isPlainStart d = true ∨ d.isDigit = true ∨ dots = true ∧ d = '.' := by
  simp [isPlainName, or_assoc]

theorem exists_cons_of_isPlainName {dots : Bool} {cs : List Char}
    (h : isPlainName dots cs = true) : ∃ c rest, cs = c :: rest ∧ isPlainStart c = true := by
  cases cs with
  | nil => cases h
  | cons c rest => exact ⟨c, rest, rfl, (isPlainName_cons_iff.mp h).1⟩

theorem isPlainName_chars {dots : Bool} {cs : List Char} (h : isPlainName dots cs = true) :
    ∀ c ∈ cs, isPlainStart c = true ∨ c.isDigit = true ∨ c = '.' := by
  obtain ⟨c, rest, rfl, hc⟩ := exists_cons_of_isPlainName h
  refine List.forall_mem_cons.mpr ⟨.inl hc, fun d hd => ?_⟩
  exact ((isPlainName_cons_iff.mp h).2 d hd).imp_right (.imp_right And.right)

/-- A name without dots is also a name of a label. -/
theorem isPlainName_true {dots : Bool} {cs : List Char} (h : isPlainName dots cs = true) :
    isPlainName true cs = true := by
  obtain ⟨c, rest, rfl, hc⟩ := exists_cons_of_isPlainName h
  refine isPlainName_cons_iff.mpr ⟨hc, fun d hd => ?_⟩
  exact ((isPlainName_cons_iff.mp h).2 d hd).imp_right (.imp_right fun hdot => ⟨rfl, hdot.2⟩)

theorem IsWord.of_isPlainName {dots : Bool} {cs : List Char} (h : isPlainName dots cs = true) :
    IsWord cs := by
  obtain ⟨c, rest, rfl, hc⟩ := exists_cons_of_isPlainName h
  refine ⟨List.cons_ne_nil c rest, fun d hd => ?_⟩
  exact isWordChar_of_plain (isPlainName_chars h d hd)

/-! ## Registers -/

/-- A register with a name of its own: a general register is counted from
one. -/
def Reg.Legible : Reg → Prop
  | general n => n ≠ 0
  | zero | eax | edx | ebp | esp => True

/-- The word names a register, in letters of either case. The number of a
general register may have leading zeros. -/
def IsRegisterName (word : List Char) : Prop :=
  word.map Char.toLower ∈ ["r0".toList, "eax".toList, "edx".toList, "ebp".toList, "esp".toList] ∨
    ∃ digits n, word.map Char.toLower = 'r' :: digits ∧ Text.decimal? digits = some n ∧
      0 < n ∧ n < 256

namespace Reg

theorem toList_name_general (n : UInt8) :
    (general n).name.toList = 'r' :: Nat.toDigits 10 n.toNat := by
  rw [name, String.toList_append]
  exact congrArg ('r' :: ·) Nat.toList_repr

theorem isUpper_of_isDigit {c : Char} (h : c.isDigit = true) : ¬c.isUpper = true := by
  simp only [Char.isDigit, Char.isUpper, UInt32.le_iff_toNat_le] at h ⊢
  simp at h ⊢
  omega

theorem map_toLower_digits {digits : List Char} (h : ∀ c ∈ digits, c.isDigit = true) :
    digits.map Char.toLower = digits := by
  refine (List.map_congr_left fun c hc => ?_).trans (List.map_id digits)
  exact Char.toLower_eq_of_not_isUpper (isUpper_of_isDigit (h c hc))

theorem isPlainName_name (r : Reg) : isPlainName false r.name.toList = true := by
  cases r with
  | general n =>
    rw [toList_name_general, isPlainName_cons_iff]
    exact ⟨by decide, fun d hd => .inr (.inl (Text.isDigit_of_mem_toDigits hd))⟩
  | zero | eax | edx | ebp | esp => decide

/-- A register is found by its name. -/
theorem ofName?_name {r : Reg} (h : r.Legible) : ofName? r.name.toList = some r := by
  cases r with
  | general n =>
    have hpos : 0 < n.toNat := Nat.pos_of_ne_zero fun hzero => h (UInt8.toNat_inj.mp hzero)
    have hlower : (general n).name.toList.map Char.toLower = 'r' :: Nat.toDigits 10 n.toNat := by
      rw [toList_name_general, List.map_cons,
        map_toLower_digits fun _ => Text.isDigit_of_mem_toDigits]
      rfl
    -- the digits of another number than zero are not those of zero
    have hzero : Nat.toDigits 10 n.toNat ≠ ['0'] := by
      intro heq
      have hread := Text.decimal?_toDigits n.toNat
      rw [heq] at hread
      injection hread with hvalue
      exact absurd hvalue.symm hpos.ne'
    have hnumber : Text.natural? 256 (Nat.toDigits 10 n.toNat) = some n.toNat :=
      Text.natural?_toDigits n.toNat_lt
    rw [ofName?, hlower]
    simp [hzero, hnumber, hpos]
  | zero | eax | edx | ebp | esp => rfl

theorem plus_not_mem_map_toLower {word : List Char} (h : '+' ∉ word) :
    '+' ∉ word.map Char.toLower := by
  intro hmem
  obtain ⟨c, hc, hlower⟩ := List.mem_map.mp hmem
  by_cases hupper : c.isUpper = true
  · have halpha : c.toLower.isLower = true := by
      rw [Char.isLower_toLower_eq_isAlpha, Char.isAlpha, hupper, Bool.true_or]
    rw [hlower] at halpha
    exact absurd halpha (by decide)
  · rw [Char.toLower_eq_of_not_isUpper hupper] at hlower
    exact h (hlower ▸ hc)

/-- A word that names no register is not taken for one. -/
theorem ofName?_eq_none {word : List Char} (hword : '+' ∉ word) (h : ¬IsRegisterName word) :
    ofName? word = none := by
  obtain ⟨hspecial, hgeneral⟩ := not_or.mp h
  have hplus := plus_not_mem_map_toLower hword
  simp at hspecial
  obtain ⟨hr0, heax, hedx, hebp, hesp⟩ := hspecial
  rw [ofName?]
  generalize word.map Char.toLower = lower at *
  simp only [hr0, heax, hedx, hebp, hesp, if_false]
  split
  · next number =>
    have hsign : '+' ∉ number := fun hmem => hplus (List.mem_cons_of_mem 'r' hmem)
    rw [Text.natural?_of_not_mem hsign]
    cases hvalue : Text.decimal? number with
    | none => rfl
    | some n =>
      -- a number in the range of the general registers would name one
      have hrange : ¬(0 < n ∧ n < 256) := fun hn => hgeneral ⟨number, n, rfl, hvalue, hn⟩
      by_cases hn : n < 256
      · have hzero : n = 0 := by omega
        simp [hzero]
      · simp [hn]
  · rfl

/-- A word that names a register is taken for one. -/
theorem exists_ofName? {word : List Char} (h : IsRegisterName word) :
    ∃ r, ofName? word = some r := by
  rw [IsRegisterName] at h
  rw [ofName?]
  generalize word.map Char.toLower = lower at *
  rcases h with hspecial | ⟨digits, n, rfl, hvalue, hpos, hn⟩
  · simp at hspecial
    rcases hspecial with rfl | rfl | rfl | rfl | rfl <;> exact ⟨_, rfl⟩
  · have hzero : digits ≠ ['0'] := by
      rintro rfl
      injection hvalue with hvalue
      exact absurd hvalue.symm hpos.ne'
    have hplus : '+' ∉ digits := fun hmem =>
      absurd (Text.isDigit_of_decimal? hvalue '+' hmem) (by decide)
    exact ⟨general (UInt8.ofNat n), by
      simp [hzero, Text.natural?_of_not_mem hplus, hvalue, hpos, hn]⟩

end Reg

/-! ## Operands -/

theorem dropFinal?_concat (last : Char) (cs : List Char) :
    dropFinal? last (cs ++ [last]) = some cs := by
  simp [dropFinal?]

/-- An operand that can be read back. The target of a jump must not be spelled
like a register. -/
def Arg.Legible : Arg → Prop
  | reg r => r.Legible
  | imm _ => True
  | mem base _ => base.Legible
  | global name => isPlainName false name.toList = true
  | label name => isPlainName true name.toList = true ∧ ¬IsRegisterName name.toList

namespace Arg

theorem isWordChar_of_mem_toDigits {n : Nat} : ∀ c ∈ Nat.toDigits 10 n, isWordChar c = true := by
  intro c hc
  exact isWordChar_of_plain (.inr (.inl (Text.isDigit_of_mem_toDigits hc)))

theorem isWord_decimal (n : Int64) : IsWord (Text.decimal n).toList := by
  rw [Text.toList_decimal]
  split
  · exact ⟨Nat.toDigits_ne_nil, isWordChar_of_mem_toDigits⟩
  · exact ⟨List.cons_ne_nil _ _,
      List.forall_mem_cons.mpr ⟨by decide, isWordChar_of_mem_toDigits⟩⟩

theorem isWord_signed (n : Int64) : IsWord (Text.signed n).toList := by
  rw [Text.toList_signed]
  refine ⟨List.cons_ne_nil _ _, List.forall_mem_cons.mpr ⟨?_, isWordChar_of_mem_toDigits⟩⟩
  split <;> decide

/-- An operand is one word. -/
theorem isWord_text {a : Arg} (h : a.Legible) : IsWord a.text.toList := by
  cases a with
  | reg r => exact .of_isPlainName r.isPlainName_name
  | imm n => exact isWord_decimal n
  | mem base offset =>
    have hbase := IsWord.of_isPlainName base.isPlainName_name
    have hinner : ∀ c ∈ base.name.toList ++ ((Text.signed offset).toList ++ [']']),
        isWordChar c = true := by
      simp only [List.forall_mem_append]
      exact ⟨hbase.2, (isWord_signed offset).2, by simpa using (by decide : isWordChar ']' = true)⟩
    simp only [text, String.toList_append, List.append_assoc]
    exact ⟨List.cons_ne_nil _ _, List.forall_mem_cons.mpr ⟨by decide, hinner⟩⟩
  | global name =>
    have hname := IsWord.of_isPlainName h
    rw [text, String.toList_append]
    exact ⟨List.cons_ne_nil _ _, List.forall_mem_cons.mpr ⟨by decide, hname.2⟩⟩
  | label name => exact .of_isPlainName h.1

/-- A word that opens with neither a bracket nor `@` is a number, a register or
a label, in this order. -/
theorem read?_cons {c : Char} {rest : List Char} (hbracket : c ≠ '[') (hat : c ≠ '@') :
    read? (c :: rest) =
      match Text.integer? (c :: rest) with
      | some n => some (.imm n)
      | none =>
        match Reg.ofName? (c :: rest) with
        | some r => some (.reg r)
        | none =>
          if isPlainName true (c :: rest) then some (.label (String.ofList (c :: rest)))
          else none := by
  unfold read?
  split
  · next h => exact absurd (List.cons.inj h).1 hbracket
  · next h => exact absurd (List.cons.inj h).1 hat
  · rfl

/-- A plain name is a register or a label. -/
theorem read?_of_isPlainName {cs : List Char} (h : isPlainName true cs = true) :
    read? cs =
      match Reg.ofName? cs with
      | some r => some (.reg r)
      | none => some (.label (String.ofList cs)) := by
  obtain ⟨c, rest, rfl, hc⟩ := exists_cons_of_isPlainName h
  have hne : ∀ d, isPlainStart d = false → c ≠ d := by
    rintro d hd rfl
    rw [hc] at hd
    cases hd
  have hdigit : c.isDigit = false := by
    by_contra hdigit
    exact absurd hc (isPlainStart_of_isDigit (by simpa using hdigit))
  rw [read?_cons (hne '[' (by decide)) (hne '@' (by decide)),
    Text.integer?_eq_none hdigit (hne '-' (by decide)) (hne '+' (by decide)), if_pos h]

/-- What stands in square brackets is read as a place in memory. -/
theorem read?_bracketed {inner : List Char} {a : Arg} (h : readMemory? inner = some a) :
    read? ('[' :: (inner ++ [']'])) = some a := by
  unfold read?
  simp only [dropFinal?_concat, h]

/-- The base and the offset between brackets: the offset begins at its sign. -/
theorem readMemory?_text {base : Reg} (h : base.Legible) (offset : Int64) :
    readMemory? (base.name.toList ++ (Text.signed offset).toList) = some (.mem base offset) := by
  have hplain := base.isPlainName_name
  have hread := Reg.ofName?_name h
  have htrim := Text.trim_eq_self (IsWord.of_isPlainName hplain).trimmed
  obtain ⟨c, rest, hname, hc⟩ := exists_cons_of_isPlainName hplain
  rw [hname] at hplain hread htrim ⊢
  -- no name has a sign in it and the offset starts with one, so the sign divides the text
  have hrest : ∀ d ∈ rest, (!(decide (d = '+') || decide (d = '-'))) = true := by
    intro d hd
    have hchar := isPlainName_chars hplain d (List.mem_cons_of_mem c hd)
    have hplus : d ≠ '+' := by
      rintro rfl
      exact absurd hchar (by decide)
    have hminus : d ≠ '-' := by
      rintro rfl
      exact absurd hchar (by decide)
    simp [hplus, hminus]
  have hsign : ∀ d ∈ (Text.signed offset).toList.head?,
      (!(decide (d = '+') || decide (d = '-'))) = false := by
    rw [Text.toList_signed]
    rintro d ⟨rfl⟩
    split <;> decide
  have hbase := Text.takeWhile_append_stop hrest hsign
  have hback := Text.dropWhile_append_stop hrest hsign
  have hsome : ¬(Text.signed offset).toList.isEmpty = true := by
    simpa using (isWord_signed offset).1
  have hoffset := Text.trim_eq_self (isWord_signed offset).trimmed
  simp only [List.cons_append, readMemory?, hbase, hback, if_neg hsome, htrim, hoffset, hread,
    Text.integer?_signed]
  rfl

/-- An operand is read back from its text. -/
theorem read?_text {a : Arg} (h : a.Legible) : read? a.text.toList = some a := by
  cases a with
  | reg r =>
    have hname := isPlainName_true r.isPlainName_name
    rw [text, read?_of_isPlainName hname, Reg.ofName?_name h]
  | imm n =>
    have hread := Text.integer?_decimal n
    obtain ⟨c, rest, hcons, hc⟩ : ∃ c rest, (Text.decimal n).toList = c :: rest ∧
        (c.isDigit = true ∨ c = '-') := by
      obtain ⟨c, rest, hdigits, hc⟩ := Text.exists_toDigits_cons n.toInt.natAbs
      rw [Text.toList_decimal, hdigits]
      split
      · exact ⟨c, rest, rfl, .inl hc⟩
      · exact ⟨'-', c :: rest, rfl, .inr rfl⟩
    -- a decimal starts with a digit or `-`, so it is not taken for a memory operand or a global
    have hne : ∀ d, d.isDigit = false → d ≠ '-' → c ≠ d := by
      rintro d hd hminus rfl
      rcases hc with hc | hc
      · rw [hc] at hd
        cases hd
      · exact hminus hc
    rw [text]
    rw [hcons] at hread ⊢
    rw [read?_cons (hne '[' (by decide) (by decide)) (hne '@' (by decide) (by decide)), hread]
  | mem base offset =>
    have hinner := readMemory?_text h offset
    simp only [text, String.toList_append, List.append_assoc]
    rw [← List.append_assoc base.name.toList]
    exact read?_bracketed hinner
  | global name =>
    have hname : isPlainName false name.toList = true := h
    rw [text, String.toList_append]
    change (if isPlainName false name.toList then some (Arg.global (String.ofList name.toList))
      else none) = _
    rw [if_pos hname, String.ofList_toList]
  | label name =>
    have hplus : '+' ∉ name.toList := fun hmem =>
      absurd (isPlainName_chars h.1 '+' hmem) (by decide)
    rw [text, read?_of_isPlainName h.1, Reg.ofName?_eq_none hplus h.2, String.ofList_toList]

theorem mapM_read?_text {args : List Arg} (h : ∀ a ∈ args, a.Legible) :
    (args.map (·.text.toList)).mapM read? = some args := by
  induction args with
  | nil => rfl
  | cons a args ih =>
    obtain ⟨ha, hrest⟩ := List.forall_mem_cons.mp h
    rw [List.map_cons, List.mapM_cons, read?_text ha, ih hrest]
    rfl

end Arg

end WordC
