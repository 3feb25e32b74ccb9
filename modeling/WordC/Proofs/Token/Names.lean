import Mathlib
import WordC.Token.Lexeme
/-!
# Names

A name is a run of name characters and none of the words that are not names. A word
denotes the token that it is listed with, or is a name. The characters of a name may be of
any script, but they are no white space, and the first one is no digit.
-/

namespace WordC

/-- **A name as texts have it.** -/
structure IsName (name : String) : Prop where
  start : ∃ c rest, name.toList = c :: rest ∧ isNameStart c = true
  part : ∀ c ∈ name.toList, isNamePart c = true
  notWord : Token.words.lookup name = none

theorem isNamePart_of_isNameStart {c : Char} (h : isNameStart c = true) : isNamePart c = true := by
  unfold isNameStart at h
  unfold isNamePart
  simp only [Bool.or_eq_true, decide_eq_true_eq] at h ⊢
  rcases h with h | h
  · exact .inl (.inl h)
  · exact .inr h

/-! ## Characters of names -/

namespace Text

/-- The numbers of a set whose changes are listed. -/
def points : List Nat → List Nat
  | low :: high :: rest => List.range' low (high - low) ++ points rest
  | _ => []

theorem mem_points {bounds : List Nat} {n : Nat} (heven : bounds.length % 2 = 0)
    (h : insideAt bounds n false = true) : n ∈ points bounds := by
  fun_induction points bounds with
  | case1 low high rest ih =>
    rw [List.mem_append, List.mem_range'_1]
    by_cases hlow : n < low
    · simp [insideAt, hlow] at h
    · by_cases hhigh : n < high
      · exact .inl (by omega)
      · have hrest : rest.length % 2 = 0 := by
          simp only [List.length_cons] at heven
          omega
        exact .inr (ih hrest (by simpa [insideAt, hlow, hhigh] using h))
  | case2 bounds hshape =>
    match bounds with
    | [] => cases h
    | [_] => cases heven
    | low :: high :: rest => exact absurd rfl (hshape low high rest)

/-- White space is neither a letter nor a number of any script. -/
theorem not_letter_of_blank : ∀ n ∈ points blankBounds,
    insideAt letterBounds n false = false ∧ insideAt numberBounds n false = false := by
  decide +kernel

/-- No letter comes before the capitals. -/
theorem le_of_isLetter {c : Char} (h : isLetter c = true) : 0x41 ≤ c.toNat := by
  by_contra hlow
  have hout : isLetter c = false := if_pos (by omega)
  rw [hout] at h
  cases h

end Text

/-- No white space is part of a name. -/
theorem isBlank_of_isNamePart {c : Char} (h : isNamePart c = true) : Text.isBlank c = false := by
  by_contra hblank
  have hpoint : c.toNat ∈ Text.points Text.blankBounds :=
    Text.mem_points rfl (Bool.eq_true_of_not_eq_false hblank)
  obtain ⟨hletter, hnumber⟩ := Text.not_letter_of_blank _ hpoint
  have hunderscore : c ≠ '_' := by
    rintro rfl
    exact absurd hpoint (by decide +kernel)
  simp [isNamePart, Text.isLetter, Text.isNumber, Text.within, hletter, hnumber,
    hunderscore] at h

/-- No name begins with a digit. -/
theorem isDigit_of_isNameStart {c : Char} (h : isNameStart c = true) : c.isDigit = false := by
  by_contra hdigit
  have hrange : 48 ≤ c.toNat ∧ c.toNat ≤ 57 := by
    simpa [Char.isDigit, UInt32.le_iff_toNat_le] using hdigit
  rw [isNameStart, Bool.or_eq_true, decide_eq_true_eq] at h
  rcases h with hletter | rfl
  · have := Text.le_of_isLetter hletter
    omega
  · exact absurd hrange (by decide)

/-! ## Words -/

/-- **The words that are no names**: the truth values, the words of statements and the types. -/
theorem Token.mem_words_iff {word : String} {token : Token} : (word, token) ∈ Token.words ↔
    word = "true" ∧ token = .truth true ∨ word = "false" ∧ token = .truth false ∨
    word = "return" ∧ token = .reserved .returnWord ∨ word = "if" ∧ token = .reserved .ifWord ∨
    word = "else" ∧ token = .reserved .elseWord ∨ word = "while" ∧ token = .reserved .whileWord ∨
    word = "for" ∧ token = .reserved .forWord ∨ word = "break" ∧ token = .reserved .breakWord ∨
    word = "int" ∧ token = .type .int ∨ word = "bool" ∧ token = .type .bool ∨
    word = "char" ∧ token = .type .char ∨ word = "void" ∧ token = .type .void := by
  simp [Token.words]

/-- Names are not listed as words, and neither is the end of the text. -/
theorem Token.not_mem_words (word : String) :
    (∀ name, (word, .ident name) ∉ Token.words) ∧ (word, .eof) ∉ Token.words := by
  simp [Token.mem_words_iff]

/-- A word denotes the token that it is listed with, or else a name. -/
theorem Token.ofWord_cases (word : String) :
    (word, Token.ofWord word) ∈ Token.words ∨
      Token.ofWord word = .ident word ∧ Token.words.lookup word = none := by
  unfold Token.ofWord
  cases hword : Token.words.lookup word with
  | none => exact .inr ⟨rfl, rfl⟩
  | some t =>
    obtain ⟨before, after, hsplit, -⟩ := List.lookup_eq_some_iff.1 hword
    refine .inl ?_
    rw [hsplit]
    simp

end WordC
