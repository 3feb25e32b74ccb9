import Mathlib
import WordC.Proofs.Assembly.Operands
import WordC.Proofs.Lowering.Labels
import WordC.Proofs.Token.Names
/-!
# How names are written in assembly

The names of a text may have letters and numbers of any script in them. In
assembly they are words nonetheless, since no white space and no punctuation is
part of a name (`IsName.isWord`). The labels of a function are words as well,
and if its name is plain they can be read back (`LabelKey.legible_name`).
-/

namespace WordC

/-! ## Names of a text -/

/-- **A character of a name is a character of a word.** -/
theorem isWordChar_of_isNamePart {c : Char} (h : isNamePart c = true) : isWordChar c = true := by
  have hpunctuation : c ≠ ';' ∧ c ≠ ':' ∧ c ≠ ',' := by
    refine ⟨?_, ?_, ?_⟩ <;>
    · rintro rfl
      exact absurd h (by decide)
  simp [isWordChar, isBlank_of_isNamePart h, hpunctuation]

namespace IsName

variable {name : String}

theorem isWord (h : IsName name) : IsWord name.toList := by
  obtain ⟨c, rest, hname, -⟩ := h.start
  refine ⟨?_, fun d hd => isWordChar_of_isNamePart (h.part d hd)⟩
  rw [hname]
  exact List.cons_ne_nil c rest

theorem not_mem (h : IsName name) {c : Char} (hc : isNamePart c = false) : c ∉ name.toList := by
  intro hmem
  rw [h.part c hmem] at hc
  cases hc

/-- A name is one line. -/
theorem oneLine (h : IsName name) : Text.OneLine name.toList := by
  refine .of_forall fun c hc => ⟨?_, ?_⟩ <;>
  · rintro rfl
    exact h.not_mem (by decide) hc

/-- A name does not begin as a number or an address does. -/
theorem not_operand (h : IsName name) : ∃ c rest, name.toList = c :: rest ∧
    c.isDigit = false ∧ c ∉ ['+', '-', '[', '@'] := by
  obtain ⟨c, rest, hname, hc⟩ := h.start
  refine ⟨c, rest, hname, isDigit_of_isNameStart hc, fun hmem => ?_⟩
  have hall : ∀ d ∈ ['+', '-', '[', '@'], isNameStart d = false := by
    simp only [List.forall_mem_cons]
    exact ⟨by decide, by decide, by decide, by decide, List.forall_mem_nil _⟩
  rw [hall c hmem] at hc
  cases hc

end IsName

/-! ## Labels -/

theorem mem_of_mem_intercalate {sep c : Char} {words : List (List Char)}
    (h : c ∈ [sep].intercalate words) : c = sep ∨ ∃ word ∈ words, c ∈ word := by
  induction words with
  | nil => cases h
  | cons first words ih =>
    cases words with
    | nil => exact .inr ⟨first, List.mem_cons_self, by simpa using h⟩
    | cons second words =>
      rw [List.intercalate_cons_cons, List.mem_append, List.mem_append, List.mem_singleton] at h
      rcases h with (h | h) | h
      · exact .inr ⟨first, List.mem_cons_self, h⟩
      · exact .inl h
      · exact (ih h).imp_right fun ⟨word, hword, hc⟩ => ⟨word, List.mem_cons_of_mem _ hword, hc⟩

/-- The name of a register has no dot in it. -/
theorem IsRegisterName.not_mem_dot {word : List Char} (h : IsRegisterName word) : '.' ∉ word := by
  intro hdot
  have hlower : '.' ∈ word.map Char.toLower := List.mem_map.mpr ⟨'.', hdot, rfl⟩
  rcases h with hnamed | ⟨digits, n, hword, hvalue, -⟩
  · have hall : ∀ w ∈ ["r0".toList, "eax".toList, "edx".toList, "ebp".toList, "esp".toList],
        '.' ∉ w := by decide
    exact hall _ hnamed hlower
  · rw [hword, List.mem_cons] at hlower
    rcases hlower with hr | hdigit
    · exact absurd hr (by decide)
    · exact absurd (Text.isDigit_of_decimal? hvalue '.' hdigit) (by decide)

namespace LabelKey

variable {function : String} {k : LabelKey}

/-- Behind the name of the function a label is plain. -/
theorem plain_of_mem_words {word : List Char} (h : word ∈ k.words) :
    ∀ c ∈ word, isPlainStart c = true ∨ c.isDigit = true := by
  refine forall_words (P := fun word => ∀ c ∈ word, isPlainStart c = true ∨ c.isDigit = true)
    ?_ (fun n c hc => ?_) ?_ k word h
  · simp [isPlainStart]
  · exact .inr (Nat.isDigit_of_mem_toDigits (by decide) (by decide) hc)
  · simp [isPlainStart]

/-- The characters of a label. -/
theorem mem_name (hk : k.path ≠ []) {c : Char} (hc : c ∈ (k.name function).toList) :
    c ∈ function.toList ∨ isPlainStart c = true ∨ c.isDigit = true ∨ c = '.' := by
  have hword : ∀ {word}, word ∈ k.words → c ∈ word →
      isPlainStart c = true ∨ c.isDigit = true ∨ c = '.' := fun hw hc =>
    (plain_of_mem_words hw c hc).imp_right .inl
  have hunderscore : c = '_' → isPlainStart c = true := by
    rintro rfl
    decide
  simp only [toList_name function hk, List.mem_append, List.mem_cons] at hc
  rcases hc with hc | hc | hc | hc | hc | hc | hc
  · exact .inl hc
  · exact .inr (.inr (.inr hc))
  · exact .inr (hword (by simp [words]) hc)
  · exact .inr (.inl (hunderscore hc))
  · rcases mem_of_mem_intercalate hc with hc | ⟨word, hmem, hc⟩
    · exact .inr (.inr (.inr hc))
    · exact .inr (hword (List.mem_cons_of_mem _ (List.mem_append_left _ hmem)) hc)
  · exact .inr (.inl (hunderscore hc))
  · exact .inr (hword (by simp [words]) hc)

/-- The labels of a function are words if its name is one. -/
theorem isWord_name (hk : k.path ≠ []) (h : IsWord function.toList) :
    IsWord (k.name function).toList := by
  refine ⟨?_, fun c hc => ?_⟩
  · rw [toList_name function hk]
    simp
  · exact (mem_name hk hc).elim (h.2 c) isWordChar_of_plain

/-- **The labels of a function can be read back if its name is plain.** A label has
a dot in it, and so it is not taken for a register. -/
theorem legible_name (hk : k.path ≠ []) (h : isPlainName false function.toList = true) :
    (Arg.label (k.name function)).Legible := by
  have hdot : '.' ∈ (k.name function).toList := by
    rw [toList_name function hk]
    simp
  refine ⟨?_, fun hregister => hregister.not_mem_dot hdot⟩
  obtain ⟨c, rest, hfunction, hc⟩ := exists_cons_of_isPlainName h
  have hname : (k.name function).toList = c :: (rest ++ (k.name "").toList) := by
    rw [toList_name function hk, toList_name "" hk, hfunction]
    simp
  rw [hname]
  refine isPlainName_cons_iff.mpr ⟨hc, fun d hd => ?_⟩
  have hmem : d ∈ (k.name function).toList := hname ▸ List.mem_cons_of_mem c hd
  have hplain : isPlainStart d = true ∨ d.isDigit = true ∨ d = '.' :=
    (mem_name hk hmem).elim (isPlainName_chars h d) id
  exact hplain.imp_right (.imp_right fun hd => ⟨rfl, hd⟩)

end LabelKey

end WordC
