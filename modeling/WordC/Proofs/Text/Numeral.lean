import Mathlib
import WordC.Text.Numeral
/-!
# Numerals are read back

The decimal text of a number denotes it, with and without an explicit sign,
and up to the ends of the range of a word.
-/

namespace WordC

namespace Text

/-! ## Natural numbers -/

theorem digitValue_of_isDigit {c : Char} (h : c.isDigit = true) :
    digitValue c = c.toNat - '0'.toNat := by
  rw [digitValue, if_pos h]

theorem digitsValue_eq_ofDigitChars {cs : List Char} (h : ∀ c ∈ cs, c.isDigit = true) :
    digitsValue 10 cs = Nat.ofDigitChars 10 cs 0 := by
  rw [digitsValue, Nat.ofDigitChars_eq_foldl]
  refine List.foldl_ext _ _ _ fun n c hc => ?_
  rw [digitValue_of_isDigit (h c hc), Nat.mul_comm]

theorem isDigit_of_mem_toDigits {n : Nat} {c : Char} (h : c ∈ Nat.toDigits 10 n) :
    c.isDigit = true :=
  Nat.isDigit_of_mem_toDigits (by decide) (by decide) h

theorem decimal?_toDigits (n : Nat) : decimal? (Nat.toDigits 10 n) = some n := by
  have hdigits : ∀ c ∈ Nat.toDigits 10 n, c.isDigit = true := fun _ => isDigit_of_mem_toDigits
  have hrun : (!(Nat.toDigits 10 n).isEmpty && (Nat.toDigits 10 n).all Char.isDigit) = true := by
    simpa [Nat.toDigits_ne_nil] using hdigits
  rw [decimal?, if_pos hrun, digitsValue_eq_ofDigitChars hdigits, Nat.ofDigitChars_ten_toDigits]

theorem isDigit_of_decimal? {cs : List Char} {n : Nat} (h : decimal? cs = some n) :
    ∀ c ∈ cs, c.isDigit = true := by
  rw [decimal?] at h
  split at h
  · next hrun =>
    rw [Bool.and_eq_true, List.all_eq_true] at hrun
    exact hrun.2
  · cases h

theorem exists_toDigits_cons (n : Nat) :
    ∃ c rest, Nat.toDigits 10 n = c :: rest ∧ c.isDigit = true := by
  obtain ⟨c, rest, hcons⟩ := List.exists_cons_of_ne_nil (Nat.toDigits_ne_nil (n := n) (b := 10))
  exact ⟨c, rest, hcons, isDigit_of_mem_toDigits (by rw [hcons]; exact List.mem_cons_self)⟩

theorem natural?_of_not_mem {limit : Nat} {cs : List Char} (h : '+' ∉ cs) :
    natural? limit cs = (decimal? cs).filter (· < limit) := by
  rw [natural?]
  rintro rest rfl
  exact h List.mem_cons_self

theorem natural?_toDigits {limit n : Nat} (h : n < limit) :
    natural? limit (Nat.toDigits 10 n) = some n := by
  have hplus : '+' ∉ Nat.toDigits 10 n := by
    intro hmem
    exact absurd (isDigit_of_mem_toDigits hmem) (by decide)
  rw [natural?_of_not_mem hplus, decimal?_toDigits]
  simp [h]

/-! ## Words -/

theorem int64?_toInt (n : Int64) : int64? n.toInt = some n := by
  have hrange : Int64.minValue.toInt ≤ n.toInt ∧ n.toInt ≤ Int64.maxValue.toInt :=
    ⟨n.minValue_le_toInt, n.toInt_le⟩
  rw [int64?, if_pos hrange, Int64.ofInt_toInt]

/-- A word that begins with neither a sign nor a digit is no numeral. -/
theorem integer?_eq_none {c : Char} {rest : List Char} (hdigit : c.isDigit = false)
    (hminus : c ≠ '-') (hplus : c ≠ '+') : integer? (c :: rest) = none := by
  simp [integer?, decimal?, hdigit, hminus, hplus]

theorem integer?_toDigits (n : Nat) : integer? (Nat.toDigits 10 n) = int64? n := by
  obtain ⟨c, rest, hcons, hc⟩ := exists_toDigits_cons n
  have hread := decimal?_toDigits n
  have hminus : c ≠ '-' := by
    rintro rfl
    exact absurd hc (by decide)
  have hplus : c ≠ '+' := by
    rintro rfl
    exact absurd hc (by decide)
  rw [hcons] at hread ⊢
  simp [integer?, hminus, hplus, hread]

/-- The text of a word: its digits, behind a sign if it is negative. -/
theorem toList_decimal (n : Int64) :
    (decimal n).toList =
      if 0 ≤ n.toInt then Nat.toDigits 10 n.toInt.natAbs
      else '-' :: Nat.toDigits 10 n.toInt.natAbs := by
  rw [decimal]
  cases n.toInt with
  | ofNat m =>
    rw [if_pos (show (0 : Int) ≤ Int.ofNat m from Int.natCast_nonneg m)]
    exact Nat.toList_repr
  | negSucc m =>
    rw [if_neg (by omega)]
    exact (String.toList_append ..).trans (congrArg ('-' :: ·) Nat.toList_repr)

theorem toList_signed (n : Int64) :
    (signed n).toList =
      (if 0 ≤ n.toInt then '+' else '-') :: Nat.toDigits 10 n.toInt.natAbs := by
  rw [signed]
  split
  · next h => rw [String.toList_append, toList_decimal, if_pos h]; rfl
  · next h => rw [toList_decimal, if_neg h]

/-- A word is read back from its text. -/
theorem integer?_decimal (n : Int64) : integer? (decimal n).toList = some n := by
  rw [toList_decimal]
  split
  · next h =>
    rw [integer?_toDigits, Int.natAbs_of_nonneg h, int64?_toInt]
  · next h =>
    have hvalue : -(n.toInt.natAbs : Int) = n.toInt := by omega
    rw [integer?, decimal?_toDigits, Option.bind_some, hvalue, int64?_toInt]

/-- A word is read back from its text with an explicit sign. -/
theorem integer?_signed (n : Int64) : integer? (signed n).toList = some n := by
  rw [toList_signed]
  split
  · next h =>
    rw [integer?, decimal?_toDigits, Option.bind_some, Int.natAbs_of_nonneg h, int64?_toInt]
  · next h =>
    have hvalue : -(n.toInt.natAbs : Int) = n.toInt := by omega
    rw [integer?, decimal?_toDigits, Option.bind_some, hvalue, int64?_toInt]

end Text

end WordC
