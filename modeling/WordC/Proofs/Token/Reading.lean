import Mathlib
import WordC.Token.Scan
import WordC.Proofs.Text.Layout
import WordC.Proofs.Text.Numeral
import WordC.Proofs.Token.Lexemes
/-!
# Lexemes are read

The converse of `Lexeme.denotes_of_read`: characters that denote a token, and do not go on in the
text behind them, are read as that token (`Denotes.read_eq`). A text that begins with a lexeme, or
with a blank before it, is scanned by reading that lexeme and going on behind it
(`scanFrom_of_denotes`).
-/

namespace WordC

/-! ## Literals -/

section Integers

variable {digits rest : List Char} {n : Int64}

theorem readHexadecimal_eq (hne : digits ≠ []) (hdigits : ∀ d ∈ digits, Text.isHexDigit d = true)
    (hend : ∀ c ∈ rest.head?, Text.isHexDigit c = false)
    (hvalue : n.toInt = Text.digitsValue 16 digits) :
    readHexadecimal (digits ++ rest) =
      .ok ⟨.integer n, digits.length + 2, Nat.succ_pos _⟩ := by
  have hempty : ¬digits.isEmpty = true := by simpa using hne
  simp only [readHexadecimal, Text.takeWhile_append_stop hdigits hend]
  rw [if_neg hempty, ← hvalue, Text.int64?_toInt]

/-- Decimal digits, which are not taken for the mark of a hexadecimal integer. -/
theorem readInteger_eq {c : Char} (hdigits : ∀ d ∈ digits, d.isDigit = true)
    (hend : ∀ d ∈ rest.head?, d.isDigit = false ∧ isNameStart d = false)
    (hvalue : n.toInt = Text.digitsValue 10 (c :: digits)) :
    readInteger c (digits ++ rest) =
      .ok ⟨.integer n, digits.length + 1, Nat.succ_pos _⟩ := by
  have hstop : ∀ d ∈ rest.head?, d.isDigit = false := fun d hd => (hend d hd).1
  -- a letter is neither one of the digits nor what stands behind them
  have hletter : ∀ {x : Char} {tail : List Char}, digits ++ rest = x :: tail →
      x.isDigit = false → isNameStart x = true → False := by
    intro x tail htext hdigit hstart
    cases digits with
    | nil =>
      have hx : x ∈ rest.head? := congrArg List.head? htext
      rw [(hend x hx).2] at hstart
      cases hstart
    | cons d digits =>
      obtain rfl := (List.cons.inj htext).1
      rw [hdigits d List.mem_cons_self] at hdigit
      cases hdigit
  unfold readInteger
  split
  · next htext => exact (hletter htext (by decide) (by decide)).elim
  · next htext => exact (hletter htext (by decide) (by decide)).elim
  · have hsuffix : ¬(rest.head?.map isNameStart).getD false = true := by
      cases hhead : rest.head? with
      | none => exact Bool.false_ne_true
      | some d => simp [(hend d hhead).2]
    simp only [Text.takeWhile_append_stop hdigits hstop, Text.dropWhile_append_stop hdigits hstop]
    rw [if_neg hsuffix, ← hvalue, Text.int64?_toInt]

end Integers

/-- An escape is read up to the closing quote. -/
theorem IsEscape.readEscape_eq {escaped : List Char} {c : Char} (h : IsEscape escaped c)
    (rest : List Char) : readEscape (escaped ++ '\'' :: rest) = .ok (c, escaped.length) := by
  cases h with
  | newline | tab | carriageReturn | backslash | quote | doubleQuote => rfl
  | octal hne hlength hdigits =>
    obtain ⟨d, digits, rfl⟩ := List.exists_cons_of_ne_nil hne
    have hd : Text.isOctalDigit d = true := hdigits d List.mem_cons_self
    have hquote : ∀ c ∈ ('\'' :: rest).head?, Text.isOctalDigit c = false := by
      rintro c ⟨⟩
      decide
    have hrun := Text.takeWhile_append_stop hdigits hquote
    rw [List.cons_append] at hrun ⊢
    unfold readEscape
    split
    · next heq => cases heq
    -- no other escape begins with an octal digit
    iterate 6
      · next heq =>
        obtain rfl := (List.cons.inj heq).1
        exact absurd hd (by decide)
    · next _ _ _ _ _ _ heq =>
      obtain ⟨rfl, rfl⟩ := List.cons.inj heq
      rw [if_pos hd, hrun, List.take_of_length_le hlength]

theorem readCharLiteral_eq {c : Char} (hquote : c ≠ '\'') (hbackslash : c ≠ '\\')
    (hline : c ≠ '\n') (rest : List Char) :
    readCharLiteral (c :: '\'' :: rest) = .ok ⟨.char c, 3, Nat.succ_pos _⟩ := by
  simp [readCharLiteral, closeCharLiteral]

theorem IsEscape.readCharLiteral_eq {escaped : List Char} {c : Char} (h : IsEscape escaped c)
    (rest : List Char) :
    readCharLiteral ('\\' :: (escaped ++ '\'' :: rest)) =
      .ok ⟨.char c, escaped.length + 3, Nat.succ_pos _⟩ := by
  have hclose : ('\\' :: (escaped ++ '\'' :: rest)).drop (escaped.length + 1) = '\'' :: rest := by
    simp
  simp only [readCharLiteral, h.readEscape_eq, closeCharLiteral, hclose]

/-! ## Words and symbols -/

theorem readWord_eq {c : Char} {part rest : List Char} (hpart : ∀ d ∈ part, isNamePart d = true)
    (hend : ∀ d ∈ rest.head?, isNamePart d = false) :
    readWord c (part ++ rest) =
      ⟨Token.ofWord (String.ofList (c :: part)), part.length + 1, Nat.succ_pos _⟩ := by
  simp only [readWord, Text.takeWhile_append_stop hpart hend]

/-- A word that is no name is made of name characters and denotes what it is listed with. -/
theorem Token.ofWord_of_mem {word : String} {token : Token} (h : (word, token) ∈ Token.words) :
    Token.ofWord word = token ∧ (∃ c part, word.toList = c :: part ∧ isNameStart c = true) ∧
      ∀ c ∈ word.toList, isNamePart c = true := by
  have hall : ∀ entry ∈ Token.words, Token.ofWord entry.1 = entry.2 ∧
      (entry.1.toList.head?.map isNameStart).getD false = true ∧
      entry.1.toList.all isNamePart = true := by
    decide +kernel
  obtain ⟨htoken, hstart, hpart⟩ := hall _ h
  refine ⟨htoken, ?_, List.all_eq_true.1 hpart⟩
  cases hword : word.toList with
  | nil =>
    rw [hword] at hstart
    cases hstart
  | cons c part =>
    rw [hword] at hstart
    exact ⟨c, part, rfl, hstart⟩

theorem IsName.ofWord_eq {name : String} (h : IsName name) : Token.ofWord name = .ident name := by
  rw [Token.ofWord, h.notWord, Option.getD_none]

theorem Symbol.chars_injective : Function.Injective Symbol.chars := by
  intro s s' h
  cases s <;> cases s' <;> first | rfl | cases h

/-- **A symbol that no longer one begins is read.** -/
theorem Symbol.read?_eq {s : Symbol} {rest : List Char}
    (hend : ∀ s' : Symbol, s'.chars <+: s.chars ++ rest → s'.chars.length ≤ s.chars.length) :
    Symbol.read? (s.chars ++ rest) = some s := by
  have hmem : s ∈ Symbol.longestFirst := by
    cases s <;> decide
  have hfits : s.chars.isPrefixOf (s.chars ++ rest) = true :=
    List.isPrefixOf_iff_prefix.2 (List.prefix_append _ _)
  cases hread : Symbol.read? (s.chars ++ rest) with
  | none => exact absurd hfits (List.find?_eq_none.1 hread s hmem)
  | some found =>
    -- what is read is as long as the symbol and begins the same text
    have hfound : found.chars <+: s.chars ++ rest := by
      simpa using List.find?_some hread
    have hlength : found.chars.length = s.chars.length :=
      le_antisymm (hend found hfound)
        (Symbol.length_le_of_read? hread (List.prefix_append _ _))
    have hchars : found.chars = s.chars :=
      (List.prefix_of_prefix_length_le hfound (List.prefix_append _ _) hlength.le).eq_of_length
        hlength
    rw [Symbol.chars_injective hchars]

/-! ## One lexeme -/

/-- A character that trivia may begin with. -/
def opensTrivia (c : Char) : Bool :=
  Text.isBlank c || c = '/' || c = '#'

theorem isNamePart_of_isDigit {c : Char} (h : c.isDigit = true) : isNamePart c = true := by
  have hrange : 48 ≤ c.toNat ∧ c.toNat ≤ 57 := by
    simpa [Char.isDigit, UInt32.le_iff_toNat_le] using h
  have hnumber : Text.isNumber c = true := by
    change (if c.toNat < 0x30 then false else if c.toNat < 0x3A then true else _) = true
    rw [if_neg (by omega), if_pos (by omega)]
  simp [isNamePart, hnumber]

theorem opensTrivia_of_isNamePart {c : Char} (h : isNamePart c = true) :
    opensTrivia c = false := by
  have hmark : c ≠ '/' ∧ c ≠ '#' := by
    constructor <;>
    · rintro rfl
      exact absurd h (by decide)
  simp [opensTrivia, isBlank_of_isNamePart h, hmark]

namespace Lexeme

variable {c : Char} {cs : List Char}

theorem read_quote : read '\'' cs = readCharLiteral cs := rfl

theorem read_of_isDigit {l : Lexeme} (hc : c.isDigit = true) (h : readInteger c cs = .ok l) :
    read c cs = .ok l := by
  have hquote : c ≠ '\'' := by
    rintro rfl
    exact absurd hc (by decide)
  rw [read, if_neg hquote, if_pos hc, h]

theorem read_of_isNameStart (hc : isNameStart c = true) : read c cs = .ok (readWord c cs) := by
  have hquote : c ≠ '\'' := by
    rintro rfl
    exact absurd hc (by decide)
  have hdigit : ¬c.isDigit = true := by simp [isDigit_of_isNameStart hc]
  rw [read, if_neg hquote, if_neg hdigit, if_pos hc]

end Lexeme

/-- What a symbol begins with begins no other lexeme and no trivia. -/
theorem Symbol.exists_chars (s : Symbol) : ∃ c cs, s.chars = c :: cs ∧ opensTrivia c = false ∧
    c ≠ '\'' ∧ c.isDigit = false ∧ isNameStart c = false := by
  cases s <;> exact ⟨_, _, rfl, by decide, by decide, by decide, by decide⟩

/-- **A lexeme is read.** -/
theorem Denotes.read_eq {rest lexeme : List Char} {token : Token} (h : Denotes rest lexeme token) :
    ∃ c cs, lexeme = c :: cs ∧ opensTrivia c = false ∧
      Lexeme.read c (cs ++ rest) = .ok ⟨token, cs.length + 1, Nat.succ_pos _⟩ := by
  cases h with
  | decimal hne hdigits hend hvalue =>
    obtain ⟨c, cs, rfl⟩ := List.exists_cons_of_ne_nil hne
    obtain ⟨hc, hcs⟩ := List.forall_mem_cons.1 hdigits
    exact ⟨c, cs, rfl, opensTrivia_of_isNamePart (isNamePart_of_isDigit hc),
      Lexeme.read_of_isDigit hc (readInteger_eq hcs hend hvalue)⟩
  | @hexadecimal x digits n hx hne hdigits hend hvalue =>
    -- the digits behind `0x` or `0X` are read in the same way
    have hread : readInteger '0' (x :: digits ++ rest) =
        .ok ⟨.integer n, digits.length + 2, Nat.succ_pos _⟩ := by
      rw [← readHexadecimal_eq hne hdigits hend hvalue]
      rcases hx with rfl | rfl
      · rfl
      · rfl
    exact ⟨'0', _, rfl, by decide, Lexeme.read_of_isDigit (by decide) hread⟩
  | @char c hquote hbackslash hline =>
    exact ⟨'\'', _, rfl, by decide, readCharLiteral_eq hquote hbackslash hline rest⟩
  | @escape escaped c hescape =>
    refine ⟨'\'', _, rfl, by decide, ?_⟩
    rw [Lexeme.read_quote, List.cons_append, List.append_assoc, List.singleton_append,
      hescape.readCharLiteral_eq]
    simp
  | @word word token hword hend =>
    obtain ⟨htoken, ⟨c, part, hchars, hstart⟩, hpart⟩ := Token.ofWord_of_mem hword
    rw [hchars] at hpart
    refine ⟨c, part, hchars, opensTrivia_of_isNamePart (isNamePart_of_isNameStart hstart), ?_⟩
    rw [Lexeme.read_of_isNameStart hstart, readWord_eq (List.forall_mem_cons.1 hpart).2 hend,
      ← hchars, String.ofList_toList, htoken]
  | @name name hname hend =>
    obtain ⟨c, part, hchars, hstart⟩ := hname.start
    have hpart := hname.part
    rw [hchars] at hpart
    refine ⟨c, part, hchars, opensTrivia_of_isNamePart (isNamePart_of_isNameStart hstart), ?_⟩
    rw [Lexeme.read_of_isNameStart hstart, readWord_eq (List.forall_mem_cons.1 hpart).2 hend,
      ← hchars, String.ofList_toList, hname.ofWord_eq]
  | @symbol s hend =>
    obtain ⟨c, cs, hchars, htrivia, hquote, hdigit, hstart⟩ := s.exists_chars
    have hread := Symbol.read?_eq hend
    rw [hchars, List.cons_append] at hread
    refine ⟨c, cs, hchars, htrivia, ?_⟩
    simp [Lexeme.read, hquote, hdigit, hstart, hread, hchars]

/-! ## Scanning -/

theorem triviaLength_eq_zero {c : Char} (h : opensTrivia c = false) (cs : List Char) :
    triviaLength (c :: cs) = .ok 0 := by
  simp only [opensTrivia, Bool.or_eq_false_iff, decide_eq_false_iff_not] at h
  obtain ⟨⟨hblank, hslash⟩, hhash⟩ := h
  have hpiece : triviaPiece (c :: cs) = .ok 0 := by
    simp [triviaPiece, hblank, hslash]
  rw [triviaLength, hpiece]
  simp

/-- A space before a lexeme is all there is to skip. -/
theorem triviaLength_gap {gap : List Char} {c : Char} (h : opensTrivia c = false) (cs : List Char)
    (hgap : gap = [] ∨ gap = [' ']) : triviaLength (gap ++ c :: cs) = .ok gap.length := by
  have hnone := triviaLength_eq_zero h cs
  rcases hgap with rfl | rfl
  · exact hnone
  · have hpiece : triviaPiece (' ' :: c :: cs) = .ok 1 := rfl
    rw [List.singleton_append, triviaLength, hpiece]
    simp [hnone]

theorem scanFrom_nil (p : Position) : scanFrom p [] = .ok [⟨.eof, p⟩] := by
  have hnothing : triviaLength [] = .ok 0 := by simp [triviaLength, triviaPiece]
  rw [scanFrom, hnothing]
  rfl

/-- Behind trivia, the scan reads a lexeme and goes on behind it. -/
theorem scanFrom_cons {p : Position} {gap cs : List Char} {c : Char}
    (hgap : triviaLength (gap ++ c :: cs) = .ok gap.length) :
    scanFrom p (gap ++ c :: cs) =
      match Lexeme.read c cs with
      | .error f => .error ⟨(p.after gap).after ((c :: cs).take f.offset), f.error⟩
      | .ok l =>
        (scanFrom ((p.after gap).after ((c :: cs).take l.length)) ((c :: cs).drop l.length)).map
          (⟨l.token, p.after gap⟩ :: ·) := by
  rw [scanFrom, hgap]
  simp only [List.take_left]
  split
  · next hnil =>
    rw [List.drop_left] at hnil
    cases hnil
  · next hcons =>
    rw [List.drop_left] at hcons
    cases hcons
    cases Lexeme.read c cs with
    | error f => rfl
    | ok l =>
      dsimp only
      cases scanFrom ((p.after gap).after ((c :: cs).take l.length)) ((c :: cs).drop l.length) with
      | ok tokens => rfl
      | error e => rfl

/-- **A lexeme is scanned**, with a space before it or none. -/
theorem scanFrom_of_denotes (p : Position) {gap lexeme rest : List Char} {token : Token}
    (h : Denotes rest lexeme token) (hgap : gap = [] ∨ gap = [' ']) :
    scanFrom p (gap ++ (lexeme ++ rest)) =
      (scanFrom (p.after (gap ++ lexeme)) rest).map (⟨token, p.after gap⟩ :: ·) := by
  obtain ⟨c, cs, rfl, htrivia, hread⟩ := h.read_eq
  rw [List.cons_append, scanFrom_cons (triviaLength_gap htrivia _ hgap), hread]
  simp [Position.after]

end WordC
