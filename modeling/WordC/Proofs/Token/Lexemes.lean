import Mathlib
import WordC.Proofs.Token.Names
/-!
# Lexemes and the trivia before them

What a text is split into, without regard to how it is split. `Trivia` are blanks,
comments and directive lines. `Denotes` says which characters denote which token,
and that they do not go on in the text behind them. Measuring trivia and reading a
lexeme find both (`trivia_of_triviaLength`, `Lexeme.denotes_of_read`).
-/

namespace WordC

/-- The comment is closed by the end that follows `inner`, and not before. -/
def ClosesFirst (inner : List Char) : Prop :=
  ∀ before after, inner ++ ['*', '/'] = before ++ '*' :: '/' :: after → after = []

/-- **Trivia before the text** `rest`. -/
inductive Trivia (rest : List Char) : List Char → Prop where
  | nothing : Trivia rest []
  | blank {c : Char} {gap : List Char} (hc : Text.isBlank c = true) (hgap : Trivia rest gap) :
    Trivia rest (c :: gap)
  /-- The rest of a line from `//` or `#` on, without the end of the line. -/
  | line {line gap : List Char} (hopen : ['/', '/'] <+: line ∨ ['#'] <+: line)
    (hline : '\n' ∉ line) (hend : ∀ c ∈ (gap ++ rest).head?, c = '\n') (hgap : Trivia rest gap) :
    Trivia rest (line ++ gap)
  | comment {inner gap : List Char} (hinner : ClosesFirst inner) (hgap : Trivia rest gap) :
    Trivia rest ('/' :: '*' :: (inner ++ '*' :: '/' :: gap))

/-- What stands behind the backslash of an escape, and the character it denotes. -/
inductive IsEscape : List Char → Char → Prop where
  | newline : IsEscape ['n'] '\n'
  | tab : IsEscape ['t'] '\t'
  | carriageReturn : IsEscape ['r'] '\r'
  | backslash : IsEscape ['\\'] '\\'
  | quote : IsEscape ['\''] '\''
  | doubleQuote : IsEscape ['"'] '"'
  | octal {digits : List Char} (hne : digits ≠ []) (hlength : digits.length ≤ 3)
    (hdigits : ∀ d ∈ digits, Text.isOctalDigit d = true) :
    IsEscape digits (Char.ofNat (Text.digitsValue 8 digits))

/-- **A lexeme before the text** `rest`, and the token it denotes. A lexeme that could be
longer does not go on in `rest`. `Token.mem_words_iff` lists the words that are no names. -/
inductive Denotes (rest : List Char) : List Char → Token → Prop where
  | decimal {digits : List Char} {n : Int64} (hne : digits ≠ [])
    (hdigits : ∀ d ∈ digits, d.isDigit = true)
    (hend : ∀ c ∈ rest.head?, c.isDigit = false ∧ isNameStart c = false)
    (hvalue : n.toInt = Text.digitsValue 10 digits) : Denotes rest digits (.integer n)
  | hexadecimal {x : Char} {digits : List Char} {n : Int64} (hx : x = 'x' ∨ x = 'X')
    (hne : digits ≠ []) (hdigits : ∀ d ∈ digits, Text.isHexDigit d = true)
    (hend : ∀ c ∈ rest.head?, Text.isHexDigit c = false)
    (hvalue : n.toInt = Text.digitsValue 16 digits) :
    Denotes rest ('0' :: x :: digits) (.integer n)
  | char {c : Char} (hquote : c ≠ '\'') (hbackslash : c ≠ '\\') (hline : c ≠ '\n') :
    Denotes rest ['\'', c, '\''] (.char c)
  | escape {escaped : List Char} {c : Char} (hescape : IsEscape escaped c) :
    Denotes rest ('\'' :: '\\' :: (escaped ++ ['\''])) (.char c)
  | word {word : String} {token : Token} (hword : (word, token) ∈ Token.words)
    (hend : ∀ c ∈ rest.head?, isNamePart c = false) : Denotes rest word.toList token
  | name {name : String} (hname : IsName name) (hend : ∀ c ∈ rest.head?, isNamePart c = false) :
    Denotes rest name.toList (.ident name)
  | symbol {s : Symbol}
    (hend : ∀ s' : Symbol, s'.chars <+: s.chars ++ rest → s'.chars.length ≤ s.chars.length) :
    Denotes rest s.chars (.symbol s)

/-! ## Trivia -/

theorem closesFirst_nil : ClosesFirst [] := by
  intro before after h
  have hlength := congrArg List.length h
  simp only [List.nil_append, List.length_cons, List.length_nil, List.length_append] at hlength
  exact List.eq_nil_of_length_eq_zero (by omega)

theorem ClosesFirst.cons {c : Char} {inner after : List Char} (h : ClosesFirst inner)
    (hc : ∀ cs, c = '*' → inner ++ '*' :: '/' :: after = '/' :: cs → False) :
    ClosesFirst (c :: inner) := by
  intro before behind heq
  cases before with
  | nil =>
    -- the end would begin with `c`, but the text goes on otherwise
    obtain ⟨hstar, hrest⟩ := List.cons.inj heq
    cases inner with
    | nil => cases hrest
    | cons d inner =>
      obtain ⟨rfl, -⟩ := List.cons.inj hrest
      exact (hc _ hstar rfl).elim
  | cons d before => exact h before behind (List.cons.inj heq).2

/-- A comment ends at its first `*/`. -/
theorem closesFirst_of_blockCommentLength {cs : List Char} {n : Nat}
    (h : blockCommentLength cs = some n) :
    ∃ inner after, cs = inner ++ '*' :: '/' :: after ∧ n = inner.length + 2 ∧
      ClosesFirst inner := by
  fun_induction blockCommentLength cs generalizing n with
  | case1 => cases h
  | case2 after =>
    cases h
    exact ⟨[], after, rfl, rfl, closesFirst_nil⟩
  | case3 c cs hc ih =>
    obtain ⟨m, hm, rfl⟩ := Option.map_eq_some_iff.1 h
    obtain ⟨inner, after, rfl, rfl, hfirst⟩ := ih hm
    exact ⟨c :: inner, after, rfl, rfl, hfirst.cons hc⟩

/-- Where a run of characters ends, the next one is not of its kind. -/
theorem not_of_head?_dropWhile {p : Char → Bool} (cs : List Char) :
    ∀ c ∈ (cs.dropWhile p).head?, p c = false := by
  intro c hc
  have hne : cs.dropWhile p ≠ [] := by
    intro hnil
    rw [hnil] at hc
    cases hc
  rw [List.head?_eq_some_head hne, Option.mem_some_iff] at hc
  rw [← hc]
  simpa using List.head_dropWhile_not p hne

/-- A text is split behind the run of characters that it begins with. -/
theorem split_takeWhile (p : Char → Bool) (cs : List Char) :
    cs.take (cs.takeWhile p).length = cs.takeWhile p ∧
      cs.drop (cs.takeWhile p).length = cs.dropWhile p := by
  constructor
  · exact (List.prefix_iff_eq_take.1 (List.takeWhile_prefix p)).symm
  · nth_rewrite 2 [← List.takeWhile_append_dropWhile (p := p) (l := cs)]
    exact List.drop_left

/-- A line from its opening on is trivia. -/
theorem trivia_of_line {cs gap rest : List Char} (hopen : ['/', '/'] <+: cs ∨ ['#'] <+: cs)
    (hrest : cs.drop (lineLength cs) = gap ++ rest) (hgap : Trivia rest gap) :
    Trivia rest (cs.take (lineLength cs) ++ gap) := by
  obtain ⟨htake, hdrop⟩ := split_takeWhile (· ≠ '\n') cs
  unfold lineLength at hrest ⊢
  rw [hdrop] at hrest
  rw [htake]
  refine .line ?_ (fun hmem => ?_) ?_ hgap
  · rcases hopen with ⟨tail, rfl⟩ | ⟨tail, rfl⟩
    · exact .inl ⟨tail.takeWhile (· ≠ '\n'), rfl⟩
    · exact .inr ⟨tail.takeWhile (· ≠ '\n'), rfl⟩
  · simpa using List.mem_takeWhile_imp hmem
  · intro c hc
    rw [← hrest] at hc
    simpa using not_of_head?_dropWhile cs c hc

/-- A piece of trivia stands before more of it. -/
theorem trivia_of_triviaPiece {cs gap rest : List Char} {n : Nat} (h : triviaPiece cs = .ok n)
    (hpos : 0 < n) (hrest : cs.drop n = gap ++ rest) (hgap : Trivia rest gap) :
    Trivia rest (cs.take n ++ gap) := by
  unfold triviaPiece at h
  split at h
  · split at h
    -- a comment up to the first `*/`
    · next hlength =>
      cases h
      obtain ⟨inner, after, rfl, rfl, hfirst⟩ := closesFirst_of_blockCommentLength hlength
      have htake :
          ('/' :: '*' :: (inner ++ '*' :: '/' :: after)).take (inner.length + 2 + 2) ++ gap =
            '/' :: '*' :: (inner ++ '*' :: '/' :: gap) := by
        simp [List.take_append]
      rw [htake]
      exact .comment hfirst hgap
    · cases h
  · cases h
    exact trivia_of_line (.inl ⟨_, rfl⟩) hrest hgap
  · cases h
    exact trivia_of_line (.inr ⟨_, rfl⟩) hrest hgap
  · cases h
    split
    · next hblank => exact .blank hblank hgap
    · next hblank => simp [hblank] at hpos
  · cases h
    cases hpos

/-- **What is measured is trivia.** -/
theorem trivia_of_triviaLength {cs : List Char} {n : Nat} (h : triviaLength cs = .ok n) :
    Trivia (cs.drop n) (cs.take n) := by
  fun_induction triviaLength cs generalizing n with
  | case1 => cases h
  | case2 cs k hpiece hpos m hm ih =>
    cases h
    have hmore := ih hm
    rw [List.drop_drop] at hmore
    rw [List.take_add]
    refine trivia_of_triviaPiece hpiece hpos.1 ?_ hmore
    rw [← List.drop_drop, List.take_append_drop]
  | case3 => cases h
  | case4 =>
    cases h
    exact .nothing

/-! ## Literals -/

theorem toInt_of_int64? {n : Int} {m : Int64} (h : Text.int64? n = some m) : m.toInt = n := by
  unfold Text.int64? at h
  split at h
  · next hrange =>
    cases h
    rw [Int64.toInt_minValue, Int64.toInt_maxValue] at hrange
    exact Int64.toInt_ofInt_of_le hrange.1 (by omega)
  · cases h

/-- Digits behind `0x`. -/
theorem denotes_of_readHexadecimal {x : Char} {cs : List Char} {l : Lexeme}
    (hx : x = 'x' ∨ x = 'X') (h : readHexadecimal cs = .ok l) :
    Denotes (('0' :: x :: cs).drop l.length) (('0' :: x :: cs).take l.length) l.token := by
  obtain ⟨htake, hdrop⟩ := split_takeWhile Text.isHexDigit cs
  simp only [readHexadecimal] at h
  split at h
  · cases h
  · next hne =>
    split at h
    · next n hn =>
      cases h
      simp only [List.take_succ_cons, List.drop_succ_cons, htake, hdrop]
      refine .hexadecimal hx (by simpa using hne) (fun d hd => List.mem_takeWhile_imp hd)
        (not_of_head?_dropWhile cs) (toInt_of_int64? hn)
    · cases h

theorem denotes_of_readInteger {c : Char} {cs : List Char} {l : Lexeme} (hc : c.isDigit = true)
    (h : readInteger c cs = .ok l) :
    Denotes ((c :: cs).drop l.length) ((c :: cs).take l.length) l.token := by
  obtain ⟨htake, hdrop⟩ := split_takeWhile Char.isDigit cs
  unfold readInteger at h
  split at h
  · exact denotes_of_readHexadecimal (.inl rfl) h
  · exact denotes_of_readHexadecimal (.inr rfl) h
  · simp only at h
    split at h
    · cases h
    -- no letter may follow the digits
    · next hsuffix =>
      split at h
      · next n hn =>
        cases h
        simp only [List.take_succ_cons, List.drop_succ_cons, htake, hdrop]
        refine .decimal (List.cons_ne_nil _ _)
          (List.forall_mem_cons.2 ⟨hc, fun d hd => List.mem_takeWhile_imp hd⟩)
          (fun d hd => ⟨not_of_head?_dropWhile cs d hd, ?_⟩) (toInt_of_int64? hn)
        simpa [Option.mem_def.1 hd] using hsuffix
      · cases h

/-- The escape that a text begins with. -/
theorem isEscape_of_readEscape {cs : List Char} {c : Char} {n : Nat}
    (h : readEscape cs = .ok (c, n)) : IsEscape (cs.take n) c := by
  unfold readEscape at h
  split at h
  · cases h
  · cases h
    exact .newline
  · cases h
    exact .tab
  · cases h
    exact .carriageReturn
  · cases h
    exact .backslash
  · cases h
    exact .quote
  · cases h
    exact .doubleQuote
  · next d rest _ _ _ _ _ _ =>
    split at h
    -- up to three octal digits
    · next hd =>
      cases h
      have hprefix : ((d :: rest).takeWhile Text.isOctalDigit).take 3 <+: d :: rest :=
        (List.take_prefix _ _).trans (List.takeWhile_prefix _)
      rw [← List.prefix_iff_eq_take.1 hprefix]
      refine .octal (by simp [hd]) (List.length_take_le _ _) fun e he => ?_
      exact List.mem_takeWhile_imp (List.mem_of_mem_take he)
    · cases h

/-- A literal ends with its closing quote. -/
theorem of_closeCharLiteral {c : Char} {n : Nat} {cs : List Char} {l : Lexeme}
    (h : closeCharLiteral c n cs = .ok l) :
    ∃ after, cs.drop n = '\'' :: after ∧ l = ⟨.char c, n + 2, Nat.succ_pos _⟩ := by
  unfold closeCharLiteral at h
  split at h
  · next after hafter =>
    cases h
    exact ⟨after, hafter, rfl⟩
  · cases h

/-- The literal that a text begins with behind its opening quote. -/
theorem denotes_of_readCharLiteral {cs : List Char} {l : Lexeme} (h : readCharLiteral cs = .ok l) :
    Denotes (('\'' :: cs).drop l.length) (('\'' :: cs).take l.length) l.token := by
  unfold readCharLiteral at h
  split at h
  · cases h
  · cases h
  · cases h
  · next rest =>
    split at h
    · next c n hescape =>
      obtain ⟨after, hafter, rfl⟩ := of_closeCharLiteral h
      have htake : rest.take (n + 1) = rest.take n ++ ['\''] := by
        rw [List.take_add, show rest.drop n = '\'' :: after from hafter]
        rfl
      change Denotes _ ('\'' :: '\\' :: rest.take (n + 1)) _
      rw [htake]
      exact .escape (isEscape_of_readEscape hescape)
    · cases h
  · next c rest hquote hline hbackslash =>
    obtain ⟨after, hafter, rfl⟩ := of_closeCharLiteral h
    obtain rfl : rest = '\'' :: after := hafter
    exact .char hquote hbackslash hline

/-! ## Words and symbols -/

theorem denotes_readWord {c : Char} (cs : List Char) (hc : isNameStart c = true) :
    Denotes ((c :: cs).drop (readWord c cs).length) ((c :: cs).take (readWord c cs).length)
      (readWord c cs).token := by
  obtain ⟨htake, hdrop⟩ := split_takeWhile isNamePart cs
  have hend := not_of_head?_dropWhile (p := isNamePart) cs
  simp only [readWord, List.take_succ_cons, List.drop_succ_cons, htake, hdrop]
  obtain ⟨word, hword⟩ : ∃ word : String, word.toList = c :: cs.takeWhile isNamePart :=
    ⟨_, String.toList_ofList⟩
  rw [← hword, String.ofList_toList]
  rcases Token.ofWord_cases word with hlisted | ⟨hname, hnot⟩
  · exact .word hlisted hend
  · rw [hname]
    refine .name ⟨⟨c, _, hword, hc⟩, ?_, hnot⟩ hend
    rw [hword]
    exact List.forall_mem_cons.2 ⟨isNamePart_of_isNameStart hc,
      fun d hd => List.mem_takeWhile_imp hd⟩

/-- Longer symbols stand before shorter ones. -/
theorem Symbol.longestFirst_pairwise :
    Symbol.longestFirst.Pairwise fun s s' => s'.chars.length ≤ s.chars.length := by
  decide

/-- No symbol that a text begins with is longer than the one that is read. -/
theorem Symbol.length_le_of_read? {cs : List Char} {s s' : Symbol} (h : Symbol.read? cs = some s)
    (hs' : s'.chars <+: cs) : s'.chars.length ≤ s.chars.length := by
  obtain ⟨-, before, after, hsplit, hbefore⟩ := List.find?_eq_some_iff_append.1 h
  have hsorted := Symbol.longestFirst_pairwise
  have hmem : s' ∈ Symbol.longestFirst := by
    cases s' <;> decide
  rw [hsplit] at hsorted hmem
  rcases List.mem_append.1 hmem with hmem | hmem
  · -- a symbol that is tried before does not fit
    have hfits := List.isPrefixOf_iff_prefix.2 hs'
    simpa [hfits] using hbefore s' hmem
  · rcases List.mem_cons.1 hmem with rfl | hmem
    · exact le_rfl
    · exact (List.pairwise_cons.1 (List.pairwise_append.1 hsorted).2.1).1 s' hmem

/-- **The lexeme that is read.** -/
theorem Lexeme.denotes_of_read {c : Char} {cs : List Char} {l : Lexeme}
    (h : Lexeme.read c cs = .ok l) :
    Denotes ((c :: cs).drop l.length) ((c :: cs).take l.length) l.token := by
  unfold Lexeme.read at h
  split at h
  · next hquote =>
    rw [hquote]
    exact denotes_of_readCharLiteral h
  · split at h
    · next hdigit =>
      split at h
      · next hread =>
        cases h
        exact denotes_of_readInteger hdigit hread
      · cases h
    · split at h
      · next hstart =>
        cases h
        exact denotes_readWord cs hstart
      · split at h
        · next s hread =>
          cases h
          -- of the symbols that start here, the longest one is read
          have hprefix : s.chars <+: c :: cs := by
            simpa using List.find?_some hread
          rw [← List.prefix_iff_eq_take.1 hprefix]
          refine .symbol fun s' hs' => Symbol.length_le_of_read? hread ?_
          rwa [List.prefix_iff_eq_append.1 hprefix] at hs'
        · cases h

end WordC
