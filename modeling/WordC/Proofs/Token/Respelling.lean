import Mathlib
import WordC.Proofs.Token.Partition
import WordC.Proofs.Token.Reading
/-!
# Tokens are found again in their spellings

The spellings of the tokens of a text, with a space between every two, are a text again
(`respelled`). Its tokens are the same ones, but for one case: a character that cannot be seen on
its own is spelled by its code point, and texts have no such escape (`scan_respelled`).
-/

namespace WordC

/-! ## Characters -/

namespace Text

/-- A character that is written by its code point. -/
def isCoded (c : Char) : Bool :=
  c ∉ ['\x00', '\t', '\r', '\n', '\\', '\''] && (isCombining c || isIgnorable c || isInvisible c)

theorem toList_quotedChar (c : Char) :
    (quotedChar c).toList = '\'' :: ((escape '\'' c).toList ++ ['\'']) := by
  simp [quotedChar]

/-- The quoted form of such a character begins with an escape that no text has. -/
theorem toList_quotedChar_of_isCoded {c : Char} (h : isCoded c = true) :
    ∃ code, (quotedChar c).toList = '\'' :: '\\' :: 'u' :: code := by
  rw [isCoded, Bool.and_eq_true, decide_eq_true_eq] at h
  obtain ⟨hescape, hcode⟩ := h
  simp only [List.mem_cons, List.not_mem_nil, or_false, not_or] at hescape
  have hwritten : escape '\'' c = codePointEscape c := by
    simp [escape, hescape, hcode]
  rw [toList_quotedChar, hwritten]
  simp [codePointEscape]

end Text

theorem isEscape_null : IsEscape ['0'] '\x00' :=
  .octal (List.cons_ne_nil _ _) (by simp) (List.forall_mem_singleton.2 (by decide))

/-- **A character that is not written by its code point is denoted by its quoted form.** -/
theorem denotes_quotedChar {c : Char} (h : Text.isCoded c = false) (rest : List Char) :
    Denotes rest (Text.quotedChar c).toList (.char c) := by
  rw [Text.toList_quotedChar, Text.escape]
  split_ifs with hnull htab hreturn hline hbackslash hquote hcode
  · subst hnull
    exact .escape isEscape_null
  · subst htab
    exact .escape .tab
  · subst hreturn
    exact .escape .carriageReturn
  · subst hline
    exact .escape .newline
  · subst hbackslash
    exact .escape .backslash
  · subst hquote
    exact .escape .quote
  · simp [Text.isCoded, hnull, htab, hreturn, hline, hbackslash, hquote, hcode] at h
  · have htext : c.toString.toList = [c] := by simp
    rw [htext]
    exact .char hquote hbackslash hline

/-! ## Tokens -/

/-- The token is a character that is written by its code point. -/
def Token.isCoded : Token → Bool
  | char c => Text.isCoded c
  | _ => false

/-- The text is empty or begins with a space, so no lexeme before it goes on in it. -/
def IsApart (rest : List Char) : Prop :=
  ∀ c ∈ rest.head?, c = ' '

theorem Token.spelling_of_mem {word : String} {token : Token} (h : (word, token) ∈ Token.words) :
    token.spelling = word := by
  have hall : ∀ entry ∈ Token.words, entry.2.spelling = entry.1 := by
    simp [Token.words, spelling, Reserved.spelling, BaseType.spelling]
  exact hall _ h

theorem Symbol.space_not_mem (s : Symbol) : ' ' ∉ s.chars := by
  cases s <;> decide

/-- A number that is not negative is denoted by its digits. -/
theorem denotes_decimal {n : Int64} (h : 0 ≤ n.toInt) {rest : List Char} (hrest : IsApart rest) :
    Denotes rest (Text.decimal n).toList (.integer n) := by
  have hdigits : ∀ d ∈ Nat.toDigits 10 n.toInt.natAbs, d.isDigit = true :=
    fun _ => Text.isDigit_of_mem_toDigits
  rw [Text.toList_decimal, if_pos h]
  refine .decimal Nat.toDigits_ne_nil hdigits (fun c hc => ?_) ?_
  · rw [hrest c hc]
    decide
  · rw [Text.digitsValue_eq_ofDigitChars hdigits, Nat.ofDigitChars_ten_toDigits]
    omega

theorem denotes_symbol (s : Symbol) {rest : List Char} (hrest : IsApart rest) :
    Denotes rest s.chars (.symbol s) := by
  refine .symbol fun s' hs' => ?_
  by_contra hlonger
  -- a longer symbol would go on with the space
  have hprefix : s.chars <+: s'.chars :=
    List.prefix_of_prefix_length_le (List.prefix_append _ _) hs' (by omega)
  obtain ⟨more, hmore⟩ := hprefix
  rw [← hmore, List.prefix_append_right_inj] at hs'
  cases more with
  | nil => simp [← hmore] at hlonger
  | cons c more =>
    obtain ⟨tail, rfl⟩ := hs'
    have hspace : c = ' ' := hrest c rfl
    refine s'.space_not_mem ?_
    rw [← hmore, ← hspace]
    simp

/-- **A token that was scanned is denoted by its spelling**, unless it is a character that is
written by its code point. -/
theorem Denotes.spelling {rest lexeme : List Char} {token : Token} (h : Denotes rest lexeme token)
    (hcoded : token.isCoded = false) {rest' : List Char} (hrest : IsApart rest') :
    Denotes rest' token.spelling.toList token := by
  have hpart : ∀ c ∈ rest'.head?, isNamePart c = false := by
    intro c hc
    rw [hrest c hc]
    decide
  cases h with
  -- integers are written in decimal, however they were read
  | decimal _ _ _ hvalue => exact denotes_decimal (by omega) hrest
  | hexadecimal _ _ _ _ hvalue => exact denotes_decimal (by omega) hrest
  | char | escape => exact denotes_quotedChar hcoded rest'
  | word hword =>
    rw [Token.spelling_of_mem hword]
    exact .word hword hpart
  | name hname => exact .name hname hpart
  | @symbol s =>
    rw [Token.spelling, Symbol.spelling, String.toList_ofList]
    exact denotes_symbol s hrest

/-! ## Texts -/

/-- **The spellings of tokens as a text**, with a space between every two. -/
def respelled (tokens : List PlacedToken) : String :=
  String.intercalate " " ((tokens.filter (·.token ≠ .eof)).map (·.token.spelling))

/-- What comes of scanning the spellings of the tokens `ts`. -/
inductive Rescanned (ts : List Token) : Except ScanError (List PlacedToken) → Prop where
  | found {again : List PlacedToken} (hagain : again.map (·.token) = ts ++ [.eof])
    (hts : ∀ t ∈ ts, t.isCoded = false) : Rescanned ts (.ok again)
  | stopped {p : Position} (hts : ∃ t ∈ ts, t.isCoded = true) :
    Rescanned ts (.error ⟨p, .unknownEscape 'u'⟩)

/-- The code point of a character is not read. -/
theorem scanFrom_of_isCoded {t : Token} (h : t.isCoded = true) {gap : List Char}
    (hgap : gap = [] ∨ gap = [' ']) (rest : List Char) (p : Position) :
    ∃ q, scanFrom p (gap ++ (t.spelling.toList ++ rest)) = .error ⟨q, .unknownEscape 'u'⟩ := by
  cases t with
  | char c =>
    obtain ⟨code, hcode⟩ := Text.toList_quotedChar_of_isCoded h
    have hquote : opensTrivia '\'' = false := by decide
    have hread : Lexeme.read '\'' ('\\' :: 'u' :: (code ++ rest)) =
        .error ⟨2, .unknownEscape 'u'⟩ := rfl
    rw [Token.spelling, hcode, List.cons_append, scanFrom_cons (triviaLength_gap hquote _ hgap)]
    simp only [List.cons_append, hread]
    exact ⟨_, rfl⟩
  | _ => cases h

/-- **One more token in front** of a text that is scanned from any place on. -/
theorem Rescanned.cons {ts : List Token} {t : Token} {lexeme lexemeRest gap rest : List Char}
    (ht : Denotes lexemeRest lexeme t) (hgap : gap = [] ∨ gap = [' ']) (hrest : IsApart rest)
    (h : ∀ p, Rescanned ts (scanFrom p rest)) (p : Position) :
    Rescanned (t :: ts) (scanFrom p (gap ++ (t.spelling.toList ++ rest))) := by
  cases hcoded : t.isCoded with
  | true =>
    obtain ⟨q, hstop⟩ := scanFrom_of_isCoded hcoded hgap rest p
    rw [hstop]
    exact .stopped ⟨t, List.mem_cons_self, hcoded⟩
  | false =>
    have hbehind := h (p.after (gap ++ t.spelling.toList))
    rw [scanFrom_of_denotes p (ht.spelling hcoded hrest) hgap]
    generalize scanFrom (p.after (gap ++ t.spelling.toList)) rest = outcome at hbehind ⊢
    cases hbehind with
    | found hagain hts =>
      refine .found ?_ (List.forall_mem_cons.2 ⟨hcoded, hts⟩)
      rw [List.map_cons, hagain, List.cons_append]
    | stopped hts =>
      obtain ⟨t', ht', hcoded'⟩ := hts
      exact .stopped ⟨t', List.mem_cons_of_mem _ ht', hcoded'⟩

theorem isApart_spaced (words : List (List Char)) : IsApart (words.flatMap (' ' :: ·)) := by
  cases words with
  | nil => exact nofun
  | cons word words =>
    rintro c ⟨⟩
    rfl

/-- Tokens with a space before each. -/
theorem rescanned_spaced {ts : List Token}
    (h : ∀ t ∈ ts, ∃ rest lexeme, Denotes rest lexeme t) (p : Position) :
    Rescanned ts (scanFrom p ((ts.map (·.spelling.toList)).flatMap (' ' :: ·))) := by
  induction ts generalizing p with
  | nil =>
    rw [List.map_nil, List.flatMap_nil, scanFrom_nil]
    exact .found rfl (List.forall_mem_nil _)
  | cons t ts ih =>
    obtain ⟨⟨lexemeRest, lexeme, ht⟩, hts⟩ := List.forall_mem_cons.1 h
    exact .cons ht (.inr rfl) (isApart_spaced _) (ih hts) p

/-- The words of a text with spaces between them: all but the first have a space before them. -/
theorem toList_intercalate_space (word : String) (words : List String) :
    (String.intercalate " " (word :: words)).toList =
      word.toList ++ (words.map String.toList).flatMap (' ' :: ·) := by
  induction words generalizing word with
  | nil => simp
  | cons next words ih =>
    rw [String.intercalate_cons_cons, String.toList_append, String.toList_append, ih next]
    simp

/-- Tokens with a space between every two. The first one begins the text. -/
theorem rescanned_scan {ts : List Token} (h : ∀ t ∈ ts, ∃ rest lexeme, Denotes rest lexeme t) :
    Rescanned ts (scan (String.intercalate " " (ts.map Token.spelling))) := by
  cases ts with
  | nil =>
    rw [List.map_nil, String.intercalate_nil, scan, String.toList_empty, scanFrom_nil]
    exact .found rfl (List.forall_mem_nil _)
  | cons t ts =>
    obtain ⟨⟨lexemeRest, lexeme, ht⟩, hts⟩ := List.forall_mem_cons.1 h
    rw [List.map_cons, scan, toList_intercalate_space, List.map_map]
    exact .cons ht (.inl rfl) (isApart_spaced _) (rescanned_spaced hts) .start

/-- Every token but the last one is denoted by a lexeme of the text. -/
theorem Partition.exists_denotes {before text : List Char} {tokens : List PlacedToken}
    (h : Partition before text tokens) :
    ∀ t ∈ tokens, t.token ≠ .eof → ∃ rest lexeme, Denotes rest lexeme t.token := by
  induction h with
  | done => exact List.forall_mem_singleton.2 fun hne => absurd rfl hne
  | lexeme _ _ hlexeme _ ih => exact List.forall_mem_cons.2 ⟨fun _ => ⟨_, _, hlexeme⟩, ih⟩

/-- The tokens of a text without its end, which is not spelled. -/
theorem exists_lexed {source : String} {tokens : List PlacedToken} (h : scan source = .ok tokens) :
    ∃ lexed : List Token, tokens.map (·.token) = lexed ++ [.eof] ∧
      respelled tokens = String.intercalate " " (lexed.map Token.spelling) ∧
      ∀ t ∈ lexed, ∃ rest lexeme, Denotes rest lexeme t := by
  have hpartition := partition_of_scan h
  obtain ⟨lexed, rfl, hlexed⟩ := hpartition.eof_last
  have hkept : lexed.filter (·.token ≠ .eof) = lexed :=
    List.filter_eq_self.2 fun t ht => decide_eq_true (hlexed t ht)
  refine ⟨lexed.map (·.token), List.map_append, ?_, List.forall_mem_map.2 fun t ht => ?_⟩
  · rw [respelled, List.filter_append, hkept, List.map_map]
    simp [Function.comp_def]
  · exact hpartition.exists_denotes t (List.mem_append_left _ ht) (hlexed t ht)

/-- **Tokens are found again in the text of their spellings**, unless one of them is a character
that is written by its code point. The scan then stops there, since texts have no such escape. -/
theorem scan_respelled {source : String} {tokens : List PlacedToken}
    (h : scan source = .ok tokens) :
    ((∃ again, scan (respelled tokens) = .ok again ∧
        again.map (·.token) = tokens.map (·.token)) ↔ ∀ t ∈ tokens, t.token.isCoded = false) ∧
      ((∃ t ∈ tokens, t.token.isCoded = true) →
        ∃ p, scan (respelled tokens) = .error ⟨p, .unknownEscape 'u'⟩) := by
  obtain ⟨lexed, htokens, htext, hdenotes⟩ := exists_lexed h
  -- the token at the end of the text is not coded
  have hnone : (∀ t ∈ tokens, t.token.isCoded = false) ↔ ∀ t ∈ lexed, t.isCoded = false := by
    rw [← List.forall_mem_map (f := PlacedToken.token) (P := (·.isCoded = false)), htokens,
      List.forall_mem_append, List.forall_mem_singleton]
    exact and_iff_left rfl
  have hsome : (∃ t ∈ tokens, t.token.isCoded = true) ↔ ¬∀ t ∈ lexed, t.isCoded = false := by
    rw [← hnone]
    simp
  have hscan := rescanned_scan hdenotes
  rw [hnone, hsome, htext, htokens]
  generalize scan _ = outcome at hscan ⊢
  cases hscan with
  | @found again hagain hts =>
    exact ⟨iff_of_true ⟨again, rfl, hagain⟩ hts, fun hnot => absurd hts hnot⟩
  | @stopped p hts =>
    obtain ⟨t, ht, hcoded⟩ := hts
    have hnot : ¬∀ t ∈ lexed, t.isCoded = false := fun hall => by simp [hall t ht] at hcoded
    refine ⟨iff_of_false ?_ hnot, fun _ => ⟨p, rfl⟩⟩
    rintro ⟨again, hagain, -⟩
    cases hagain

/-- Literals that are spelled otherwise, a name that is not plain, and symbols without spaces. -/
def crowdedText : String :=
  "\u00e9_1=0x1F<<<-'\\101'>>'\\0'&&!'\\''!=' ';//"

theorem scan_respelled_crowdedText :
    ∃ tokens again, scan crowdedText = .ok tokens ∧ scan (respelled tokens) = .ok again ∧
      again.map (·.token) = tokens.map (·.token) := by
  have hrun : ((scan crowdedText).toOption.any (·.all (!·.token.isCoded))) = true := by
    decide +kernel
  cases hscan : scan crowdedText with
  | error e =>
    rw [hscan] at hrun
    cases hrun
  | ok tokens =>
    rw [hscan] at hrun
    have hall : ∀ t ∈ tokens, t.token.isCoded = false := by
      simpa [Except.toOption] using hrun
    obtain ⟨again, hagain⟩ := (scan_respelled hscan).1.2 hall
    exact ⟨tokens, again, rfl, hagain⟩

/-- A control character, given by its octal code. -/
def controlText : String :=
  "'\\1'"

/-- **A control character is not found again.** It is read from its octal code and written by its
code point, which cannot be read. -/
theorem scan_respelled_controlText :
    ∃ tokens, scan controlText = .ok tokens ∧ tokens.map (·.token) = [.char '\x01', .eof] ∧
      respelled tokens = "'\\u\x7b1\x7d'" ∧ ∀ again, scan (respelled tokens) ≠ .ok again := by
  have hrun : (scan controlText).toOption = some [⟨.char '\x01', ⟨1, 1⟩⟩, ⟨.eof, ⟨1, 5⟩⟩] := by
    decide +kernel
  have hrespelled : respelled [⟨.char '\x01', ⟨1, 1⟩⟩, ⟨.eof, ⟨1, 5⟩⟩] = "'\\u\x7b1\x7d'" := by
    decide +kernel
  have hagain : (scan "'\\u\x7b1\x7d'").toOption = none := by decide +kernel
  cases hscan : scan controlText with
  | error e =>
    rw [hscan] at hrun
    cases hrun
  | ok tokens =>
    rw [hscan] at hrun
    cases hrun
    refine ⟨_, rfl, rfl, hrespelled, fun again hok => ?_⟩
    rw [hrespelled] at hok
    rw [hok] at hagain
    cases hagain

end WordC
