import Mathlib
import WordC.Token.Scan
import WordC.Proofs.Token.Lexemes
/-!
# A text is split into trivia and lexemes

The tokens of a text are those that its lexemes denote, in order, with trivia
between them, and each has the line and the column of its first character
(`scan_partition`). Positions are counted along the whole text: the line by the ends
of lines before it, the column by the characters since the last of them.
-/

namespace WordC

/-- **The position behind a beginning of a text.** -/
def Position.behind (before : List Char) : Position where
  line := 1 + before.count '\n'
  column := 1 + (before.reverse.takeWhile (· ≠ '\n')).length

/-- Counting character by character comes to the same. -/
theorem Position.start_after (cs : List Char) : Position.start.after cs = .behind cs := by
  induction cs using List.reverseRecOn with
  | nil => rfl
  | append_singleton cs c ih =>
    rw [after, List.foldl_concat, ← after, ih]
    by_cases hc : c = '\n'
    · subst hc
      simp [next, behind, List.count_append, Nat.add_assoc]
    · simp [next, behind, List.count_append, hc, Nat.add_comm]

theorem Position.after_append (p : Position) (cs ds : List Char) :
    p.after (cs ++ ds) = (p.after cs).after ds :=
  List.foldl_append

theorem Position.behind_after (before cs : List Char) :
    (Position.behind before).after cs = .behind (before ++ cs) := by
  rw [← start_after, ← after_append, start_after]

/-- **How a text is split.** Behind the characters `before`, the text is trivia and a
lexeme and so on, and at last trivia. Each token stands where its lexeme begins, and the
token `eof` where the text ends. -/
inductive Partition : (before text : List Char) → List PlacedToken → Prop where
  | done {before gap : List Char} (hgap : Trivia [] gap) :
    Partition before gap [⟨.eof, .behind (before ++ gap)⟩]
  | lexeme {before gap lexeme rest : List Char} {token : Token} {tokens : List PlacedToken}
    (hgap : Trivia (lexeme ++ rest) gap) (hne : lexeme ≠ []) (hlexeme : Denotes rest lexeme token)
    (hrest : Partition (before ++ gap ++ lexeme) rest tokens) :
    Partition before (gap ++ lexeme ++ rest) (⟨token, .behind (before ++ gap)⟩ :: tokens)

/-- No lexeme denotes the end of the text. -/
theorem Denotes.ne_eof {rest lexeme : List Char} {token : Token} (h : Denotes rest lexeme token) :
    token ≠ .eof := by
  cases h with
  | word hword =>
    rintro rfl
    exact (Token.not_mem_words _).2 hword
  | _ => nofun

/-- A name is denoted by its own characters. -/
theorem Denotes.isName {rest lexeme : List Char} {name : String}
    (h : Denotes rest lexeme (.ident name)) : IsName name := by
  cases h with
  | word hword => exact absurd hword ((Token.not_mem_words _).1 name)
  | name hname => exact hname

namespace Partition

variable {before text : List Char} {tokens : List PlacedToken}

/-- The end of the text is the last token and no other one. -/
theorem eof_last (h : Partition before text tokens) :
    ∃ lexed, tokens = lexed ++ [⟨.eof, .behind (before ++ text)⟩] ∧
      ∀ t ∈ lexed, t.token ≠ .eof := by
  induction h with
  | done => exact ⟨[], rfl, nofun⟩
  | @lexeme before gap lexeme rest token tokens hgap hne hlexeme hrest ih =>
    obtain ⟨lexed, rfl, hlexed⟩ := ih
    refine ⟨⟨token, .behind (before ++ gap)⟩ :: lexed, ?_,
      List.forall_mem_cons.2 ⟨hlexeme.ne_eof, hlexed⟩⟩
    simp

theorem isName (h : Partition before text tokens) :
    ∀ t ∈ tokens, ∀ name, t.token = .ident name → IsName name := by
  induction h with
  | done => exact List.forall_mem_singleton.2 nofun
  | lexeme _ _ hlexeme _ ih =>
    refine List.forall_mem_cons.2 ⟨?_, ih⟩
    rintro name rfl
    exact hlexeme.isName

end Partition

/-- **Scanning splits the text**, from any place on. -/
theorem partition_of_scanFrom (p : Position) (cs : List Char) :
    ∀ before tokens, p = .behind before → scanFrom p cs = .ok tokens →
      Partition before cs tokens := by
  -- each call goes on behind one lexeme, with the characters up to there before it
  fun_induction scanFrom p cs with
  | case1 => nofun
  | case2 p cs skipped htrivia p' hnil =>
    intro before tokens hp h
    have hall : cs.take skipped = cs := List.take_of_length_le (List.drop_eq_nil_iff.1 hnil)
    have hgap := trivia_of_triviaLength htrivia
    have hposition : p' = .behind (before ++ cs) := by
      rw [← hall, ← Position.behind_after, ← hp]
    rw [hnil, hall] at hgap
    cases h
    rw [hposition]
    exact .done hgap
  | case3 => nofun
  | case4 p cs skipped htrivia p' c rest hcs lexeme hread tokens' hrest ih =>
    intro before tokens hp h
    have hgap := trivia_of_triviaLength htrivia
    have hlexeme := Lexeme.denotes_of_read hread
    have hposition : p' = .behind (before ++ cs.take skipped) := by
      rw [← Position.behind_after, ← hp]
    have hne : (c :: rest).take lexeme.length ≠ [] := by
      have hpos := lexeme.length_pos
      simp only [ne_eq, List.take_eq_nil_iff, reduceCtorEq, or_false]
      omega
    have hsplit := List.take_append_drop lexeme.length (c :: rest)
    have htail := ih _ _ (by rw [hposition, Position.behind_after]) hrest
    rw [hcs, ← hsplit] at hgap
    cases h
    rw [hposition]
    have hwhole := Partition.lexeme hgap hne hlexeme htail
    rwa [List.append_assoc, hsplit, ← hcs, List.take_append_drop] at hwhole
  | case5 => nofun

theorem partition_of_scan {source : String} {tokens : List PlacedToken}
    (h : scan source = .ok tokens) : Partition [] source.toList tokens :=
  partition_of_scanFrom _ _ [] tokens rfl h

/-- **A text is split into trivia and lexemes**, and each token has the position of its
first character. The last token stands for the end of the text, and no other one does. -/
theorem scan_partition {source : String} {tokens : List PlacedToken}
    (h : scan source = .ok tokens) :
    Partition [] source.toList tokens ∧ ∃ lexed,
      tokens = lexed ++ [⟨.eof, .behind source.toList⟩] ∧ ∀ t ∈ lexed, t.token ≠ .eof :=
  ⟨partition_of_scan h, (partition_of_scan h).eof_last⟩

/-- A directive line, a keyword before a name that begins like it, comments of both kinds, an
operator of three characters, a hexadecimal integer and an escape. -/
def annotatedText : String :=
  "#a\nif if1 <<< 0x1F; // b\n/* * */'\\n' "

theorem scan_annotatedText :
    Partition [] annotatedText.toList
      [⟨.reserved .ifWord, ⟨2, 1⟩⟩, ⟨.ident "if1", ⟨2, 4⟩⟩, ⟨.symbol .rotateLeft, ⟨2, 8⟩⟩,
        ⟨.integer 31, ⟨2, 12⟩⟩, ⟨.symbol .semicolon, ⟨2, 16⟩⟩, ⟨.char '\n', ⟨3, 8⟩⟩,
        ⟨.eof, ⟨3, 13⟩⟩] := by
  have hrun : (scan annotatedText).toOption = some
      [⟨.reserved .ifWord, ⟨2, 1⟩⟩, ⟨.ident "if1", ⟨2, 4⟩⟩, ⟨.symbol .rotateLeft, ⟨2, 8⟩⟩,
        ⟨.integer 31, ⟨2, 12⟩⟩, ⟨.symbol .semicolon, ⟨2, 16⟩⟩, ⟨.char '\n', ⟨3, 8⟩⟩,
        ⟨.eof, ⟨3, 13⟩⟩] := by
    decide +kernel
  cases hscan : scan annotatedText with
  | error e =>
    rw [hscan] at hrun
    cases hrun
  | ok tokens =>
    rw [hscan] at hrun
    cases hrun
    exact (scan_partition hscan).1

/-- **The names in a text.** -/
theorem scan_names {source : String} {tokens : List PlacedToken} (h : scan source = .ok tokens) :
    ∀ t ∈ tokens, ∀ name, t.token = .ident name → IsName name :=
  (partition_of_scan h).isName

end WordC
