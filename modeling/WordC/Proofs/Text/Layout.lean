import Mathlib
import WordC.Text.Layout
/-!
# Pieces of a text are found again

Where a text is put together from pieces, the blanks around a piece are
dropped, the words between blanks are the pieces, and the lines are those that
were written with a line break behind each.
-/

namespace WordC

namespace Text

/-! ## Where a run of characters ends -/

section Runs

variable {p : Char → Bool} {front tail : List Char}

theorem takeWhile_append_stop (hfront : ∀ c ∈ front, p c = true)
    (htail : ∀ c ∈ tail.head?, p c = false) : (front ++ tail).takeWhile p = front := by
  rw [List.takeWhile_append_of_pos hfront]
  cases tail with
  | nil => exact List.append_nil front
  | cons c tail => simp [htail c rfl]

theorem dropWhile_append_stop (hfront : ∀ c ∈ front, p c = true)
    (htail : ∀ c ∈ tail.head?, p c = false) : (front ++ tail).dropWhile p = tail := by
  rw [List.dropWhile_append_of_pos hfront]
  cases tail with
  | nil => rfl
  | cons c tail => simp [htail c rfl]

end Runs

/-! ## Blanks around a text -/

/-- The text neither begins nor ends with white space. -/
def Trimmed (cs : List Char) : Prop :=
  (∀ c ∈ cs.head?, isBlank c = false) ∧ ∀ c ∈ cs.getLast?, isBlank c = false

theorem Trimmed.of_forall {cs : List Char} (h : ∀ c ∈ cs, isBlank c = false) : Trimmed cs :=
  ⟨fun c hc => h c (List.mem_of_mem_head? hc), fun c hc => h c (List.mem_of_mem_getLast? hc)⟩

/-- What stands between two trimmed pieces does not matter. -/
theorem Trimmed.enclose {first last : List Char} (hfirst : Trimmed first) (hlast : Trimmed last)
    (hfirstNe : first ≠ []) (hlastNe : last ≠ []) (between : List Char) :
    Trimmed (first ++ (between ++ last)) := by
  refine ⟨?_, ?_⟩
  · rw [List.head?_append_of_ne_nil first hfirstNe]
    exact hfirst.1
  · rw [← List.append_assoc, List.getLast?_append_of_ne_nil _ hlastNe]
    exact hlast.2

/-- Blanks around a text are dropped, and no more. -/
theorem trim_append {front cs back : List Char} (hfront : ∀ c ∈ front, isBlank c = true)
    (hback : ∀ c ∈ back, isBlank c = true) (hcs : Trimmed cs) :
    trim (front ++ cs ++ back) = cs := by
  obtain ⟨hhead, hlast⟩ := hcs
  rcases eq_or_ne cs [] with rfl | hne
  · -- nothing but blanks
    have hblank : ∀ c ∈ front ++ [] ++ back, isBlank c = true := by
      intro c hc
      rw [List.append_nil] at hc
      exact (List.mem_append.mp hc).elim (hfront c) (hback c)
    rw [trim, List.dropWhile_eq_nil_iff.mpr hblank]
    rfl
  · have hstart : (front ++ cs ++ back).dropWhile isBlank = cs ++ back := by
      rw [List.append_assoc]
      refine dropWhile_append_stop hfront ?_
      rwa [List.head?_append_of_ne_nil cs hne]
    have hend : (cs ++ back).reverse.dropWhile isBlank = cs.reverse := by
      rw [List.reverse_append]
      refine dropWhile_append_stop (fun c hc => hback c (List.mem_reverse.mp hc)) ?_
      rwa [List.head?_reverse]
    rw [trim, hstart, hend, List.reverse_reverse]

theorem trim_eq_self {cs : List Char} (h : Trimmed cs) : trim cs = cs := by
  have hpadded : trim ([] ++ cs ++ []) = cs := trim_append nofun nofun h
  rwa [List.append_nil] at hpadded

theorem isBlank_of_spaces {cs : List Char} (h : ∀ c ∈ cs, c = ' ') :
    ∀ c ∈ cs, isBlank c = true := by
  intro c hc
  rw [h c hc]
  decide

theorem trim_space_cons {cs : List Char} (h : Trimmed cs) : trim (' ' :: cs) = cs := by
  have hspace : ∀ c ∈ [' '], isBlank c = true :=
    isBlank_of_spaces fun c hc => List.mem_singleton.mp hc
  have hpadded : trim ([' '] ++ cs ++ []) = cs := trim_append hspace nofun h
  rwa [List.append_nil] at hpadded

theorem toList_pushn (s : String) (c : Char) (n : Nat) :
    (s.pushn c n).toList = s.toList ++ List.replicate n c := by
  rw [String.pushn_eq_repeat_push]
  induction n with
  | zero => exact (List.append_nil _).symm
  | succ n ih =>
    rw [Nat.repeat, String.toList_push, ih, List.append_assoc, List.replicate_succ']

/-- A line with its comment: spaces fill the line up, and a semicolon and a
space stand before the comment. -/
theorem toList_withComment (line comment : String) :
    ∃ spaces, (∀ c ∈ spaces, c = ' ') ∧
      (withComment line comment).toList =
        line.toList ++ spaces ++ ';' :: ' ' :: comment.toList := by
  refine ⟨List.replicate (max commentColumn (line.utf8ByteSize + 1) - line.length) ' ',
    fun c hc => List.eq_of_mem_replicate hc, ?_⟩
  rw [withComment, padRight, String.toList_append, String.toList_append, toList_pushn,
    List.append_assoc]
  rfl

/-! ## Words -/

/-- Words that are written one behind the other, with a separator before each
but the first, are the words of the text. -/
theorem words_join {isSeparator : Char → Bool} {sep : Char} (hsep : isSeparator sep = true)
    (word : List Char) (more : List (List Char))
    (hwords : ∀ w ∈ word :: more, w ≠ [] ∧ ∀ c ∈ w, isSeparator c = false) :
    words isSeparator (word ++ more.flatMap (sep :: ·)) = word :: more := by
  induction more generalizing word with
  | nil =>
    obtain ⟨hne, hword⟩ := hwords word List.mem_cons_self
    rw [List.flatMap_nil, List.append_nil, words, List.splitOnP_eq_singleton hword]
    simp [hne]
  | cons next more ih =>
    obtain ⟨⟨hne, hword⟩, hmore⟩ := List.forall_mem_cons.mp hwords
    have hfound := ih next hmore
    rw [words] at hfound ⊢
    rw [List.flatMap_cons, List.cons_append,
      List.splitOnP_append_cons_of_forall_mem hword sep hsep]
    simp [hne, hfound]

/-! ## Lines -/

/-- The text can be ended by a line feed and found again. -/
def OneLine (cs : List Char) : Prop :=
  '\n' ∉ cs ∧ cs.getLast? ≠ some '\r'

theorem OneLine.append {front cs : List Char}
    (hfront : ∀ c ∈ front, c ≠ '\n' ∧ c ≠ '\r') (hcs : OneLine cs) : OneLine (front ++ cs) := by
  refine ⟨?_, ?_⟩
  · intro hmem
    exact (List.mem_append.mp hmem).elim (fun hmem => (hfront _ hmem).1 rfl) hcs.1
  · intro hlast
    rcases List.eq_nil_or_concat cs with rfl | ⟨init, last, rfl⟩
    · rw [List.append_nil] at hlast
      exact (hfront '\r' (List.mem_of_getLast? hlast)).2 rfl
    · rw [List.getLast?_append_of_ne_nil front (by simp)] at hlast
      exact hcs.2 hlast

theorem OneLine.of_forall {cs : List Char} (h : ∀ c ∈ cs, c ≠ '\n' ∧ c ≠ '\r') :
    OneLine cs := by
  have hempty : OneLine (cs ++ []) := .append h ⟨nofun, nofun⟩
  rwa [List.append_nil] at hempty

/-- A line that is ended by a line feed. A carriage return before the line feed
would be dropped. -/
theorem linesFrom_line {current line rest : List Char} (hbreak : '\n' ∉ line)
    (hreturn : (current.reverse ++ line).getLast? ≠ some '\r') :
    linesFrom current (line ++ '\n' :: rest) =
      (current.reverse ++ line) :: linesFrom [] rest := by
  induction line generalizing current with
  | nil =>
    rw [List.nil_append, List.append_nil]
    cases current with
    | nil => rfl
    | cons c current =>
      -- a carriage return in front of the line feed would be dropped with it
      have hc : c ≠ '\r' := by
        rintro rfl
        exact hreturn (by simp)
      rw [linesFrom]
      rintro rest' ⟨rfl, _⟩
      exact hc rfl
  | cons c line ih =>
    have hc : c ≠ '\n' := fun h => hbreak (h ▸ List.mem_cons_self)
    have hrest : linesFrom (c :: current) (line ++ '\n' :: rest) =
        ((c :: current).reverse ++ line) :: linesFrom [] rest :=
      ih (fun h => hbreak (List.mem_cons_of_mem c h)) (by simpa using hreturn)
    rw [List.cons_append, linesFrom, hrest, List.reverse_cons, List.append_assoc,
      List.singleton_append]
    · exact fun h => hc h
    · exact fun _ _ h => hc h

/-- Lines that are written with a line feed behind each are the lines of the
text. -/
theorem linesFrom_flatMap (lines : List (List Char))
    (h : ∀ line ∈ lines, OneLine line) :
    linesFrom [] (lines.flatMap (· ++ ['\n'])) = lines := by
  induction lines with
  | nil => rfl
  | cons line lines ih =>
    obtain ⟨⟨hbreak, hreturn⟩, hrest⟩ := List.forall_mem_cons.mp h
    have hfirst : linesFrom [] (line ++ '\n' :: lines.flatMap (· ++ ['\n'])) =
        line :: linesFrom [] (lines.flatMap (· ++ ['\n'])) := linesFrom_line hbreak hreturn
    rw [List.flatMap_cons, List.append_assoc, List.singleton_append, hfirst, ih hrest]

end Text

end WordC
