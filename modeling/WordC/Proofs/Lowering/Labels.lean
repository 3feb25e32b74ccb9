import Mathlib
import WordC.Machine.Expansion
import WordC.Proofs.Lowering.Flow
/-!
# The labels of a function

A label says which control structure of which function it belongs to. The names
can be read back from the right, also with underscores for dots
(`LabelKey.machineLabel_injective`), and no structure is named twice
(`blockFlow_keyed`), so labels are unique. Every jump leads to one of them
(`mem_labelsOf_blockFlow`).
-/

namespace WordC

/-! ## Names -/

/-- A label of a function. -/
inductive LabelKey where
  /-- Where a loop begins. -/
  | start (c : Construct) (path : List Nat)
  /-- Where a structure ends. -/
  | finish (c : Construct) (path : List Nat)
  /-- Where control goes on if the first branch of a chain is not taken. -/
  | skip (path : List Nat)
  /-- Where control goes on if a further branch of a chain is not taken. -/
  | further (path : List Nat) (index : Nat)
  deriving DecidableEq, Repr

theorem intercalate_concat {sep : Char} {words : List (List Char)} (h : words ≠ [])
    (word : List Char) :
    [sep].intercalate (words ++ [word]) = [sep].intercalate words ++ sep :: word := by
  induction words with
  | nil => exact absurd rfl h
  | cons first words ih =>
    cases words with
    | nil => simp
    | cons second words =>
      have hrest := ih (List.cons_ne_nil _ _)
      rw [List.cons_append, List.intercalate_cons_of_ne_nil (by simp), hrest]
      simp

theorem map_intercalate (g : Char → Char) (sep : Char) (words : List (List Char)) :
    ([sep].intercalate words).map g = [g sep].intercalate (words.map (List.map g)) := by
  induction words with
  | nil => rfl
  | cons first words ih =>
    cases words with
    | nil => simp
    | cons second words =>
      simp only [List.map_cons, List.intercalate_cons_cons, List.map_append, List.map_nil] at ih ⊢
      rw [ih]

namespace LabelKey

/-- The kind of the structure. -/
def construct : LabelKey → Construct
  | start c _ | finish c _ => c
  | skip _ | further _ _ => .ifChain

/-- The path of the structure. -/
def path : LabelKey → List Nat
  | start _ path | finish _ path | skip path | further path _ => path

/-- The label in a function. -/
def name (function : String) : LabelKey → String
  | start c path => (LabelBase.mk function c path).startLabel
  | finish c path => (LabelBase.mk function c path).endLabel
  | skip path => (LabelBase.mk function .ifChain path).skipLabel
  | further path index => (LabelBase.mk function .ifChain path).branchSkipLabel index

/-- The word that says what the label belongs to. -/
def keyword : LabelKey → String
  | start c _ | finish c _ => c.keyword
  | skip _ => "if"
  | further _ _ => "elseif"

/-- The numbers in the label. -/
def numbers : LabelKey → List Nat
  | start _ path | finish _ path | skip path => path
  | further path index => path ++ [index]

/-- The last word of the label. -/
def ending : LabelKey → String
  | start _ _ => "start"
  | finish _ _ => "end"
  | skip _ | further _ _ => "skip"

/-- The words of the label behind the name of the function. -/
def words (k : LabelKey) : List (List Char) :=
  k.keyword.toList :: (k.numbers.map (Nat.toDigits 10) ++ [k.ending.toList])

theorem numbers_ne_nil {k : LabelKey} (h : k.path ≠ []) : k.numbers ≠ [] := by
  cases k with
  | further path index => simp [numbers]
  | _ => exact h

/-- How a label is written. -/
theorem toList_name (function : String) {k : LabelKey} (h : k.path ≠ []) :
    (k.name function).toList = function.toList ++ '.' :: (k.keyword.toList ++ '_' ::
      (['.'].intercalate (k.numbers.map (Nat.toDigits 10)) ++ '_' :: k.ending.toList)) := by
  cases k with
  | further path index =>
    have hpath : path.map (Nat.toDigits 10) ≠ [] := by simpa using (show path ≠ [] from h)
    have hconcat : ['.'].intercalate (path.map (Nat.toDigits 10) ++ [Nat.toDigits 10 index]) =
        ['.'].intercalate (path.map (Nat.toDigits 10)) ++ '.' :: Nat.toDigits 10 index :=
      intercalate_concat hpath _
    simp [name, LabelBase.branchSkipLabel, LabelBase.pathText, String.toList_intercalate,
      Function.comp_def, keyword, numbers, ending, hconcat]
  | _ =>
    simp [name, LabelBase.startLabel, LabelBase.endLabel, LabelBase.skipLabel, LabelBase.label,
      LabelBase.pathText, String.toList_intercalate, Function.comp_def, keyword, numbers, ending,
      Construct.keyword]

theorem keyword_mem (k : LabelKey) : k.keyword ∈ ["if", "while", "for", "elseif"] := by
  cases k with
  | start c | finish c => cases c <;> simp [keyword, Construct.keyword]
  | _ => simp [keyword]

theorem ending_mem (k : LabelKey) : k.ending ∈ ["start", "end", "skip"] := by
  cases k <;> simp [ending]

/-- What holds of the words that labels are made of holds of the words of a label. -/
theorem forall_words {P : List Char → Prop}
    (hkeyword : ∀ w ∈ ["if", "while", "for", "elseif"], P w.toList)
    (hnumber : ∀ n, P (Nat.toDigits 10 n)) (hending : ∀ w ∈ ["start", "end", "skip"], P w.toList)
    (k : LabelKey) : ∀ word ∈ k.words, P word := by
  rw [words, List.forall_mem_cons, List.forall_mem_append, List.forall_mem_map,
    List.forall_mem_singleton]
  exact ⟨hkeyword _ k.keyword_mem, fun n _ => hnumber n, hending _ k.ending_mem⟩

/-- No word has a dot or an underscore in it. -/
theorem not_mem_words {k : LabelKey} {word : List Char} (h : word ∈ k.words) :
    '.' ∉ word ∧ '_' ∉ word := by
  refine forall_words (P := fun word => '.' ∉ word ∧ '_' ∉ word) (by decide) (fun n => ?_)
    (by decide) k word h
  have hdigit : ∀ c ∈ Nat.toDigits 10 n, c.isDigit = true := fun c hc =>
    Nat.isDigit_of_mem_toDigits (by decide) (by decide) hc
  exact ⟨fun hc => absurd (hdigit _ hc) (by decide), fun hc => absurd (hdigit _ hc) (by decide)⟩

/-- Underscores for dots. -/
def undot (c : Char) : Char :=
  if c = '.' then '_' else c

theorem map_undot {cs : List Char} (h : '.' ∉ cs) : cs.map undot = cs := by
  refine List.map_congr_left (g := id) (fun c hc => if_neg ?_) |>.trans (List.map_id _)
  rintro rfl
  exact h hc

/-- **The label on the machine** is the name of the function and the words of the
label, with underscores between them. -/
theorem toList_machineLabel {function : String} (hdot : '.' ∉ function.toList) {k : LabelKey}
    (h : k.path ≠ []) : (machineLabel (k.name function)).toList =
      function.toList ++ '_' :: ['_'].intercalate k.words := by
  have hword : ∀ word ∈ k.words, word.map undot = word := fun word hw =>
    map_undot (not_mem_words hw).1
  have hkeyword := hword k.keyword.toList (by simp [words])
  have hending := hword k.ending.toList (by simp [words])
  have hnumbers : (k.numbers.map (Nat.toDigits 10)).map (List.map undot) =
      k.numbers.map (Nat.toDigits 10) := by
    refine List.map_congr_left (g := id) (fun word hw => hword word ?_) |>.trans (List.map_id _)
    exact List.mem_cons_of_mem _ (List.mem_append_left _ hw)
  have hmachine : (machineLabel (k.name function)).toList = (k.name function).toList.map undot :=
    String.toList_map
  rw [hmachine, toList_name function h]
  simp only [List.map_append, List.map_cons, map_undot hdot, hkeyword, hending, map_intercalate,
    hnumbers]
  rw [words, List.intercalate_cons_of_ne_nil (by simp),
    intercalate_concat (by simpa using numbers_ne_nil h)]
  simp [undot]

/-- Words up to the last one that has no property `P` can be told from those
behind it. -/
theorem split_unique {P : List Char → Prop} {as as' ds ds' : List (List Char)}
    {word word' : List Char} (h : as ++ word :: ds = as' ++ word' :: ds') (hds : ∀ d ∈ ds, P d)
    (hds' : ∀ d ∈ ds', P d) (hword : ¬ P word) (hword' : ¬ P word') :
    as = as' ∧ word = word' ∧ ds = ds' := by
  rcases List.append_eq_append_iff.1 h with ⟨gap, rfl, hgap⟩ | ⟨gap, rfl, hgap⟩
  · cases gap with
    | nil => simpa using hgap
    | cons _ gap =>
      obtain ⟨rfl, rfl⟩ := List.cons.inj hgap
      exact absurd (hds _ (by simp)) hword'
  · cases gap with
    | nil => simpa [eq_comm] using hgap
    | cons _ gap =>
      obtain ⟨rfl, rfl⟩ := List.cons.inj hgap
      exact absurd (hds' _ (by simp)) hword

theorem toDigits_injective : Function.Injective (Nat.toDigits 10) := by
  intro m n h
  apply Nat.repr_injective
  rw [Nat.repr_eq_ofList_toDigits, Nat.repr_eq_ofList_toDigits, h]

theorem keyword_injective : Function.Injective Construct.keyword := by
  intro c c' h
  cases c <;> cases c' <;> first | rfl | simp [Construct.keyword] at h

theorem eq_of_parts {k k' : LabelKey} (hword : k.keyword = k'.keyword)
    (hnumbers : k.numbers = k'.numbers) (hending : k.ending = k'.ending) : k = k' := by
  cases k with
  | start c path | finish c path =>
    cases k' <;> simp_all [keyword, numbers, ending, keyword_injective.eq_iff]
  | skip path | further path index => cases k' <;> simp_all [keyword, numbers, ending]

/-- **The words of a label say which it is**, whatever stands before them. -/
theorem words_injective {k k' : LabelKey} {before before' : List (List Char)}
    (h : before ++ k.words = before' ++ k'.words) : before = before' ∧ k = k' := by
  have hdigits : ∀ k : LabelKey, ∀ d ∈ k.numbers.map (Nat.toDigits 10), ∀ c ∈ d,
      c.isDigit = true := by
    intro k d hd c hc
    obtain ⟨n, -, rfl⟩ := List.mem_map.1 hd
    exact Nat.isDigit_of_mem_toDigits (by decide) (by decide) hc
  have hkeyword : ∀ k : LabelKey, ¬ ∀ c ∈ k.keyword.toList, c.isDigit = true := by
    have hall : ∀ w ∈ ["if", "while", "for", "elseif"], ¬ ∀ c ∈ w.toList, c.isDigit = true := by
      simp
    exact fun k => hall _ k.keyword_mem
  simp only [words, ← List.cons_append, ← List.append_assoc] at h
  obtain ⟨h, hending⟩ := List.append_inj' h rfl
  obtain ⟨rfl, hword, hnumbers⟩ :=
    split_unique h (hdigits k) (hdigits k') (hkeyword k) (hkeyword k')
  have hnumbers := List.map_injective_iff.2 toDigits_injective hnumbers
  have hword := String.toList_inj.1 hword
  have hending := String.toList_inj.1 (List.singleton_inj.1 hending)
  exact ⟨rfl, eq_of_parts hword hnumbers hending⟩

/-- **Labels of the machine say which they are.** -/
theorem machineLabel_injective {function function' : String} (hdot : '.' ∉ function.toList)
    (hdot' : '.' ∉ function'.toList) {k k' : LabelKey} (hk : k.path ≠ []) (hk' : k'.path ≠ [])
    (h : machineLabel (k.name function) = machineLabel (k'.name function')) :
    function = function' ∧ k = k' := by
  have hsplit : ∀ {function : String}, '.' ∉ function.toList → ∀ {k : LabelKey}, k.path ≠ [] →
      (machineLabel (k.name function)).toList.splitOn '_' =
        function.toList.splitOn '_' ++ k.words := by
    intro function hdot k hk
    rw [toList_machineLabel hdot hk, List.splitOn_append_cons_self,
      List.splitOn_intercalate '_' (fun w hw => (not_mem_words hw).2) (by simp [words])]
  have heq := hsplit hdot hk
  rw [h, hsplit hdot' hk'] at heq
  obtain ⟨hfunction, rfl⟩ := words_injective heq
  have hjoin := congrArg (['_'].intercalate ·) hfunction
  simp only [List.intercalate_splitOn] at hjoin
  exact ⟨(String.toList_inj.1 hjoin).symm, rfl⟩

/-- The labels of one function say which they are. -/
theorem name_injective (function : String) {k k' : LabelKey} (hk : k.path ≠ [])
    (hk' : k'.path ≠ []) (h : k.name function = k'.name function) : k = k' := by
  have htail : ∀ {k : LabelKey}, k.path ≠ [] →
      (k.name function).toList = function.toList ++ (k.name "").toList := fun hk => by
    rw [toList_name function hk, toList_name "" hk, String.toList_empty, List.nil_append]
  have heq := congrArg String.toList h
  rw [htail hk, htail hk'] at heq
  have hempty := String.toList_inj.1 (List.append_cancel_left heq)
  exact (machineLabel_injective (by simp) (by simp) hk hk' (congrArg machineLabel hempty)).2

end LabelKey

/-! ## Counters -/

namespace Labels

/-- How many structures of a kind are complete at a depth. -/
def count (l : Labels) (c : Construct) (depth : Nat) : Nat :=
  (l.counters c).getD depth 0

/-- Nothing is counted back. -/
structure Advances (l l' : Labels) : Prop where
  length : ∀ c, (l.counters c).length ≤ (l'.counters c).length
  count : ∀ c depth, l.count c depth ≤ l'.count c depth

theorem Advances.refl (l : Labels) : l.Advances l :=
  ⟨fun _ => le_rfl, fun _ _ => le_rfl⟩

theorem Advances.trans {l l₁ l₂ : Labels} (h : l.Advances l₁) (h' : l₁.Advances l₂) :
    l.Advances l₂ :=
  ⟨fun c => (h.length c).trans (h'.length c), fun c d => (h.count c d).trans (h'.count c d)⟩

theorem counters_setCounters (l : Labels) (c c' : Construct) (counters : List Nat) :
    (l.setCounters c counters).counters c' = if c' = c then counters else l.counters c' := by
  cases c <;> cases c' <;> rfl

variable (l : Labels) (function : String) (c : Construct) (depth : Nat)

theorem length_countersTo : depth < (l.countersTo c depth).length := by
  rw [countersTo, List.length_append, List.length_replicate]
  omega

theorem getD_countersTo (d : Nat) : (l.countersTo c depth).getD d 0 = l.count c d := by
  simp only [countersTo, count, List.getD_eq_getElem?_getD, List.getElem?_append,
    List.getElem?_replicate]
  split
  · rfl
  · next hd =>
    rw [List.getElem?_eq_none (Nat.le_of_not_lt hd)]
    split <;> rfl

theorem advances_openAt : l.Advances (l.openAt function c depth).2 where
  length c' := by
    simp only [openAt, counters_setCounters]
    split
    · next h => simp [h, countersTo]
    · exact le_rfl
  count c' d := by
    simp only [openAt, count, counters_setCounters]
    split
    · next h =>
      subst h
      exact (l.getD_countersTo c' depth d).ge
    · exact le_rfl

/-- The counter of an open structure is there. -/
theorem length_openAt : depth < ((l.openAt function c depth).2.counters c).length := by
  simp only [openAt, counters_setCounters, if_true]
  exact l.length_countersTo c depth

theorem length_path_openAt : (l.openAt function c depth).1.path.length = depth + 1 := by
  have := l.length_countersTo c depth
  simp only [openAt, List.length_take]
  omega

/-- The path of a structure ends with its number. -/
theorem getD_path_openAt : (l.openAt function c depth).1.path.getD depth 0 = l.count c depth := by
  simp only [openAt, List.getD_eq_getElem?_getD, List.getElem?_take]
  rw [if_pos (Nat.lt_succ_self depth), ← List.getD_eq_getElem?_getD, getD_countersTo]

theorem advances_closeAt : l.Advances (l.closeAt c depth) where
  length c' := by
    simp only [closeAt, counters_setCounters]
    split
    · next h => simp [h]
    · exact le_rfl
  count c' d := by
    simp only [closeAt, count, counters_setCounters]
    split
    · next h =>
      subst h
      simp only [List.getD_eq_getElem?_getD, List.getElem?_modify]
      cases (l.counters c')[d]? with
      | none => simp
      | some n =>
        change n ≤ if depth = d then n + 1 else n
        split <;> omega
    · exact le_rfl

/-- A structure that is complete is counted. -/
theorem count_closeAt (h : depth < (l.counters c).length) :
    (l.closeAt c depth).count c depth = l.count c depth + 1 := by
  simp only [closeAt, count, counters_setCounters, if_true, List.getD_eq_getElem?_getD,
    List.getElem?_modify, List.getElem?_eq_getElem h, Option.getD_some]
  rfl

end Labels

/-! ## The labels that a flow defines -/

/-- The label that is defined at a waypoint. -/
def Waypoint.label? : Waypoint → Option String
  | .label name => some name
  | _ => none

/-- Where control may go from a waypoint, other than to the next one. -/
def Waypoint.target? : Waypoint → Option String
  | .jump target | .branch target => some target
  | _ => none

/-- The labels that waypoints define, in order. -/
def labelsOf (ws : List Waypoint) : List String :=
  ws.filterMap Waypoint.label?

/-- Where control may go from waypoints. -/
def targetsOf (ws : List Waypoint) : List String :=
  ws.filterMap Waypoint.target?

section Simp

variable (ws vs : List Waypoint) (name : String) (c : Code) (o : Option Code)

@[simp] theorem labelsOf_nil : labelsOf [] = [] := rfl

@[simp] theorem labelsOf_append : labelsOf (ws ++ vs) = labelsOf ws ++ labelsOf vs :=
  List.filterMap_append

@[simp] theorem labelsOf_code : labelsOf (.code c :: ws) = labelsOf ws := rfl

@[simp] theorem labelsOf_label : labelsOf (.label name :: ws) = name :: labelsOf ws := rfl

@[simp] theorem labelsOf_jump : labelsOf (.jump name :: ws) = labelsOf ws := rfl

@[simp] theorem labelsOf_branch : labelsOf (.branch name :: ws) = labelsOf ws := rfl

@[simp] theorem labelsOf_stop : labelsOf (.stop :: ws) = labelsOf ws := rfl

@[simp] theorem labelsOf_expressionFlow : labelsOf (expressionFlow o) = [] := by
  cases o <;> rfl

@[simp] theorem targetsOf_nil : targetsOf [] = [] := rfl

@[simp] theorem targetsOf_append : targetsOf (ws ++ vs) = targetsOf ws ++ targetsOf vs :=
  List.filterMap_append

@[simp] theorem targetsOf_code : targetsOf (.code c :: ws) = targetsOf ws := rfl

@[simp] theorem targetsOf_label : targetsOf (.label name :: ws) = targetsOf ws := rfl

@[simp] theorem targetsOf_jump : targetsOf (.jump name :: ws) = name :: targetsOf ws := rfl

@[simp] theorem targetsOf_branch : targetsOf (.branch name :: ws) = name :: targetsOf ws := rfl

@[simp] theorem targetsOf_stop : targetsOf (.stop :: ws) = targetsOf ws := rfl

@[simp] theorem targetsOf_expressionFlow : targetsOf (expressionFlow o) = [] := by
  cases o <;> rfl

end Simp

/-! ## No structure is named twice -/

namespace LabelKey

/-- The number of the structure among those of its kind at its depth. -/
def number (k : LabelKey) : Nat :=
  k.path.getD (k.path.length - 1) 0

/-- **The structure is numbered between two states of the counters**, at a depth of
at least `depth`. -/
structure Numbered (depth : Nat) (l l' : Labels) (k : LabelKey) : Prop where
  deep : depth < k.path.length
  low : l.count k.construct (k.path.length - 1) ≤ k.number
  high : k.number < l'.count k.construct (k.path.length - 1)

theorem Numbered.mono {depth depth' : Nat} {l l' m m' : Labels} {k : LabelKey}
    (h : k.Numbered depth l l') (hdepth : depth' ≤ depth) (hlow : m.Advances l)
    (hhigh : l'.Advances m') : k.Numbered depth' m m' where
  deep := hdepth.trans_lt h.deep
  low := (hlow.count _ _).trans h.low
  high := h.high.trans_le (hhigh.count _ _)

/-- A number is not given again. -/
theorem Numbered.not_later {depth depth' : Nat} {l l' m : Labels} {k : LabelKey}
    (h : k.Numbered depth l l') : ¬ k.Numbered depth' l' m := by
  intro h'
  have hlow := h'.low
  have hhigh := h.high
  omega

end LabelKey

/-- **The names belong to different labels**, of structures that are numbered from
`l` on and before `l'`. -/
structure Keyed (function : String) (depth : Nat) (l : Labels) (names : List String)
    (l' : Labels) : Prop where
  advances : l.Advances l'
  keys : ∃ keys : List LabelKey, names.Perm (keys.map (·.name function)) ∧ keys.Nodup ∧
    ∀ k ∈ keys, k.Numbered depth l l'

section Keyed

variable {function : String} {depth : Nat} {l l₁ l₂ : Labels} {names names' : List String}

theorem keyed_nil (l : Labels) : Keyed function depth l [] l :=
  ⟨.refl l, [], .nil, List.nodup_nil, nofun⟩

theorem Keyed.append (h : Keyed function depth l names l₁)
    (h' : Keyed function depth l₁ names' l₂) : Keyed function depth l (names ++ names') l₂ := by
  obtain ⟨keys, hkeys, hnodup, hnumbered⟩ := h.keys
  obtain ⟨keys', hkeys', hnodup', hnumbered'⟩ := h'.keys
  refine ⟨h.advances.trans h'.advances, keys ++ keys', ?_, ?_, ?_⟩
  · rw [List.map_append]
    exact hkeys.append hkeys'
  · -- the counters have passed the first ones
    refine List.nodup_append'.2 ⟨hnodup, hnodup', fun k hk hk' => ?_⟩
    exact (hnumbered k hk).not_later (hnumbered' k hk')
  · intro k hk
    rcases List.mem_append.1 hk with hk | hk
    · exact (hnumbered k hk).mono le_rfl (.refl _) h'.advances
    · exact (hnumbered' k hk).mono le_rfl h.advances (.refl _)

/-- The labels of a structure are numbered by it. -/
theorem LabelKey.numbered_openAt {c : Construct} {k : LabelKey}
    (hlater : (l.openAt function c depth).2.Advances l₂) (hconstruct : k.construct = c)
    (hpath : k.path = (l.openAt function c depth).1.path) :
    k.Numbered depth l (l₂.closeAt c depth) := by
  have hlength : k.path.length = depth + 1 := by
    rw [hpath, l.length_path_openAt function c depth]
  have hnumber : k.number = l.count c depth := by
    rw [LabelKey.number, hlength, hpath]
    exact l.getD_path_openAt function c depth
  have hadvances := (l.advances_openAt function c depth).trans hlater
  have hcount := hadvances.count c depth
  have hclosed : (l₂.closeAt c depth).count c depth = l₂.count c depth + 1 :=
    l₂.count_closeAt c depth ((l.length_openAt function c depth).trans_le (hlater.length c))
  refine ⟨by omega, ?_, ?_⟩
  · rw [hnumber, hlength, hconstruct, Nat.add_sub_cancel]
  · rw [hnumber, hlength, hconstruct, Nat.add_sub_cancel, hclosed]
    omega

/-- **The labels of a structure and of what is inside it.** -/
theorem Keyed.around {c : Construct}
    (h : Keyed function (depth + 1) (l.openAt function c depth).2 names l₂)
    {own : List LabelKey} (hown : own.Nodup)
    (hbase : ∀ k ∈ own, k.construct = c ∧ k.path = (l.openAt function c depth).1.path)
    (hnames : names'.Perm (own.map (·.name function) ++ names)) :
    Keyed function depth l names' (l₂.closeAt c depth) := by
  obtain ⟨keys, hkeys, hnodup, hnumbered⟩ := h.keys
  refine ⟨((l.advances_openAt function c depth).trans h.advances).trans
    (l₂.advances_closeAt c depth), own ++ keys, ?_, ?_, ?_⟩
  · rw [List.map_append]
    exact hnames.trans (hkeys.append_left _)
  · -- what is inside lies deeper
    refine List.nodup_append'.2 ⟨hown, hnodup, fun k hk hk' => ?_⟩
    have hdeep := (hnumbered k hk').deep
    rw [(hbase k hk).2, l.length_path_openAt function c depth] at hdeep
    omega
  · intro k hk
    rcases List.mem_append.1 hk with hk | hk
    · exact LabelKey.numbered_openAt h.advances (hbase k hk).1 (hbase k hk).2
    · exact (hnumbered k hk).mono (Nat.le_succ depth) (l.advances_openAt function c depth)
        (l₂.advances_closeAt c depth)

/-- The labels of a loop. -/
theorem Keyed.around_loop {c : Construct}
    (h : Keyed function (depth + 1) (l.openAt function c depth).2 names l₂)
    (hnames : names' = (l.openAt function c depth).1.startLabel ::
      (names ++ [(l.openAt function c depth).1.endLabel])) :
    Keyed function depth l names' (l₂.closeAt c depth) := by
  let path := (l.openAt function c depth).1.path
  have hbase : ∀ k ∈ [LabelKey.start c path, .finish c path], k.construct = c ∧ k.path = path := by
    intro k hk
    rcases List.mem_pair.1 hk with rfl | rfl
    · exact ⟨rfl, rfl⟩
    · exact ⟨rfl, rfl⟩
  have hown : [LabelKey.start c path, .finish c path].Nodup := by simp
  refine h.around hown hbase ?_
  rw [hnames]
  exact (List.perm_append_singleton _ names).cons _

end Keyed

/-- Where control goes on if a branch of a chain is not taken, with `index` further
branches before it. -/
def LabelKey.chainSkip (path : List Nat) : (index : Nat) → LabelKey
  | 0 => .skip path
  | index + 1 => .further path index

/-- The labels of a chain from a branch on. -/
def LabelKey.InChain (path : List Nat) (index : Nat) (k : LabelKey) : Prop :=
  k = .finish .ifChain path ∨ ∃ j ≥ index, k = .chainSkip path j

theorem LabelKey.InChain.base {path : List Nat} {index : Nat} {k : LabelKey}
    (h : k.InChain path index) : k.construct = .ifChain ∧ k.path = path := by
  rcases h with rfl | ⟨j, -, rfl⟩
  · exact ⟨rfl, rfl⟩
  · cases j with
    | zero => exact ⟨rfl, rfl⟩
    | succ j => exact ⟨rfl, rfl⟩

/-- A branch is not one of those behind it. -/
theorem LabelKey.chainSkip_not_inChain (path : List Nat) (index : Nat) :
    ¬ (LabelKey.chainSkip path index).InChain path (index + 1) := by
  rintro (h | ⟨j, hj, h⟩)
  · cases index with
    | zero => cases h
    | succ index => cases h
  · cases index with
    | zero =>
      cases j with
      | zero => omega
      | succ j => cases h
    | succ index =>
      cases j with
      | zero => cases h
      | succ j =>
        cases h
        omega

/-- **The labels of an alternative** are labels of its chain, and labels of what is
inside it. -/
def ChainKeyed (function : String) (depth : Nat) (path : List Nat) (index : Nat) (l : Labels)
    (names : List String) (l' : Labels) : Prop :=
  ∃ (own : List LabelKey) (inner : List String),
    names.Perm (own.map (·.name function) ++ inner) ∧ own.Nodup ∧
    (∀ k ∈ own, k.InChain path index) ∧ Keyed function (depth + 1) l inner l'

section Flow

variable (function : String)

mutual

/-- **No structure of a statement is named twice.** -/
theorem Stmt.flow_keyed (depth : Nat) (leave : Option String) (l : Labels) (s : Stmt) :
    Keyed function depth l (labelsOf (s.flow function depth leave l).1)
      (s.flow function depth leave l).2 := by
  match s with
  | .eval c => exact keyed_nil l
  | .ret value =>
    rw [Stmt.flow_ret]
    simpa using keyed_nil l
  | .leave =>
    have hlabels : labelsOf (Stmt.leave.flow function depth leave l).1 = [] := by
      cases leave <;> rfl
    exact hlabels ▸ keyed_nil l
  | .block body => exact blockFlow_keyed depth leave l body
  | .branch c body other =>
    obtain ⟨own, inner, hnames, hown, hchain, hinner⟩ :=
      other.flow_keyed depth leave (l.openAt function .ifChain depth).1.path 0
        (blockFlow function (depth + 1) leave body (l.openAt function .ifChain depth).2).2
    have hbody := blockFlow_keyed (depth + 1) leave (l.openAt function .ifChain depth).2 body
    -- the chain's own labels stand around those of its branches, up to their order
    refine (hbody.append hinner).around hown (fun k hk => (hchain k hk).base) ?_
    rw [Stmt.flow_branch]
    simp only [labelsOf_code, labelsOf_branch, labelsOf_append]
    exact (hnames.append_left _).trans (List.perm_append_comm_assoc _ _ _)
  | .loop c body =>
    have hbody := blockFlow_keyed (depth + 1) (some (l.openAt function .whileLoop depth).1.endLabel)
      (l.openAt function .whileLoop depth).2 body
    refine hbody.around_loop ?_
    rw [Stmt.flow_loop]
    simp
  | .count first c step body =>
    have hbody := blockFlow_keyed (depth + 1) (some (l.openAt function .forLoop depth).1.endLabel)
      (l.openAt function .forLoop depth).2 body
    refine hbody.around_loop ?_
    rw [Stmt.flow_count]
    simp

/-- No structure of an alternative is named twice. Its chain is named by `path`. -/
theorem Alternative.flow_keyed (depth : Nat) (leave : Option String) (path : List Nat) (index : Nat)
    (l : Labels) (other : Alternative) :
    ChainKeyed function depth path index l
      (labelsOf (other.flow function depth leave ⟨function, .ifChain, path⟩ index
        ((LabelKey.chainSkip path index).name function) l).1)
      (other.flow function depth leave ⟨function, .ifChain, path⟩ index
        ((LabelKey.chainSkip path index).name function) l).2 := by
  have hskip : (LabelKey.chainSkip path index).InChain path index := .inr ⟨index, le_rfl, rfl⟩
  have hfinish : (LabelKey.finish .ifChain path).InChain path index := .inl rfl
  have hne : LabelKey.chainSkip path index ≠ .finish .ifChain path := fun heq =>
    LabelKey.chainSkip_not_inChain path index (.inl heq)
  match other with
  | .none =>
    -- an `if` alone has no end label: its only way out is the skip label
    cases index with
    | zero =>
      refine ⟨[.chainSkip path 0], [], .refl _, List.nodup_singleton _, ?_, keyed_nil l⟩
      exact List.forall_mem_singleton.2 hskip
    | succ index =>
      refine ⟨[.chainSkip path (index + 1), .finish .ifChain path], [], .refl _, by simpa using hne,
        ?_, keyed_nil l⟩
      simpa using ⟨hskip, hfinish⟩
  | .elseIf c body other =>
    obtain ⟨own, inner, hnames, hown, hchain, hinner⟩ := other.flow_keyed depth leave path (index + 1)
      (blockFlow function (depth + 1) leave body l).2
    have hbody := blockFlow_keyed (depth + 1) leave l body
    refine ⟨.chainSkip path index :: own, _, ?_, ?_, ?_, hbody.append hinner⟩
    · rw [Alternative.flow_elseIf]
      simp only [labelsOf_jump, labelsOf_label, labelsOf_code, labelsOf_branch, labelsOf_append,
        List.map_cons, List.cons_append]
      exact ((hnames.append_left _).trans (List.perm_append_comm_assoc _ _ _)).cons _
    · -- the branches behind it have later numbers
      refine List.nodup_cons.2 ⟨fun hmem => ?_, hown⟩
      exact LabelKey.chainSkip_not_inChain path index (hchain _ hmem)
    · intro k hk
      rcases List.mem_cons.1 hk with rfl | hk
      · exact hskip
      · rcases hchain k hk with hlast | ⟨j, hj, hlater⟩
        · exact .inl hlast
        · exact .inr ⟨j, by omega, hlater⟩
  | .otherwise body =>
    have hbody := blockFlow_keyed (depth + 1) leave l body
    refine ⟨[.chainSkip path index, .finish .ifChain path], _, ?_, by simpa using hne, ?_, hbody⟩
    · rw [Alternative.flow_otherwise]
      simp only [labelsOf_jump, labelsOf_label, labelsOf_append, List.map_cons, List.map_nil,
        List.cons_append, List.nil_append, labelsOf_nil]
      exact (List.perm_append_singleton _ _).cons _
    · simpa using ⟨hskip, hfinish⟩

/-- **No structure of a row of statements is named twice.** -/
theorem blockFlow_keyed (depth : Nat) (leave : Option String) (l : Labels) (body : List Stmt) :
    Keyed function depth l (labelsOf (blockFlow function depth leave body l).1)
      (blockFlow function depth leave body l).2 := by
  match body with
  | [] => exact keyed_nil l
  | s :: rest =>
    have hfirst := s.flow_keyed depth leave l
    have hrest := blockFlow_keyed depth leave (s.flow function depth leave l).2 rest
    rw [blockFlow_cons]
    simpa only [labelsOf_append] using hfirst.append hrest

end

/-! ## Every jump has its label -/

mutual

/-- **A jump of a statement** leads to one of its labels, or out of the loop around
it. -/
theorem Stmt.mem_labelsOf_flow (depth : Nat) (leave : Option String) (l : Labels) (s : Stmt) :
    ∀ t ∈ targetsOf (s.flow function depth leave l).1,
      t ∈ labelsOf (s.flow function depth leave l).1 ∨ leave = some t := by
  intro t ht
  match s with
  | .eval c => cases ht
  | .ret value => simp [Stmt.flow_ret] at ht
  | .leave =>
    cases leave with
    | none => cases ht
    | some target => exact .inr (congrArg some (List.mem_singleton.1 ht).symm)
  | .block body => exact mem_labelsOf_blockFlow depth leave l body t ht
  | .branch c body other =>
    rw [Stmt.flow_branch] at ht ⊢
    simp only [targetsOf_code, targetsOf_branch, targetsOf_append, labelsOf_code, labelsOf_branch,
      labelsOf_append, List.mem_cons, List.mem_append] at ht ⊢
    obtain ⟨hothers, hskip, -⟩ := other.mem_labelsOf_flow depth leave
      (l.openAt function .ifChain depth).1 0 (l.openAt function .ifChain depth).1.skipLabel
      (blockFlow function (depth + 1) leave body (l.openAt function .ifChain depth).2).2
    rcases ht with rfl | ht | ht
    -- the condition's jump, then the jumps of the body, then those of the other branches
    · exact .inl (.inr hskip)
    · rcases mem_labelsOf_blockFlow (depth + 1) leave _ body t ht with hmem | hleave
      · exact .inl (.inl hmem)
      · exact .inr hleave
    · rcases hothers t ht with hmem | hleave
      · exact .inl (.inr hmem)
      · exact .inr hleave
  | .loop c body =>
    rw [Stmt.flow_loop] at ht ⊢
    simp only [targetsOf_code, targetsOf_branch, targetsOf_append, targetsOf_label, targetsOf_jump,
      targetsOf_nil, labelsOf_code, labelsOf_branch, labelsOf_append, labelsOf_label, labelsOf_jump,
      labelsOf_nil, List.mem_cons, List.mem_append, List.not_mem_nil, or_false] at ht ⊢
    -- a `break` of the body leaves this loop, whose end label follows the body
    rcases ht with rfl | ht | rfl
    · exact .inl (.inr (.inr rfl))
    · rcases mem_labelsOf_blockFlow (depth + 1) _ _ body t ht with hmem | hleave
      · exact .inl (.inr (.inl hmem))
      · exact .inl (.inr (.inr (Option.some.inj hleave).symm))
    · exact .inl (.inl rfl)
  | .count first c step body =>
    rw [Stmt.flow_count] at ht ⊢
    simp only [targetsOf_code, targetsOf_branch, targetsOf_append, targetsOf_label, targetsOf_jump,
      targetsOf_nil, targetsOf_expressionFlow, labelsOf_code, labelsOf_branch, labelsOf_append,
      labelsOf_label, labelsOf_jump, labelsOf_nil, labelsOf_expressionFlow, List.nil_append,
      List.mem_cons, List.mem_append, List.not_mem_nil, or_false] at ht ⊢
    rcases ht with rfl | ht | rfl
    · exact .inl (.inr (.inr rfl))
    · rcases mem_labelsOf_blockFlow (depth + 1) _ _ body t ht with hmem | hleave
      · exact .inl (.inr (.inl hmem))
      · exact .inl (.inr (.inr (Option.some.inj hleave).symm))
    · exact .inl (.inl rfl)

/-- A jump of an alternative leads to one of its labels, or out of the loop around
it. It defines `skip`, and the end of the chain if another branch jumps there. -/
theorem Alternative.mem_labelsOf_flow (depth : Nat) (leave : Option String) (base : LabelBase)
    (index : Nat) (skip : String) (l : Labels) (other : Alternative) :
    (∀ t ∈ targetsOf (other.flow function depth leave base index skip l).1,
      t ∈ labelsOf (other.flow function depth leave base index skip l).1 ∨ leave = some t) ∧
    skip ∈ labelsOf (other.flow function depth leave base index skip l).1 ∧
    (0 < index → base.endLabel ∈ labelsOf (other.flow function depth leave base index skip l).1) := by
  match other with
  | .none =>
    have hflow : (Alternative.none.flow function depth leave base index skip l).1 =
      .label skip :: if 0 < index then [.label base.endLabel] else [] := rfl
    rw [hflow]
    by_cases hindex : 0 < index
    · simp [hindex]
    · simp [hindex]
  | .elseIf c body other =>
    rw [Alternative.flow_elseIf]
    simp only [targetsOf_code, targetsOf_branch, targetsOf_append, targetsOf_label, targetsOf_jump,
      labelsOf_code, labelsOf_branch, labelsOf_append, labelsOf_label, labelsOf_jump,
      List.mem_cons, List.mem_append]
    obtain ⟨hothers, hskip, hend⟩ := other.mem_labelsOf_flow depth leave base (index + 1)
      (base.branchSkipLabel index) (blockFlow function (depth + 1) leave body l).2
    -- behind an `else if` there is always an end label, where this branch jumps to
    have hend := hend (Nat.succ_pos index)
    refine ⟨fun t ht => ?_, .inl trivial, fun _ => .inr (.inr hend)⟩
    rcases ht with rfl | rfl | ht | ht
    · exact .inl (.inr (.inr hend))
    · exact .inl (.inr (.inr hskip))
    · rcases mem_labelsOf_blockFlow (depth + 1) leave l body t ht with hmem | hleave
      · exact .inl (.inr (.inl hmem))
      · exact .inr hleave
    · rcases hothers t ht with hmem | hleave
      · exact .inl (.inr (.inr hmem))
      · exact .inr hleave
  | .otherwise body =>
    rw [Alternative.flow_otherwise]
    simp only [targetsOf_append, targetsOf_label, targetsOf_jump, targetsOf_nil, labelsOf_append,
      labelsOf_label, labelsOf_jump, labelsOf_nil, List.mem_cons, List.mem_append,
      List.not_mem_nil, or_false]
    refine ⟨fun t ht => ?_, .inl trivial, fun _ => .inr (.inr trivial)⟩
    rcases ht with rfl | ht
    · exact .inl (.inr (.inr rfl))
    · rcases mem_labelsOf_blockFlow (depth + 1) leave l body t ht with hmem | hleave
      · exact .inl (.inr (.inl hmem))
      · exact .inr hleave

/-- **A jump of a row of statements** leads to one of their labels, or out of the
loop around them. -/
theorem mem_labelsOf_blockFlow (depth : Nat) (leave : Option String) (l : Labels)
    (body : List Stmt) : ∀ t ∈ targetsOf (blockFlow function depth leave body l).1,
      t ∈ labelsOf (blockFlow function depth leave body l).1 ∨ leave = some t := by
  intro t ht
  match body with
  | [] => cases ht
  | s :: rest =>
    rw [blockFlow_cons] at ht ⊢
    simp only [targetsOf_append, labelsOf_append, List.mem_append] at ht ⊢
    rcases ht with ht | ht
    · rcases s.mem_labelsOf_flow depth leave l t ht with hmem | hleave
      · exact .inl (.inl hmem)
      · exact .inr hleave
    · rcases mem_labelsOf_blockFlow depth leave _ rest t ht with hmem | hleave
      · exact .inl (.inr hmem)
      · exact .inr hleave

end

end Flow

end WordC
