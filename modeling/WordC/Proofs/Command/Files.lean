import Mathlib
import WordC.Command.Disk
/-!
# Writing and reading files

Content is put at the place that a path has (`Disk.write_eq`). A file makes no
directory that was not there before, so places stay what they are while files
are written. What is read at a place is what was put there last
(`Disk.file?_put`), and a row of paths with places of their own can be written in
any order (`Disk.Separates.put`).
-/

namespace WordC

namespace Disk

variable {d d' : Disk} {l l' : Location} {part path : String} {parts : List String}
  {content : List UInt8}

/-- Where content that is written to a path is put. -/
def place (d : Disk) (path : String) : Except FileCause Location := do
  let parts := pathParts path
  let (l, name) ← d.resolve (parts.reverse.dropWhile (· = "")).reverse
  if parts.getLast? = some "" || name = "." || name = ".." || d.isDirectory (l ++ [name]) then
    throw .isADirectory
  return l ++ [name]

/-- **Writing puts content at the place of the path.** -/
theorem write_eq (d : Disk) (path : String) (content : List UInt8) :
    d.write path content = (d.place path).map (d.put · content) := by
  unfold write place
  dsimp only
  cases d.resolve ((pathParts path).reverse.dropWhile (· = "")).reverse with
  | error e => rfl
  | ok r =>
    obtain ⟨l, name⟩ := r
    change (if _ then _ else _ : Except FileCause Disk) = Except.map _ (if _ then _ else _)
    split
    · rfl
    · rfl

/-! ## Directories -/

theorem isDirectory_iff : d.isDirectory l = true ↔
    l <+: d.here ∨ ∃ f ∈ d.files, l <+: f.location ∧ l.length < f.location.length := by
  simp [isDirectory, List.isPrefixOf_iff_prefix]

/-- What a directory lies in is a directory. -/
theorem isDirectory_of_prefix (h : d.isDirectory l = true) (hl : l' <+: l) :
    d.isDirectory l' = true := by
  rw [isDirectory_iff] at h ⊢
  rcases h with hhere | ⟨f, hf, hprefix, hlength⟩
  · exact .inl (hl.trans hhere)
  · exact .inr ⟨f, hf, hl.trans hprefix, hl.length_le.trans_lt hlength⟩

/-- Every path begins in a directory. -/
theorem isDirectory_start (d : Disk) (parts : List String) :
    d.isDirectory (d.start parts) = true := by
  unfold start
  split
  · exact isDirectory_iff.2 (.inl List.nil_prefix)
  · exact isDirectory_iff.2 (.inl (List.prefix_refl d.here))

theorem isDirectory_of_enter (h : d.isDirectory l = true) (henter : d.enter l part = .ok l') :
    d.isDirectory l' = true := by
  unfold enter at henter
  split at henter
  · cases henter
    exact h
  · split at henter
    · cases henter
      exact isDirectory_of_prefix h (List.dropLast_prefix l)
    · split at henter
      · next hdirectory =>
        cases henter
        exact hdirectory
      · split at henter <;> cases henter

/-- The disks have the same directories, and paths begin in the same of them. -/
structure SameDirectories (d d' : Disk) : Prop where
  here : d'.here = d.here
  isDirectory : ∀ l, d'.isDirectory l = d.isDirectory l

theorem SameDirectories.start (h : SameDirectories d d') (parts : List String) :
    d'.start parts = d.start parts := by
  rw [Disk.start, Disk.start, h.here]

/-- Entering asks only for directories, where it succeeds. -/
theorem SameDirectories.enter (h : SameDirectories d d') (henter : d.enter l part = .ok l') :
    d'.enter l part = .ok l' := by
  unfold Disk.enter at henter ⊢
  split at henter
  · next hsame => rwa [if_pos hsame]
  · next hsame =>
    rw [if_neg hsame]
    split at henter
    · next habove => rwa [if_pos habove]
    · next habove =>
      rw [if_neg habove]
      split at henter
      · next hdirectory => rwa [if_pos ((h.isDirectory _).trans hdirectory)]
      · split at henter <;> cases henter

/-- **Entering part by part** ends in a directory, and ends there on every disk with the
same directories. -/
theorem enterAll_ok (h : d.isDirectory l = true) (henter : parts.foldlM d.enter l = .ok l') :
    d.isDirectory l' = true ∧
      ∀ d', SameDirectories d d' → parts.foldlM d'.enter l = .ok l' := by
  induction parts generalizing l with
  | nil =>
    cases henter
    exact ⟨h, fun _ _ => rfl⟩
  | cons part parts ih =>
    rw [List.foldlM_cons] at henter
    cases hpart : d.enter l part with
    | error e =>
      rw [hpart] at henter
      cases henter
    | ok l₁ =>
      rw [hpart] at henter
      obtain ⟨hdirectory, hsame⟩ := ih (isDirectory_of_enter h hpart) henter
      refine ⟨hdirectory, fun d' hd' => ?_⟩
      rw [List.foldlM_cons, hd'.enter hpart]
      exact hsame d' hd'

/-- What parts are resolved to lies in a directory, and the same holds on every disk with
the same directories. -/
theorem resolve_ok {name : String} (h : d.resolve parts = .ok (l, name)) :
    d.isDirectory l = true ∧ parts.getLast?.getD "" = name ∧
      ∀ d', SameDirectories d d' → d'.resolve parts = .ok (l, name) := by
  unfold resolve at h ⊢
  cases henter : parts.dropLast.foldlM d.enter (d.start parts) with
  | error e =>
    rw [henter] at h
    cases h
  | ok l₁ =>
    rw [henter] at h
    cases h
    obtain ⟨hdirectory, hsame⟩ := enterAll_ok (isDirectory_start d parts) henter
    refine ⟨hdirectory, rfl, fun d' hd' => ?_⟩
    rw [hd'.start, hsame d' hd']
    rfl

/-! ## Places -/

theorem pathParts_ne_nil (path : String) : pathParts path ≠ [] := by
  simp [pathParts, List.splitOn_ne_nil]

/-- Empty parts are dropped at the end of a path only. -/
theorem dropWhile_reverse (h : parts.getLast? ≠ some "") :
    (parts.reverse.dropWhile (· = "")).reverse = parts := by
  rw [← List.head?_reverse] at h
  cases hparts : parts.reverse with
  | nil => simpa using hparts.symm
  | cons part rest =>
    rw [hparts] at h
    have hpart : part ≠ "" := fun heq => h (congrArg some heq)
    rw [List.dropWhile_cons_of_neg (by simpa using hpart), ← hparts, List.reverse_reverse]

/-- Where the place of a path is found. -/
theorem place_eq_ok : d.place path = .ok l ↔ ∃ dir name,
    d.resolve ((pathParts path).reverse.dropWhile (· = "")).reverse = .ok (dir, name) ∧
      (pathParts path).getLast? ≠ some "" ∧ name ≠ "." ∧ name ≠ ".." ∧
      d.isDirectory (dir ++ [name]) = false ∧ l = dir ++ [name] := by
  unfold place
  dsimp only
  cases hresolve : d.resolve ((pathParts path).reverse.dropWhile (· = "")).reverse with
  | error e => exact iff_of_false nofun (by rintro ⟨_, _, hfound, -⟩; cases hfound)
  | ok found =>
    obtain ⟨dir, name⟩ := found
    change (if _ then _ else _ : Except FileCause Location) = _ ↔ _
    split
    · next hname =>
      refine iff_of_false nofun ?_
      rintro ⟨_, _, hfound, hlast, hdot, hdots, hfile, -⟩
      cases hfound
      simp [hlast, hdot, hdots, hfile] at hname
    · next hname =>
      simp only [Bool.or_eq_true, decide_eq_true_eq, not_or, Bool.not_eq_true] at hname
      obtain ⟨⟨⟨hlast, hdot⟩, hdots⟩, hfile⟩ := hname
      constructor
      · rintro ⟨⟩
        exact ⟨dir, name, rfl, hlast, hdot, hdots, hfile, rfl⟩
      · rintro ⟨_, _, hfound, -, -, -, -, rfl⟩
        cases hfound
        rfl

/-- **The place of a path** lies in a directory and is none itself, and the name in the
directory is the last part of the path. -/
theorem place_ok (h : d.place path = .ok l) :
    ∃ dir name, l = dir ++ [name] ∧ d.resolve (pathParts path) = .ok (dir, name) ∧
      d.isDirectory dir = true ∧ d.isDirectory l = false ∧
      name ≠ "" ∧ name ≠ "." ∧ name ≠ ".." := by
  obtain ⟨dir, name, hresolve, hlast, hdot, hdots, hfile, rfl⟩ := place_eq_ok.1 h
  rw [dropWhile_reverse hlast] at hresolve
  obtain ⟨hdirectory, hname, -⟩ := resolve_ok hresolve
  refine ⟨dir, name, rfl, hresolve, hdirectory, hfile, ?_, hdot, hdots⟩
  rintro rfl
  obtain ⟨part, hpart⟩ := Option.ne_none_iff_exists'.1
    (mt List.getLast?_eq_none_iff.1 (pathParts_ne_nil path))
  rw [hpart, Option.getD_some] at hname
  exact hlast (hname ▸ hpart)

/-- Places are where they are on every disk with the same directories. -/
theorem SameDirectories.place (hd : SameDirectories d d') (h : d.place path = .ok l) :
    d'.place path = .ok l := by
  obtain ⟨dir, name, hresolve, hlast, hdot, hdots, hfile, rfl⟩ := place_eq_ok.1 h
  exact place_eq_ok.2 ⟨dir, name, (resolve_ok hresolve).2.2 d' hd, hlast, hdot, hdots,
    (hd.isDirectory _).trans hfile, rfl⟩

/-- What is read at a place. -/
theorem read_eq (h : d.place path = .ok l) :
    d.read path = (d.file? l).elim (.error .missing) .ok := by
  obtain ⟨dir, name, rfl, hresolve, -, hfile, hname, hdot, hdots⟩ := place_ok h
  unfold read
  cases hfound : d.file? (dir ++ [name]) with
  | some content =>
    simp only [hresolve, hfound, bind, Except.bind]
    rfl
  | none => simp [hresolve, enter, hname, hdot, hdots, hfile, hfound, bind, Except.bind]

/-! ## Putting content -/

/-- **Content that is put somewhere is found there**, and what lies elsewhere stays. -/
theorem file?_put (d : Disk) (l l' : Location) (content : List UInt8) :
    (d.put l content).file? l' = if l' = l then some content else d.file? l' := by
  -- replacing a content moves no file, so the search for `l'` stops where it did
  have hkept : (fun f : StoredFile => decide (f.location = l')) ∘
      (fun f => if f.location = l then { f with content } else f) =
      fun f => decide (f.location = l') := by
    funext f
    by_cases h : f.location = l <;> simp [h]
  unfold put
  cases hfind : d.files.find? fun f => f.location = l' with
  | none =>
    have hnone : d.file? l' = none := by rw [file?, hfind, Option.map_none]
    split
    · next hfound =>
      have hne : l' ≠ l := by
        rintro rfl
        rw [hnone] at hfound
        cases hfound
      rw [file?, List.find?_map, hkept, hfind, if_neg hne, hnone]
      rfl
    · rw [file?, List.find?_append, hfind, Option.none_or, hnone]
      by_cases heq : l' = l
      · simp [heq]
      · simp [heq, Ne.symm heq]
  | some f =>
    have hlocation : f.location = l' := by simpa using List.find?_some hfind
    have hsome : d.file? l' = some f.content := by rw [file?, hfind, Option.map_some]
    split
    · rw [file?, List.find?_map, hkept, hfind, hsome, Option.map_some, Option.map_some, hlocation]
      split <;> rfl
    · next hnone =>
      have hne : l' ≠ l := by
        rintro rfl
        rw [hsome] at hnone
        exact hnone rfl
      rw [if_neg hne, hsome, file?, List.find?_append, hfind]
      rfl

theorem here_put (d : Disk) (l : Location) (content : List UInt8) :
    (d.put l content).here = d.here := by
  unfold put
  split <;> rfl

/-- Content in a directory makes no other directory. -/
theorem sameDirectories_put {name : String} (h : d.isDirectory l = true) (content : List UInt8) :
    SameDirectories d (d.put (l ++ [name]) content) := by
  refine ⟨here_put d _ content, fun l' => ?_⟩
  rw [Bool.eq_iff_iff, isDirectory_iff, here_put]
  unfold put
  split
  · -- a file that is there keeps its location
    have hlocation : ∀ f : StoredFile,
        (if f.location = l ++ [name] then { f with content } else f).location = f.location := by
      intro f
      split <;> rfl
    simp only [List.mem_map, exists_exists_and_eq_and, hlocation]
    rw [isDirectory_iff]
  · constructor
    · rintro (hhere | ⟨f, hf, hprefix, hlength⟩)
      · exact isDirectory_iff.2 (.inl hhere)
      · rcases List.mem_append.1 hf with hf | hf
        · exact isDirectory_iff.2 (.inr ⟨f, hf, hprefix, hlength⟩)
        · -- what the new file lies in is the directory, or around it
          obtain rfl := List.mem_singleton.1 hf
          rw [List.length_append, List.length_singleton] at hlength
          exact isDirectory_of_prefix h
            (List.prefix_of_prefix_length_le hprefix (List.prefix_append l [name])
              (Nat.lt_succ_iff.1 hlength))
    · intro hdirectory
      exact (isDirectory_iff.1 hdirectory).imp_right
        (Exists.imp fun f => And.imp_left (List.mem_append_left _))

/-! ## Places of their own -/

/-- **Each path can be written, to a place of its own.** -/
structure Separates (d : Disk) (paths : List String) : Prop where
  writable : ∀ path ∈ paths, ∃ l, d.place path = .ok l
  distinct : (paths.map d.place).Nodup

theorem Separates.of_sublist {paths paths' : List String} (h : d.Separates paths)
    (hpaths : paths'.Sublist paths) : d.Separates paths' where
  writable path hpath := h.writable path (hpaths.subset hpath)
  distinct := h.distinct.sublist (hpaths.map _)

/-- **Writing to one of the paths** succeeds. The content is read at that path, the other
paths are as before, and all of them can be written again. -/
theorem Separates.write {paths : List String} (h : d.Separates paths) (hpath : path ∈ paths)
    (content : List UInt8) : ∃ d', d.write path content = .ok d' ∧ d'.Separates paths ∧
      ∀ other ∈ paths, d'.read other = if other = path then .ok content else d.read other := by
  obtain ⟨l, hl⟩ := h.writable path hpath
  obtain ⟨dir, name, rfl, -, hdirectory, -⟩ := place_ok hl
  have hsame : SameDirectories d (d.put (dir ++ [name]) content) :=
    sameDirectories_put hdirectory content
  have hplace : ∀ other ∈ paths, (d.put (dir ++ [name]) content).place other = d.place other := by
    intro other hother
    obtain ⟨l', hl'⟩ := h.writable other hother
    rw [hl', hsame.place hl']
  refine ⟨d.put (dir ++ [name]) content, by rw [write_eq, hl]; rfl, ⟨?_, ?_⟩, ?_⟩
  · intro other hother
    rw [hplace other hother]
    exact h.writable other hother
  · rw [List.map_congr_left hplace]
    exact h.distinct
  · -- two paths have one place only if they are the same path
    intro other hother
    obtain ⟨l', hl'⟩ := h.writable other hother
    rw [read_eq ((hplace other hother).trans hl'), read_eq hl', file?_put]
    by_cases heq : other = path
    · subst heq
      rw [hl] at hl'
      cases hl'
      rw [if_pos rfl, if_pos rfl]
      rfl
    · have hne : l' ≠ dir ++ [name] := by
        rintro rfl
        exact heq (List.inj_on_of_nodup_map h.distinct hother hpath (hl'.trans hl.symm))
      rw [if_neg hne, if_neg heq]

end Disk

end WordC
