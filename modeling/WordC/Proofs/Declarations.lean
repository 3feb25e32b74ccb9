import Mathlib
import WordC.Declarations
import WordC.Proofs.Stateful
import WordC.Proofs.SourceUnit.Written
/-!
# Histories of declarations

A table of functions keeps an index beside them. The index is in step with the functions
if it leads to a place just where the function of that name is (`InStep`); names are then
distinct, and what the index finds is what a search among the functions would find. A
declaration keeps the two in step, and `InStep.declare_cases` says all that it can do.

What a table holds after any row of declarations, some of which it may have refused, is
told by `Records`: it has one function for each name, in the order in which the names came,
and that function is the definition of the name or, while there is none, its first
prototype. One accepted declaration keeps this (`Records.declare`), so it holds after
every row of them (`records_declareAll`).
-/

namespace WordC

namespace Declarations

variable {d d' : Declarations} {f known : Function} {name : String} {i : Nat}

/-! ## The index -/

/-- **The index is in step with the functions**: it leads from a name to a place just if
the function of that name is there. -/
def InStep (d : Declarations) : Prop :=
  ∀ name i, d.place? name = some i ↔ ∃ f, d.functions[i]? = some f ∧ f.name = name

theorem place?_add (d : Declarations) (f : Function) (name : String) :
    (d.add f).place? name = if name = f.name then some d.functions.length else d.place? name := by
  unfold place? add
  by_cases hname : name = f.name
  · rw [hname, List.lookup_cons_self, if_pos rfl]
  · have hkey : (name == f.name) = false := by simpa using hname
    rw [List.lookup_cons, hkey, if_neg hname]

namespace InStep

theorem empty : InStep {} := by
  intro name i
  simp [place?]

/-- No two functions have one name: the index has one place for it. -/
theorem distinct (h : d.InStep) : (d.functions.map Function.name).Nodup := by
  rw [List.nodup_iff_getElem?_ne_getElem?]
  intro i j hij hj heq
  rw [List.length_map] at hj
  have hplace : d.place? d.functions[j].name = some j :=
    (h _ j).2 ⟨_, List.getElem?_eq_getElem hj, rfl⟩
  have hplace' : d.place? d.functions[j].name = some i := by
    rw [List.getElem?_map, List.getElem?_map, List.getElem?_eq_getElem hj] at heq
    obtain ⟨g, hg, hname⟩ := Option.map_eq_some_iff.1 heq
    exact (h _ i).2 ⟨g, hg, hname⟩
  rw [hplace] at hplace'
  cases hplace'
  exact Nat.lt_irrefl _ hij

/-- What the index finds are the functions of the table, each under its name. -/
theorem find?_eq_some_iff (h : d.InStep) :
    d.find? name = some f ↔ f ∈ d.functions ∧ f.name = name := by
  unfold find?
  rw [Option.bind_eq_some_iff]
  constructor
  · rintro ⟨i, hi, hf⟩
    obtain ⟨g, hg, hname⟩ := (h name i).1 hi
    rw [hf] at hg
    cases hg
    exact ⟨List.mem_of_getElem? hf, hname⟩
  · rintro ⟨hf, hname⟩
    obtain ⟨i, hi⟩ := List.mem_iff_getElem?.1 hf
    exact ⟨i, (h name i).2 ⟨f, hi, hname⟩, hi⟩

/-- A name without a function has no place, and one with a place has a function there. -/
theorem place?_eq_none_iff (h : d.InStep) : d.place? name = none ↔ d.find? name = none := by
  unfold find?
  cases hplace : d.place? name with
  | none => simp
  | some i =>
    obtain ⟨g, hg, -⟩ := (h name i).1 hplace
    simp [hg]

/-- A new name gets the place behind the others. -/
theorem add (h : d.InStep) (hnone : d.find? f.name = none) : (d.add f).InStep := by
  intro name i
  rw [place?_add]
  change _ ↔ ∃ g, (d.functions ++ [f])[i]? = some g ∧ g.name = name
  rcases Nat.lt_trichotomy i d.functions.length with hlt | rfl | hgt
  · -- the functions that were there stay where they are
    rw [List.getElem?_append_left hlt, ← h name i]
    by_cases hname : name = f.name
    · have hplace : d.place? name = none := by
        rw [hname]
        exact h.place?_eq_none_iff.2 hnone
      simp [hname ▸ hplace, hname, Nat.ne_of_gt hlt]
    · rw [if_neg hname]
  · rw [List.getElem?_concat_length]
    by_cases hname : name = f.name
    · simp [hname]
    · have hplace : d.place? name ≠ some d.functions.length := by
        intro hplace
        obtain ⟨g, hg, -⟩ := (h name _).1 hplace
        simp at hg
      simp [hname, hplace, Ne.symm hname]
  · have hbehind : (d.functions ++ [f])[i]? = none :=
      List.getElem?_eq_none (by rw [List.length_append, List.length_singleton]; omega)
    have hplace : d.place? name ≠ some i := by
      intro hplace
      obtain ⟨g, hg, -⟩ := (h name i).1 hplace
      rw [List.getElem?_eq_none hgt.le] at hg
      cases hg
    rw [hbehind]
    by_cases hname : name = f.name
    · simp [hname, Nat.ne_of_lt hgt]
    · simp [hname, hplace]

/-- A function takes the place of another one of its name. -/
theorem replace (h : d.InStep) (hknown : d.functions[i]? = some known)
    (hname : known.name = f.name) : (d.replace i f).InStep := by
  intro name j
  change d.place? name = some j ↔ ∃ g, (d.functions.set i f)[j]? = some g ∧ g.name = name
  rw [h name j, List.getElem?_set]
  split
  · next hij =>
    subst hij
    rw [if_pos (List.getElem?_eq_some_iff.1 hknown).1, hknown]
    simp [hname]
  · rfl

/-- The new function is found under its name, and what else is found stays. -/
theorem find?_add (h : d.InStep) (f : Function) (name : String) :
    (d.add f).find? name = if name = f.name then some f else d.find? name := by
  unfold find?
  rw [place?_add]
  split
  · exact List.getElem?_concat_length
  · refine Option.bind_congr fun i hi => ?_
    obtain ⟨g, hg, -⟩ := (h name i).1 hi
    exact List.getElem?_append_left (List.getElem?_eq_some_iff.1 hg).1

theorem find?_replace (h : d.InStep) (hknown : d.functions[i]? = some known)
    (hname : known.name = f.name) (name : String) :
    (d.replace i f).find? name = if name = f.name then some f else d.find? name := by
  have hplace : d.place? f.name = some i := (h _ i).2 ⟨known, hknown, hname⟩
  unfold find?
  change ((d.place? name).bind fun j => (d.functions.set i f)[j]?) = _
  split
  · next heq =>
    have hi := (List.getElem?_eq_some_iff.1 hknown).1
    rw [heq, hplace, Option.bind_some, List.getElem?_set_self hi]
  · next hne =>
    refine Option.bind_congr fun j hj => List.getElem?_set_ne ?_
    rintro rfl
    obtain ⟨g, hg, hgname⟩ := (h name i).1 hj
    rw [hknown] at hg
    cases hg
    exact hne (hgname.symm.trans hname)

end InStep

/-- A function that takes the place of another one has its name. -/
theorem names_replace (hknown : d.functions[i]? = some known) (hname : known.name = f.name) :
    (d.replace i f).functions.map Function.name = d.functions.map Function.name := by
  change (d.functions.set i f).map Function.name = _
  obtain ⟨hi, rfl⟩ := List.getElem?_eq_some_iff.1 hknown
  rw [List.map_set, ← hname, ← List.getElem_map Function.name (h := by simpa using hi),
    List.set_getElem_self]

/-! ## One declaration -/

/-- **What a declaration does**, on a table whose index is in step. A new name goes to the
end, a definition takes the place of a prototype, and a later prototype changes nothing.
Refused are another number of parameters and a second definition. -/
theorem InStep.declare_cases (h : d.InStep) (f : Function) :
    (d.find? f.name = none ∧ declare f d = .ok () (d.add f)) ∨
      ∃ i known, d.functions[i]? = some known ∧ known.name = f.name ∧
        d.find? f.name = some known ∧
        ((known.arity ≠ f.arity ∧
            declare f d = .error (.conflicting f.name known.arity f.arity) d) ∨
          (known.arity = f.arity ∧ known.isDefined = true ∧ f.isDefined = true ∧
            declare f d = .error (.redefined f.name) d) ∨
          (known.arity = f.arity ∧ known.isDefined = false ∧ f.isDefined = true ∧
            declare f d = .ok () (d.replace i f)) ∨
          (known.arity = f.arity ∧ f.isDefined = false ∧ declare f d = .ok () d)) := by
  unfold declare
  rw [bind_ok (get_apply d)]
  cases hplace : d.place? f.name with
  | none => exact .inl ⟨h.place?_eq_none_iff.1 hplace, rfl⟩
  | some i =>
    obtain ⟨known, hknown, hname⟩ := (h _ i).1 hplace
    refine .inr ⟨i, known, hknown, hname, by simp [find?, hplace, hknown], ?_⟩
    simp only [hknown]
    by_cases harity : known.arity = f.arity
    · refine .inr ?_
      cases hdefined : known.isDefined <;> cases hf : f.isDefined <;>
        simp [harity, bind_apply]
    · exact .inl ⟨harity, by simp [harity, bind_apply]⟩

/-- **A declaration that is refused leaves the table as it was**, whatever the table. -/
theorem eq_of_declare_error {e : DeclarationError} (h : declare f d = .error e d') : d' = d := by
  unfold declare at h
  rw [bind_ok (get_apply d)] at h
  cases hplace : d.place? f.name with
  | none =>
    rw [hplace] at h
    cases h
  | some i =>
    rw [hplace] at h
    cases hknown : d.functions[i]? with
    | none =>
      simp only [hknown] at h
      cases h
      rfl
    | some known =>
      simp only [hknown] at h
      by_cases harity : known.arity = f.arity <;> cases hdefined : known.isDefined <;>
        cases hf : f.isDefined <;> simp [harity, hdefined, hf, bind_apply] at h <;>
        exact h.2.symm

/-- What is accepted. -/
theorem InStep.declare_ok (h : d.InStep) (hdeclare : declare f d = .ok () d') :
    (d.find? f.name = none ∧ d' = d.add f) ∨
      ∃ i known, d.functions[i]? = some known ∧ known.name = f.name ∧
        d.find? f.name = some known ∧ known.arity = f.arity ∧
        ((f.isDefined = true ∧ known.isDefined = false ∧ d' = d.replace i f) ∨
          (f.isDefined = false ∧ d' = d)) := by
  rcases h.declare_cases f with ⟨hnone, hrun⟩ | ⟨i, known, hknown, hname, hfind, hcases⟩
  · rw [hrun] at hdeclare
    cases hdeclare
    exact .inl ⟨hnone, rfl⟩
  · refine .inr ⟨i, known, hknown, hname, hfind, ?_⟩
    rcases hcases with ⟨-, hrun⟩ | ⟨-, -, -, hrun⟩ | ⟨harity, hproto, hf, hrun⟩ | ⟨harity, hf, hrun⟩
    all_goals
      rw [hrun] at hdeclare
      cases hdeclare
    · exact ⟨harity, .inl ⟨hf, hproto, rfl⟩⟩
    · exact ⟨harity, .inr ⟨hf, rfl⟩⟩

/-- **When a declaration is refused**, and why. -/
theorem InStep.declare_eq_error_iff (h : d.InStep) {e : DeclarationError} :
    declare f d = .error e d ↔
      ∃ known, d.find? f.name = some known ∧
        ((known.arity ≠ f.arity ∧ e = .conflicting f.name known.arity f.arity) ∨
          (known.arity = f.arity ∧ known.isDefined = true ∧ f.isDefined = true ∧
            e = .redefined f.name)) := by
  rcases h.declare_cases f with ⟨hnone, hrun⟩ | ⟨i, known, -, -, hfind, hcases⟩
  · simp [hrun, hnone]
  · simp only [hfind, Option.some.injEq, exists_eq_left']
    rcases hcases with ⟨harity, hrun⟩ | ⟨harity, hknown, hf, hrun⟩ | ⟨harity, hknown, hf, hrun⟩ |
      ⟨harity, hf, hrun⟩
    · simp [hrun, harity, @eq_comm _ e]
    · simp [hrun, harity, hknown, hf, @eq_comm _ e]
    · simp [hrun, harity, hknown]
    · simp [hrun, harity, hf]

/-- **A declaration keeps the index in step.** -/
theorem InStep.declare (h : d.InStep) (hdeclare : declare f d = .ok () d') : d'.InStep := by
  rcases h.declare_ok hdeclare with
    ⟨hnone, rfl⟩ | ⟨i, known, hknown, hname, -, -, ⟨-, -, rfl⟩ | ⟨-, rfl⟩⟩
  · exact h.add hnone
  · exact h.replace hknown hname
  · exact h

/-- A declaration adds the function or takes the place of its prototype, and a definition
stays: no other one can take its place. -/
theorem InStep.mem_of_declare (h : d.InStep) (hdeclare : Declarations.declare f d = .ok () d') :
    (∀ g ∈ d'.functions, g ∈ d.functions ∨ g = f) ∧
      (∀ g ∈ d.functions, g.isDefined = true → g ∈ d'.functions) ∧
      (f.isDefined = true → f ∈ d'.functions) := by
  rcases h.declare_ok hdeclare with
    ⟨-, rfl⟩ | ⟨i, known, hknown, -, -, -, ⟨-, hproto, rfl⟩ | ⟨hf, rfl⟩⟩
  · exact ⟨fun g hg => by simpa [Declarations.add] using hg,
      fun g hg _ => List.mem_append_left _ hg, fun _ => by simp [Declarations.add]⟩
  · have hi := (List.getElem?_eq_some_iff.1 hknown).1
    refine ⟨fun g hg => List.mem_or_eq_of_mem_set hg, fun g hg hgdefined => ?_,
      fun _ => List.mem_set hi f⟩
    obtain ⟨j, hj⟩ := List.mem_iff_getElem?.1 hg
    have hij : i ≠ j := by
      rintro rfl
      rw [hknown] at hj
      cases hj
      exact Bool.false_ne_true (hproto.symm.trans hgdefined)
    exact List.mem_iff_getElem?.2 ⟨j, by rw [← hj]; exact List.getElem?_set_ne hij⟩
  · exact ⟨fun g hg => .inl hg, fun g hg _ => hg,
      fun hdefined => absurd (hf.symm.trans hdefined) Bool.false_ne_true⟩

/-- **Declarations in a row**, all of which are accepted. All functions come from them, and
all definitions stay. -/
theorem InStep.forM_declare_ok {fs : List Function} (h : d.InStep)
    (hrun : (fs.forM Declarations.declare : EStateM _ _ _) d = .ok () d') :
    d'.InStep ∧ (∀ g ∈ d'.functions, g ∈ d.functions ∨ g ∈ fs) ∧
      ∀ g, g ∈ d.functions ∨ g ∈ fs → g.isDefined = true → g ∈ d'.functions := by
  induction fs generalizing d with
  | nil =>
    cases hrun
    exact ⟨h, fun g hg => .inl hg, fun g hg _ => hg.elim id nofun⟩
  | cons f fs ih =>
    obtain ⟨_, d₁, hdeclare, hrun⟩ := bind_eq_ok.1 hrun
    obtain ⟨hfrom, hstays, hadded⟩ := h.mem_of_declare hdeclare
    obtain ⟨h', hmem, hdefined⟩ := ih (h.declare hdeclare) hrun
    refine ⟨h', fun g hg => ?_, fun g hg hgdefined => ?_⟩
    · rcases hmem g hg with hg | hg
      · refine (hfrom g hg).imp_right ?_
        rintro rfl
        exact List.mem_cons_self
      · exact .inr (List.mem_cons_of_mem _ hg)
    · refine hdefined g ?_ hgdefined
      rcases hg with hg | hg
      · exact .inl (hstays g hg hgdefined)
      · rcases List.mem_cons.1 hg with rfl | hg
        · exact .inl (hadded hgdefined)
        · exact .inr hg

/-! ## What is to be kept -/

/-- The function defines `name`. -/
def defines (name : String) (f : Function) : Bool :=
  f.name = name && f.isDefined

/-- What is to be kept of declarations under a name: the definition, or else the first
prototype. -/
def kept (fs : List Function) (name : String) : Option Function :=
  (fs.find? (defines name)).or (fs.find? fun f => f.name = name)

theorem kept_eq_none_iff {fs : List Function} {name : String} :
    kept fs name = none ↔ ∀ f ∈ fs, f.name ≠ name := by
  simp only [kept, Option.or_eq_none_iff, List.find?_eq_none, defines, Bool.and_eq_true,
    decide_eq_true_eq, not_and]
  exact ⟨fun h => h.2, fun h => ⟨fun f hf hname => absurd hname (h f hf), h⟩⟩

theorem mem_of_kept {fs : List Function} {name : String} {f : Function}
    (h : kept fs name = some f) : f ∈ fs ∧ f.name = name := by
  rcases Option.or_eq_some_iff.1 h with hfound | ⟨-, hfound⟩
  · have hdefines : f.name = name ∧ f.isDefined = true := by
      simpa [defines] using List.find?_some hfound
    exact ⟨List.mem_of_find?_eq_some hfound, hdefines.1⟩
  · exact ⟨List.mem_of_find?_eq_some hfound, by simpa using List.find?_some hfound⟩

/-- A declaration of another name changes nothing. -/
theorem kept_append_of_ne {f : Function} {name : String} (h : f.name ≠ name)
    (fs : List Function) : kept (fs ++ [f]) name = kept fs name := by
  simp [kept, defines, h, List.find?_append]

/-- The first declaration of a name is kept. -/
theorem kept_append_of_none {fs : List Function} {f : Function} (h : kept fs f.name = none) :
    kept (fs ++ [f]) f.name = some f := by
  obtain ⟨hdefines, hnamed⟩ := Option.or_eq_none_iff.1 h
  rw [kept, List.find?_append, List.find?_append, hdefines, hnamed]
  cases hf : f.isDefined <;> simp [defines, hf]

/-- There is no definition among declarations of which a prototype is kept. -/
theorem find?_defines_eq_none {fs : List Function} {name : String} {g : Function}
    (h : kept fs name = some g) (hg : g.isDefined = false) : fs.find? (defines name) = none := by
  cases hfound : fs.find? (defines name) with
  | none => rfl
  | some g' =>
    rw [kept, hfound, Option.some_or] at h
    cases h
    have hdefines := List.find?_some hfound
    rw [defines, hg, Bool.and_false] at hdefines
    cases hdefines

/-- A definition is kept in place of a prototype. -/
theorem kept_append_of_prototype {fs : List Function} {f g : Function}
    (h : kept fs f.name = some g) (hg : g.isDefined = false) (hf : f.isDefined = true) :
    kept (fs ++ [f]) f.name = some f := by
  rw [kept, List.find?_append, find?_defines_eq_none h hg]
  simp [defines, hf]

/-- A later prototype is not kept. -/
theorem kept_append_prototype {fs : List Function} {f g : Function}
    (h : kept fs f.name = some g) (hf : f.isDefined = false) :
    kept (fs ++ [f]) f.name = some g := by
  have hnone : List.find? (defines f.name) [f] = none := by simp [defines, hf]
  rw [kept, List.find?_append, List.find?_append, hnone, Option.or_none, ← Option.or_assoc]
  change (kept fs f.name).or _ = _
  rw [h, Option.some_or]

/-! ## Histories -/

/-- The table after an attempt to declare `f`, as it is handed back in either case. -/
def attempt (d : Declarations) (f : Function) : Declarations :=
  match declare f d with
  | .ok _ d' => d'
  | .error _ d' => d'

/-- The table after declarations in order. -/
def declareAll (fs : List Function) : Declarations :=
  fs.foldl attempt {}

/-- The declarations among `fs` that are accepted, from table `d` on. -/
def acceptedFrom (d : Declarations) : List Function → List Function
  | [] => []
  | f :: fs =>
    match declare f d with
    | .ok _ d' => f :: acceptedFrom d' fs
    | .error _ d' => acceptedFrom d' fs

/-- The declarations that are accepted, from an empty table on. -/
def accepted (fs : List Function) : List Function :=
  acceptedFrom {} fs

/-- **The table `d` records the declarations `fs`**, all of which were accepted. -/
structure Records (d : Declarations) (fs : List Function) : Prop where
  inStep : d.InStep
  names : d.functions.map Function.name = (fs.map Function.name).eraseDups
  find? : ∀ name, d.find? name = kept fs name
  arity : ∀ f ∈ fs, ∃ g, d.find? f.name = some g ∧ g.arity = f.arity
  once : ∀ name, fs.countP (defines name) ≤ 1

namespace Records

variable {d d' : Declarations} {fs : List Function} {f : Function}

theorem empty : Records {} [] :=
  ⟨.empty, rfl, fun _ => rfl, nofun, fun _ => Nat.zero_le 1⟩

/-- A name that the table does not have goes to the end of the names. -/
theorem names_of_none (h : Records d fs) (hnone : d.find? f.name = none) :
    (d.functions ++ [f]).map Function.name = ((fs ++ [f]).map Function.name).eraseDups := by
  have hnew : f.name ∉ fs.map Function.name := by
    rw [h.find?] at hnone
    simpa using fun g hg => kept_eq_none_iff.1 hnone g hg
  have hrest : [f.name].removeAll (fs.map Function.name) = [f.name] :=
    List.filter_eq_self.2 fun name hname => by
      rw [List.mem_singleton.1 hname]
      simpa using hnew
  rw [List.map_append, List.map_append, List.eraseDups_append, h.names, List.map_singleton, hrest]
  rfl

/-- A name that the table has is in the names already. -/
theorem names_of_some {known : Function} (h : Records d fs) (hknown : d.find? f.name = some known) :
    d.functions.map Function.name = ((fs ++ [f]).map Function.name).eraseDups := by
  have hold : f.name ∈ fs.map Function.name := by
    by_contra hnew
    have hnone : kept fs f.name = none :=
      kept_eq_none_iff.2 fun g hg heq => hnew (heq ▸ List.mem_map_of_mem hg)
    rw [h.find?, hnone] at hknown
    cases hknown
  have hrest : [f.name].removeAll (fs.map Function.name) = [] :=
    List.filter_eq_nil_iff.2 fun name hname => by
      rw [List.mem_singleton.1 hname]
      simpa using hold
  rw [List.map_append, List.eraseDups_append, h.names, List.map_singleton, hrest]
  exact (List.append_nil _).symm

/-- A name is defined once if what was kept of it before was no definition. -/
theorem once_append (h : Records d fs)
    (hf : f.isDefined = true → fs.find? (defines f.name) = none) (name : String) :
    (fs ++ [f]).countP (defines name) ≤ 1 := by
  rw [List.countP_append]
  by_cases hdefines : defines name f = true
  · obtain ⟨rfl, hdefined⟩ : f.name = name ∧ f.isDefined = true := by simpa [defines] using hdefines
    have hzero : fs.countP (defines f.name) = 0 :=
      List.countP_eq_zero.2 (List.find?_eq_none.1 (hf hdefined))
    rw [hzero, List.countP_singleton, if_pos hdefines]
  · rw [List.countP_singleton, if_neg hdefines]
    exact h.once name

/-- The table finds what is to be kept, if under the name of `f` it finds that. -/
theorem find?_append (h : Records d fs) {g : Function}
    (hfinds : ∀ name, d'.find? name = if name = f.name then some g else d.find? name)
    (hkept : kept (fs ++ [f]) f.name = some g) (name : String) :
    d'.find? name = kept (fs ++ [f]) name := by
  rw [hfinds]
  split
  · next hname => rw [hname, hkept]
  · next hname => rw [h.find?, kept_append_of_ne (Ne.symm hname)]

/-- The table still knows every name, with the number of parameters it had. -/
theorem arity_append (h : Records d fs) {g : Function}
    (hfinds : ∀ name, d'.find? name = if name = f.name then some g else d.find? name)
    (hg : g.arity = f.arity) (hold : ∀ k, d.find? f.name = some k → k.arity = f.arity) :
    ∀ g' ∈ fs ++ [f], ∃ k, d'.find? g'.name = some k ∧ k.arity = g'.arity := by
  intro g' hg'
  rw [hfinds]
  rcases List.mem_append.1 hg' with hg' | hg'
  · obtain ⟨k, hk, hkarity⟩ := h.arity g' hg'
    split
    · next hname =>
      have hkold := hold k (hname ▸ hk)
      exact ⟨g, rfl, hg.trans (hkold.symm.trans hkarity)⟩
    · exact ⟨k, hk, hkarity⟩
  · rw [List.mem_singleton.1 hg', if_pos rfl]
    exact ⟨g, rfl, hg⟩

/-- **A declaration that is accepted is recorded.** -/
theorem declare (h : Records d fs) (hdeclare : declare f d = .ok () d') :
    Records d' (fs ++ [f]) := by
  have hinStep := h.inStep.declare hdeclare
  obtain ⟨hnone, rfl⟩ | ⟨i, known, hknown, hname, hfound, harity, ⟨hf, hproto, rfl⟩ | ⟨hf, rfl⟩⟩ :=
    h.inStep.declare_ok hdeclare
  · have hkept : kept fs f.name = none := (h.find? f.name).symm.trans hnone
    have hfinds := h.inStep.find?_add f
    exact ⟨hinStep, h.names_of_none hnone, h.find?_append hfinds (kept_append_of_none hkept),
      h.arity_append hfinds rfl (by simp [hnone]),
      h.once_append fun _ => (Option.or_eq_none_iff.1 hkept).1⟩
  · have hkept : kept fs f.name = some known := (h.find? f.name).symm.trans hfound
    have hfinds := h.inStep.find?_replace hknown hname
    exact ⟨hinStep, (names_replace hknown hname).trans (h.names_of_some hfound),
      h.find?_append hfinds (kept_append_of_prototype hkept hproto hf),
      h.arity_append hfinds rfl (by simp [hfound, harity]),
      h.once_append fun _ => find?_defines_eq_none hkept hproto⟩
  · -- a later prototype leaves what is found
    have hkept : kept fs f.name = some known := (h.find? f.name).symm.trans hfound
    have hfinds : ∀ name, d'.find? name = if name = f.name then some known else d'.find? name := by
      intro name
      split
      · next heq => rw [heq, hfound]
      · rfl
    refine ⟨hinStep, h.names_of_some hfound,
      h.find?_append hfinds (kept_append_prototype hkept hf),
      h.arity_append hfinds harity (by simp [hfound, harity]), h.once_append fun hdefined => ?_⟩
    rw [hf] at hdefined
    cases hdefined

/-- What declarations in a row add to a record. -/
theorem foldl_attempt (h : Records d fs) (fs' : List Function) :
    Records (fs'.foldl attempt d) (fs ++ d.acceptedFrom fs') := by
  induction fs' generalizing d fs with
  | nil => simpa [acceptedFrom] using h
  | cons f fs' ih =>
    rw [List.foldl_cons, acceptedFrom, attempt]
    cases hdeclare : Declarations.declare f d with
    | error e d' =>
      -- the table that is handed back with a refusal is the old one
      obtain rfl := eq_of_declare_error hdeclare
      exact ih h
    | ok _ d' => simpa using ih (h.declare hdeclare)

/-- **When a declaration is refused**, in terms of those accepted before. -/
theorem refuses_iff (h : Records d fs) (f : Function) :
    (∃ e d', Declarations.declare f d = .error e d') ↔
      (∃ g, d.find? f.name = some g ∧ g.arity ≠ f.arity) ∨
      (f.isDefined = true ∧ ∃ g ∈ fs, defines f.name g = true) := by
  constructor
  · rintro ⟨e, d', herror⟩
    obtain rfl := eq_of_declare_error herror
    obtain ⟨known, hknown, ⟨harity, -⟩ | ⟨-, hdefined, hf, -⟩⟩ :=
      h.inStep.declare_eq_error_iff.1 herror
    · exact .inl ⟨known, hknown, harity⟩
    · obtain ⟨hmem, hname⟩ := mem_of_kept ((h.find? f.name).symm.trans hknown)
      exact .inr ⟨hf, known, hmem, by simp [defines, hname, hdefined]⟩
  · rintro (⟨g, hg, harity⟩ | ⟨hf, g, hg, hdefines⟩)
    · exact ⟨_, d, h.inStep.declare_eq_error_iff.2 ⟨g, hg, .inl ⟨harity, rfl⟩⟩⟩
    · -- the table has a definition, since one was accepted
      obtain ⟨g', hg'⟩ := Option.isSome_iff_exists.1
        (List.find?_isSome.2 ⟨g, hg, hdefines⟩)
      have hfind : d.find? f.name = some g' := by rw [h.find?, kept, hg', Option.some_or]
      have hdefined : g'.name = f.name ∧ g'.isDefined = true := by
        simpa [defines] using List.find?_some hg'
      by_cases harity : g'.arity = f.arity
      · exact ⟨_, d, h.inStep.declare_eq_error_iff.2
          ⟨g', hfind, .inr ⟨harity, hdefined.2, hf, rfl⟩⟩⟩
      · exact ⟨_, d, h.inStep.declare_eq_error_iff.2 ⟨g', hfind, .inl ⟨harity, rfl⟩⟩⟩

end Records

/-- **After any declarations the table records those that were accepted.** -/
theorem records_declareAll (fs : List Function) : Records (declareAll fs) (accepted fs) :=
  Records.empty.foldl_attempt fs

/-- **No function is lost and none is there twice**, whatever is declared in whatever order.
The index is in step with the functions. They have distinct names, in the order in which the
names were first accepted, and each is found under its name. What was accepted under one name
agrees in the number of parameters and has one definition at most, and the table has that
definition or else the first prototype. A declaration is refused just if its number of
parameters is not that of the function in the table, or if it defines a name that has been
defined; the table that is handed back is then the same as before. -/
theorem declareAll_faithful (fs : List Function) :
    (declareAll fs).InStep ∧
    ((declareAll fs).functions.map Function.name).Nodup ∧
    (declareAll fs).functions.map Function.name = ((accepted fs).map Function.name).eraseDups ∧
    (∀ name f, (declareAll fs).find? name = some f ↔
      f ∈ (declareAll fs).functions ∧ f.name = name) ∧
    (∀ f ∈ accepted fs, ∀ g ∈ accepted fs, f.name = g.name → f.arity = g.arity) ∧
    (∀ name, (accepted fs).countP (defines name) ≤ 1) ∧
    (∀ name, (declareAll fs).find? name =
      ((accepted fs).find? (defines name)).or ((accepted fs).find? fun f => f.name = name)) ∧
    (∀ f, (∃ e d, declare f (declareAll fs) = .error e d) ↔
      (∃ g, (declareAll fs).find? f.name = some g ∧ g.arity ≠ f.arity) ∨
      (f.isDefined = true ∧ ∃ g ∈ accepted fs, defines f.name g = true)) ∧
    (∀ f e d, declare f (declareAll fs) = .error e d → d = declareAll fs) := by
  have h := records_declareAll fs
  refine ⟨h.inStep, h.inStep.distinct, h.names, fun name f => h.inStep.find?_eq_some_iff, ?_,
    h.once, h.find?, h.refuses_iff, fun f e d => eq_of_declare_error⟩
  -- both have the count that the table keeps under their name
  intro f hf g hg hname
  obtain ⟨k, hk, hkf⟩ := h.arity f hf
  obtain ⟨k', hk', hkg⟩ := h.arity g hg
  rw [hname, hk'] at hk
  cases hk
  exact hkf.symm.trans hkg

end Declarations

end WordC
