import Mathlib
import WordC.SourceUnit.Check
import WordC.Proofs.SourceUnit.Unit
/-!
# What the checks of a unit mean

The calls that were recorded while a unit was read are those in the bodies of its
functions (`SourceUnit.WrittenAs.mem_recorded_iff`), although they are recorded with
each expression and without regard to functions. So no check fails just if the
program is well declared (`SourceUnit.WrittenAs.check_eq_nil_iff`).
-/

namespace WordC

/-- A function of this name that takes this many arguments is in the program or in the
library. -/
def Program.Offers (p : Program) (library : List LibraryFunction) (name : String) (arity : Nat) :
    Prop :=
  (∃ f ∈ p.functions, f.name = name ∧ f.arity = arity) ∨ ⟨name, arity⟩ ∈ library

/-- **A program that is well declared** over a library. -/
structure Program.WellDeclared (p : Program) (library : List LibraryFunction) : Prop where
  calls : ∀ f ∈ p.functions, ∀ c, .operand (.result c) ∈ f.body.getD [] →
    p.Offers library c.name c.arity.toNat
  /-- The library agrees with the program. -/
  functions : ∀ l ∈ library, ∀ f ∈ p.functions, f.name = l.name → f.arity = l.arity
  /-- The library agrees with itself. -/
  library : ∀ l ∈ library, ∀ l' ∈ library, l'.name = l.name → l'.arity = l.arity
  main : ∃ f ∈ p.functions, f.name = "main" ∧ f.isDefined = true ∧ f.arity = 0

/-! ## Functions by name -/

section Lookup

variable {p : Program} {name : String} {arity : Nat}

theorem SourceUnit.lookup_unitArities (p : Program) (name : String) :
    (unitArities p).lookup name = (p.function? name).map Function.arity := by
  unfold unitArities Program.function?
  induction p.functions with
  | nil => rfl
  | cons f fs ih =>
    rw [List.map_cons, List.lookup_cons, List.find?_cons]
    by_cases hname : f.name = name
    · simp [hname]
    · have hne : (name == f.name) = false := beq_false_of_ne (Ne.symm hname)
      simpa [hname, hne] using ih

theorem SourceUnit.lookup_unitArities_eq_some_iff (h : (p.functions.map Function.name).Nodup) :
    (unitArities p).lookup name = some arity ↔
      ∃ f ∈ p.functions, f.name = name ∧ f.arity = arity := by
  rw [lookup_unitArities, Option.map_eq_some_iff]
  simp only [Program.function?, find?_name_eq_some_iff h, and_assoc]

end Lookup

namespace SourceUnit

/-! ## The library -/

variable {known : Arities} {library : List LibraryFunction} {name : String} {arity : Nat}

/-- A function that agrees with what is known adds nothing but itself. -/
theorem lookup_cons_eq_some_iff {f : LibraryFunction}
    (h : ∀ a, known.lookup f.name = some a → a = f.arity) :
    ((f.name, f.arity) :: known).lookup name = some arity ↔
      known.lookup name = some arity ∨ name = f.name ∧ arity = f.arity := by
  rw [List.lookup_cons]
  by_cases hname : name = f.name
  · subst hname
    rw [beq_self_eq_true]
    constructor
    · rintro ⟨⟩
      exact .inr ⟨rfl, rfl⟩
    · rintro (hknown | ⟨-, rfl⟩)
      · rw [h arity hknown]
      · rfl
  · simp [beq_false_of_ne hname, hname]

/-- A library function is added just if it agrees with what is known. -/
theorem addLibrary_cons_errors {f : LibraryFunction} {rest : List LibraryFunction} :
    (addLibrary known (f :: rest)).2 = [] ↔
      (∀ a, known.lookup f.name = some a → a = f.arity) ∧
        (addLibrary ((f.name, f.arity) :: known) rest).2 = [] := by
  rw [addLibrary]
  cases hfound : known.lookup f.name with
  | none => simp
  | some a =>
    by_cases ha : a = f.arity
    · simp [ha]
    · simp [ha]

/-- **The library is added without an error** just if it agrees with what is known and
with itself. -/
theorem addLibrary_errors_eq_nil_iff :
    (addLibrary known library).2 = [] ↔
      (∀ l ∈ library, ∀ a, known.lookup l.name = some a → a = l.arity) ∧
      ∀ l ∈ library, ∀ l' ∈ library, l'.name = l.name → l'.arity = l.arity := by
  induction library generalizing known with
  | nil => simp [addLibrary]
  | cons f rest ih =>
    rw [addLibrary_cons_errors, ih]
    constructor
    · rintro ⟨hf, hrest, hpairs⟩
      simp only [lookup_cons_eq_some_iff hf] at hrest
      -- the first entry is known to the others, so it is the one they are compared with
      have hfirst : ∀ l ∈ rest, l.name = f.name → f.arity = l.arity := fun l hl hname =>
        hrest l hl f.arity (.inr ⟨hname, rfl⟩)
      refine ⟨List.forall_mem_cons.2 ⟨hf, fun l hl a ha => hrest l hl a (.inl ha)⟩, ?_⟩
      refine List.forall_mem_cons.2 ⟨List.forall_mem_cons.2 ⟨fun _ => rfl, ?_⟩, fun l hl => ?_⟩
      · exact fun l hl hname => (hfirst l hl hname).symm
      · refine List.forall_mem_cons.2 ⟨fun hname => hfirst l hl hname.symm, hpairs l hl⟩
    · rintro ⟨hknown, hpairs⟩
      have hf := hknown f List.mem_cons_self
      refine ⟨hf, fun l hl a ha => ?_, fun l hl l' hl' => ?_⟩
      · rcases (lookup_cons_eq_some_iff hf).1 ha with ha | ⟨hname, rfl⟩
        · exact hknown l (List.mem_cons_of_mem _ hl) a ha
        · exact hpairs l (List.mem_cons_of_mem _ hl) f List.mem_cons_self hname.symm
      · exact hpairs l (List.mem_cons_of_mem _ hl) l' (List.mem_cons_of_mem _ hl')

/-- What is known then is what was known and the library. -/
theorem lookup_addLibrary (h : (addLibrary known library).2 = []) :
    (addLibrary known library).1.lookup name = some arity ↔
      known.lookup name = some arity ∨ ⟨name, arity⟩ ∈ library := by
  induction library generalizing known with
  | nil => simp [addLibrary]
  | cons f rest ih =>
    obtain ⟨hf, hrest⟩ := addLibrary_cons_errors.1 h
    have hadded : (addLibrary known (f :: rest)).1 =
        (addLibrary ((f.name, f.arity) :: known) rest).1 := by
      rw [addLibrary, if_neg]
      cases hfound : known.lookup f.name with
      | none => simp
      | some a => simp [hf a hfound]
    have hmem : (⟨name, arity⟩ : LibraryFunction) = f ↔ name = f.name ∧ arity = f.arity := by
      cases f
      simp
    rw [hadded, ih hrest, lookup_cons_eq_some_iff hf, List.mem_cons, hmem, or_assoc]

/-! ## Calls -/

section Calls

variable {p : Program} (hnames : (p.functions.map Function.name).Nodup)

include hnames

/-- The library agrees with the functions of the program and with itself. -/
theorem addLibrary_unitArities :
    (addLibrary (unitArities p) library).2 = [] ↔
      (∀ l ∈ library, ∀ f ∈ p.functions, f.name = l.name → f.arity = l.arity) ∧
      ∀ l ∈ library, ∀ l' ∈ library, l'.name = l.name → l'.arity = l.arity := by
  rw [addLibrary_errors_eq_nil_iff]
  simp only [lookup_unitArities_eq_some_iff hnames]
  refine and_congr_left' (forall₂_congr fun l _ => ⟨fun h f hf hname => ?_, ?_⟩)
  · exact h f.arity ⟨f, hf, hname, rfl⟩
  · rintro h _ ⟨f, hf, hname, rfl⟩
    exact h f hf hname

/-- A call passes its check just if it reaches a function. -/
theorem checkCall_eq_none_iff_offers (h : (addLibrary (unitArities p) library).2 = [])
    (call : CallSite) :
    checkCall (addLibrary (unitArities p) library).1 call = none ↔
      p.Offers library call.name call.arity := by
  have hnone : checkCall (addLibrary (unitArities p) library).1 call = none ↔
      (addLibrary (unitArities p) library).1.lookup call.name = some call.arity := by
    unfold checkCall
    cases (addLibrary (unitArities p) library).1.lookup call.name with
    | none => simp
    | some expected => simp
  rw [hnone, lookup_addLibrary h, lookup_unitArities_eq_some_iff hnames]
  rfl

theorem checkMain_eq_none_iff :
    checkMain p = none ↔
      ∃ f ∈ p.functions, f.name = "main" ∧ f.isDefined = true ∧ f.arity = 0 := by
  have hfound (f : Function) : p.function? "main" = some f ↔ f ∈ p.functions ∧ f.name = "main" :=
    find?_name_eq_some_iff hnames
  unfold checkMain
  cases hmain : p.function? "main" with
  | none =>
    simp only [hmain, reduceCtorEq, false_iff] at hfound ⊢
    rintro ⟨f, hf, hname, -⟩
    exact hfound f ⟨hf, hname⟩
  | some g =>
    obtain ⟨hg, hname⟩ := (hfound g).1 hmain
    constructor
    · intro hnone
      refine ⟨g, hg, hname, ?_⟩
      by_cases hdefined : g.isDefined = true
      · simpa [hdefined] using hnone
      · simp [hdefined] at hnone
    · rintro ⟨f, hf, hname', hdefined, harity⟩
      -- names are declared once, so this is the function that was found
      obtain rfl : f = g := Option.some.inj (((hfound f).2 ⟨hf, hname'⟩).symm.trans hmain)
      simp [hdefined, harity]

end Calls

theorem mem_calls_iff {code : Code} {called : String × Nat} :
    called ∈ code.calls ↔
      ∃ c, .operand (.result c) ∈ code ∧ (c.name, c.arity.toNat) = called := by
  unfold Code.calls
  rw [List.mem_filterMap]
  constructor
  · rintro ⟨x, hx, hcalled⟩
    cases x with
    | operand o =>
      cases o with
      | result c => exact ⟨c, hx, Option.some.inj hcalled⟩
      | _ => cases hcalled
    | _ => cases hcalled
  · rintro ⟨c, hc, rfl⟩
    exact ⟨_, hc, rfl⟩

section Written

variable {tokens : List PlacedToken} {u : SourceUnit} {items : List Written.Item}

/-- **The calls that are recorded are those in the bodies** of the program. -/
theorem WrittenAs.mem_recorded_iff (h : WrittenAs tokens u items) {called : String × Nat} :
    called ∈ u.calls.map CallSite.called ↔ ∃ f ∈ u.program.functions, ∃ c,
      .operand (.result c) ∈ f.body.getD [] ∧ (c.name, c.arity.toNat) = called := by
  have hbodies (c : CallRef) :=
    h.exists_body_iff (x := .operand (.result c)) rfl (by simp [Code.one])
  rw [h.calls, List.mem_flatMap]
  constructor
  · rintro ⟨site, hsite, hcalled⟩
    obtain ⟨c, hc, hname⟩ := mem_calls_iff.1 hcalled
    obtain ⟨f, hf, hmem⟩ := (hbodies c).2 ⟨site, hsite, hc⟩
    exact ⟨f, hf, c, hmem, hname⟩
  · rintro ⟨f, hf, c, hmem, hname⟩
    obtain ⟨site, hsite, hc⟩ := (hbodies c).1 ⟨f, hf, hmem⟩
    exact ⟨site, hsite, mem_calls_iff.2 ⟨c, hc, hname⟩⟩

/-- All recorded calls reach a function just if all calls in bodies do. -/
theorem WrittenAs.forall_calls_iff (h : WrittenAs tokens u items) (P : String → Nat → Prop) :
    (∀ call ∈ u.calls, P call.name call.arity) ↔ ∀ f ∈ u.program.functions, ∀ c,
      .operand (.result c) ∈ f.body.getD [] → P c.name c.arity.toNat := by
  constructor
  · intro hall f hf c hc
    obtain ⟨call, hcall, heq⟩ := List.mem_map.1 (h.mem_recorded_iff.2 ⟨f, hf, c, hc, rfl⟩)
    obtain ⟨hname, harity⟩ := Prod.mk.inj heq
    rw [← hname, ← harity]
    exact hall call hcall
  · intro hall call hcall
    obtain ⟨f, hf, c, hc, heq⟩ := h.mem_recorded_iff.1 (List.mem_map_of_mem hcall)
    obtain ⟨hname, harity⟩ := Prod.mk.inj heq
    rw [← hname, ← harity]
    exact hall f hf c hc

/-- **No check fails** just if the program is well declared. -/
theorem WrittenAs.check_eq_nil_iff (h : WrittenAs tokens u items) (library : List LibraryFunction) :
    u.check library = [] ↔ u.program.WellDeclared library := by
  have hnames := h.readFrom.functionNames
  have hcalls := h.forall_calls_iff (u.program.Offers library)
  have hnil : u.check library = [] ↔ (addLibrary (unitArities u.program) library).2 = [] ∧
      (∀ call ∈ u.calls, checkCall (addLibrary (unitArities u.program) library).1 call = none) ∧
      checkMain u.program = none := by
    simp [check]
  rw [hnil]
  constructor
  · rintro ⟨hlibrary, hchecked, hmain⟩
    obtain ⟨hfunctions, hpairs⟩ := (addLibrary_unitArities hnames).1 hlibrary
    simp only [checkCall_eq_none_iff_offers hnames hlibrary] at hchecked
    exact ⟨hcalls.1 hchecked, hfunctions, hpairs, (checkMain_eq_none_iff hnames).1 hmain⟩
  · intro hwell
    have hlibrary := (addLibrary_unitArities hnames).2 ⟨hwell.functions, hwell.library⟩
    simp only [checkCall_eq_none_iff_offers hnames hlibrary]
    exact ⟨hlibrary, hcalls.2 hwell.calls, (checkMain_eq_none_iff hnames).2 hwell.main⟩

end Written

end SourceUnit

end WordC
