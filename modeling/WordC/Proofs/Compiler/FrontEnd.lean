import Mathlib
import WordC.Compiler
import WordC.Proofs.Log
import WordC.Proofs.SourceUnit.Check
/-!
# The front end

Reading a source unit does not depend on what has been noted before it, so the
outcome of the front end is that of its stages in a row (`frontEnd_value`). Of the
units that can be read it accepts those with well declared programs
(`frontEnd_eq_ok_iff_wellDeclared`).
-/

namespace WordC

open Logged

/-! ## The stages in a row -/

theorem SourceUnit.steady_readItems (limit : Nat) (s : ReadState) :
    Steady (readItems limit s) := by
  induction limit generalizing s with
  | zero => exact steady_throw _
  | succ limit ih =>
    rw [readItems]
    refine (steady_ofExcept _).bind fun r => ?_
    split
    · exact steady_pure _
    · refine (steady_ofExcept _).bind fun r => ?_
      split
      dsimp only
      split
      · exact (steady_note _ _).bind fun _ => (steady_ofExcept _).bind fun _ => ih _
      · exact (steady_ofExcept _).bind fun _ => ih _

theorem SourceUnit.steady_read (tokens : List PlacedToken) : Steady (read tokens) :=
  (steady_readItems _ _).bind fun _ => steady_pure _

theorem tokens_value (source : String) : (tokens source).value = (scan source).mapError .scan := by
  unfold tokens
  rw [value_bind, value_ofExcept]
  · cases scan source with
    | error e => rfl
    | ok ts => rfl
  · exact fun _ => (steady_note _ _).bind fun _ => steady_pure _

theorem sourceUnit_value (source : String) :
    (sourceUnit source).value =
      ((scan source).mapError Error.scan).bind fun tokens =>
        (SourceUnit.parse tokens).mapError .grammar := by
  unfold sourceUnit
  rw [value_bind fun tokens => (SourceUnit.steady_read tokens).mapError _, tokens_value]
  simp only [value_mapError]
  rfl

/-- What the checks make of a unit. -/
def SourceUnit.verdict (u : SourceUnit) (library : List LibraryFunction) : Except Error Program :=
  match u.check library with
  | [] => .ok u.program
  | first :: _ => .error (.check first)

/-- **What the front end does with a unit that can be read.** -/
theorem frontEnd_value (settings : Settings) (source : String) :
    (frontEnd settings source).value =
      (((scan source).mapError Error.scan).bind fun tokens =>
        (SourceUnit.parse tokens).mapError .grammar).bind fun u => u.verdict settings.library := by
  -- what follows the reader writes notes whatever it is given, so notes do not decide the value
  have hrest (u : SourceUnit) (library : List LibraryFunction) :
      Steady (match u.check library with
        | [] => pure u.program
        | first :: others => do
          others.forM fun e => Logged.note .debug s!"also: {e.message}"
          throw (.check first) : Compile Program) := by
    split
    · exact steady_pure _
    · exact (steady_forM fun _ => steady_note _ _).bind fun _ => steady_throw _
  unfold frontEnd
  dsimp only
  rw [value_bind, sourceUnit_value]
  · congr 1
    funext u
    refine (value_bind fun _ => hrest u _).trans ?_
    unfold SourceUnit.verdict
    cases u.check settings.library with
    | nil => rfl
    | cons first others =>
      change Logged.value (List.forM others _ >>= fun _ => throw _) = _
      rw [value_bind fun _ => steady_throw _, value_forM (fun _ => steady_note _ _) fun _ => rfl]
      rfl
  · exact fun u => (steady_note _ _).bind fun _ => hrest u _

/-- **What the front end accepts.** -/
theorem frontEnd_eq_ok {settings : Settings} {source : String} {p : Program} :
    (frontEnd settings source).value = .ok p ↔ ∃ tokens u, scan source = .ok tokens ∧
      SourceUnit.parse tokens = .ok u ∧ u.check settings.library = [] ∧ u.program = p := by
  rw [frontEnd_value]
  cases hscan : scan source with
  | error e => simp [Except.mapError, Except.bind]
  | ok tokens =>
    cases hparse : SourceUnit.parse tokens with
    | error e => simp [Except.mapError, Except.bind, hparse]
    | ok u =>
      have hverdict : u.verdict settings.library = .ok p ↔
          u.check settings.library = [] ∧ u.program = p := by
        unfold SourceUnit.verdict
        cases u.check settings.library with
        | nil => simp
        | cons first others => simp
      simp [Except.mapError, Except.bind, hparse, hverdict]

/-- **The front end accepts the programs that are well declared**, and yields them as
they have been read. -/
theorem frontEnd_eq_ok_iff_wellDeclared {settings : Settings} {source : String}
    {tokens : List PlacedToken} {u : SourceUnit} (hscan : scan source = .ok tokens)
    (hparse : SourceUnit.parse tokens = .ok u) (p : Program) :
    (frontEnd settings source).value = .ok p ↔
      u.program.WellDeclared settings.library ∧ p = u.program := by
  obtain ⟨items, hitems⟩ := SourceUnit.parse_writtenAs hparse
  rw [frontEnd_eq_ok, ← hitems.check_eq_nil_iff]
  constructor
  · rintro ⟨tokens', u', hscan', hparse', hcheck, rfl⟩
    obtain rfl : tokens' = tokens := Except.ok.inj (hscan'.symm.trans hscan)
    obtain rfl : u' = u := Except.ok.inj (hparse'.symm.trans hparse)
    exact ⟨hcheck, rfl⟩
  · rintro ⟨hcheck, rfl⟩
    exact ⟨tokens, u, hscan, hparse, hcheck, rfl⟩

/-- Calls of a library function, one of them inside another, in an initialiser and in
a condition. -/
def libraryCallsText : String :=
  "int put(int c); int main() { int x = put(put(7)); while (put(x)) x = x - 1; return x; }"

theorem frontEnd_libraryCallsText : ∃ tokens u, scan libraryCallsText = .ok tokens ∧
    SourceUnit.parse tokens = .ok u ∧ u.program.WellDeclared [⟨"put", 1⟩] ∧
    (frontEnd { library := [⟨"put", 1⟩] } libraryCallsText).value = .ok u.program := by
  have hreads : SourceUnit.reads libraryCallsText (fun u => u.check [⟨"put", 1⟩] = []) = true := by
    decide +kernel
  obtain ⟨tokens, u, hscan, hparse, hcheck⟩ := SourceUnit.exists_of_reads hreads
  have hvalue : (frontEnd { library := [⟨"put", 1⟩] } libraryCallsText).value = .ok u.program :=
    frontEnd_eq_ok.2 ⟨tokens, u, hscan, hparse, of_decide_eq_true hcheck, rfl⟩
  exact ⟨tokens, u, hscan, hparse,
    ((frontEnd_eq_ok_iff_wellDeclared hscan hparse u.program).1 hvalue).1, hvalue⟩

end WordC
