import Mathlib
import WordC.Proofs.Expression.Steps
/-!
# The language of the builder

The builder takes exactly the expressions of the grammar, and hands out the
linear form of the one tree that such an expression has.
-/

namespace WordC

variable {scopes : Scopes}

namespace Draft

/-- The operators of a draft that has read tokens are sound. -/
theorem Reads.sound {ts : List Token} {d : Draft} (h : Reads scopes ts d) :
    ∀ w ∈ d.waiting, w.Sound := by
  obtain ⟨_, us, _, -, -, hws, -⟩ := h
  exact hws.sound

/-- A row of tokens has one tree at most: the drafts that read it agree. -/
theorem derives_unique {ts : List Token} {e e' : Expr} (h : Derives scopes 0 ts e)
    (h' : Derives scopes 0 ts e') : e = e' := by
  obtain ⟨d, hd, he⟩ := complete_of_derives h
  obtain ⟨d', hd', he'⟩ := complete_of_derives h'
  rw [hd] at hd'
  cases hd'
  rw [he] at he'
  cases he'
  rfl

end Draft

namespace Builder

/-- **Tokens take the builder of a draft where they take the draft.** -/
theorem addTokens_builder (ts : List Token) {us : List Token} {d : Draft}
    (hd : d.Reads scopes us) :
    Agrees ((ts.forM (addToken scopes) : Build Unit) d.builder) (Draft.run scopes ts d) := by
  induction ts generalizing us d with
  | nil => rfl
  | cons t ts ih =>
    have ht := addToken_builder scopes t hd.sound
    rw [Draft.run]
    cases hstep : d.step scopes t with
    | none =>
      rw [hstep] at ht
      obtain ⟨x, b, ht⟩ := ht
      exact ⟨x, b, bind_error ht⟩
    | some d' =>
      rw [hstep] at ht
      rw [forM_cons_ok ht]
      exact ih (hd.step hstep)

/-- The builder behind a row of tokens that it has taken is that of a draft. -/
theorem exists_draft_of_addTokens {ts : List Token} {b : Builder}
    (h : (ts.forM (addToken scopes) : Build Unit) {} = .ok () b) :
    ∃ d, d.builder = b ∧ Draft.run scopes ts {} = some d := by
  have hagrees := addTokens_builder ts (Draft.reads_start : Draft.Reads scopes [] {})
  rw [Draft.builder_start, h] at hagrees
  cases hrun : Draft.run scopes ts {} with
  | none =>
    rw [hrun] at hagrees
    obtain ⟨_, _, hagrees⟩ := hagrees
    cases hagrees
  | some d =>
    rw [hrun] at hagrees
    cases hagrees
    exact ⟨d, rfl, rfl⟩

/-- Takes the tokens of an expression and ends it. -/
def readExpression (scopes : Scopes) (ts : List Token) : Build Code := do
  ts.forM (addToken scopes)
  finish

/-- The builder hands out the linear form of a tree of the grammar. -/
theorem readExpression_of_derives {ts : List Token} {e : Expr} (h : Derives scopes 0 ts e) :
    readExpression scopes ts {} = .ok e.linear {} := by
  obtain ⟨d, hrun, he⟩ := Draft.complete_of_derives h
  have htokens := addTokens_builder ts (Draft.reads_start : Draft.Reads scopes [] {})
  rw [hrun, Draft.builder_start] at htokens
  exact (bind_ok htokens).trans (finish_builder (Draft.reads_start.run hrun).sound he)

/-- What the builder hands out comes from a tree of the grammar. -/
theorem derives_of_readExpression {ts : List Token} {code : Code} {b : Builder}
    (h : readExpression scopes ts {} = .ok code b) : ∃ e, Derives scopes 0 ts e := by
  obtain ⟨_, b₁, htokens, hfinish⟩ := bind_eq_ok.1 h
  obtain ⟨d, rfl, hrun⟩ := exists_draft_of_addTokens htokens
  cases he : d.complete? with
  | none =>
    obtain ⟨x, b', herror⟩ := finish_builder_error he
    rw [herror] at hfinish
    cases hfinish
  | some e => exact ⟨e, Draft.derives_of_complete hrun he⟩

/-- **The builder reads the grammar.** From a fresh builder, all tokens are
taken and the expression ends exactly when they are an expression of the
grammar. What is handed out is the linear form of its tree, the builder is
fresh again, and there is no second tree. -/
theorem readExpression_eq_ok_iff (scopes : Scopes) (ts : List Token) (code : Code) (b : Builder) :
    (readExpression scopes ts {} = .ok code b ↔
      b = {} ∧ ∃ e, Derives scopes 0 ts e ∧ code = e.linear) ∧
    Set.Subsingleton {e | Derives scopes 0 ts e} := by
  refine ⟨⟨fun h => ?_, ?_⟩, fun e he e' he' => Draft.derives_unique he he'⟩
  · obtain ⟨e, he⟩ := derives_of_readExpression h
    rw [readExpression_of_derives he] at h
    cases h
    exact ⟨rfl, e, he, rfl⟩
  · rintro ⟨rfl, e, he, rfl⟩
    exact readExpression_of_derives he

end Builder

end WordC
