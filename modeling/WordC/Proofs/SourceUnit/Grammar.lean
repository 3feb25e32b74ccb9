import Mathlib
import WordC.Proofs.Expression.Language
/-!
# The grammar of source units

Each production of the grammar is a language of tokens: `*` is a row, `+` a choice
and `∗` a repetition. Statements stand inside statements, so theirs is the least
language that is closed under the forms a statement can have
(`Grammar.statement`). An expression is whatever the builder takes.

The productions of functions and units are over the language of what may stand
between the brackets of a function. `Grammar.params` is the list without a comma
at its end, `Grammar.openParams` allows one there.

That comma can be seen in the text: a word of the grammar over `params` has no
comma directly before a closing bracket (`Grammar.items_params_le_tidy`), and a
word of the grammar over `openParams` without such a comma is one over `params`
(`Grammar.mem_items_params`).
-/

namespace WordC

open Computability

namespace Grammar

/-! ## Productions -/

def token (t : Token) : Language Token :=
  {[t]}

/-- A token of a kind, whatever it holds. -/
def anyToken {α : Type} (make : α → Token) : Language Token :=
  {ts | ∃ a, ts = [make a]}

def symbol (s : Symbol) : Language Token :=
  token (.symbol s)

def reserved (word : Reserved) : Language Token :=
  token (.reserved word)

def optional (L : Language Token) : Language Token :=
  1 + L

/-- One or more, with commas between them. -/
def separated (L : Language Token) : Language Token :=
  L * (symbol .comma * L)∗

def bracketed (L : Language Token) : Language Token :=
  symbol .parenOpen * L * symbol .parenClose

/-- An expression, whatever is in scope. -/
def expr : Language Token :=
  {ts | ∃ Γ code b, Builder.readExpression Γ ts {} = .ok code b}

def literal : Language Token :=
  anyToken .integer + anyToken .truth + anyToken .char

/-- A type and a name. -/
def named : Language Token :=
  anyToken .type * (symbol .star)∗ * anyToken .ident

def declarator : Language Token :=
  (symbol .star)∗ * anyToken .ident *
    optional (symbol .squareOpen * anyToken .integer * symbol .squareClose) *
    optional (symbol .assign * expr)

def declaration : Language Token :=
  anyToken .type * separated declarator * symbol .semicolon

/-- Statements in braces. -/
def blockOf (S : Language Token) : Language Token :=
  symbol .braceOpen * S∗ * symbol .braceClose

/-- The body of a branch or a loop. -/
def bodyOf (S : Language Token) : Language Token :=
  blockOf S + S

/-- What follows the body of a branch. -/
def othersOf (S : Language Token) : Language Token :=
  (reserved .elseWord * reserved .ifWord * bracketed expr * bodyOf S)∗ *
    optional (reserved .elseWord * bodyOf S)

/-- The header of a counting loop, between its brackets. -/
def header : Language Token :=
  (declaration + optional expr * symbol .semicolon) * optional expr * symbol .semicolon *
    optional expr

/-- The forms of a statement. -/
inductive Form where
  | empty
  | declaration
  | expression
  | giveBack
  | leave
  | block
  | branch
  | loop
  | count

/-- A statement of a form, over the statements that may stand in it. -/
def Form.over (S : Language Token) : Form → Language Token
  | empty => symbol .semicolon
  | declaration => Grammar.declaration
  | expression => expr * symbol .semicolon
  | giveBack => reserved .returnWord * optional expr * symbol .semicolon
  | leave => reserved .breakWord * symbol .semicolon
  | block => blockOf S
  | branch => reserved .ifWord * bracketed expr * bodyOf S * othersOf S
  | loop => reserved .whileWord * bracketed expr * bodyOf S
  | count => reserved .forWord * bracketed header * bodyOf S

section Closure

variable {S T : Language Token}

theorem mem_token (t : Token) : [t] ∈ token t :=
  rfl

theorem mem_anyToken {α : Type} (make : α → Token) (a : α) : [make a] ∈ anyToken make :=
  ⟨a, rfl⟩

theorem cons_mem_token_mul {t : Token} {ts : List Token} (h : ts ∈ S) : t :: ts ∈ token t * S :=
  Language.append_mem_mul (mem_token t) h

theorem replicate_mem_kstar (n : Nat) (t : Token) : List.replicate n t ∈ (token t)∗ :=
  ⟨List.replicate n [t], by simp, fun _ h => List.eq_of_mem_replicate h⟩

theorem le_separated : S ≤ separated S := by
  unfold separated
  exact le_mul_of_one_le_right' one_le_kstar

/-- One more in front of a list. -/
theorem mul_comma_mul_separated_le : S * symbol .comma * separated S ≤ separated S := by
  unfold separated
  rw [mul_assoc, ← mul_assoc (symbol .comma)]
  gcongr
  exact mul_kstar_le_kstar

@[gcongr] theorem kstar_le_kstar (h : S ≤ T) : S∗ ≤ T∗ :=
  kstar_mono h

@[gcongr] theorem optional_le_optional (h : S ≤ T) : optional S ≤ optional T :=
  add_le_add_right h 1

@[gcongr] theorem blockOf_le_blockOf (h : S ≤ T) : blockOf S ≤ blockOf T := by
  unfold blockOf
  gcongr

@[gcongr] theorem bodyOf_le_bodyOf (h : S ≤ T) : bodyOf S ≤ bodyOf T := by
  unfold bodyOf
  gcongr

@[gcongr] theorem othersOf_le_othersOf (h : S ≤ T) : othersOf S ≤ othersOf T := by
  unfold othersOf
  gcongr

theorem Form.over_le_over (h : S ≤ T) (form : Form) : form.over S ≤ form.over T := by
  cases form with
  | empty | declaration | expression | giveBack | leave => exact le_rfl
  | block | branch | loop | count =>
    simp only [Form.over]
    gcongr

end Closure

/-- All forms of a statement, over the statements that may stand in it. -/
def forms : Language Token →o Language Token where
  toFun S := ⨆ form : Form, form.over S
  monotone' _ _ h := iSup_mono (Form.over_le_over h)

/-- **Statements**: the least language that is closed under all forms. -/
def statement : Language Token :=
  forms.lfp

/-- A statement of any form is a statement. -/
theorem over_statement_le (form : Form) : form.over statement ≤ statement :=
  (le_iSup (fun form : Form => form.over statement) form).trans forms.map_lfp.le

/-- A language that is closed under all forms holds all statements. -/
theorem statement_le {L : Language Token} (h : ∀ form : Form, form.over L ≤ L) : statement ≤ L :=
  forms.lfp_le (iSup_le h)

/-- Either a lone `void`, or types and names with commas between them. -/
def params : Language Token :=
  token (.type .void) + separated named

/-- As `params`, but a comma may stand behind the last name. -/
def openParams : Language Token :=
  params + separated named * symbol .comma

def global : Language Token :=
  named * optional (symbol .assign * optional (symbol .minus) * literal) * symbol .semicolon

/-- A function with a body, or a prototype. -/
def function (P : Language Token) : Language Token :=
  named * bracketed (optional P) * (blockOf statement + symbol .semicolon)

def items (P : Language Token) : Language Token :=
  (global + function P)∗

/-- **Source units**, with the end of the text behind them. -/
def program (P : Language Token) : Language Token :=
  items P * token .eof

@[simp] theorem mem_program {P : Language Token} {ts : List Token} :
    ts ++ [.eof] ∈ program P ↔ ts ∈ items P := by
  constructor
  · rintro ⟨us, hus, _, rfl, heq⟩
    rwa [List.append_cancel_right heq] at hus
  · intro h
    exact Language.append_mem_mul h rfl

/-! ## Commas before closing brackets -/

/-- **The tokens can stand anywhere in a text** without a comma coming to stand before a
closing bracket, and the text does not end among them. -/
structure Tidy (ts : List Token) : Prop where
  apart : ts.IsChain fun t u => ¬(t = .symbol .comma ∧ u = .symbol .parenClose)
  head : ts.head? ≠ some (.symbol .parenClose)
  last : ts.getLast? ≠ some (.symbol .comma)
  within : .eof ∉ ts

/-- A token that can stand anywhere. -/
def isPlain : Token → Bool
  | .symbol .comma | .symbol .parenClose | .eof => false
  | _ => true

namespace Tidy

variable {t : Token} {ts us : List Token}

theorem nil : Tidy [] :=
  ⟨.nil, by simp, by simp, by simp⟩

theorem singleton (ht : isPlain t = true) : Tidy [t] := by
  have hne : ∀ u, isPlain u = false → u ≠ t := by
    rintro u hu rfl
    exact absurd ht (hu ▸ Bool.false_ne_true)
  refine ⟨.singleton t, ?_, ?_, ?_⟩
  · simpa using (hne (.symbol .parenClose) rfl).symm
  · simpa using (hne (.symbol .comma) rfl).symm
  · simpa using hne .eof rfl

theorem append (h : Tidy ts) (h' : Tidy us) : Tidy (ts ++ us) where
  apart := by
    refine List.isChain_append.2 ⟨h.apart, h'.apart, ?_⟩
    rintro t ht u - ⟨rfl, -⟩
    exact h.last ht
  head := by
    cases ts with
    | nil => exact h'.head
    | cons t ts => exact h.head
  last := by
    rw [List.getLast?_append]
    cases hlast : us.getLast? with
    | none => exact h.last
    | some u =>
      rw [← hlast]
      simpa [hlast] using h'.last
  within := by
    rw [List.mem_append]
    exact not_or.2 ⟨h.within, h'.within⟩

theorem cons (ht : isPlain t = true) (h : Tidy ts) : Tidy (t :: ts) :=
  (singleton ht).append h

/-- Something must follow a comma. -/
theorem comma (h : Tidy ts) (hts : ts ≠ []) : Tidy (.symbol .comma :: ts) where
  apart := by
    refine List.isChain_cons.2 ⟨?_, h.apart⟩
    rintro u hu ⟨-, rfl⟩
    exact h.head hu
  head := by simp
  last := by
    rw [List.getLast?_cons_of_ne_nil hts]
    exact h.last
  within := by simpa using h.within

/-- Something must stand before a closing bracket. -/
theorem close (h : Tidy ts) (hts : ts ≠ []) : Tidy (ts ++ [.symbol .parenClose]) where
  apart := by
    refine List.isChain_append.2 ⟨h.apart, .singleton _, ?_⟩
    rintro t ht u - ⟨rfl, -⟩
    exact h.last ht
  head := by
    rw [List.head?_append_of_ne_nil _ hts]
    exact h.head
  last := by simp
  within := by simpa using h.within

theorem bracketed (h : Tidy ts) : Tidy (.symbol .parenOpen :: ts ++ [.symbol .parenClose]) :=
  (h.cons rfl).close (List.cons_ne_nil _ _)

/-- No comma stands before a closing bracket. -/
theorem not_factor (h : Tidy ts) : ¬[.symbol .comma, .symbol .parenClose] <:+: ts := by
  intro hfactor
  have hchain := h.apart.infix hfactor
  simp at hchain

end Tidy

def tidy : Language Token :=
  {ts | Tidy ts}

section Languages

variable {L M : Language Token}

theorem one_le_tidy : 1 ≤ tidy := by
  rintro ts rfl
  exact Tidy.nil

theorem mul_le_tidy (hL : L ≤ tidy) (hM : M ≤ tidy) : L * M ≤ tidy := by
  rintro _ ⟨ts, hts, us, hus, rfl⟩
  exact (hL hts).append (hM hus)

theorem kstar_le_tidy (hL : L ≤ tidy) : L∗ ≤ tidy :=
  kstar_le_of_mul_le_right one_le_tidy (mul_le_tidy hL le_rfl)

theorem optional_le_tidy (hL : L ≤ tidy) : optional L ≤ tidy :=
  add_le one_le_tidy hL

theorem token_le_tidy {t : Token} (ht : isPlain t = true) : token t ≤ tidy := by
  rintro ts rfl
  exact .singleton ht

theorem anyToken_le_tidy {α : Type} {make : α → Token} (h : ∀ a, isPlain (make a) = true) :
    anyToken make ≤ tidy := by
  rintro ts ⟨a, rfl⟩
  exact .singleton (h a)

theorem bracketed_le_tidy (hL : L ≤ tidy) : bracketed L ≤ tidy := by
  rintro _ ⟨_, ⟨_, rfl, ts, hts, rfl⟩, _, rfl, rfl⟩
  exact (hL hts).bracketed

theorem separated_le_tidy (hL : L ≤ tidy) (hnil : [] ∉ L) : separated L ≤ tidy := by
  refine mul_le_tidy hL (kstar_le_tidy ?_)
  rintro _ ⟨_, rfl, ts, hts, rfl⟩
  refine (hL hts).comma ?_
  rintro rfl
  exact hnil hts

end Languages

/-! ### Expressions -/

theorem isPlain_of_operator {t : Token} {op : Operator} (h : Operator.ofToken? t = some op) :
    isPlain t = true := by
  unfold isPlain
  split
  · cases h
  · cases h
  · cases h
  · rfl

end Grammar

open Grammar

theorem Derives.ne_nil {Γ : Scopes} {p : Nat} {ts : List Token} {e : Expr} :
    Derives Γ p ts e → ts ≠ []
  | .loosen h => h.ne_nil
  | .var _ | .integer | .truth | .char | .group _ | .callEmpty _ | .call _ _ => by simp
  | .index _ _ | .unary _ _ _ | .binary _ _ _ _ | .assign _ _ _ => by simp

theorem DerivesArguments.ne_nil {Γ : Scopes} {ts : List Token} {args : List Expr}
    (h : DerivesArguments Γ ts args) : ts ≠ [] := by
  cases h with
  | one h => exact h.ne_nil
  | more h hs => simp

mutual

/-- **In an expression, no comma stands before a closing bracket.** -/
theorem Derives.tidy {Γ : Scopes} {p : Nat} {ts : List Token} {e : Expr} :
    Derives Γ p ts e → Tidy ts
  | .var _ | .integer | .truth | .char => .singleton rfl
  | .group h => h.tidy.bracketed
  | .callEmpty _ => Tidy.nil.bracketed.cons rfl
  | .call _ h => h.tidy.bracketed.cons rfl
  | .index ha hb =>
    .append (ha.tidy.append (hb.tidy.cons rfl)) (.singleton rfl)
  | .unary ht _ h => h.tidy.cons (isPlain_of_operator ht)
  | .binary ht _ ha hb => ha.tidy.append (hb.tidy.cons (isPlain_of_operator ht))
  | .assign ha _ hb => ha.tidy.append (hb.tidy.cons rfl)
  | .loosen h => h.tidy

theorem DerivesArguments.tidy {Γ : Scopes} {ts : List Token} {args : List Expr} :
    DerivesArguments Γ ts args → Tidy ts
  | .one h => h.tidy
  | .more h hs => h.tidy.append (hs.tidy.comma hs.ne_nil)

end

/-- Tokens in front of the rest of a row, where the row begins with a name and `=`. -/
theorem eq_or_exists_of_append_eq {name : String} {t : Token} {ts us rest : List Token}
    (hts : ts ≠ []) (h : ts ++ t :: us = .ident name :: .symbol .assign :: rest) :
    t = .symbol .assign ∧ us = rest ∨ ∃ vs, ts = .ident name :: .symbol .assign :: vs := by
  match ts with
  | [_] =>
    simp only [List.cons_append, List.nil_append, List.cons.injEq] at h
    exact .inl h.2
  | _ :: _ :: vs =>
    simp only [List.cons_append, List.cons.injEq] at h
    obtain ⟨rfl, rfl, -⟩ := h
    exact .inr ⟨vs, rfl⟩

/-- **What is assigned to a name is an expression.** A row of tokens that begins with a
name and `=` can only be an assignment to that name. -/
theorem Derives.value_of_assign {Γ : Scopes} {p : Nat} {ts rest : List Token} {e : Expr}
    {name : String} : Derives Γ p ts e → ts = .ident name :: .symbol .assign :: rest →
      p = 0 ∧ ∃ value, Derives Γ 0 rest value
  | .var _, hts | .integer, hts | .truth, hts | .char, hts | .group _, hts | .callEmpty _, hts
  | .call _ _, hts => by
    simp at hts
  | .index ha _, hts => by
    -- the value before the bracket would be an assignment, which binds less tightly
    rw [List.append_assoc, List.cons_append] at hts
    obtain ⟨ht, -⟩ | ⟨vs, hvs⟩ := eq_or_exists_of_append_eq ha.ne_nil hts
    · cases ht
    · cases (ha.value_of_assign hvs).1
  | .unary ht _ _, hts => by
    obtain ⟨rfl, -⟩ := List.cons.inj hts
    cases ht
  | .binary ht hop ha _, hts => by
    obtain ⟨rfl, -⟩ | ⟨vs, hvs⟩ := eq_or_exists_of_append_eq ha.ne_nil hts
    · cases ht
      cases hop
    · have hzero := (ha.value_of_assign hvs).1
      have hprecedence := Operator.precedence_infix hop
      omega
  | .assign ha _ hb, hts => by
    obtain ⟨-, rfl⟩ | ⟨vs, hvs⟩ := eq_or_exists_of_append_eq ha.ne_nil hts
    · exact ⟨rfl, _, hb⟩
    · cases (ha.value_of_assign hvs).1
  | .loosen h, hts => by
    cases (h.value_of_assign hts).1

namespace Grammar

theorem mem_expr {ts : List Token} : ts ∈ expr ↔ ∃ Γ e, Derives Γ 0 ts e := by
  constructor
  · rintro ⟨Γ, code, b, h⟩
    exact ⟨Γ, Builder.derives_of_readExpression h⟩
  · rintro ⟨Γ, e, h⟩
    exact ⟨Γ, e.linear, {}, Builder.readExpression_of_derives h⟩

theorem expr_le_tidy : expr ≤ tidy := by
  intro ts hts
  obtain ⟨Γ, e, h⟩ := mem_expr.1 hts
  exact h.tidy

/-! ### Declarations, statements and units -/

theorem nil_notMem_mul_anyToken {α : Type} {L : Language Token} {make : α → Token} :
    [] ∉ L * anyToken make := by
  rintro ⟨ts, -, _, ⟨a, rfl⟩, h⟩
  simp at h

theorem nil_notMem_mul {L M : Language Token} (h : [] ∉ L) : [] ∉ L * M := by
  rintro ⟨ts, hts, us, -, hnil⟩
  rw [(List.append_eq_nil_iff.1 hnil).1] at hts
  exact h hts

theorem reserved_le_tidy {word : Reserved} : reserved word ≤ tidy :=
  token_le_tidy rfl

theorem ident_le_tidy : anyToken .ident ≤ tidy :=
  anyToken_le_tidy fun _ => rfl

theorem stars_le_tidy : (symbol .star)∗ ≤ tidy :=
  kstar_le_tidy (token_le_tidy rfl)

theorem named_le_tidy : named ≤ tidy := by
  have htype : anyToken .type ≤ tidy := anyToken_le_tidy fun _ => rfl
  exact mul_le_tidy (mul_le_tidy htype stars_le_tidy) ident_le_tidy

theorem declarator_le_tidy : declarator ≤ tidy := by
  have hname : (symbol .star)∗ * anyToken .ident ≤ tidy := mul_le_tidy stars_le_tidy ident_le_tidy
  have hinteger : anyToken .integer ≤ tidy := anyToken_le_tidy fun _ => rfl
  have hsize : symbol .squareOpen * anyToken .integer * symbol .squareClose ≤ tidy :=
    mul_le_tidy (mul_le_tidy (token_le_tidy rfl) hinteger) (token_le_tidy rfl)
  have hvalue : symbol .assign * expr ≤ tidy := mul_le_tidy (token_le_tidy rfl) expr_le_tidy
  exact mul_le_tidy (mul_le_tidy hname (optional_le_tidy hsize)) (optional_le_tidy hvalue)

theorem declaration_le_tidy : declaration ≤ tidy := by
  have hnil : [] ∉ declarator := nil_notMem_mul (nil_notMem_mul nil_notMem_mul_anyToken)
  have htype : anyToken .type ≤ tidy := anyToken_le_tidy fun _ => rfl
  exact mul_le_tidy (mul_le_tidy htype (separated_le_tidy declarator_le_tidy hnil))
    (token_le_tidy rfl)

theorem header_le_tidy : header ≤ tidy := by
  have hexpr : optional expr ≤ tidy := optional_le_tidy expr_le_tidy
  have hfirst : declaration + optional expr * symbol .semicolon ≤ tidy :=
    add_le declaration_le_tidy (mul_le_tidy hexpr (token_le_tidy rfl))
  exact mul_le_tidy (mul_le_tidy (mul_le_tidy hfirst hexpr) (token_le_tidy rfl)) hexpr

theorem blockOf_tidy_le : blockOf tidy ≤ tidy :=
  mul_le_tidy (mul_le_tidy (token_le_tidy rfl) (kstar_le_tidy le_rfl)) (token_le_tidy rfl)

theorem bodyOf_tidy_le : bodyOf tidy ≤ tidy :=
  add_le blockOf_tidy_le le_rfl

theorem othersOf_tidy_le : othersOf tidy ≤ tidy := by
  have hcondition : bracketed expr ≤ tidy := bracketed_le_tidy expr_le_tidy
  have helseIf : reserved .elseWord * reserved .ifWord * bracketed expr * bodyOf tidy ≤ tidy :=
    mul_le_tidy (mul_le_tidy (mul_le_tidy reserved_le_tidy reserved_le_tidy) hcondition)
      bodyOf_tidy_le
  exact mul_le_tidy (kstar_le_tidy helseIf)
    (optional_le_tidy (mul_le_tidy reserved_le_tidy bodyOf_tidy_le))

theorem Form.over_tidy_le (form : Form) : form.over tidy ≤ tidy := by
  have hcondition : bracketed expr ≤ tidy := bracketed_le_tidy expr_le_tidy
  have hend : symbol .semicolon ≤ tidy := token_le_tidy rfl
  cases form with
  | empty => exact hend
  | declaration => exact declaration_le_tidy
  | expression => exact mul_le_tidy expr_le_tidy hend
  | giveBack =>
    exact mul_le_tidy (mul_le_tidy reserved_le_tidy (optional_le_tidy expr_le_tidy)) hend
  | leave => exact mul_le_tidy reserved_le_tidy hend
  | block => exact blockOf_tidy_le
  | branch =>
    exact mul_le_tidy (mul_le_tidy (mul_le_tidy reserved_le_tidy hcondition) bodyOf_tidy_le)
      othersOf_tidy_le
  | loop => exact mul_le_tidy (mul_le_tidy reserved_le_tidy hcondition) bodyOf_tidy_le
  | count =>
    exact mul_le_tidy (mul_le_tidy reserved_le_tidy (bracketed_le_tidy header_le_tidy))
      bodyOf_tidy_le

/-- **No comma stands before a closing bracket in a statement.** -/
theorem statement_le_tidy : statement ≤ tidy :=
  statement_le Form.over_tidy_le

theorem params_le_tidy : params ≤ tidy :=
  add_le (token_le_tidy rfl) (separated_le_tidy named_le_tidy nil_notMem_mul_anyToken)

theorem global_le_tidy : global ≤ tidy := by
  have hinteger : anyToken .integer ≤ tidy := anyToken_le_tidy fun _ => rfl
  have htruth : anyToken .truth ≤ tidy := anyToken_le_tidy fun _ => rfl
  have hchar : anyToken .char ≤ tidy := anyToken_le_tidy fun _ => rfl
  have hliteral : literal ≤ tidy := add_le (add_le hinteger htruth) hchar
  have hsign : optional (symbol .minus) ≤ tidy := optional_le_tidy (token_le_tidy rfl)
  have hvalue : symbol .assign * optional (symbol .minus) * literal ≤ tidy :=
    mul_le_tidy (mul_le_tidy (token_le_tidy rfl) hsign) hliteral
  exact mul_le_tidy (mul_le_tidy named_le_tidy (optional_le_tidy hvalue)) (token_le_tidy rfl)

theorem function_params_le_tidy : function params ≤ tidy := by
  have hblock : blockOf statement ≤ tidy :=
    (blockOf_le_blockOf statement_le_tidy).trans blockOf_tidy_le
  exact mul_le_tidy
    (mul_le_tidy named_le_tidy (bracketed_le_tidy (optional_le_tidy params_le_tidy)))
    (add_le hblock (token_le_tidy rfl))

theorem items_params_le_tidy : items params ≤ tidy :=
  kstar_le_tidy (add_le global_le_tidy function_params_le_tidy)

/-! ## Open lists -/

/-- **A comma too many.** A function whose list is open is one whose list is not, with a
comma put before a closing bracket. -/
theorem mem_function_openParams {ts : List Token} (h : ts ∈ function openParams) :
    ts ∈ function params ∨ ∃ before after,
      before ++ .symbol .parenClose :: after ∈ function params ∧
        ts = before ++ .symbol .comma :: .symbol .parenClose :: after := by
  obtain ⟨_, ⟨head, hhead, _, ⟨_, ⟨_, rfl, ps, hps, rfl⟩, _, rfl, rfl⟩, rfl⟩, tail, htail, rfl⟩ := h
  have hfunction : ∀ names ∈ optional params,
      head ++ ([.symbol .parenOpen] ++ names ++ [.symbol .parenClose]) ++ tail ∈
        function params := by
    intro names hnames
    exact Language.append_mem_mul (Language.append_mem_mul hhead
      (Language.append_mem_mul (Language.append_mem_mul rfl hnames) rfl)) htail
  -- the brackets are empty, or hold a list that is closed, or one that is open
  rcases hps with hps | hps | hps
  · exact .inl (hfunction ps (.inl hps))
  · exact .inl (hfunction ps (.inr hps))
  · obtain ⟨names, hnames, _, rfl, rfl⟩ := hps
    refine .inr ⟨head ++ .symbol .parenOpen :: names, tail, ?_, by simp⟩
    simpa using hfunction names (.inr (.inr hnames))

/-- The text does not end inside an item. -/
theorem eof_notMem_of_mem_items {ts : List Token} (h : ts ∈ items openParams) : .eof ∉ ts := by
  obtain ⟨words, rfl, hwords⟩ := h
  rw [List.mem_flatten]
  rintro ⟨word, hword, heof⟩
  rcases hwords word hword with hglobal | hfunction
  · exact (global_le_tidy hglobal).within heof
  · obtain hclosed | ⟨before, after, hclosed, rfl⟩ := mem_function_openParams hfunction
    · exact (function_params_le_tidy hclosed).within heof
    · refine (function_params_le_tidy hclosed).within ?_
      simpa using heof

/-- **Where no comma stands before a closing bracket, no list is open.** -/
theorem mem_items_params {ts : List Token} (h : ts ∈ items openParams)
    (hcomma : ¬[.symbol .comma, .symbol .parenClose] <:+: ts) : ts ∈ items params := by
  obtain ⟨words, rfl, hwords⟩ := h
  refine Language.join_mem_kstar fun word hword => ?_
  rcases hwords word hword with hglobal | hfunction
  · exact .inl hglobal
  · obtain hclosed | ⟨before, after, -, rfl⟩ := mem_function_openParams hfunction
    · exact .inr hclosed
    · have hfactor : [.symbol .comma, .symbol .parenClose] <:+:
          before ++ .symbol .comma :: .symbol .parenClose :: after := ⟨before, after, by simp⟩
      exact absurd (hfactor.trans (List.infix_of_mem_flatten hword)) hcomma

end Grammar

end WordC
