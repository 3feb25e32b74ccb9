import Mathlib
import WordC.Proofs.SourceUnit.Grammar
import WordC.Proofs.SourceUnit.Unit
/-!
# What is read is a word of the grammar

Each part of a written tree spells a word of the language of its production, if
its expressions are resolved (`Trace.Spells`). So every text that is read is a word
of the grammar in which a comma may stand behind the last parameter, and it is one
of the grammar without that comma just if no comma stands before a closing bracket
(`SourceUnit.written_mem_program_of_parse`).
-/

namespace WordC

open Computability Grammar

/-- **The tokens of a trace are a word of a language**, if its expressions are resolved. -/
def Trace.Spells (t : Trace) (L : Language Token) : Prop :=
  (∀ site ∈ t.sites, site.Resolved) → t.tokens ∈ L

namespace Trace.Spells

variable {t u : Trace} {L M : Language Token}

theorem mono (h : t.Spells L) (hle : L ≤ M) : t.Spells M :=
  fun hsites => hle (h hsites)

theorem append (ht : t.Spells L) (hu : u.Spells M) : (t ++ u).Spells (L * M) := by
  intro hsites
  rw [sites_append, List.forall_mem_append] at hsites
  exact Language.append_mem_mul (ht hsites.1) (hu hsites.2)

theorem ofTokens {ts : List Token} (h : ts ∈ L) : (ofTokens ts).Spells L :=
  fun _ => h

theorem token (t : Token) : (Trace.ofTokens [t]).Spells (Grammar.token t) :=
  .ofTokens rfl

theorem enclosed (h : t.Spells L) : t.enclosed.Spells L :=
  h

/-- Variables that come into scope take no tokens. -/
theorem declaring (h : t.Spells L) (declares locals : List Variable) :
    (t ++ { declares, locals }).Spells L := by
  have hnothing : Trace.Spells { declares, locals } 1 := fun _ => rfl
  exact (h.append hnothing).mono (mul_one L).le

theorem declared (h : t.Spells L) (declares : List Variable) :
    (({ declares } : Trace) ++ t).Spells L := by
  have hnothing : Trace.Spells { declares } 1 := fun _ => rfl
  exact (hnothing.append h).mono (one_mul L).le

/-- A statement of a form is a statement. -/
theorem form (form : Form) (h : t.Spells (form.over statement)) : t.Spells statement :=
  h.mono (over_statement_le form)

end Trace.Spells

namespace Written

open Trace

/-! ## Expressions and declarations -/

theorem Expression.spells (Γ : Scopes) (e : Expression) : (e.trace Γ).Spells expr := by
  intro hsites
  obtain ⟨tree, htree, -⟩ := List.forall_mem_singleton.1 hsites
  exact mem_expr.2 ⟨Γ, tree, htree⟩

theorem spells_optionalTrace (Γ : Scopes) (e : Option Expression) :
    (optionalTrace Γ e).Spells (Grammar.optional expr) := by
  cases e with
  | none => exact fun _ => .inl rfl
  | some e => exact (e.spells Γ).mono le_add_self

theorem Expression.spells_bracketed (Γ : Scopes) (e : Expression) :
    (e.bracketed Γ).Spells (Grammar.bracketed expr) :=
  ((Spells.token _).append (e.spells Γ)).append (.token _)

namespace Declarator

theorem sizeTokens_mem (size : Option Int64) : sizeTokens size ∈
    Grammar.optional (symbol .squareOpen * anyToken .integer * symbol .squareClose) := by
  cases size with
  | none => exact .inl rfl
  | some n =>
    exact .inr (Language.append_mem_mul (cons_mem_token_mul (mem_anyToken _ n)) (mem_token _))

/-- The value of a name is an expression without the name in front of it. -/
theorem spells_valueTrace (Γ : Scopes) (d : Declarator) :
    (d.valueTrace Γ).Spells (Grammar.optional (symbol .assign * expr)) := by
  obtain ⟨stars, name, size, offset, value⟩ := d
  cases value with
  | none => exact fun _ => .inl rfl
  | some e =>
    intro hsites
    obtain ⟨tree, htree, -⟩ := List.forall_mem_singleton.1 hsites
    obtain ⟨-, value, hvalue⟩ := htree.value_of_assign rfl
    exact .inr (cons_mem_token_mul (mem_expr.2 ⟨Γ, value, hvalue⟩))

theorem spells (base : DataType) (Γ : Scopes) (d : Declarator) :
    (d.trace base Γ).Spells declarator := by
  have hname : Spells _ ((symbol .star)∗ * anyToken .ident) :=
    (Spells.ofTokens (replicate_mem_kstar d.stars _)).append (.ofTokens ⟨d.name, rfl⟩)
  exact ((hname.append (.ofTokens (sizeTokens_mem d.size))).declaring _ _).append
    (d.spells_valueTrace _)

end Declarator

theorem Declarators.spells (base : DataType) (names : Declarators) (Γ : Scopes) :
    (names.trace base Γ).Spells (separated declarator * symbol .semicolon) := by
  induction names generalizing Γ with
  | last d => exact ((d.spells base Γ).mono le_separated).append (.token _)
  | more d rest ih =>
    refine (((d.spells base Γ).append (.token _)).append (ih _)).mono ?_
    rw [← mul_assoc]
    gcongr
    exact mul_comma_mul_separated_le

theorem spells_declarationTrace (Γ : Scopes) (base : BaseType) (names : Declarators) :
    (declarationTrace Γ base names).Spells declaration := by
  have htype : Spells _ (anyToken .type) := .ofTokens ⟨base, rfl⟩
  exact (htype.append (names.spells base.dataType Γ)).mono (mul_assoc _ _ _).ge

/-! ## Statements -/

theorem First.spells (Γ : Scopes) (first : First) :
    (first.trace Γ).Spells
      (Grammar.declaration + Grammar.optional expr * symbol .semicolon) := by
  cases first with
  | declaration base names => exact (spells_declarationTrace Γ base names).mono le_self_add
  | expression e =>
    exact ((spells_optionalTrace Γ e).append (.token _)).mono le_add_self

theorem spells_headerTrace (Γ : Scopes) (condition step : Option Expression) :
    (headerTrace Γ condition step).Spells
      (Grammar.optional expr * symbol .semicolon * Grammar.optional expr * symbol .parenClose) :=
  (((spells_optionalTrace Γ condition).append (.token _)).append
    (spells_optionalTrace Γ step)).append (.token _)

mutual

/-- **A statement that is written is a statement of the grammar.** -/
theorem Statement.spells (Γ : Scopes) (s : Statement) : (s.trace Γ).Spells statement :=
  match s with
  | .empty => .form .empty (.token _)
  | .declaration base names => .form .declaration (spells_declarationTrace Γ base names)
  | .expression e => .form .expression ((e.spells Γ).append (.token _))
  | .giveBack value =>
    .form .giveBack
      (((Spells.token _).append (spells_optionalTrace Γ value)).append (.token _))
  | .leave => .form .leave ((Spells.token _).append (.token _))
  | .block inner =>
    have hinner := (Spells.token _).append (spells_blockTrace Γ.enter inner)
    .form .block (hinner.enclosed.mono (mul_assoc _ _ _).ge)
  | .branch condition body other =>
    .form .branch
      ((((Spells.token _).append (condition.spells_bracketed Γ)).append
        (Body.spells Γ body)).append (Other.spells Γ other))
  | .loop condition body =>
    .form .loop
      (((Spells.token _).append (condition.spells_bracketed Γ)).append (Body.spells Γ body))
  | .count first condition step body => by
    have hheader := (first.spells Γ.enter).append
      (spells_headerTrace (Γ.enter.extend (first.trace Γ.enter).declares) condition step)
    have hloop := hheader.append (Body.spells (Γ.enter.extend (first.trace Γ.enter).declares) body)
    -- the scope of the header holds the body too, so the brackets are put together last
    refine .form .count ((((Spells.token _).append (.token _)).append hloop.enclosed).mono ?_)
    simp only [Form.over, Grammar.bracketed, header, reserved, symbol, mul_assoc, le_refl]

theorem Body.spells (Γ : Scopes) (b : Body) : (b.trace Γ).Spells (bodyOf statement) :=
  match b with
  | .braced inner =>
    have hinner := (Spells.token _).append (spells_blockTrace Γ.enter inner)
    hinner.enclosed.mono ((mul_assoc _ _ _).ge.trans le_self_add)
  | .single s => (Statement.spells Γ.enter s).enclosed.mono le_add_self

theorem Other.spells (Γ : Scopes) (o : Other) : (o.trace Γ).Spells (othersOf statement) :=
  match o with
  | .none => fun _ => Language.append_mem_mul (Language.nil_mem_kstar _) (.inl rfl)
  | .elseIf condition body other => by
    have hcondition := condition.spells_bracketed Γ
    refine (((((Spells.token _).append (.token _)).append hcondition).append
      (Body.spells Γ body)).append (Other.spells Γ other)).mono ?_
    -- one more in front of the repetition
    unfold othersOf
    rw [← mul_assoc]
    gcongr
    exact mul_kstar_le_kstar
  | .otherwise body => by
    refine ((Spells.token _).append (Body.spells Γ body)).mono ?_
    exact le_add_self.trans (le_mul_of_one_le_left' one_le_kstar)

/-- The statements of a block, with the brace behind them. -/
theorem spells_blockTrace (Γ : Scopes) (inner : List Statement) :
    (blockTrace Γ inner).Spells (statement∗ * symbol .braceClose) :=
  match inner with
  | [] => (Spells.token _).mono (le_mul_of_one_le_left' one_le_kstar)
  | s :: rest => by
    refine ((Statement.spells Γ s).append (spells_blockTrace _ rest)).mono ?_
    rw [← mul_assoc]
    gcongr
    exact mul_kstar_le_kstar

end

/-! ## Items -/

theorem namedTokens_mem (base : BaseType) (stars : Nat) (name : String) :
    namedTokens base stars name ∈ named := by
  have hstars := Language.append_mem_mul (replicate_mem_kstar stars (.symbol .star))
    (mem_anyToken Token.ident name)
  rw [named, mul_assoc]
  exact Language.append_mem_mul (mem_anyToken Token.type base) hstars

/-- The names in brackets. A comma may be left behind the last one. -/
theorem Parameters.tokens_mem (ps : Parameters) :
    ps.tokens ∈ 1 + (separated Grammar.named + separated Grammar.named * symbol .comma) := by
  induction ps with
  | none => exact .inl rfl
  | last p => exact .inr (.inl (le_separated (namedTokens_mem ..)))
  | more p rest ih =>
    have hp : p.tokens ∈ Grammar.named := namedTokens_mem ..
    have hmore : ∀ ts ∈ separated Grammar.named,
        p.tokens ++ .symbol .comma :: ts ∈ separated Grammar.named := by
      intro ts hts
      refine mul_comma_mul_separated_le ?_
      rw [mul_assoc]
      exact Language.append_mem_mul hp (cons_mem_token_mul hts)
    rw [tokens]
    -- where nothing follows the comma, it is the one that is left
    rcases ih with hrest | hrest | ⟨names, hnames, _, rfl, hrest⟩
    · rw [show rest.tokens = [] from hrest]
      exact .inr (.inr (Language.append_mem_mul (le_separated hp) (mem_token _)))
    · exact .inr (.inl (hmore _ hrest))
    · rw [← hrest, ← List.cons_append, ← List.append_assoc]
      exact .inr (.inr (Language.append_mem_mul (hmore _ hnames) (mem_token _)))

theorem ParameterList.tokens_mem (ps : ParameterList) :
    ps.tokens ∈ Grammar.bracketed (Grammar.optional openParams) := by
  have hbracketed : ∀ ts ∈ Grammar.optional openParams,
      .symbol .parenOpen :: ts ++ [.symbol .parenClose] ∈
        Grammar.bracketed (Grammar.optional openParams) := fun ts hts =>
    Language.append_mem_mul (cons_mem_token_mul hts) (mem_token _)
  cases ps with
  | void => exact hbracketed [.type .void] (.inr (.inl (.inl rfl)))
  | list ps =>
    refine hbracketed ps.tokens ?_
    rcases ps.tokens_mem with hps | hps | hps
    · exact .inl hps
    · exact .inr (.inl (.inr hps))
    · exact .inr (.inr hps)

theorem Initial.tokens_mem (v : Initial) :
    v.tokens ∈ Grammar.optional (symbol .minus) * Grammar.literal := by
  obtain ⟨negative, value⟩ := v
  refine Language.append_mem_mul ?_ ?_
  · cases negative with
    | false => exact .inl rfl
    | true => exact .inr (mem_token _)
  · cases value with
    | integer n => exact .inl (.inl (mem_anyToken _ n))
    | truth b => exact .inl (.inr (mem_anyToken _ b))
    | char c => exact .inr (mem_anyToken _ c)

theorem Item.spells (Γ : Scopes) (i : Item) :
    (i.trace Γ).Spells (Grammar.global + function openParams) := by
  refine Spells.declaring ?_ i.declares []
  cases i with
  | global base stars name value =>
    refine .ofTokens (.inl (Language.append_mem_mul
      (Language.append_mem_mul (namedTokens_mem ..) ?_) (mem_token _)))
    cases value with
    | none => exact .inl rfl
    | some v =>
      rw [mul_assoc]
      exact .inr (cons_mem_token_mul v.tokens_mem)
  | prototype base stars name ps =>
    exact .ofTokens (.inr (Language.append_mem_mul
      (Language.append_mem_mul (namedTokens_mem ..) ps.tokens_mem) (.inr (mem_token _))))
  | definition base stars name ps body frameSize =>
    have hhead : Spells (.ofTokens (namedTokens base stars name ++ ps.tokens))
        (named * Grammar.bracketed (Grammar.optional openParams)) :=
      .ofTokens (Language.append_mem_mul (namedTokens_mem ..) ps.tokens_mem)
    have hbody := spells_blockTrace (Γ.enter.extend ps.placed) body
    refine ((hhead.append (.token _)).append (hbody.declared ps.placed).enclosed).mono ?_
    rw [mul_assoc, ← mul_assoc (Grammar.token _)]
    exact (mul_le_mul_right le_self_add _).trans le_add_self

/-- **A unit that is written is a row of items of the grammar.** -/
theorem spells_unitTrace (Γ : Scopes) (is : List Item) :
    (unitTrace Γ is).Spells (items openParams) := by
  induction is generalizing Γ with
  | nil => exact fun _ => Language.nil_mem_kstar _
  | cons i rest ih => exact ((i.spells Γ).append (ih _)).mono mul_kstar_le_kstar

end Written

namespace SourceUnit

/-- The tokens of a text before its end. -/
def written (tokens : List PlacedToken) : List Token :=
  (tokens.map PlacedToken.token).takeWhile (· ≠ .eof)

variable {tokens : List PlacedToken} {u : SourceUnit}

/-- What is read is all that is written. -/
theorem WrittenAs.written_mem_items {is : List Written.Item} (h : WrittenAs tokens u is) :
    written tokens ∈ items openParams := by
  have hitems := Written.spells_unitTrace {} is h.resolved
  obtain ⟨rest, htext, hrest⟩ := h.text
  have hbefore : ∀ t ∈ (Written.unitTrace {} is).tokens, decide (t ≠ .eof) = true := by
    intro t ht
    rw [decide_eq_true_iff]
    rintro rfl
    exact eof_notMem_of_mem_items hitems ht
  have hend : rest.takeWhile (· ≠ .eof) = [] := by
    cases rest with
    | nil => rfl
    | cons t rest =>
      obtain rfl : t = .eof := hrest
      rfl
  rwa [written, htext, List.takeWhile_append_of_pos hbefore, hend, List.append_nil]

/-- **What is read is a unit of the grammar**, in which a comma may stand behind the last
parameter of a list. Without that comma in the grammar, the texts that are read are still
units of it just if no comma stands before a closing bracket. -/
theorem written_mem_program_of_parse (h : parse tokens = .ok u) :
    written tokens ++ [.eof] ∈ Grammar.program openParams ∧
      (written tokens ++ [.eof] ∈ Grammar.program params ↔
        ¬[.symbol .comma, .symbol .parenClose] <:+: written tokens) := by
  obtain ⟨is, his⟩ := parse_writtenAs h
  have hitems := his.written_mem_items
  rw [mem_program, mem_program]
  exact ⟨hitems, fun hparams => (items_params_le_tidy hparams).not_factor,
    mem_items_params hitems⟩

/-- A text with both kinds of loops, branches and lists of parameters. -/
def formsText : String :=
  "int k = -7; int g(void); int f(int n, int *p) { int a = 0, b[4];
  for (;;) if (n) break; else a = *p; while (a) { a = g(); } return a; }"

theorem written_formsText_mem_program : ∃ tokens u, scan formsText = .ok tokens ∧
    parse tokens = .ok u ∧ u.program.functions.length = 2 ∧
    written tokens ++ [.eof] ∈ Grammar.program params := by
  have hreads : reads formsText (fun u => u.program.functions.length = 2) = true := by
    decide +kernel
  obtain ⟨tokens, u, hscan, hparse, hfunctions⟩ := exists_of_reads hreads
  have hcomma : (scan formsText).toOption.any (fun tokens =>
      ¬[.symbol .comma, .symbol .parenClose] <:+: written tokens) = true := by
    decide +kernel
  rw [hscan] at hcomma
  exact ⟨tokens, u, hscan, hparse, of_decide_eq_true hfunctions,
    (written_mem_program_of_parse hparse).2.2 (of_decide_eq_true hcomma)⟩

/-- A comma behind the only parameter. -/
def openListText : String :=
  "int f(int a,) { return a; }"

/-- **A list of parameters may be left open.** Such a text is read, and it is no unit of
the grammar of closed lists. -/
theorem written_openListText_notMem_program : ∃ tokens u, scan openListText = .ok tokens ∧
    parse tokens = .ok u ∧ written tokens ++ [.eof] ∉ Grammar.program params := by
  have hreads : reads openListText (fun _ => true) = true := by decide +kernel
  obtain ⟨tokens, u, hscan, hparse, -⟩ := exists_of_reads hreads
  have hcomma : (scan openListText).toOption.any (fun tokens =>
      [.symbol .comma, .symbol .parenClose] <:+: written tokens) = true := by
    decide +kernel
  rw [hscan] at hcomma
  refine ⟨tokens, u, hscan, hparse, fun hprogram => ?_⟩
  exact (items_params_le_tidy (mem_program.1 hprogram)).not_factor (of_decide_eq_true hcomma)

end SourceUnit

end WordC
