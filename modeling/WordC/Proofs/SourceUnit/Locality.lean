import Mathlib
import WordC.Proofs.Expression.Names
import WordC.Proofs.SourceUnit.Written
/-!
# The expressions of a tree

An expression of a tree stands among the tokens of the tree, and what is in scope
there has been declared around the tree or in it (`Trace.Local`). The expressions
of the statements that a tree stands for are those of the tree, apart from the
constant that a missing condition is.
-/

namespace WordC

namespace Scopes

/-- The variable is declared in one of the open scopes, hidden or not. -/
def Declares (Γ : Scopes) (v : Variable) : Prop :=
  v ∈ Γ.file ∨ ∃ scope ∈ Γ.inner, v ∈ scope

/-- What a name stands for has been declared. -/
theorem Visible.declares {Γ : Scopes} {v : Variable} (h : Γ.Visible v) : Γ.Declares v := by
  obtain ⟨name, hname⟩ := h
  obtain ⟨scope, hscope, hfind⟩ := List.exists_of_findSome?_eq_some hname
  have hmem : v ∈ scope := List.mem_of_find?_eq_some hfind
  rcases List.mem_append.1 hscope with hinner | hfile
  · exact .inr ⟨scope, hinner, hmem⟩
  · rw [List.mem_singleton] at hfile
    exact .inl (hfile ▸ hmem)

@[simp] theorem declares_extend {Γ : Scopes} {vs : List Variable} {v : Variable} :
    (Γ.extend vs).Declares v ↔ Γ.Declares v ∨ v ∈ vs := by
  obtain ⟨file, inner⟩ := Γ
  cases inner with
  | nil => simp [Declares, extend]
  | cons scope outer =>
    simp only [Declares, extend, List.exists_mem_cons_iff, List.mem_append]
    exact ⟨by rintro (h | (h | h) | h) <;> simp [h], by rintro ((h | h | h) | h) <;> simp [h]⟩

@[simp] theorem declares_enter {Γ : Scopes} {v : Variable} :
    Γ.enter.Declares v ↔ Γ.Declares v := by
  simp [Declares, enter]

end Scopes

/-! ## Where expressions stand -/

/-- **What a trace over `Γ` refers to.** Its variables are named among its tokens, its
expressions stand among them, and what is in scope there is in scope around it or
declared in it. -/
structure Trace.Local (Γ : Scopes) (t : Trace) : Prop where
  declares : t.declares ⊆ t.locals
  named : ∀ v ∈ t.locals, .ident v.name ∈ t.tokens
  tokens : ∀ site ∈ t.sites, site.tokens.Sublist t.tokens
  scopes : ∀ site ∈ t.sites, ∀ v, site.scopes.Declares v → Γ.Declares v ∨ v ∈ t.locals

namespace Trace

variable {Γ : Scopes} {t u : Trace}

theorem local_ofTokens (Γ : Scopes) (ts : List Token) : Local Γ (ofTokens ts) :=
  ⟨nofun, nofun, nofun, nofun⟩

theorem Local.append (h : Local Γ t) (h' : Local (Γ.extend t.declares) u) : Local Γ (t ++ u) where
  declares := List.append_subset.2 ⟨fun _ hv => List.mem_append_left _ (h.declares hv),
    fun _ hv => List.mem_append_right _ (h'.declares hv)⟩
  named := List.forall_mem_append.2 ⟨fun v hv => List.mem_append_left _ (h.named v hv),
    fun v hv => List.mem_append_right _ (h'.named v hv)⟩
  tokens := List.forall_mem_append.2 ⟨fun site hsite => (h.tokens site hsite).trans
      (List.sublist_append_left _ _), fun site hsite => (h'.tokens site hsite).trans
      (List.sublist_append_right _ _)⟩
  scopes := by
    refine List.forall_mem_append.2 ⟨fun site hsite v hv => ?_, fun site hsite v hv => ?_⟩
    · exact (h.scopes site hsite v hv).imp_right (List.mem_append_left _)
    · rcases h'.scopes site hsite v hv with hv | hv
      · refine (Scopes.declares_extend.1 hv).imp_right fun hv => ?_
        exact List.mem_append_left _ (h.declares hv)
      · exact .inr (List.mem_append_right _ hv)

/-- Behind a trace that declares nothing, the scopes are as before it. -/
theorem Local.append_of_nil (h : Local Γ t) (ht : t.declares = []) (h' : Local Γ u) :
    Local Γ (t ++ u) := by
  refine h.append ?_
  rwa [ht, Scopes.extend_nil]

theorem Local.enclosed (h : Local Γ.enter t) : Local Γ t.enclosed where
  declares := nofun
  named := h.named
  tokens := h.tokens
  scopes site hsite v hv := (h.scopes site hsite v hv).imp_left Scopes.declares_enter.1

end Trace

namespace Written

open Trace

theorem Expression.local (Γ : Scopes) (e : Expression) : (e.trace Γ).Local Γ :=
  ⟨nofun, nofun, List.forall_mem_singleton.2 (List.Sublist.refl _),
    List.forall_mem_singleton.2 fun _ => .inl⟩

theorem Expression.local_bracketed (Γ : Scopes) (e : Expression) : (e.bracketed Γ).Local Γ :=
  ((local_ofTokens _ _).append_of_nil rfl (e.local Γ)).append_of_nil rfl (local_ofTokens _ _)

theorem local_optionalTrace (Γ : Scopes) (e : Option Expression) :
    (optionalTrace Γ e).Local Γ ∧ (optionalTrace Γ e).declares = [] := by
  cases e with
  | none => exact ⟨local_ofTokens Γ [], rfl⟩
  | some e => exact ⟨e.local Γ, rfl⟩

theorem Declarator.local (base : DataType) (Γ : Scopes) (d : Declarator) :
    (d.trace base Γ).Local Γ := by
  obtain ⟨stars, name, size, offset, value⟩ := d
  refine ⟨?_, ?_, ?_, ?_⟩
  all_goals cases value with
  | none => simp [Declarator.trace, Declarator.valueTrace, Declarator.declared, ofTokens]
  | some e => simp [Declarator.trace, Declarator.valueTrace, Declarator.declared, ofTokens]

theorem Declarators.local (base : DataType) (Γ : Scopes) (names : Declarators) :
    (names.trace base Γ).Local Γ := by
  induction names generalizing Γ with
  | last d => exact (d.local base Γ).append (local_ofTokens _ _)
  | more d rest ih =>
    refine ((d.local base Γ).append (local_ofTokens _ _)).append ?_
    rw [Trace.declares_append, d.declares_trace]
    exact ih _

theorem local_declarationTrace (Γ : Scopes) (base : BaseType) (names : Declarators) :
    (declarationTrace Γ base names).Local Γ :=
  (local_ofTokens _ _).append_of_nil rfl (names.local _ Γ)

theorem First.local (Γ : Scopes) (f : First) : (f.trace Γ).Local Γ := by
  cases f with
  | declaration base names => exact local_declarationTrace Γ base names
  | expression e => exact (local_optionalTrace Γ e).1.append (local_ofTokens _ _)

theorem local_headerTrace (Γ : Scopes) (condition step : Option Expression) :
    (headerTrace Γ condition step).Local Γ ∧ (headerTrace Γ condition step).declares = [] := by
  obtain ⟨hc, hcnil⟩ := local_optionalTrace Γ condition
  obtain ⟨hs, hsnil⟩ := local_optionalTrace Γ step
  have hfirst := hc.append_of_nil hcnil (local_ofTokens Γ [.symbol .semicolon])
  have hnil : (optionalTrace Γ condition ++ .ofTokens [.symbol .semicolon]).declares = [] :=
    congrArg (· ++ []) hcnil
  have hboth := hfirst.append_of_nil hnil hs
  refine ⟨hboth.append (local_ofTokens _ _), ?_⟩
  simp [headerTrace, hcnil, hsnil, ofTokens]

mutual

/-- **The trace of a tree is local.** -/
theorem Statement.local (Γ : Scopes) (s : Statement) : (s.trace Γ).Local Γ :=
  match s with
  | .empty => local_ofTokens Γ _
  | .declaration base names => local_declarationTrace Γ base names
  | .expression e => (e.local Γ).append_of_nil rfl (local_ofTokens _ _)
  | .giveBack value =>
    ((local_ofTokens _ _).append_of_nil rfl (local_optionalTrace Γ value).1).append
      (local_ofTokens _ _)
  | .leave => (local_ofTokens _ _).append (local_ofTokens _ _)
  | .block inner => ((local_ofTokens _ _).append_of_nil rfl (local_blockTrace _ inner)).enclosed
  | .branch condition body other =>
    (((local_ofTokens _ _).append_of_nil rfl (condition.local_bracketed Γ)).append_of_nil rfl
      (body.local Γ)).append_of_nil (body.declares_trace Γ) (other.local Γ)
  | .loop condition body =>
    ((local_ofTokens _ _).append_of_nil rfl (condition.local_bracketed Γ)).append_of_nil rfl
      (body.local Γ)
  | .count first condition step body => by
    obtain ⟨hheader, hnil⟩ := local_headerTrace
      (Γ.enter.extend (first.trace Γ.enter).declares) condition step
    have hparts := (first.local Γ.enter).append hheader
    refine ((local_ofTokens _ _).append (local_ofTokens _ _)).append_of_nil rfl
      (hparts.append ?_).enclosed
    rw [Trace.declares_append, hnil, List.append_nil]
    exact body.local _

theorem Body.local (Γ : Scopes) (b : Body) : (b.trace Γ).Local Γ :=
  match b with
  | .braced inner => ((local_ofTokens _ _).append_of_nil rfl (local_blockTrace _ inner)).enclosed
  | .single s => (s.local _).enclosed

theorem Other.local (Γ : Scopes) (o : Other) : (o.trace Γ).Local Γ :=
  match o with
  | .none => local_ofTokens Γ []
  | .elseIf condition body other =>
    ((((local_ofTokens _ _).append (local_ofTokens _ _)).append_of_nil rfl
      (condition.local_bracketed Γ)).append_of_nil rfl (body.local Γ)).append_of_nil
        (body.declares_trace Γ) (other.local Γ)
  | .otherwise body => (local_ofTokens _ _).append_of_nil rfl (body.local Γ)

theorem local_blockTrace (Γ : Scopes) (inner : List Statement) : (blockTrace Γ inner).Local Γ :=
  match inner with
  | [] => local_ofTokens Γ _
  | s :: rest => (s.local Γ).append (local_blockTrace _ rest)

end

/-! ## The expressions of statements -/

end Written

/-- The code of the expressions, in order. -/
def Trace.codes (t : Trace) : List Code :=
  t.sites.map (·.code)

@[simp] theorem Trace.codes_append (t u : Trace) : (t ++ u).codes = t.codes ++ u.codes :=
  List.map_append

@[simp] theorem Trace.codes_ofTokens (ts : List Token) : (ofTokens ts).codes = [] := rfl

@[simp] theorem Trace.codes_enclosed (t : Trace) : t.enclosed.codes = t.codes := rfl

@[simp] theorem blockExpressions_append (body rest : List Stmt) :
    blockExpressions (body ++ rest) = blockExpressions body ++ blockExpressions rest := by
  induction body with
  | nil => rfl
  | cons s body ih =>
    rw [List.cons_append, blockExpressions, ih, blockExpressions, List.append_assoc]

@[simp] theorem blockExpressions_map_eval (codes : List Code) :
    blockExpressions (codes.map .eval) = codes := by
  induction codes with
  | nil => rfl
  | cons code codes ih => exact congrArg (code :: ·) ih

namespace Written

open Trace

@[simp] theorem Expression.codes_trace (Γ : Scopes) (e : Expression) :
    (e.trace Γ).codes = [e.code] :=
  rfl

@[simp] theorem Expression.codes_bracketed (Γ : Scopes) (e : Expression) :
    (e.bracketed Γ).codes = [e.code] := rfl

@[simp] theorem codes_optionalTrace (Γ : Scopes) (e : Option Expression) :
    (optionalTrace Γ e).codes = (e.map (·.code)).toList := by
  cases e with
  | none => rfl
  | some e => rfl

theorem Declarator.codes_trace (base : DataType) (Γ : Scopes) (d : Declarator) :
    (d.trace base Γ).codes = (d.value.map (·.code)).toList := by
  obtain ⟨stars, name, size, offset, value⟩ := d
  cases value with
  | none => rfl
  | some e => rfl

@[simp] theorem Declarators.codes_trace (base : DataType) (Γ : Scopes) (names : Declarators) :
    (names.trace base Γ).codes = names.codes := by
  induction names generalizing Γ with
  | last d => simp [Declarators.trace, Declarators.codes, d.codes_trace]
  | more d rest ih => simp [Declarators.trace, Declarators.codes, d.codes_trace, ih]

@[simp] theorem codes_declarationTrace (Γ : Scopes) (base : BaseType) (names : Declarators) :
    (declarationTrace Γ base names).codes = names.codes := by
  simp [declarationTrace]

@[simp] theorem First.codes_trace (Γ : Scopes) (f : First) : (f.trace Γ).codes = f.codes := by
  cases f with
  | declaration base names => exact codes_declarationTrace Γ base names
  | expression e => simp [First.trace, First.codes]

@[simp] theorem codes_headerTrace (Γ : Scopes) (condition step : Option Expression) :
    (headerTrace Γ condition step).codes =
      (condition.map (·.code)).toList ++ (step.map (·.code)).toList := by
  simp [headerTrace]

mutual

/-- **What holds of the expressions of a tree** holds of those of its statements. -/
theorem Statement.sound {P : Code → Prop} (hone : P Code.one) {valued inLoop : Bool} {Γ : Scopes}
    {s : Statement} (hfits : s.Fits valued inLoop) (h : ∀ code ∈ (s.trace Γ).codes, P code) :
    blockSound P inLoop s.stmts :=
  match s with
  | .empty => trivial
  | .declaration base names => by
    simp only [Statement.trace, codes_declarationTrace] at h
    exact blockSound_map_eval h
  | .expression e => ⟨h e.code List.mem_cons_self, trivial⟩
  | .giveBack value => by
    simp only [Statement.trace, Trace.codes_append, codes_ofTokens, codes_optionalTrace,
      List.nil_append, List.append_nil, Option.mem_toList] at h
    exact ⟨h, trivial⟩
  | .leave => ⟨hfits, trivial⟩
  | .block inner => ⟨sound_block hone hfits h, trivial⟩
  | .branch condition body other => by
    simp only [Statement.trace, Trace.codes_append, codes_ofTokens, Expression.codes_bracketed,
      List.nil_append, List.forall_mem_append, List.forall_mem_singleton] at h
    exact ⟨⟨h.1.1, Body.sound hone hfits.1 h.1.2, Other.sound hone hfits.2 h.2⟩, trivial⟩
  | .loop condition body => by
    simp only [Statement.trace, Trace.codes_append, codes_ofTokens, Expression.codes_bracketed,
      List.nil_append, List.forall_mem_append, List.forall_mem_singleton] at h
    exact ⟨⟨h.1, Body.sound hone hfits h.2⟩, trivial⟩
  | .count first condition step body => by
    simp only [Statement.trace, Trace.codes_append, codes_ofTokens, codes_enclosed,
      First.codes_trace, codes_headerTrace, List.nil_append, List.forall_mem_append,
      Option.mem_toList] at h
    obtain ⟨⟨hfirst, hcondition, hstep⟩, hbody⟩ := h
    refine blockSound_append (blockSound_map_eval fun code hcode => ?_)
      ⟨⟨fun code hcode => ?_, ?_, hstep, Body.sound hone hfits hbody⟩, trivial⟩
    · exact hfirst code (List.mem_of_mem_dropLast hcode)
    · exact hfirst code (List.mem_of_getLast? hcode)
    · cases condition with
      | none => exact hone
      | some e => exact hcondition e.code rfl

theorem Body.sound {P : Code → Prop} (hone : P Code.one) {valued inLoop : Bool} {Γ : Scopes}
    {b : Body} (hfits : b.Fits valued inLoop) (h : ∀ code ∈ (b.trace Γ).codes, P code) :
    blockSound P inLoop b.stmts :=
  match b with
  | .braced _ => sound_block hone hfits h
  | .single _ => Statement.sound hone hfits h

theorem Other.sound {P : Code → Prop} (hone : P Code.one) {valued inLoop : Bool} {Γ : Scopes}
    {o : Other} (hfits : o.Fits valued inLoop) (h : ∀ code ∈ (o.trace Γ).codes, P code) :
    o.alternative.Sound P inLoop :=
  match o with
  | .none => trivial
  | .elseIf condition body other => by
    simp only [Other.trace, Trace.codes_append, codes_ofTokens, Expression.codes_bracketed,
      List.nil_append, List.forall_mem_append, List.forall_mem_singleton] at h
    exact ⟨h.1.1, Body.sound hone hfits.1 h.1.2, Other.sound hone hfits.2 h.2⟩
  | .otherwise body => Body.sound hone hfits h

theorem sound_block {P : Code → Prop} (hone : P Code.one) {valued inLoop : Bool} {Γ : Scopes}
    {inner : List Statement} (hfits : blockFits valued inLoop inner)
    (h : ∀ code ∈ (blockTrace Γ inner).codes, P code) :
    blockSound P inLoop (blockStmts inner) :=
  match inner with
  | [] => trivial
  | s :: rest => by
    simp only [blockTrace, Trace.codes_append, List.forall_mem_append] at h
    exact blockSound_append (Statement.sound hone hfits.1 h.1) (sound_block hone hfits.2 h.2)

end

mutual

/-- **The expressions of a tree** are expressions of its statements. -/
theorem Statement.codes_sublist (Γ : Scopes) (s : Statement) :
    (s.trace Γ).codes.Sublist (blockExpressions s.stmts) :=
  match s with
  | .empty => .slnil
  | .declaration base names => by
    simp [Statement.trace, Statement.stmts]
  | .expression e => List.Sublist.refl _
  | .giveBack value => by
    simp [Statement.trace, Statement.stmts, blockExpressions, Stmt.expressions]
  | .leave => .slnil
  | .block inner => by
    simpa [Statement.trace, Statement.stmts, blockExpressions, Stmt.expressions] using
      codes_blockTrace_sublist Γ.enter inner
  | .branch condition body other => by
    simpa [Statement.trace, Statement.stmts, blockExpressions, Stmt.expressions] using
      (body.codes_sublist Γ).append (other.codes_sublist Γ)
  | .loop condition body => by
    simpa [Statement.trace, Statement.stmts, blockExpressions, Stmt.expressions] using
      body.codes_sublist Γ
  | .count first condition step body => by
    have hbody := body.codes_sublist (Γ.enter.extend (first.trace Γ.enter).declares)
    -- a missing condition is one that holds, which the text does not have
    have hcondition : (condition.map (·.code)).toList.Sublist
        [(condition.map (·.code)).getD Code.one] := by
      cases condition with
      | none => exact List.nil_sublist _
      | some e => exact List.Sublist.refl _
    -- the last variable of the header is set inside the loop statement, the others before it
    have hfirst : first.codes.dropLast ++ first.codes.getLast?.toList = first.codes := by
      cases hlast : first.codes.getLast? with
      | none => rw [List.getLast?_eq_none_iff.1 hlast]; rfl
      | some code => exact List.dropLast_append_getLast? code hlast
    have hrest := (hcondition.append (List.Sublist.refl (step.map (·.code)).toList)).append hbody
    simp only [Statement.trace, Statement.stmts, Trace.codes_append, codes_ofTokens, codes_enclosed,
      First.codes_trace, codes_headerTrace, blockExpressions_append, blockExpressions_map_eval,
      blockExpressions, Stmt.expressions, List.nil_append, List.append_nil]
    rw [← List.append_assoc first.codes.dropLast, hfirst]
    simpa using hrest

theorem Body.codes_sublist (Γ : Scopes) (b : Body) :
    (b.trace Γ).codes.Sublist (blockExpressions b.stmts) :=
  match b with
  | .braced inner => by
    simpa [Body.trace, Body.stmts] using codes_blockTrace_sublist Γ.enter inner
  | .single s => s.codes_sublist Γ.enter

theorem Other.codes_sublist (Γ : Scopes) (o : Other) :
    (o.trace Γ).codes.Sublist o.alternative.expressions :=
  match o with
  | .none => .slnil
  | .elseIf condition body other => by
    simpa [Other.trace, Other.alternative, Alternative.expressions] using
      (body.codes_sublist Γ).append (other.codes_sublist Γ)
  | .otherwise body => by
    simpa [Other.trace, Other.alternative, Alternative.expressions] using body.codes_sublist Γ

theorem codes_blockTrace_sublist (Γ : Scopes) (inner : List Statement) :
    (blockTrace Γ inner).codes.Sublist (blockExpressions (blockStmts inner)) :=
  match inner with
  | [] => .slnil
  | s :: rest => by
    simpa [blockTrace, blockStmts] using
      (s.codes_sublist Γ).append (codes_blockTrace_sublist _ rest)

end

/-- What is evaluated in a body has been written in it, or stands for a condition
that is missing. -/
theorem mem_codes_of_mem_blockExpressions {valued inLoop : Bool} {inner : List Statement}
    (hfits : blockFits valued inLoop inner) (Γ : Scopes) {code : Code}
    (h : code ∈ blockExpressions (blockStmts inner)) :
    code = .one ∨ code ∈ (blockTrace Γ inner).codes := by
  have hsound : blockSound (fun code => code = .one ∨ code ∈ (blockTrace Γ inner).codes) inLoop
      (blockStmts inner) := sound_block (.inl rfl) hfits fun _ => .inr
  exact hsound.forall_expressions code h

end Written

/-! ## Resolved expressions -/

/-- What is resolved has been read over what is declared, and its calls have names
among its tokens. -/
theorem Site.Resolved.isReading {site : Site} (h : site.Resolved) :
    site.code.IsReading ⟨site.scopes.Declares, fun name => .ident name ∈ site.tokens⟩
      site.tokens.length := by
  obtain ⟨e, he, hcode⟩ := h
  obtain ⟨hwf, hsize⟩ := he.wellFormed
  refine ⟨⟨e, hwf.mono fun v hv => hv.declares, hsize, hcode⟩, fun c hc => ?_⟩
  have hmentions : (c.name, none) ∈ site.code.mentions := List.mem_filterMap.2 ⟨_, hc, rfl⟩
  rw [hcode] at hmentions
  obtain ⟨name, hname, heq⟩ := List.mem_map.1 (he.perm_mentions.subset hmentions)
  rw [← (Prod.mk.inj heq).1]
  exact mem_identifiers.1 hname

theorem Code.isReading_one {known : Known} {nodes : Nat} (hnodes : 0 < nodes) :
    Code.one.IsReading known nodes := by
  refine ⟨⟨.constant (.int 1), .constant, hnodes, rfl⟩, fun c hc => ?_⟩
  cases List.mem_singleton.1 hc

/-- **The statements of a body are read** over what is in scope around it and what is
declared in it. -/
theorem Written.isReading_block {valued inLoop : Bool} {Γ : Scopes} {inner : List Statement}
    {known : Known} {nodes : Nat} (hfits : blockFits valued inLoop inner)
    (hresolved : ∀ site ∈ (blockTrace Γ inner).sites, site.Resolved)
    (houter : ∀ v, Γ.Declares v → known.var v)
    (hlocals : ∀ v ∈ (blockTrace Γ inner).locals, known.var v)
    (hname : ∀ name, .ident name ∈ (blockTrace Γ inner).tokens → known.name name)
    (hnodes : (blockTrace Γ inner).tokens.length < nodes) :
    blockSound (Code.IsReading known nodes) inLoop (blockStmts inner) := by
  have hlocal := local_blockTrace Γ inner
  have hcodes : ∀ code ∈ (blockTrace Γ inner).codes, code.IsReading known nodes := by
    refine List.forall_mem_map.2 fun site hsite => ?_
    have htokens := hlocal.tokens site hsite
    refine (hresolved site hsite).isReading.mono (fun v hv => ?_) (fun name hmem => ?_)
      (htokens.length_le.trans hnodes.le)
    · exact (hlocal.scopes site hsite v hv).elim (houter v) (hlocals v)
    · exact hname name (htokens.subset hmem)
  exact sound_block (Code.isReading_one (by omega)) hfits hcodes

end WordC
