import Mathlib
import WordC.Proofs.SourceUnit.Unit
/-!
# The grammar of linear forms

A body in linear form is a sentence of a grammar in which each expression is
closed by a mark, each condition by a jump and each scope by its end. The
grammar knows two things of its surroundings: whether a return has a value, and
whether there is a loop to leave. The body of every function that is read is
such a sentence (`SourceUnit.isBody_of_parse`).
-/

namespace WordC

namespace Linear

/-- An expression that may be missing. -/
inductive IsOptional : List Element → Prop where
  | missing : IsOptional []
  | present {e : Code} (he : e.Plain) : IsOptional e

mutual

/-- **A statement in linear form.** A return has a value just if the function is
`valued`. -/
inductive IsStatement (valued : Bool) : (inLoop : Bool) → List Element → Prop where
  | eval {inLoop : Bool} {e : Code} (he : e.Plain) :
    IsStatement valued inLoop (e ++ [.marker .expressionEnd])
  | giveBack {inLoop : Bool} {e : Code} (hvalued : valued = true) (he : e.Plain) :
    IsStatement valued inLoop (.keyword .returning :: (e ++ [.marker .expressionEnd]))
  | goBack {inLoop : Bool} (hvalued : valued = false) :
    IsStatement valued inLoop [.keyword .returning, .marker .expressionEnd]
  | leave : IsStatement valued true [.keyword .breakLoop]
  | block {inLoop : Bool} {b : List Element} (hb : IsBlock valued inLoop b) :
    IsStatement valued inLoop b
  | branch {inLoop : Bool} {e : Code} {b others : List Element} (he : e.Plain)
    (hb : IsBlock valued inLoop b) (hothers : IsOthers valued inLoop others) :
    IsStatement valued inLoop (.keyword .ifThen :: (e ++ [.marker .zeroJump] ++ b ++ others))
  | loop {inLoop : Bool} {e : Code} {b : List Element} (he : e.Plain)
    (hb : IsBlock valued true b) :
    IsStatement valued inLoop (.keyword .whileLoop :: (e ++ [.marker .zeroJump] ++ b))
  | count {inLoop : Bool} {first step : List Element} {e : Code} {b : List Element}
    (hfirst : IsOptional first) (he : e.Plain) (hstep : IsOptional step)
    (hb : IsBlock valued true b) :
    IsStatement valued inLoop (.keyword .forLoop :: (first ++ [.marker .expressionEnd] ++
      (e ++ [.marker .zeroJump]) ++ (step ++ [.marker .expressionEnd]) ++ b))

/-- Further branches, and at the end what is done if none of them is taken. -/
inductive IsOthers (valued : Bool) : (inLoop : Bool) → List Element → Prop where
  | none {inLoop : Bool} : IsOthers valued inLoop []
  | elseIf {inLoop : Bool} {e : Code} {b others : List Element} (he : e.Plain)
    (hb : IsBlock valued inLoop b) (hothers : IsOthers valued inLoop others) :
    IsOthers valued inLoop (.keyword .elseIf :: (e ++ [.marker .zeroJump] ++ b ++ others))
  | otherwise {inLoop : Bool} {b : List Element} (hb : IsBlock valued inLoop b) :
    IsOthers valued inLoop (.keyword .otherwise :: b)

/-- A scope around its statements. -/
inductive IsBlock (valued : Bool) : (inLoop : Bool) → List Element → Prop where
  | scope {inLoop : Bool} {inner : List Element} (hinner : IsStatements valued inLoop inner) :
    IsBlock valued inLoop (.marker .scopeOpen :: (inner ++ [.marker .scopeClose]))

/-- Statements in a row. -/
inductive IsStatements (valued : Bool) : (inLoop : Bool) → List Element → Prop where
  | nil {inLoop : Bool} : IsStatements valued inLoop []
  | cons {inLoop : Bool} {s rest : List Element} (hs : IsStatement valued inLoop s)
    (hrest : IsStatements valued inLoop rest) : IsStatements valued inLoop (s ++ rest)

end

/-- **The body of a function in linear form**, in which there is no loop to leave at
the outset. -/
inductive IsBody (valued : Bool) : List Element → Prop where
  | mk {inner : List Element} (hinner : IsStatements valued false inner) :
    IsBody valued (.marker .functionStart :: (inner ++ [.marker .functionEnd]))

variable {valued inLoop : Bool}

theorem IsStatements.alone {s : Stmt} (h : IsStatement valued inLoop s.linear) :
    IsStatements valued inLoop (blockLinear [s]) :=
  .cons h .nil

theorem IsStatements.append {xs ys : List Element} :
    IsStatements valued inLoop xs → IsStatements valued inLoop ys →
      IsStatements valued inLoop (xs ++ ys)
  | .nil, h => h
  | .cons hs hrest, h => by
    rw [List.append_assoc]
    exact .cons hs (hrest.append h)

theorem isOptional_getD {code : Option Code} (h : ∀ c ∈ code, c.Plain) :
    IsOptional (code.getD []) := by
  cases code with
  | none => exact .missing
  | some c => exact .present (h c rfl)

theorem isStatements_evals {codes : List Code} (h : ∀ code ∈ codes, code.Plain) :
    IsStatements valued inLoop (blockLinear (codes.map .eval)) := by
  induction codes with
  | nil => exact .nil
  | cons code codes ih =>
    rw [List.forall_mem_cons] at h
    exact .cons (.eval h.1) (ih h.2)

theorem blockLinear_append (body rest : List Stmt) :
    blockLinear (body ++ rest) = blockLinear body ++ blockLinear rest := by
  induction body with
  | nil => rfl
  | cons s body ih => rw [List.cons_append, blockLinear, ih, blockLinear, List.append_assoc]

end Linear

/-! ## Trees stand for sentences -/

namespace Written

open Linear Trace

theorem plain_one : Code.one.Plain :=
  ⟨List.cons_ne_nil _ _, List.forall_mem_singleton.2 rfl⟩

mutual

/-- **The statements of a tree are a sentence** if its expressions are operands and
operators. -/
theorem Statement.isStatements {valued inLoop : Bool} {Γ : Scopes} {s : Statement}
    (hfits : s.Fits valued inLoop) (h : ∀ code ∈ (s.trace Γ).codes, code.Plain) :
    IsStatements valued inLoop (blockLinear s.stmts) :=
  match s with
  | .empty => .nil
  | .declaration base names => by
    simp only [Statement.trace, codes_declarationTrace] at h
    exact isStatements_evals h
  | .expression e => .alone (.eval (h e.code List.mem_cons_self))
  | .giveBack none => .alone (.goBack hfits.symm)
  | .giveBack (some e) => .alone (.giveBack hfits.symm (h e.code List.mem_cons_self))
  | .leave => by
    rw [show inLoop = true from hfits]
    exact .alone .leave
  | .block inner => .alone (.block (.scope (isStatements_block hfits h)))
  | .branch condition body other => by
    simp only [Statement.trace, codes_append, codes_ofTokens, Expression.codes_bracketed,
      List.nil_append, List.forall_mem_append, List.forall_mem_singleton] at h
    exact .alone (.branch h.1.1 (Body.isBlock hfits.1 h.1.2) (Other.isOthers hfits.2 h.2))
  | .loop condition body => by
    simp only [Statement.trace, codes_append, codes_ofTokens, Expression.codes_bracketed,
      List.nil_append, List.forall_mem_append, List.forall_mem_singleton] at h
    exact .alone (.loop h.1 (Body.isBlock hfits h.2))
  | .count first condition step body => by
    simp only [Statement.trace, codes_append, codes_ofTokens, codes_enclosed,
      First.codes_trace, codes_headerTrace, List.nil_append, List.forall_mem_append,
      Option.mem_toList] at h
    obtain ⟨⟨hfirst, hcondition, hstep⟩, hbody⟩ := h
    have htested : Code.Plain ((condition.map Expression.code).getD .one) := by
      cases condition with
      | none => exact plain_one
      | some e => exact hcondition e.code rfl
    have hlast : ∀ code ∈ first.codes.getLast?, code.Plain := fun code hcode =>
      hfirst code (List.mem_of_getLast? hcode)
    -- a header declares several variables: all but the last are set before the loop
    rw [Statement.stmts, blockLinear_append]
    refine (isStatements_evals fun code hcode => ?_).append (.alone ?_)
    · exact hfirst code (List.mem_of_mem_dropLast hcode)
    · exact .count (isOptional_getD hlast) htested (isOptional_getD hstep)
        (Body.isBlock hfits hbody)

theorem Body.isBlock {valued inLoop : Bool} {Γ : Scopes} {b : Body}
    (hfits : b.Fits valued inLoop) (h : ∀ code ∈ (b.trace Γ).codes, code.Plain) :
    IsBlock valued inLoop (inScope (blockLinear b.stmts)) :=
  match b with
  | .braced _ => .scope (isStatements_block hfits h)
  | .single _ => .scope (Statement.isStatements hfits h)

theorem Other.isOthers {valued inLoop : Bool} {Γ : Scopes} {o : Other}
    (hfits : o.Fits valued inLoop) (h : ∀ code ∈ (o.trace Γ).codes, code.Plain) :
    IsOthers valued inLoop o.alternative.linear :=
  match o with
  | .none => .none
  | .elseIf condition body other => by
    simp only [Other.trace, codes_append, codes_ofTokens, Expression.codes_bracketed,
      List.nil_append, List.forall_mem_append, List.forall_mem_singleton] at h
    exact .elseIf h.1.1 (Body.isBlock hfits.1 h.1.2) (Other.isOthers hfits.2 h.2)
  | .otherwise _ => .otherwise (Body.isBlock hfits h)

theorem isStatements_block {valued inLoop : Bool} {Γ : Scopes} {inner : List Statement}
    (hfits : blockFits valued inLoop inner)
    (h : ∀ code ∈ (blockTrace Γ inner).codes, code.Plain) :
    IsStatements valued inLoop (blockLinear (blockStmts inner)) :=
  match inner with
  | [] => .nil
  | s :: rest => by
    simp only [blockTrace, codes_append, List.forall_mem_append] at h
    rw [blockStmts, blockLinear_append]
    exact (Statement.isStatements hfits.1 h.1).append (isStatements_block hfits.2 h.2)

end

end Written

/-- **Every body that is read is a sentence of the grammar.** A return in it has a
value just if the return type of the function is not `void`. -/
theorem SourceUnit.isBody_of_parse {tokens : List PlacedToken} {u : SourceUnit}
    (h : parse tokens = .ok u) {f : Function} (hf : f ∈ u.program.functions)
    {linear : List Element} (hbody : f.body = some linear) :
    Linear.IsBody (!f.returnType.isVoid) linear := by
  obtain ⟨items, hitems⟩ := parse_writtenAs h
  obtain ⟨Γ, base, stars, name, ps, body, frameSize, hplace, hread⟩ :=
    hitems.exists_definition hf hbody
  cases hread
  cases hbody
  have hplain : ∀ code ∈ (Written.blockTrace (Γ.enter.extend ps.placed) body).codes,
      code.Plain := by
    refine List.forall_mem_map.2 fun site hsite => ?_
    have hresolved := hitems.resolved site (Written.mem_sites_unitTrace.2 ⟨_, hplace, hsite⟩)
    exact hresolved.isReading.isExpression.plain
  exact .mk (Written.isStatements_block (hitems.fits _ hplace).1 hplain)

theorem SourceUnit.isBody_sampleTokens : ∃ u f linear, parse sampleTokens = .ok u ∧
    f ∈ u.program.functions ∧ f.body = some linear ∧
    Linear.IsBody (!f.returnType.isVoid) linear := by
  obtain ⟨u, hu, f, hf, hdefined, -⟩ := parse_sampleTokens
  obtain ⟨linear, hlinear⟩ := Option.isSome_iff_exists.1 hdefined
  exact ⟨u, f, linear, hu, hf, hlinear, isBody_of_parse hu hf hlinear⟩

end WordC
