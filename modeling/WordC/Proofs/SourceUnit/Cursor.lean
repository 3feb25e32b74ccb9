import Mathlib
import WordC.SourceUnit.Cursor
import WordC.Proofs.SourceUnit.Written
/-!
# What reading a token or an expression does

Each small step takes the tokens of a trace and does to the scopes what the trace
says (`Passes`). An expression that is read is resolved in the scopes that are
open.
-/

namespace WordC

/-! ## Locals -/

/-- The number of words of a variable. -/
def Variable.words (v : Variable) : Nat :=
  (v.length.map UInt64.toNat).getD 1

/-- **Locals in a frame.** In the order of their declaration they take the words
behind the first `low` ones, up to `high` of them, and each is addressed by the
lowest of its words. -/
inductive Allocated : Nat → Nat → List Variable → Prop where
  | nil {low} : Allocated low low []
  | cons {low high v vs} : 0 < v.words → low + v.words < 2 ^ 64 →
      v.storage = .frame (-Int64.ofNat (low + v.words)) →
      Allocated (low + v.words) high vs → Allocated low high (v :: vs)

theorem Allocated.high_lt {low high : Nat} {vs : List Variable} (h : Allocated low high vs)
    (hlow : low < 2 ^ 64) : high < 2 ^ 64 := by
  induction h with
  | nil => exact hlow
  | cons _ hlt _ _ ih => exact ih hlt

theorem Allocated.append {low mid high : Nat} {vs ws : List Variable}
    (h : Allocated low mid vs) (h' : Allocated mid high ws) : Allocated low high (vs ++ ws) := by
  induction h with
  | nil => exact h'
  | cons hpos hlt hstorage _ ih => exact .cons hpos hlt hstorage (ih h')

/-! ## Reading along a trace -/

/-- The tokens that are left to read. -/
def ReadState.text (s : ReadState) : List Token :=
  s.tokens.map PlacedToken.token

/-- What a call refers to. -/
def CallSite.called (c : CallSite) : String × Nat :=
  (c.name, c.arity)

namespace Read

variable {α β : Type} {s s' s₁ s₂ : ReadState} {t u : Trace}

/-- What a run that succeeds was made of. -/
theorem bind_eq_ok {x : Read α} {f : α → Read β} {r : β × ReadState} :
    (x >>= f) s = .ok r ↔ ∃ a s₁, x s = .ok (a, s₁) ∧ f a s₁ = .ok r := by
  change (x s >>= fun p => f p.1 p.2) = _ ↔ _
  cases x s with
  | error e => exact ⟨nofun, nofun⟩
  | ok p =>
    obtain ⟨a, s₁⟩ := p
    constructor
    · intro h
      exact ⟨a, s₁, rfl, h⟩
    · rintro ⟨a, s₁, h, h'⟩
      cases h
      exact h'

/-- A run that succeeds has not entered a part that fails. -/
theorem unless_eq_ok {c : Prop} [Decidable c] {x y : Read α} {r : α × ReadState}
    (h : (if c then x else y) s = .ok r) (hx : ∀ r, x s ≠ .ok r) : ¬ c ∧ y s = .ok r := by
  split at h
  · exact absurd h (hx r)
  · next hc => exact ⟨hc, h⟩

/-- **Reading passes along a trace.** Its tokens are taken, its variables declared in
the innermost scope, and the calls in its expressions recorded. The expressions
are resolved. If no open scope has two variables of one name, it stays so, and is
so at each expression and in each scope that is opened and closed. -/
structure Passes (s s' : ReadState) (t : Trace) : Prop where
  text : s.text = t.tokens ++ s'.text
  scopes : s'.scopes = s.scopes.extend t.declares
  calls : s'.calls.map CallSite.called =
    s.calls.map CallSite.called ++ t.sites.flatMap (·.code.calls)
  resolved : ∀ site ∈ t.sites, site.Resolved
  distinct : s.scopes.Distinct → s'.scopes.Distinct ∧
    (∀ site ∈ t.sites, site.scopes.Distinct) ∧
    ∀ scope ∈ t.scopes, (scope.map Variable.name).Nodup

/-- **Reading a part of an item.** No variable at file scope and no function is added. -/
structure Keeps (s s' : ReadState) (t : Trace) : Prop extends Passes s s' t where
  globals : s'.globals = s.globals
  declarations : s'.declarations = s.declarations

/-- **Reading a part of a body.** Its locals are laid out in the frame. -/
structure Takes (s s' : ReadState) (t : Trace) : Prop extends Keeps s s' t where
  allocated : Allocated s.frameSize s'.frameSize t.locals

theorem Passes.trans (h : Passes s s₁ t) (h' : Passes s₁ s₂ u) : Passes s s₂ (t ++ u) where
  text := by
    rw [h.text, h'.text, Trace.tokens_append, List.append_assoc]
  scopes := by
    rw [h'.scopes, h.scopes, Scopes.extend_extend, Trace.declares_append]
  calls := by
    rw [h'.calls, h.calls, Trace.sites_append, List.flatMap_append, List.append_assoc]
  resolved := List.forall_mem_append.2 ⟨h.resolved, h'.resolved⟩
  distinct hs := by
    obtain ⟨hs₁, hsites, hscopes⟩ := h.distinct hs
    obtain ⟨hs₂, hsites', hscopes'⟩ := h'.distinct hs₁
    exact ⟨hs₂, List.forall_mem_append.2 ⟨hsites, hsites'⟩,
      List.forall_mem_append.2 ⟨hscopes, hscopes'⟩⟩

/-- A scope that is opened and closed again leaves the scopes as they were. -/
theorem Passes.enclosed (h : Passes { s with scopes := s.scopes.enter } s₁ t) :
    Passes s { s₁ with scopes := s₁.scopes.exit } t.enclosed where
  text := h.text
  scopes := by
    change s₁.scopes.exit = s.scopes.extend []
    rw [h.scopes, Scopes.exit_extend_enter, Scopes.extend_nil]
  calls := h.calls
  resolved := h.resolved
  distinct hs := by
    obtain ⟨hs₁, hsites, hscopes⟩ := h.distinct (Scopes.distinct_enter.2 hs)
    have hclosed := hs₁.current
    rw [h.scopes, Scopes.current_extend] at hclosed
    refine ⟨?_, hsites, List.forall_mem_append.2 ⟨hscopes, List.forall_mem_singleton.2 hclosed⟩⟩
    change s₁.scopes.exit.Distinct
    rwa [h.scopes, Scopes.exit_extend_enter]

theorem Keeps.trans (h : Keeps s s₁ t) (h' : Keeps s₁ s₂ u) : Keeps s s₂ (t ++ u) where
  toPasses := h.toPasses.trans h'.toPasses
  globals := h'.globals.trans h.globals
  declarations := h'.declarations.trans h.declarations

theorem Keeps.enclosed (h : Keeps { s with scopes := s.scopes.enter } s₁ t) :
    Keeps s { s₁ with scopes := s₁.scopes.exit } t.enclosed where
  toPasses := h.toPasses.enclosed
  globals := h.globals
  declarations := h.declarations

theorem Takes.trans (h : Takes s s₁ t) (h' : Takes s₁ s₂ u) : Takes s s₂ (t ++ u) where
  toKeeps := h.toKeeps.trans h'.toKeeps
  allocated := h.allocated.append h'.allocated

theorem Takes.enclosed (h : Takes { s with scopes := s.scopes.enter } s₁ t) :
    Takes s { s₁ with scopes := s₁.scopes.exit } t.enclosed where
  toKeeps := h.toKeeps.enclosed
  allocated := h.allocated

/-- Only tokens are taken. -/
theorem takes_tokens {ts : List Token} (h : s' = { s with tokens := s'.tokens })
    (htext : s.text = ts ++ s'.text) : Takes s s' (.ofTokens ts) where
  text := htext
  scopes := by
    rw [h]
    exact (Scopes.extend_nil _).symm
  calls := by
    rw [h]
    exact (List.append_nil _).symm
  resolved := nofun
  distinct hs := by
    rw [h]
    exact ⟨hs, nofun, nofun⟩
  allocated := by
    rw [h]
    exact .nil
  globals := by rw [h]
  declarations := by rw [h]

theorem takes_nothing (s : ReadState) : Takes s s {} :=
  takes_tokens rfl rfl

/-- A trace that declares nothing leaves the scopes as they are. -/
theorem Passes.scopes_eq (h : Passes s s' t) (ht : t.declares = []) : s'.scopes = s.scopes := by
  rw [h.scopes, ht, Scopes.extend_nil]

/-! ## Tokens -/

theorem peek_ok {t : Token} (h : peek s = .ok (t, s')) : s' = s := by
  cases h
  rfl

theorem peek_eq {t : Token} (h : peek s = .ok (t, s')) : t = s.text.headD .eof := by
  cases h
  unfold ReadState.text
  cases s.tokens with
  | nil => rfl
  | cons u us => rfl

theorem head?_of_peek {t : Token} (h : peek s = .ok (t, s')) (ht : t ≠ .eof) :
    s.text.head? = some t := by
  have heq := peek_eq h
  cases htext : s.text with
  | nil =>
    rw [htext] at heq
    exact absurd heq ht
  | cons u us =>
    rw [htext] at heq
    rw [heq]
    rfl

theorem sees_ok {symbol : Symbol} {seen : Bool} (h : sees symbol s = .ok (seen, s')) :
    s' = s ∧ (seen = true ↔ s.text.head? = some (.symbol symbol)) := by
  obtain ⟨t, s₁, ht, h⟩ := bind_eq_ok.1 h
  have heq := peek_eq ht
  cases peek_ok ht
  have hsymbol : decide (t = .symbol symbol) = seen := congrArg Prod.fst (Except.ok.inj h)
  refine ⟨congrArg Prod.snd (Except.ok.inj h).symm, ?_⟩
  rw [← hsymbol, decide_eq_true_eq, heq]
  cases s.text with
  | nil => simp
  | cons u us => simp

theorem peekSecond_ok {t : Token} (h : peekSecond s = .ok (t, s')) :
    s' = s ∧ t = s.text.tail.headD .eof := by
  cases h
  refine ⟨rfl, ?_⟩
  unfold ReadState.text
  match s.tokens with
  | [] => rfl
  | [_] => rfl
  | _ :: _ :: _ => rfl

theorem position_ok {p : Position} (h : position s = .ok (p, s')) : s' = s := by
  cases h
  rfl

theorem enterScope_ok {u : Unit} (h : enterScope s = .ok (u, s')) :
    s' = { s with scopes := s.scopes.enter } := by
  cases h
  rfl

theorem exitScope_ok {u : Unit} (h : exitScope s = .ok (u, s')) :
    s' = { s with scopes := s.scopes.exit } := by
  cases h
  rfl

theorem takes_advance {t : Token} {u : Unit} (h : advance s = .ok (u, s'))
    (ht : s.text.head? = some t) : Takes s s' (.ofTokens [t]) := by
  cases h
  refine takes_tokens rfl ?_
  unfold ReadState.text at ht ⊢
  rw [List.map_tail]
  exact (List.cons_head?_tail ht).symm

theorem takes_expect {symbol : Symbol} {place : Place} {u : Unit}
    (h : expect symbol place s = .ok (u, s')) : Takes s s' (.ofTokens [.symbol symbol]) := by
  obtain ⟨t, s₁, ht, h⟩ := bind_eq_ok.1 h
  have htext := head?_of_peek ht
  cases peek_ok ht
  split at h
  · next hsymbol =>
    subst hsymbol
    exact takes_advance h (htext nofun)
  · cases h

theorem takes_expectName {place : Place} {name : String} {p : Position}
    (h : expectName place s = .ok ((name, p), s')) : Takes s s' (.ofTokens [.ident name]) := by
  obtain ⟨p', s₁, hp, h⟩ := bind_eq_ok.1 h
  cases position_ok hp
  obtain ⟨t, s₁, ht, h⟩ := bind_eq_ok.1 h
  have htext := head?_of_peek ht
  cases peek_ok ht
  cases t with
  | ident text =>
    obtain ⟨_, s₂, hadvance, h⟩ := bind_eq_ok.1 h
    cases h
    exact takes_advance hadvance (htext nofun)
  | _ => cases h

theorem takes_baseType {type : DataType} (h : baseType s = .ok (type, s')) :
    ∃ base : BaseType, type = base.dataType ∧ Takes s s' (.ofTokens [.type base]) := by
  obtain ⟨t, s₁, ht, h⟩ := bind_eq_ok.1 h
  have htext := head?_of_peek ht
  cases peek_ok ht
  cases t with
  | type base =>
    obtain ⟨_, s₂, hadvance, h⟩ := bind_eq_ok.1 h
    cases h
    exact ⟨base, rfl, takes_advance hadvance (htext nofun)⟩
  | _ => cases h

/-- Each star makes a pointer of the type before it. -/
theorem takes_pointers {base type : DataType} (h : pointers base s = .ok (type, s')) :
    ∃ stars, type = DataType.pointer^[stars] base ∧
      Takes s s' (.ofTokens (List.replicate stars (.symbol .star))) := by
  cases h
  have hstars : (s.tokens.takeWhile (·.token = .symbol .star)).map PlacedToken.token =
      List.replicate (s.tokens.takeWhile (·.token = .symbol .star)).length (.symbol .star) := by
    refine List.eq_replicate_iff.2 ⟨List.length_map _, List.forall_mem_map.2 fun t ht => ?_⟩
    simpa using List.mem_takeWhile_imp ht
  refine ⟨_, List.foldl_const _ _ _, takes_tokens rfl ?_⟩
  rw [← hstars]
  unfold ReadState.text
  rw [← List.map_append, List.prefix_iff_eq_append.1 (List.takeWhile_prefix _)]

theorem declareVariable_ok {p : Position} {v : Variable} {u : Unit}
    (h : declareVariable p v s = .ok (u, s')) :
    s.scopes.current.find? v.name = none ∧ s' = { s with scopes := s.scopes.extend [v] } := by
  obtain ⟨_, s₁, hs, h⟩ := bind_eq_ok.1 h
  cases hs
  cases hdeclare : s.scopes.declare v with
  | error e =>
    simp only [hdeclare] at h
    cases h
  | ok scopes =>
    simp only [hdeclare] at h
    cases h
    obtain ⟨hnone, rfl⟩ := Scopes.declare_eq_ok.1 hdeclare
    exact ⟨hnone, rfl⟩

/-- Declaring a variable takes no tokens. -/
theorem keeps_declareVariable {p : Position} {v : Variable} {u : Unit}
    (h : declareVariable p v s = .ok (u, s')) : Keeps s s' { declares := [v] } := by
  obtain ⟨hnone, rfl⟩ := declareVariable_ok h
  exact ⟨⟨rfl, rfl, (List.append_nil _).symm, nofun, fun hs => ⟨hs.extend hnone, nofun, nofun⟩⟩,
    rfl, rfl⟩

/-! ## Expressions -/

theorem map_called_callSites (p : Position) (code : Code) :
    (callSites p code).map CallSite.called = code.calls := by
  unfold callSites Code.calls
  rw [List.map_filterMap]
  refine List.filterMap_congr fun e _ => ?_
  cases e with
  | operand o => cases o <;> rfl
  | _ => rfl

/-- The tokens up to the end of an expression were taken by its builder. -/
theorem collect_ok {scopes : Scopes} {ending : Ending} {tokens rest : List PlacedToken}
    {b b' : Builder} (h : collect scopes ending b tokens = .ok (b', rest)) :
    ∃ ts, tokens = ts ++ rest ∧
      ((ts.map PlacedToken.token).forM (Builder.addToken scopes) : Build Unit) b = .ok () b' := by
  induction tokens generalizing b with
  | nil => cases h
  | cons t tokens ih =>
    rw [collect] at h
    split at h
    · cases h
      exact ⟨[], rfl, rfl⟩
    · split at h
      · cases h
      · split at h
        · next hadd =>
          obtain ⟨ts, rfl, hts⟩ := ih h
          exact ⟨t :: ts, rfl, (forM_cons_ok hadd).trans hts⟩
        · cases h

/-- A draft whose builder is empty has read nothing. -/
theorem eq_start_of_isEmpty {d : Draft} (h : d.builder.isEmpty = true) : d = {} := by
  obtain ⟨hand, waiting, around⟩ := d
  simp only [Builder.isEmpty, Builder.isNested, Draft.builder, Enclosing.level, Bool.and_eq_true,
    List.isEmpty_iff, List.append_eq_nil_iff, List.map_eq_nil_iff] at h
  obtain ⟨⟨⟨hexpecting, hwaiting, -⟩, -⟩, hnested⟩ := h
  have haround : around = [] := by
    cases around with
    | nil => rfl
    | cons e r => cases e <;> simp [Enclosing.brackets, Enclosing.indexes] at hnested
  have hhand : hand = .nothing := by
    cases hand with
    | nothing => rfl
    | _ => cases hexpecting
  rw [hwaiting, haround, hhand]

/-- A builder that is empty has taken no tokens. -/
theorem eq_nil_of_isEmpty {scopes : Scopes} {ts : List Token} {b : Builder}
    (h : (ts.forM (Builder.addToken scopes) : Build Unit) {} = .ok () b)
    (hempty : b.isEmpty = true) : ts = [] := by
  obtain ⟨d, rfl, hrun⟩ := Builder.exists_draft_of_addTokens h
  have hreads : Draft.Reads scopes ts d := Draft.reads_start.run hrun
  rw [eq_start_of_isEmpty hempty] at hreads
  obtain ⟨rs, us, vs, rfl, hrs, hus, hvs⟩ := hreads
  cases hrs
  cases hus
  cases hvs
  rfl

/-- What was read of an expression begun in `b`: tokens behind those that `b` has
taken, and the code that the builder makes of them. -/
theorem continueExpression_ok {ending : Ending} {b : Builder} {found : Option Code}
    (h : continueExpression ending b s = .ok (found, s')) :
    ∃ ts : List Token, s.text = ts ++ s'.text ∧
      s' = { s with tokens := s'.tokens, calls := s'.calls } ∧
      s'.calls.map CallSite.called =
        s.calls.map CallSite.called ++ (found.map Code.calls).getD [] ∧
      ∃ b₁, (ts.forM (Builder.addToken s.scopes) : Build Unit) b = .ok () b₁ ∧
        (found = none → b₁.isEmpty = true) ∧
        ∀ code ∈ found, ∃ b₂, Builder.finish b₁ = .ok code b₂ := by
  obtain ⟨start, s₁, hp, h⟩ := bind_eq_ok.1 h
  cases position_ok hp
  obtain ⟨_, s₁, hs, h⟩ := bind_eq_ok.1 h
  cases hs
  obtain ⟨⟨b₁, rest⟩, s₁, hlift, h⟩ := bind_eq_ok.1 h
  -- collecting only reads the tokens; the state moves on after it
  have hcollect : collect s.scopes ending b s.tokens = .ok (b₁, rest) ∧ s₁ = s := by
    change (collect s.scopes ending b s.tokens >>= fun a => pure (a, s)) = _ at hlift
    cases hc : collect s.scopes ending b s.tokens with
    | error e =>
      rw [hc] at hlift
      cases hlift
    | ok a =>
      rw [hc] at hlift
      cases hlift
      exact ⟨rfl, rfl⟩
  obtain ⟨hcollect, rfl⟩ := hcollect
  obtain ⟨ts, htokens, hts⟩ := collect_ok hcollect
  have htext : s₁.text = ts.map PlacedToken.token ++ rest.map PlacedToken.token := by
    rw [← List.map_append, ← htokens]
    rfl
  obtain ⟨_, s₂, hset, h⟩ := bind_eq_ok.1 h
  cases hset
  refine ⟨ts.map PlacedToken.token, ?_⟩
  split at h
  · next hempty =>
    cases h
    exact ⟨htext, rfl, (List.append_nil _).symm, b₁, hts, fun _ => hempty, nofun⟩
  · cases hfinish : Builder.finish b₁ with
    | error e b₂ =>
      simp only [hfinish] at h
      cases h
    | ok code b₂ =>
      simp only [hfinish] at h
      cases h
      refine ⟨htext, rfl, ?_, b₁, hts, nofun, fun code' hcode => ?_⟩
      · rw [List.map_append, map_called_callSites]
        rfl
      · cases hcode
        exact ⟨b₂, hfinish⟩

/-- What the builder makes of tokens resolves them. -/
theorem resolved_of_read {scopes : Scopes} {ts : List Token} {code : Code} {b : Builder}
    (h : Builder.readExpression scopes ts {} = .ok code b) :
    (⟨scopes, ts, code⟩ : Site).Resolved := by
  obtain ⟨e, he⟩ := Builder.derives_of_readExpression h
  rw [Builder.readExpression_of_derives he] at h
  cases h
  exact ⟨e, he, rfl⟩

/-- Taking the tokens of an expression. -/
theorem takes_site {ts : List Token} {site : Site} (htext : s.text = ts ++ s'.text)
    (hsame : s' = { s with tokens := s'.tokens, calls := s'.calls })
    (hcalls : s'.calls.map CallSite.called = s.calls.map CallSite.called ++ site.code.calls)
    (hscopes : site.scopes = s.scopes) (hresolved : site.Resolved) :
    Takes s s' { tokens := ts, sites := [site] } where
  text := htext
  scopes := by
    rw [hsame]
    exact (Scopes.extend_nil _).symm
  calls := by
    rw [hcalls, List.flatMap_singleton]
  resolved := List.forall_mem_singleton.2 hresolved
  distinct hs := by
    rw [hsame]
    exact ⟨hs, List.forall_mem_singleton.2 (hscopes ▸ hs), nofun⟩
  allocated := by
    rw [hsame]
    exact .nil
  globals := by rw [hsame]
  declarations := by rw [hsame]

/-- An expression that may be missing. -/
theorem takes_optionalExpression {ending : Ending} {found : Option Code}
    (h : optionalExpression ending s = .ok (found, s')) :
    ∃ e : Option Written.Expression, found = e.map (·.code) ∧
      Takes s s' (Written.optionalTrace s.scopes e) := by
  obtain ⟨ts, htext, hsame, hcalls, b₁, hts, hnone, hsome⟩ := continueExpression_ok h
  cases found with
  | none =>
    obtain rfl := eq_nil_of_isEmpty hts (hnone rfl)
    refine ⟨none, rfl, ⟨⟨⟨htext, ?_, hcalls, nofun, fun hs => ⟨?_, nofun, nofun⟩⟩, ?_, ?_⟩, ?_⟩⟩
    all_goals rw [hsame]
    · exact (Scopes.extend_nil _).symm
    · exact hs
    · exact .nil
  | some code =>
    obtain ⟨b₂, hfinish⟩ := hsome code rfl
    have hresolved := resolved_of_read ((bind_ok hts).trans hfinish)
    exact ⟨some ⟨ts, code⟩, rfl, takes_site htext hsame hcalls rfl hresolved⟩

theorem requireExpression_ok {ending : Ending} {b : Builder} {code : Code}
    (h : requireExpression ending b s = .ok (code, s')) :
    continueExpression ending b s = .ok (some code, s') := by
  obtain ⟨found, s₁, hfound, h⟩ := bind_eq_ok.1 h
  cases found with
  | none => cases h
  | some c =>
    cases h
    exact hfound

theorem takes_expression {ending : Ending} {code : Code}
    (h : expression ending s = .ok (code, s')) :
    ∃ e : Written.Expression, code = e.code ∧ Takes s s' (e.trace s.scopes) := by
  obtain ⟨e, hfound, htakes⟩ := takes_optionalExpression (requireExpression_ok h)
  cases e with
  | none => cases hfound
  | some e => exact ⟨e, Option.some.inj hfound, htakes⟩

end Read

end WordC
