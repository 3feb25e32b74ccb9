import Mathlib
import WordC.SourceUnit.Body
import WordC.Proofs.SourceUnit.Cursor
/-!
# Bodies are read as trees

Each rule for statements reads a tree: what it yields are the statements that the
tree stands for, and the state has passed along the tree's trace (`Reads`).
-/

namespace WordC

namespace Read

open Written

variable {s s' s₁ s₂ : ReadState}

/-! ## Declarations -/

theorem toUInt64_pos {n : Int64} (h : 0 < n.toInt) : 0 < n.toUInt64.toNat := by
  obtain ⟨u⟩ := n
  refine Nat.pos_of_ne_zero fun hzero => ?_
  obtain rfl : u = 0 := UInt64.toNat.inj hzero
  exact absurd h (by decide)

theorem takes_arrayLength {length : Option UInt64} (h : arrayLength s = .ok (length, s')) :
    ∃ size : Option Int64, length = size.map Int64.toUInt64 ∧ (∀ n ∈ length, 0 < n.toNat) ∧
      Takes s s' (.ofTokens (Declarator.sizeTokens size)) := by
  obtain ⟨seen, s₁, hseen, h⟩ := bind_eq_ok.1 h
  obtain ⟨hs, hopen⟩ := sees_ok hseen
  cases hs
  cases seen with
  | false =>
    cases h
    exact ⟨none, rfl, nofun, takes_nothing s⟩
  -- between the brackets only a positive number is taken
  | true =>
    obtain ⟨_, s₂, hadvance, h⟩ := bind_eq_ok.1 h
    have hfirst := takes_advance hadvance (hopen.1 rfl)
    obtain ⟨t, s₃, ht, h⟩ := bind_eq_ok.1 h
    have htext := head?_of_peek ht
    cases peek_ok ht
    split at h
    · next n =>
      split at h
      · next hpos =>
        obtain ⟨_, s₄, hadvance', h⟩ := bind_eq_ok.1 h
        have hsecond := takes_advance hadvance' (htext nofun)
        obtain ⟨_, s₅, hclose, h⟩ := bind_eq_ok.1 h
        cases h
        refine ⟨some n, rfl, ?_, (hfirst.trans hsecond).trans (takes_expect hclose)⟩
        rintro _ ⟨⟩
        exact toUInt64_pos hpos
      · cases h
    · cases h

theorem reserve_ok {words : Nat} {offset : Int64} (h : reserve words s = .ok (offset, s')) :
    s.frameSize + words < 2 ^ 64 ∧ offset = -Int64.ofNat (s.frameSize + words) ∧
      s' = { s with frameSize := s.frameSize + words } := by
  obtain ⟨_, s₁, hs, h⟩ := bind_eq_ok.1 h
  cases hs
  split at h
  · next hsize =>
    cases h
    exact ⟨hsize.1, rfl, rfl⟩
  · cases h

/-- Reserving the words of a local and declaring it. -/
theorem takes_declare {offset : Int64} {p : Position} {u : Unit} {v : Variable}
    (hreserve : reserve v.words s = .ok (offset, s₁))
    (hdeclare : declareVariable p v s₁ = .ok (u, s')) (hpos : 0 < v.words)
    (hstorage : v.storage = .frame offset) : Takes s s' { declares := [v], locals := [v] } := by
  obtain ⟨hsize, rfl, rfl⟩ := reserve_ok hreserve
  have hkeeps := keeps_declareVariable hdeclare
  obtain ⟨-, rfl⟩ := declareVariable_ok hdeclare
  refine ⟨⟨⟨hkeeps.text, hkeeps.scopes, hkeeps.calls, nofun, hkeeps.distinct⟩, rfl, rfl⟩, ?_⟩
  exact .cons hpos hsize hstorage .nil

/-- An initialiser begins as the tokens of an assignment to the variable would. -/
theorem initialiser_ok {scopes : Scopes} {v : Variable} {b : Builder}
    (h : initialiser v = .ok b) (hfind : scopes.find? v.name = some v) (ts : List Token) :
    ((.ident v.name :: .symbol .assign :: ts).forM (Builder.addToken scopes) : Build Unit) {} =
      (ts.forM (Builder.addToken scopes) : Build Unit) b := by
  have hname : Builder.addToken scopes (.ident v.name) = Builder.addVariable v := by
    change Builder.addName scopes v.name = _
    rw [Builder.addName, hfind]
  unfold initialiser at h
  split at h
  · next hassign =>
    cases h
    obtain ⟨_, b₁, hvar, hassign⟩ := WordC.bind_eq_ok.1 hassign
    rw [← hname] at hvar
    rw [forM_cons_ok hvar]
    exact forM_cons_ok hassign
  · cases h

/-- An initialiser is resolved as an assignment, with its variable in scope. -/
theorem takes_initialiser {v : Variable} {b : Builder} {ending : Ending} {code : Code}
    (hb : initialiser v = .ok b) (hfind : s.scopes.find? v.name = some v)
    (h : requireExpression ending b s = .ok (code, s')) :
    ∃ ts, Takes s s'
      { tokens := ts, sites := [⟨s.scopes, .ident v.name :: .symbol .assign :: ts, code⟩] } := by
  obtain ⟨ts, htext, hsame, hcalls, b₁, hts, -, hsome⟩ :=
    continueExpression_ok (requireExpression_ok h)
  obtain ⟨b₂, hfinish⟩ := hsome code rfl
  have hread : Builder.readExpression s.scopes (.ident v.name :: .symbol .assign :: ts) {} =
      .ok code b₂ :=
    (bind_ok ((initialiser_ok hb hfind ts).trans hts)).trans hfinish
  exact ⟨ts, takes_site htext hsame hcalls rfl (resolved_of_read hread)⟩

/-- **A rule reads trees.** Where it succeeds, its result is the value of a tree of
which `P` holds, and the state has passed along the trace of the tree. -/
def Reads {α τ : Type} (value : τ → α) (trace : Scopes → τ → Trace) (P : τ → Prop)
    (x : Read α) : Prop :=
  ∀ s a s', x s = .ok (a, s') → ∃ t, a = value t ∧ P t ∧ Takes s s' (trace s.scopes t)

theorem reads_declarator (base : DataType) :
    Reads (fun d : Declarator => d.value.map (·.code)) (fun Γ d => d.trace base Γ)
      (fun _ => True) (declarator base) := by
  intro s found s' h
  obtain ⟨type, s₁, htype, h⟩ := bind_eq_ok.1 h
  obtain ⟨stars, rfl, hstars⟩ := takes_pointers htype
  obtain ⟨⟨name, p⟩, s₂, hname, h⟩ := bind_eq_ok.1 h
  obtain ⟨-, h⟩ := unless_eq_ok h nofun
  obtain ⟨length, s₃, hlength, h⟩ := bind_eq_ok.1 h
  obtain ⟨size, rfl, hpos, hsize⟩ := takes_arrayLength hlength
  obtain ⟨offset, s₄, hreserve, h⟩ := bind_eq_ok.1 h
  obtain ⟨_, s₅, hdeclare, h⟩ := bind_eq_ok.1 h
  obtain ⟨seen, s₆, hseen, h⟩ := bind_eq_ok.1 h
  obtain ⟨hs, hassign⟩ := sees_ok hseen
  cases hs
  have hwords : 0 < ((size.map Int64.toUInt64).map UInt64.toNat).getD 1 := by
    cases size with
    | none => exact Nat.one_pos
    | some n => exact hpos _ rfl
  have hhead := (hstars.trans (takes_expectName hname)).trans hsize
  have hvariable := hhead.trans (takes_declare
    (v := ⟨name, DataType.pointer^[stars] base, .frame offset, size.map Int64.toUInt64⟩)
    hreserve hdeclare hwords rfl)
  cases seen with
  | false =>
    cases h
    exact ⟨⟨stars, name, size, offset, none⟩, rfl, trivial, hvariable.trans (takes_nothing _)⟩
  | true =>
    rw [if_pos rfl] at h
    obtain ⟨-, h⟩ := unless_eq_ok h nofun
    obtain ⟨p', s₇, hp, h⟩ := bind_eq_ok.1 h
    cases position_ok hp
    obtain ⟨_, s₇, hadvance, h⟩ := bind_eq_ok.1 h
    have hequals := takes_advance hadvance (hassign.1 rfl)
    -- behind the name, its variable is the one that the name stands for
    have hscopes : s₇.scopes = s.scopes.extend
        [⟨name, DataType.pointer^[stars] base, .frame offset, size.map Int64.toUInt64⟩] := by
      rw [hequals.scopes_eq rfl]
      exact hvariable.scopes
    have hfind : s₇.scopes.find? name =
        some ⟨name, DataType.pointer^[stars] base, .frame offset, size.map Int64.toUInt64⟩ := by
      obtain ⟨hnone, rfl⟩ := declareVariable_ok hdeclare
      rw [hequals.scopes_eq rfl]
      exact Scopes.find?_extend hnone
    cases hb : initialiser ⟨name, DataType.pointer^[stars] base, .frame offset,
        size.map Int64.toUInt64⟩ with
    | error e =>
      simp only [hb] at h
      cases h
    | ok b =>
      simp only [hb] at h
      obtain ⟨code, s₈, hcode, h⟩ := bind_eq_ok.1 h
      cases h
      obtain ⟨ts, hvalue⟩ := takes_initialiser hb hfind hcode
      rw [hscopes] at hvalue
      exact ⟨⟨stars, name, size, offset, some ⟨ts, code⟩⟩, rfl, trivial,
        hvariable.trans (hequals.trans hvalue)⟩

theorem reads_declarators (base : DataType) (limit : Nat) :
    Reads Declarators.codes (fun Γ names => names.trace base Γ) (fun _ => True)
      (declarators base limit) := by
  induction limit with
  | zero => nofun
  | succ limit ih =>
    intro s codes s' h
    obtain ⟨found, s₁, hfound, h⟩ := bind_eq_ok.1 h
    obtain ⟨d, rfl, -, hd⟩ := reads_declarator base s found s₁ hfound
    obtain ⟨seen, s₂, hseen, h⟩ := bind_eq_ok.1 h
    obtain ⟨hs, hcomma⟩ := sees_ok hseen
    cases hs
    cases seen with
    | true =>
      obtain ⟨_, s₂, hadvance, h⟩ := bind_eq_ok.1 h
      obtain ⟨rest, s₃, hrest, h⟩ := bind_eq_ok.1 h
      cases h
      have hmore := hd.trans (takes_advance hadvance (hcomma.1 rfl))
      obtain ⟨names, rfl, -, hnames⟩ := ih s₂ rest s' hrest
      -- a name is visible to the declarators behind it
      have hscopes : s₂.scopes = s.scopes.extend [d.declared base] := by
        rw [hmore.scopes, Trace.declares_append, d.declares_trace]
        rfl
      rw [hscopes] at hnames
      exact ⟨.more d names, rfl, trivial, hmore.trans hnames⟩
    | false =>
      obtain ⟨_, s₂, hend, h⟩ := bind_eq_ok.1 h
      cases h
      exact ⟨.last d, rfl, trivial, hd.trans (takes_expect hend)⟩

/-- A declaration, by the type and the names it has. -/
theorem reads_declaration :
    Reads (fun d : BaseType × Declarators => d.2.codes) (fun Γ d => declarationTrace Γ d.1 d.2)
      (fun _ => True) declaration := by
  intro s codes s' h
  obtain ⟨type, s₁, hbase, h⟩ := bind_eq_ok.1 h
  obtain ⟨base, rfl, htype⟩ := takes_baseType hbase
  obtain ⟨_, _, hs, h⟩ := bind_eq_ok.1 h
  cases hs
  obtain ⟨names, rfl, -, hnames⟩ := reads_declarators _ _ s₁ codes s' h
  rw [htype.scopes_eq rfl] at hnames
  exact ⟨(base, names), rfl, trivial, htype.trans hnames⟩

/-! ## Parts of statements -/

theorem reads_condition (place : Place) :
    Reads Expression.code (fun Γ e => e.bracketed Γ) (fun _ => True) (condition place) := by
  intro s code s' h
  obtain ⟨_, s₁, hopen, h⟩ := bind_eq_ok.1 h
  obtain ⟨code', s₂, hcode, h⟩ := bind_eq_ok.1 h
  obtain ⟨_, s₃, hclose, h⟩ := bind_eq_ok.1 h
  cases h
  have hfirst := takes_expect hopen
  obtain ⟨e, rfl, he⟩ := takes_expression hcode
  rw [hfirst.scopes_eq rfl] at he
  exact ⟨e, rfl, trivial, (hfirst.trans he).trans (takes_expect hclose)⟩

theorem reads_loopFirst : Reads First.codes (fun Γ f => f.trace Γ) (fun _ => True) loopFirst := by
  intro s codes s' h
  obtain ⟨t, s₁, ht, h⟩ := bind_eq_ok.1 h
  cases peek_ok ht
  split at h
  · obtain ⟨⟨base, names⟩, rfl, -, hnames⟩ := reads_declaration s codes s' h
    exact ⟨.declaration base names, rfl, trivial, hnames⟩
  · obtain ⟨found, s₁, hfound, h⟩ := bind_eq_ok.1 h
    obtain ⟨e, rfl, he⟩ := takes_optionalExpression hfound
    obtain ⟨_, s₂, hend, h⟩ := bind_eq_ok.1 h
    cases h
    exact ⟨.expression e, rfl, trivial, he.trans (takes_expect hend)⟩

/-- The header of a counting loop. Behind its first part, what that part declares is
in scope. -/
theorem reads_loopHeader :
    Reads (fun h : First × Option Expression × Option Expression =>
        (h.1.codes, (h.2.1.map (·.code)).getD Code.one, h.2.2.map (·.code)))
      (fun Γ h => h.1.trace Γ ++ headerTrace (Γ.extend (h.1.trace Γ).declares) h.2.1 h.2.2)
      (fun _ => True) loopHeader := by
  intro s header s' h
  obtain ⟨codes, s₁, hcodes, h⟩ := bind_eq_ok.1 h
  obtain ⟨first, rfl, -, hfirst⟩ := reads_loopFirst s codes s₁ hcodes
  obtain ⟨found, s₂, hfound, h⟩ := bind_eq_ok.1 h
  obtain ⟨condition, rfl, hcondition⟩ := takes_optionalExpression hfound
  obtain ⟨_, s₃, hend, h⟩ := bind_eq_ok.1 h
  have hmiddle := hcondition.trans (takes_expect hend)
  obtain ⟨found', s₄, hfound', h⟩ := bind_eq_ok.1 h
  obtain ⟨step, rfl, hstep⟩ := takes_optionalExpression hfound'
  obtain ⟨_, s₅, hclose, h⟩ := bind_eq_ok.1 h
  cases h
  -- the condition declares nothing
  have hscopes : s₃.scopes = s₁.scopes := by
    refine hmiddle.scopes_eq ?_
    cases condition <;> rfl
  rw [hscopes] at hstep
  have hrest := (hmiddle.trans hstep).trans (takes_expect hclose)
  rw [hfirst.scopes] at hrest
  exact ⟨(first, condition, step), rfl, trivial, hfirst.trans hrest⟩

/-- A return has a value just if the function has one to return. -/
theorem takes_returnStatement {around : Surroundings} {stmt : Stmt}
    (h : returnStatement around s = .ok (stmt, s'))
    (hword : s.text.head? = some (.reserved .returnWord)) :
    ∃ value : Option Expression, stmt = .ret (value.map (·.code)) ∧
      value.isSome = !around.returnType.isVoid ∧
      Takes s s' ((Statement.giveBack value).trace s.scopes) := by
  obtain ⟨p, s₁, hp, h⟩ := bind_eq_ok.1 h
  cases position_ok hp
  obtain ⟨_, s₁, hadvance, h⟩ := bind_eq_ok.1 h
  have hreturn := takes_advance hadvance hword
  obtain ⟨seen, s₂, hseen, h⟩ := bind_eq_ok.1 h
  obtain ⟨hs, hend⟩ := sees_ok hseen
  cases hs
  cases seen with
  -- without a value, as in a `void` function
  | true =>
    rw [if_pos rfl] at h
    obtain ⟨hvoid, h⟩ := unless_eq_ok h nofun
    obtain ⟨_, s₂, hadvance', h⟩ := bind_eq_ok.1 h
    cases h
    refine ⟨none, rfl, by simpa using hvoid, ?_⟩
    exact (hreturn.trans (takes_nothing _)).trans (takes_advance hadvance' (hend.1 rfl))
  | false =>
    rw [if_neg nofun] at h
    obtain ⟨hvoid, h⟩ := unless_eq_ok h nofun
    obtain ⟨code, s₂, hcode, h⟩ := bind_eq_ok.1 h
    obtain ⟨e, rfl, he⟩ := takes_expression hcode
    obtain ⟨_, s₃, hend, h⟩ := bind_eq_ok.1 h
    cases h
    rw [hreturn.scopes_eq rfl] at he
    refine ⟨some e, rfl, by simpa using hvoid, ?_⟩
    exact (hreturn.trans he).trans (takes_expect hend)

theorem takes_breakStatement {around : Surroundings} {stmt : Stmt}
    (h : breakStatement around s = .ok (stmt, s'))
    (hword : s.text.head? = some (.reserved .breakWord)) :
    stmt = .leave ∧ around.inLoop = true ∧ Takes s s' (Statement.leave.trace s.scopes) := by
  obtain ⟨hloop, h⟩ := unless_eq_ok h nofun
  obtain ⟨_, s₁, hadvance, h⟩ := bind_eq_ok.1 h
  obtain ⟨_, s₂, hend, h⟩ := bind_eq_ok.1 h
  cases h
  exact ⟨rfl, by simpa using hloop, (takes_advance hadvance hword).trans (takes_expect hend)⟩

theorem takes_expressionStatement {stmt : Stmt} (h : expressionStatement s = .ok (stmt, s')) :
    ∃ e : Expression, stmt = .eval e.code ∧
      Takes s s' ((Statement.expression e).trace s.scopes) := by
  obtain ⟨code, s₁, hcode, h⟩ := bind_eq_ok.1 h
  obtain ⟨e, rfl, he⟩ := takes_expression hcode
  obtain ⟨_, s₂, hend, h⟩ := bind_eq_ok.1 h
  cases h
  exact ⟨e, rfl, he.trans (takes_expect hend)⟩

/-! ## Statements -/

/-- **All rules for statements**, at one limit on the rules that may be entered. A
body that begins with a brace is a block. -/
structure BodyRules (limit : Nat) : Prop where
  statement (around : Surroundings) :
    Reads Statement.stmts Statement.trace (Statement.Fits (!around.returnType.isVoid) around.inLoop)
      (statement around limit)
  body (around : Surroundings) : ∀ s stmts s', Read.body around limit s = .ok (stmts, s') →
    ∃ b : Body, stmts = b.stmts ∧ b.Fits (!around.returnType.isVoid) around.inLoop ∧
      Takes s s' (b.trace s.scopes) ∧
      (s.text.head? = some (.symbol .braceOpen) → ∃ inner, b = .braced inner)
  statements (around : Surroundings) :
    Reads blockStmts blockTrace (blockFits (!around.returnType.isVoid) around.inLoop)
      (statements around limit)
  alternative (around : Surroundings) :
    Reads Other.alternative Other.trace (Other.Fits (!around.returnType.isVoid) around.inLoop)
      (alternative around limit)

namespace BodyRules

variable {limit : Nat} (h : BodyRules limit) (around : Surroundings)

include h

/-- A branch, behind its first word. -/
theorem takes_branch {place : Place} {code : Code} {stmts : List Stmt} {other : Alternative}
    (hcode : condition place s = .ok (code, s₁))
    (hbody : Read.body around limit s₁ = .ok (stmts, s₂))
    (hother : Read.alternative around limit s₂ = .ok (other, s')) :
    ∃ (e : Expression) (b : Body) (o : Other), code = e.code ∧ stmts = b.stmts ∧
      other = o.alternative ∧ b.Fits (!around.returnType.isVoid) around.inLoop ∧
      o.Fits (!around.returnType.isVoid) around.inLoop ∧
      Takes s s' (e.bracketed s.scopes ++ b.trace s.scopes ++ o.trace s.scopes) := by
  obtain ⟨e, rfl, -, he⟩ := reads_condition place s code s₁ hcode
  obtain ⟨b, rfl, hfits, hb, -⟩ := h.body around s₁ stmts s₂ hbody
  obtain ⟨o, rfl, hfits', ho⟩ := h.alternative around s₂ other s' hother
  rw [hb.scopes_eq (b.declares_trace _), he.scopes_eq rfl] at ho
  rw [he.scopes_eq rfl] at hb
  exact ⟨e, b, o, rfl, rfl, rfl, hfits, hfits', (he.trans hb).trans ho⟩

/-- A counting loop, in the scope around its header and its body. -/
theorem takes_count {codes : List Code} {code : Code} {step : Option Code} {stmts : List Stmt}
    (hheader : loopHeader { s with scopes := s.scopes.enter } = .ok ((codes, code, step), s₁))
    (hbody : Read.body { around with inLoop := true } limit s₁ = .ok (stmts, s₂)) :
    ∃ (first : First) (c e : Option Expression) (b : Body), codes = first.codes ∧
      code = (c.map (·.code)).getD Code.one ∧ step = e.map (·.code) ∧
      stmts = b.stmts ∧ b.Fits (!around.returnType.isVoid) true ∧
      Takes s { s₂ with scopes := s₂.scopes.exit } (first.trace s.scopes.enter ++
        headerTrace (s.scopes.enter.extend (first.trace s.scopes.enter).declares) c e ++
        b.trace (s.scopes.enter.extend (first.trace s.scopes.enter).declares)).enclosed := by
  obtain ⟨⟨first, c, e⟩, hvalue, -, hfirst⟩ := reads_loopHeader _ _ s₁ hheader
  obtain ⟨b, rfl, hfits, hb, -⟩ := h.body _ s₁ stmts s₂ hbody
  cases hvalue
  have hscopes : s₁.scopes = s.scopes.enter.extend (first.trace s.scopes.enter).declares := by
    have hdeclares : ∀ Γ, (headerTrace Γ c e).declares = [] := by
      intro Γ
      cases c <;> cases e <;> rfl
    rw [hfirst.scopes, Trace.declares_append, hdeclares, List.append_nil]
  rw [hscopes] at hb
  exact ⟨first, c, e, b, rfl, rfl, rfl, rfl, hfits, (hfirst.trans hb).enclosed⟩

theorem statement_succ :
    Reads Statement.stmts Statement.trace (Statement.Fits (!around.returnType.isVoid) around.inLoop)
      (Read.statement around (limit + 1)) := by
  intro s stmts s' hrun
  rw [Read.statement] at hrun
  obtain ⟨t, s₁, ht, hrun⟩ := bind_eq_ok.1 hrun
  have hhead := head?_of_peek ht
  cases peek_ok ht
  split at hrun
  -- a declaration
  · obtain ⟨codes, s₁, hcodes, hrun⟩ := bind_eq_ok.1 hrun
    cases hrun
    obtain ⟨⟨base, names⟩, rfl, -, hnames⟩ := reads_declaration s codes s' hcodes
    exact ⟨.declaration base names, rfl, trivial, hnames⟩
  -- `return`
  · obtain ⟨stmt, s₁, hstmt, hrun⟩ := bind_eq_ok.1 hrun
    cases hrun
    obtain ⟨value, rfl, hvalued, htakes⟩ := takes_returnStatement hstmt (hhead nofun)
    exact ⟨.giveBack value, rfl, hvalued, htakes⟩
  -- `break`
  · obtain ⟨stmt, s₁, hstmt, hrun⟩ := bind_eq_ok.1 hrun
    cases hrun
    obtain ⟨rfl, hloop, htakes⟩ := takes_breakStatement hstmt (hhead nofun)
    exact ⟨.leave, rfl, hloop, htakes⟩
  -- `if`
  · obtain ⟨_, s₁, hadvance, hrun⟩ := bind_eq_ok.1 hrun
    obtain ⟨code, s₂, hcode, hrun⟩ := bind_eq_ok.1 hrun
    obtain ⟨inner, s₃, hinner, hrun⟩ := bind_eq_ok.1 hrun
    obtain ⟨other, s₄, hother, hrun⟩ := bind_eq_ok.1 hrun
    cases hrun
    have hword := takes_advance hadvance (hhead nofun)
    obtain ⟨e, b, o, rfl, rfl, rfl, hfits, hfits', htakes⟩ :=
      h.takes_branch around hcode hinner hother
    rw [hword.scopes_eq rfl] at htakes
    exact ⟨.branch e b o, rfl, ⟨hfits, hfits'⟩, hword.trans htakes⟩
  -- `while`
  · obtain ⟨_, s₁, hadvance, hrun⟩ := bind_eq_ok.1 hrun
    obtain ⟨code, s₂, hcode, hrun⟩ := bind_eq_ok.1 hrun
    obtain ⟨inner, s₃, hinner, hrun⟩ := bind_eq_ok.1 hrun
    cases hrun
    have hword := takes_advance hadvance (hhead nofun)
    obtain ⟨e, rfl, -, he⟩ := reads_condition _ s₁ code s₂ hcode
    obtain ⟨b, rfl, hfits, hb, -⟩ := h.body _ s₂ inner s' hinner
    rw [he.scopes_eq rfl, hword.scopes_eq rfl] at hb
    rw [hword.scopes_eq rfl] at he
    exact ⟨.loop e b, rfl, hfits, (hword.trans he).trans hb⟩
  -- `for`, with a scope of its own around header and body
  · obtain ⟨_, s₁, hadvance, hrun⟩ := bind_eq_ok.1 hrun
    obtain ⟨_, s₂, hopen, hrun⟩ := bind_eq_ok.1 hrun
    obtain ⟨_, s₃, henter, hrun⟩ := bind_eq_ok.1 hrun
    obtain ⟨⟨codes, code, step⟩, s₄, hheader, hrun⟩ := bind_eq_ok.1 hrun
    obtain ⟨inner, s₅, hinner, hrun⟩ := bind_eq_ok.1 hrun
    obtain ⟨_, s₆, hexit, hrun⟩ := bind_eq_ok.1 hrun
    cases hrun
    rw [enterScope_ok henter] at hheader
    have hword := (takes_advance hadvance (hhead nofun)).trans (takes_expect hopen)
    obtain ⟨first, c, e, b, rfl, rfl, rfl, rfl, hfits, htakes⟩ :=
      h.takes_count around hheader hinner
    rw [← exitScope_ok hexit, hword.scopes_eq rfl] at htakes
    exact ⟨.count first c e b, rfl, hfits, hword.trans htakes⟩
  -- a block, which is read as a body and is braced
  · obtain ⟨inner, s₁, hinner, hrun⟩ := bind_eq_ok.1 hrun
    cases hrun
    obtain ⟨b, rfl, hfits, hb, hbraced⟩ := h.body around s inner s' hinner
    obtain ⟨inner, rfl⟩ := hbraced (hhead nofun)
    exact ⟨.block inner, rfl, hfits, hb⟩
  -- `;` alone
  · obtain ⟨_, s₁, hadvance, hrun⟩ := bind_eq_ok.1 hrun
    cases hrun
    exact ⟨.empty, rfl, trivial, takes_advance hadvance (hhead nofun)⟩
  · cases hrun
  -- anything else has to be an expression
  · obtain ⟨stmt, s₁, hstmt, hrun⟩ := bind_eq_ok.1 hrun
    cases hrun
    obtain ⟨e, rfl, htakes⟩ := takes_expressionStatement hstmt
    exact ⟨.expression e, rfl, trivial, htakes⟩

theorem body_succ : ∀ s stmts s', Read.body around (limit + 1) s = .ok (stmts, s') →
    ∃ b : Body, stmts = b.stmts ∧ b.Fits (!around.returnType.isVoid) around.inLoop ∧
      Takes s s' (b.trace s.scopes) ∧
      (s.text.head? = some (.symbol .braceOpen) → ∃ inner, b = .braced inner) := by
  intro s stmts s' hrun
  rw [Read.body] at hrun
  obtain ⟨_, s₁, henter, hrun⟩ := bind_eq_ok.1 hrun
  obtain rfl := enterScope_ok henter
  obtain ⟨seen, s₂, hseen, hrun⟩ := bind_eq_ok.1 hrun
  obtain ⟨hs, hbrace⟩ := sees_ok hseen
  cases hs
  cases seen with
  | true =>
    obtain ⟨_, s₂, hadvance, hrun⟩ := bind_eq_ok.1 hrun
    obtain ⟨inner, s₃, hinner, hrun⟩ := bind_eq_ok.1 hrun
    obtain ⟨_, s₄, hexit, hrun⟩ := bind_eq_ok.1 hrun
    cases hrun
    have hopen := takes_advance hadvance (hbrace.1 rfl)
    obtain ⟨inner, rfl, hfits, hinner⟩ := h.statements around s₂ stmts s₃ hinner
    rw [hopen.scopes_eq rfl] at hinner
    rw [exitScope_ok hexit]
    exact ⟨.braced inner, rfl, hfits, (hopen.trans hinner).enclosed, fun _ => ⟨inner, rfl⟩⟩
  -- a single statement gets a scope of its own as well
  | false =>
    rw [if_neg nofun] at hrun
    obtain ⟨inner, s₃, hinner, hrun⟩ := bind_eq_ok.1 hrun
    obtain ⟨_, s₄, hexit, hrun⟩ := bind_eq_ok.1 hrun
    cases hrun
    obtain ⟨t, rfl, hfits, ht⟩ := h.statement around _ stmts s₃ hinner
    rw [exitScope_ok hexit]
    exact ⟨.single t, rfl, hfits, ht.enclosed, fun hopen => absurd (hbrace.2 hopen) nofun⟩

theorem statements_succ :
    Reads blockStmts blockTrace (blockFits (!around.returnType.isVoid) around.inLoop)
      (Read.statements around (limit + 1)) := by
  intro s stmts s' hrun
  rw [Read.statements] at hrun
  obtain ⟨seen, s₁, hseen, hrun⟩ := bind_eq_ok.1 hrun
  obtain ⟨hs, hbrace⟩ := sees_ok hseen
  cases hs
  cases seen with
  | true =>
    obtain ⟨_, s₁, hadvance, hrun⟩ := bind_eq_ok.1 hrun
    cases hrun
    exact ⟨[], rfl, trivial, takes_advance hadvance (hbrace.1 rfl)⟩
  | false =>
    rw [if_neg nofun] at hrun
    obtain ⟨t, s₁, ht, hrun⟩ := bind_eq_ok.1 hrun
    cases peek_ok ht
    -- the text does not end inside the block
    obtain ⟨-, hrun⟩ := unless_eq_ok hrun nofun
    obtain ⟨first, s₁, hfirst, hrun⟩ := bind_eq_ok.1 hrun
    obtain ⟨rest, s₂, hrest, hrun⟩ := bind_eq_ok.1 hrun
    cases hrun
    obtain ⟨t, rfl, hfits, ht⟩ := h.statement around s first s₁ hfirst
    obtain ⟨inner, rfl, hfits', hinner⟩ := h.statements around s₁ rest s' hrest
    rw [ht.scopes] at hinner
    exact ⟨t :: inner, rfl, ⟨hfits, hfits'⟩, ht.trans hinner⟩

theorem alternative_succ :
    Reads Other.alternative Other.trace (Other.Fits (!around.returnType.isVoid) around.inLoop)
      (Read.alternative around (limit + 1)) := by
  intro s other s' hrun
  rw [Read.alternative] at hrun
  obtain ⟨t, s₁, ht, hrun⟩ := bind_eq_ok.1 hrun
  have hhead := head?_of_peek ht
  cases peek_ok ht
  split at hrun
  · next helse =>
    subst helse
    obtain ⟨_, s₁, hadvance, hrun⟩ := bind_eq_ok.1 hrun
    have hword := takes_advance hadvance (hhead nofun)
    obtain ⟨t, s₂, ht, hrun⟩ := bind_eq_ok.1 hrun
    have hhead' := head?_of_peek ht
    cases peek_ok ht
    split at hrun
    -- `else if`
    · next hif =>
      subst hif
      obtain ⟨_, s₂, hadvance', hrun⟩ := bind_eq_ok.1 hrun
      obtain ⟨code, s₃, hcode, hrun⟩ := bind_eq_ok.1 hrun
      obtain ⟨inner, s₄, hinner, hrun⟩ := bind_eq_ok.1 hrun
      obtain ⟨other', s₅, hother, hrun⟩ := bind_eq_ok.1 hrun
      cases hrun
      have hwords := hword.trans (takes_advance hadvance' (hhead' nofun))
      obtain ⟨e, b, o, rfl, rfl, rfl, hfits, hfits', htakes⟩ :=
        h.takes_branch around hcode hinner hother
      rw [hwords.scopes_eq rfl] at htakes
      exact ⟨.elseIf e b o, rfl, ⟨hfits, hfits'⟩, hwords.trans htakes⟩
    -- `else`
    · obtain ⟨inner, s₂, hinner, hrun⟩ := bind_eq_ok.1 hrun
      cases hrun
      obtain ⟨b, rfl, hfits, hb, -⟩ := h.body around s₁ inner s' hinner
      rw [hword.scopes_eq rfl] at hb
      exact ⟨.otherwise b, rfl, hfits, hword.trans hb⟩
  -- no `else`: nothing is taken
  · cases hrun
    exact ⟨.none, rfl, trivial, takes_nothing s⟩

end BodyRules

/-- The rules refer to each other, so they hold together, by induction on the
limit. -/
theorem bodyRules (limit : Nat) : BodyRules limit := by
  induction limit with
  | zero => exact ⟨nofun, nofun, nofun, nofun⟩
  | succ limit ih =>
    exact ⟨ih.statement_succ, ih.body_succ, ih.statements_succ, ih.alternative_succ⟩

end Read

end WordC
