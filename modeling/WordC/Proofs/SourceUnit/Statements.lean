import Mathlib
import WordC.Linear.Program
import WordC.Proofs.Expression.WellFormed
/-!
# Sound statements

What reading guarantees of the statements of a body: each expression in them is
the linear form of a well-formed tree, and a jump out of a loop stands inside
one. `Code.runs` finds the expressions in the linear form of a body again.
-/

namespace WordC

/-- The code is the linear form of a tree over the variables `known`, one of at
most `nodes` nodes. -/
def Code.IsExpression (known : Variable → Prop) (nodes : Nat) (code : Code) : Prop :=
  ∃ e : Expr, e.WellFormed known ∧ e.size ≤ nodes ∧ code = e.linear

/-- The code has operands and operators only, and at least one of them. -/
def Code.Plain (code : Code) : Prop :=
  code ≠ [] ∧ ∀ e ∈ code, e.inExpression = true

theorem Code.IsExpression.mono {known known' : Variable → Prop} {nodes nodes' : Nat}
    (hle : ∀ v, known v → known' v) (hnodes : nodes ≤ nodes') {code : Code}
    (h : code.IsExpression known nodes) : code.IsExpression known' nodes' := by
  obtain ⟨e, hwf, hsize, hcode⟩ := h
  exact ⟨e, hwf.mono hle, hsize.trans hnodes, hcode⟩

theorem Expr.linear_ne_nil (e : Expr) : e.linear ≠ [] := by
  cases e <;> simp [linear, linearAt, isLeaf]

theorem Expr.WellFormed.inExpression_linear {known : Variable → Prop} {e : Expr}
    (h : e.WellFormed known) : ∀ x ∈ e.linear, x.inExpression = true := by
  rw [linear, List.forall_mem_append]
  refine ⟨h.inExpression 0, fun x hx => ?_⟩
  split at hx
  · rw [List.mem_singleton.1 hx]
    rfl
  · cases hx

theorem Code.IsExpression.plain {known : Variable → Prop} {nodes : Nat} {code : Code}
    (h : code.IsExpression known nodes) : code.Plain := by
  obtain ⟨e, hwf, -, rfl⟩ := h
  exact ⟨e.linear_ne_nil, hwf.inExpression_linear⟩

/-- What an expression is read over: variables, and names of functions. -/
structure Known where
  var : Variable → Prop
  name : String → Prop

/-- **The code of an expression as it is read**, over what is known and from fewer
than `nodes` tokens. -/
structure Code.IsReading (known : Known) (nodes : Nat) (code : Code) : Prop where
  isExpression : code.IsExpression known.var nodes
  calls : ∀ c, .operand (.result c) ∈ code → known.name c.name

theorem Code.IsReading.mono {known known' : Known} {nodes nodes' : Nat}
    (hvar : ∀ v, known.var v → known'.var v) (hname : ∀ name, known.name name → known'.name name)
    (hnodes : nodes ≤ nodes') {code : Code} (h : code.IsReading known nodes) :
    code.IsReading known' nodes' :=
  ⟨h.isExpression.mono hvar hnodes, fun c hc => hname c.name (h.calls c hc)⟩

mutual

/-- The expressions of a statement, in the order they stand in. -/
def Stmt.expressions : Stmt → List Code
  | .eval code => [code]
  | .ret value => value.toList
  | .leave => []
  | .block body => blockExpressions body
  | .branch condition body other =>
    condition :: (blockExpressions body ++ other.expressions)
  | .loop condition body => condition :: blockExpressions body
  | .count first condition step body =>
    first.toList ++ condition :: (step.toList ++ blockExpressions body)

/-- The expressions of the alternative to a branch. -/
def Alternative.expressions : Alternative → List Code
  | .none => []
  | .elseIf condition body other =>
    condition :: (blockExpressions body ++ other.expressions)
  | .otherwise body => blockExpressions body

/-- The expressions of statements in a row. -/
def blockExpressions : List Stmt → List Code
  | [] => []
  | s :: rest => s.expressions ++ blockExpressions rest

end

mutual

/-- **A statement that reading can yield**: `P` holds of its expressions, and a
jump out of a loop stands inside one. `inLoop` says that the statement itself
does. -/
def Stmt.Sound (P : Code → Prop) : (inLoop : Bool) → Stmt → Prop
  | _, .eval code => P code
  | _, .ret value => ∀ code ∈ value, P code
  | inLoop, .leave => inLoop = true
  | inLoop, .block body => blockSound P inLoop body
  | inLoop, .branch condition body other =>
    P condition ∧ blockSound P inLoop body ∧ other.Sound P inLoop
  | _, .loop condition body => P condition ∧ blockSound P true body
  | _, .count first condition step body =>
    (∀ code ∈ first, P code) ∧ P condition ∧ (∀ code ∈ step, P code) ∧ blockSound P true body

/-- What follows a branch is sound as statements are. -/
def Alternative.Sound (P : Code → Prop) : (inLoop : Bool) → Alternative → Prop
  | _, .none => True
  | inLoop, .elseIf condition body other =>
    P condition ∧ blockSound P inLoop body ∧ other.Sound P inLoop
  | inLoop, .otherwise body => blockSound P inLoop body

/-- Statements in a row are sound when each of them is. -/
def blockSound (P : Code → Prop) : (inLoop : Bool) → List Stmt → Prop
  | _, [] => True
  | inLoop, s :: rest => s.Sound P inLoop ∧ blockSound P inLoop rest

end

section Sound

variable {P Q : Code → Prop}

theorem blockSound_append {inLoop : Bool} {body rest : List Stmt} (h : blockSound P inLoop body)
    (h' : blockSound P inLoop rest) : blockSound P inLoop (body ++ rest) := by
  induction body with
  | nil => exact h'
  | cons s body ih => exact ⟨h.1, ih h.2⟩

theorem blockSound_map_eval {inLoop : Bool} {codes : List Code} (h : ∀ code ∈ codes, P code) :
    blockSound P inLoop (codes.map .eval) := by
  induction codes with
  | nil => trivial
  | cons code codes ih =>
    exact ⟨h code List.mem_cons_self, ih fun c hc => h c (List.mem_cons_of_mem _ hc)⟩

mutual

/-- The property of a sound statement holds of each of its expressions. -/
theorem Stmt.Sound.forall_expressions {inLoop : Bool} {s : Stmt} (h : s.Sound P inLoop) :
    ∀ code ∈ s.expressions, P code :=
  match s, h with
  | .eval _, h => List.forall_mem_singleton.2 h
  | .ret _, h => fun code hcode => h code (Option.mem_toList.1 hcode)
  | .leave, _ => by simp [Stmt.expressions]
  | .block _, h => blockSound.forall_expressions h
  | .branch .., ⟨hc, hbody, hother⟩ =>
    List.forall_mem_cons.2 ⟨hc,
      List.forall_mem_append.2 ⟨hbody.forall_expressions, hother.forall_expressions⟩⟩
  | .loop .., ⟨hc, hbody⟩ => List.forall_mem_cons.2 ⟨hc, hbody.forall_expressions⟩
  | .count .., ⟨hfirst, hc, hstep, hbody⟩ =>
    List.forall_mem_append.2 ⟨by simpa using hfirst, List.forall_mem_cons.2 ⟨hc,
      List.forall_mem_append.2 ⟨by simpa using hstep, hbody.forall_expressions⟩⟩⟩

theorem Alternative.Sound.forall_expressions {inLoop : Bool} {other : Alternative}
    (h : other.Sound P inLoop) : ∀ code ∈ other.expressions, P code :=
  match other, h with
  | .none, _ => by simp [Alternative.expressions]
  | .elseIf .., ⟨hc, hbody, hother⟩ =>
    List.forall_mem_cons.2 ⟨hc,
      List.forall_mem_append.2 ⟨hbody.forall_expressions, hother.forall_expressions⟩⟩
  | .otherwise _, h => blockSound.forall_expressions h

theorem blockSound.forall_expressions {inLoop : Bool} {body : List Stmt}
    (h : blockSound P inLoop body) : ∀ code ∈ blockExpressions body, P code :=
  match body, h with
  | [], _ => by simp [blockExpressions]
  | _ :: _, ⟨hs, hrest⟩ =>
    List.forall_mem_append.2 ⟨hs.forall_expressions, hrest.forall_expressions⟩

end

mutual

/-- A sound statement is sound for every property of its expressions. -/
theorem Stmt.Sound.of_expressions {inLoop : Bool} {s : Stmt} (h : s.Sound P inLoop)
    (hQ : ∀ code ∈ s.expressions, Q code) : s.Sound Q inLoop :=
  match s, h with
  | .eval code, _ => hQ code List.mem_cons_self
  | .ret _, _ => by simpa [Stmt.expressions, Stmt.Sound] using hQ
  | .leave, h => h
  | .block _, h => blockSound.of_expressions h hQ
  | .branch .., ⟨_, hbody, hother⟩ => by
    simp only [Stmt.expressions, List.forall_mem_cons, List.forall_mem_append] at hQ
    exact ⟨hQ.1, hbody.of_expressions hQ.2.1, hother.of_expressions hQ.2.2⟩
  | .loop .., ⟨_, hbody⟩ => by
    simp only [Stmt.expressions, List.forall_mem_cons] at hQ
    exact ⟨hQ.1, hbody.of_expressions hQ.2⟩
  | .count .., ⟨_, _, _, hbody⟩ => by
    simp only [Stmt.expressions, List.forall_mem_cons, List.forall_mem_append,
      Option.mem_toList] at hQ
    exact ⟨hQ.1, hQ.2.1, hQ.2.2.1, hbody.of_expressions hQ.2.2.2⟩

theorem Alternative.Sound.of_expressions {inLoop : Bool} {other : Alternative}
    (h : other.Sound P inLoop) (hQ : ∀ code ∈ other.expressions, Q code) :
    other.Sound Q inLoop :=
  match other, h with
  | .none, _ => trivial
  | .elseIf .., ⟨_, hbody, hother⟩ => by
    simp only [Alternative.expressions, List.forall_mem_cons, List.forall_mem_append] at hQ
    exact ⟨hQ.1, hbody.of_expressions hQ.2.1, hother.of_expressions hQ.2.2⟩
  | .otherwise _, h => blockSound.of_expressions h hQ

theorem blockSound.of_expressions {inLoop : Bool} {body : List Stmt}
    (h : blockSound P inLoop body) (hQ : ∀ code ∈ blockExpressions body, Q code) :
    blockSound Q inLoop body :=
  match body, h with
  | [], _ => trivial
  | _ :: _, ⟨hs, hrest⟩ => by
    simp only [blockExpressions, List.forall_mem_append] at hQ
    exact ⟨hs.of_expressions hQ.1, hrest.of_expressions hQ.2⟩

end

theorem blockSound.mono (hle : ∀ code, P code → Q code) {inLoop : Bool} {body : List Stmt}
    (h : blockSound P inLoop body) : blockSound Q inLoop body :=
  h.of_expressions fun code hcode => hle code (h.forall_expressions code hcode)

end Sound

/-! ## The expressions of a linear form -/

/-- The expressions that stand in a list of elements: its longest runs of
operands and operators. `pending` is the run that is being read. -/
def Code.runs : (pending : Code) → List Element → List Code
  | [], [] => []
  | pending, [] => [pending]
  | pending, e :: rest =>
    if e.inExpression then Code.runs (pending ++ [e]) rest
    else if pending.isEmpty then Code.runs [] rest
    else pending :: Code.runs [] rest

/-- The expressions of a function, in the order they stand in. -/
def Function.expressions (f : Function) : List Code :=
  Code.runs [] (f.body.getD [])

namespace Code

variable {code pending : Code} {rest : List Element}

theorem runs_append (h : ∀ e ∈ code, e.inExpression = true) :
    runs pending (code ++ rest) = runs (pending ++ code) rest := by
  induction code generalizing pending with
  | nil => simp
  | cons e code ih =>
    rw [List.cons_append, runs, if_pos (h e List.mem_cons_self),
      ih fun e he => h e (List.mem_cons_of_mem _ he)]
    simp

end Code

/-! ## Following a linear form -/

/-- **A way to follow a linear form**, from its end: `F` passes over what stands
between expressions, and each expression, of which `P` holds, adds to what
follows it by `G`. -/
structure Follows {γ : Type} (P : Code → Prop) (F : List Element → γ) (G : Code → γ → γ) :
    Prop where
  other : ∀ e rest, e.inExpression = false → F (e :: rest) = F rest
  code : ∀ c mark rest, P c → mark.endsExpression = true → F (c ++ mark :: rest) = G c (F rest)

namespace Follows

variable {γ : Type} {P : Code → Prop} {F : List Element → γ} {G : Code → γ → γ}

theorem optional (hF : Follows P F G) {found : Option Code} (h : ∀ code ∈ found, P code)
    {mark : Element} (hmark : mark.endsExpression = true) (hother : mark.inExpression = false)
    (rest : List Element) :
    F (found.getD [] ++ mark :: rest) = found.toList.foldr G (F rest) := by
  cases found with
  | none => exact hF.other mark rest hother
  | some code => exact hF.code code mark rest (h code rfl) hmark

mutual

/-- **Following a statement** takes in its expressions in the order they stand
in. -/
theorem stmt (hF : Follows P F G) {inLoop : Bool} {s : Stmt} (h : s.Sound P inLoop)
    (rest : List Element) : F (s.linear ++ rest) = s.expressions.foldr G (F rest) :=
  match s, h with
  | .eval code, h => by
    simp only [Stmt.linear, Code.ended, Option.getD_some, List.append_assoc, List.cons_append,
      List.nil_append]
    exact hF.code _ _ _ h rfl
  | .ret value, h => by
    simp only [Stmt.linear, Code.ended, List.append_assoc, List.cons_append, List.nil_append]
    rw [hF.other _ _ rfl]
    exact hF.optional h rfl rfl rest
  | .leave, _ => hF.other _ _ rfl
  | .block body, h => by
    simp only [Stmt.linear, inScope, List.cons_append, List.append_assoc]
    rw [hF.other _ _ rfl, hF.block h, List.nil_append, hF.other _ _ rfl]
    rfl
  | .branch condition body other, ⟨hc, hbody, hother⟩ => by
    simp only [Stmt.linear, Code.tested, inScope, List.cons_append, List.append_assoc,
      List.nil_append]
    rw [hF.other _ _ rfl, hF.code _ _ _ hc rfl, hF.other _ _ rfl, hF.block hbody,
      hF.other _ _ rfl, hF.alternative hother]
    simp only [Stmt.expressions, List.foldr_cons, List.foldr_append]
  | .loop condition body, ⟨hc, hbody⟩ => by
    simp only [Stmt.linear, Code.tested, inScope, List.cons_append, List.append_assoc,
      List.nil_append]
    rw [hF.other _ _ rfl, hF.code _ _ _ hc rfl, hF.other _ _ rfl, hF.block hbody,
      hF.other _ _ rfl]
    rfl
  | .count first condition step body, ⟨hfirst, hc, hstep, hbody⟩ => by
    simp only [Stmt.linear, Code.ended, Code.tested, inScope, List.cons_append, List.append_assoc,
      List.nil_append]
    rw [hF.other _ _ rfl, hF.optional hfirst rfl rfl, hF.code _ _ _ hc rfl,
      hF.optional hstep rfl rfl, hF.other _ _ rfl, hF.block hbody, hF.other _ _ rfl]
    simp only [Stmt.expressions, List.foldr_cons, List.foldr_append]

theorem alternative (hF : Follows P F G) {inLoop : Bool} {other : Alternative}
    (h : other.Sound P inLoop) (rest : List Element) :
    F (other.linear ++ rest) = other.expressions.foldr G (F rest) :=
  match other, h with
  | .none, _ => rfl
  | .elseIf condition body other, ⟨hc, hbody, hother⟩ => by
    simp only [Alternative.linear, Code.tested, inScope, List.cons_append, List.append_assoc,
      List.nil_append]
    rw [hF.other _ _ rfl, hF.code _ _ _ hc rfl, hF.other _ _ rfl, hF.block hbody,
      hF.other _ _ rfl, hF.alternative hother]
    simp only [Alternative.expressions, List.foldr_cons, List.foldr_append]
  | .otherwise body, h => by
    simp only [Alternative.linear, inScope, List.cons_append, List.append_assoc, List.nil_append]
    rw [hF.other _ _ rfl, hF.other _ _ rfl, hF.block h, hF.other _ _ rfl]
    rfl

theorem block (hF : Follows P F G) {inLoop : Bool} {body : List Stmt}
    (h : blockSound P inLoop body) (rest : List Element) :
    F (blockLinear body ++ rest) = (blockExpressions body).foldr G (F rest) :=
  match body, h with
  | [], _ => rfl
  | s :: body, ⟨hs, hbody⟩ => by
    rw [blockLinear, List.append_assoc, hF.stmt hs, hF.block hbody, blockExpressions,
      List.foldr_append]

end

/-- Following the body of a function. -/
theorem body (hF : Follows P F G) {body : List Stmt} (h : blockSound P false body) :
    F (bodyLinear body) = (blockExpressions body).foldr G (F []) := by
  rw [bodyLinear, hF.other _ _ rfl, hF.block h, hF.other _ _ rfl]

end Follows

theorem Code.follows_runs : Follows Code.Plain (Code.runs []) List.cons where
  other e rest he := by simp [runs, he]
  code c mark rest hc hmark := by
    have hout : mark.inExpression = false := by
      cases mark <;> first | rfl | cases hmark
    rw [runs_append hc.2, List.nil_append, runs]
    simp [hout, hc.1]

/-- **The expressions in a body are those of its statements.** -/
theorem runs_bodyLinear {body : List Stmt} (h : blockSound Code.Plain false body) :
    Code.runs [] (bodyLinear body) = blockExpressions body := by
  rw [Code.follows_runs.body h, Code.runs]
  exact List.foldr_cons_nil

/-! ## What stands in an expression -/

theorem not_mem_argumentsLinear {v : Variable} {args : List Expr}
    (h : ∀ a ∈ args, ∀ k, .operand (.var v) ∉ a.linearAt k ∧ a.operand k ≠ .var v) (k slot : Nat) :
    .operand (.var v) ∉ argumentsLinear k slot args := by
  induction args generalizing slot with
  | nil => exact List.not_mem_nil
  | cons a args ih =>
    obtain ⟨ha, hoperand⟩ := h a List.mem_cons_self k
    have hrest := ih (fun a ha => h a (List.mem_cons_of_mem _ ha)) (slot + 1)
    simp only [argumentsLinear, List.mem_append, List.mem_cons, List.not_mem_nil]
    simp [ha, hrest, hoperand.symm]

/-- A tree does not mention a variable that is not known. -/
theorem Expr.WellFormed.not_mem_linearAt {known : Variable → Prop} {e : Expr}
    (h : e.WellFormed known) {v : Variable} (hv : ¬ known v) (k : Nat) :
    .operand (.var v) ∉ e.linearAt k ∧ e.operand k ≠ .var v := by
  induction h generalizing k with
  | @var w hw =>
    refine ⟨List.not_mem_nil, fun heq => hv ?_⟩
    cases heq
    exact hw
  | constant => exact ⟨List.not_mem_nil, nofun⟩
  | @unary op a _ _ ih =>
    obtain ⟨ha, hoperand⟩ := ih k
    exact ⟨by simp [linearAt, ha, hoperand.symm], nofun⟩
  | @binary op a b _ _ _ iha ihb | @assign a b _ _ _ iha ihb =>
    obtain ⟨ha, hoperand⟩ := iha k
    obtain ⟨hb, hoperand'⟩ := ihb (k + a.weight)
    exact ⟨by simp [linearAt, ha, hb, hoperand.symm, hoperand'.symm], nofun⟩
  | @call name args _ ih =>
    have hargs := not_mem_argumentsLinear (v := v) ih k 0
    exact ⟨by simp [linearAt, hargs], nofun⟩

/-- An expression mentions known variables only. -/
theorem Code.IsExpression.known_of_mem {known : Variable → Prop} {nodes : Nat} {c : Code}
    (h : c.IsExpression known nodes) {v : Variable} (hv : .operand (.var v) ∈ c) : known v := by
  obtain ⟨e, hwf, -, rfl⟩ := h
  by_contra hunknown
  obtain ⟨hlinear, hoperand⟩ := hwf.not_mem_linearAt hunknown 0
  rw [Expr.linear, List.mem_append] at hv
  rcases hv with hv | hv
  · exact hlinear hv
  · split at hv
    · exact hoperand (Element.operand.inj (List.mem_singleton.1 hv)).symm
    · cases hv

theorem mem_argumentsLinear {x : Element} {args : List Expr} {a : Expr} (ha : a ∈ args)
    (k slot : Nat) (hx : x ∈ a.linearAt k ∨ x = .operand (a.operand k)) :
    x ∈ argumentsLinear k slot args := by
  induction args generalizing slot with
  | nil => cases ha
  | cons b args ih =>
    rw [argumentsLinear, List.mem_append]
    rcases List.mem_cons.1 ha with rfl | ha
    · refine .inl (List.mem_append.2 ?_)
      rcases hx with hx | rfl
      · exact .inl hx
      · exact .inr (by simp)
    · exact .inr (ih ha (slot + 1))

/-- A tree is over the variables that its linear form mentions. -/
theorem Expr.WellFormed.restrict {known used : Variable → Prop} {e : Expr}
    (h : e.WellFormed known) (k : Nat)
    (hused : ∀ v, .operand (.var v) ∈ e.linearAt k ∨ e.operand k = .var v → used v) :
    e.WellFormed used := by
  induction h generalizing k with
  | @var v _ => exact .var (hused v (.inr rfl))
  | constant => exact .constant
  | @unary op a hop _ ih =>
    -- a variable is in the operand's code, or is the operand itself and stands behind that code
    refine .unary hop (ih k fun v hv => hused v (.inl ?_))
    rw [linearAt, List.mem_append]
    rcases hv with hv | hv
    · exact .inl hv
    · exact .inr (by simp [hv])
  | @binary op a b hop _ _ iha ihb =>
    refine .binary hop (iha k fun v hv => hused v (.inl ?_))
      (ihb (k + a.weight) fun v hv => hused v (.inl ?_))
    all_goals
      rw [linearAt, List.mem_append, List.mem_append]
      rcases hv with hv | hv
    · exact .inl (.inl hv)
    · exact .inr (by simp [hv])
    · exact .inl (.inr hv)
    · exact .inr (by simp [hv])
  | @call name args _ ih =>
    refine .call fun a ha => ih a ha k fun v hv => hused v (.inl ?_)
    rw [linearAt, List.mem_append]
    exact .inl (mem_argumentsLinear ha k 0 (hv.imp id fun hv => by rw [hv]))
  | @assign a b hplace _ _ iha ihb =>
    refine .assign hplace (iha k fun v hv => hused v (.inl ?_))
      (ihb (k + a.weight) fun v hv => hused v (.inl ?_))
    all_goals
      rw [linearAt, List.mem_append, List.mem_append]
      rcases hv with hv | hv
    · exact .inl (.inl hv)
    · exact .inr (by simp [hv])
    · exact .inl (.inr hv)
    · exact .inr (by simp [hv])

/-- An expression is one over the variables it mentions, of a tree with the nodes that the
expression has. -/
theorem Code.IsExpression.restrict {known used : Variable → Prop} {nodes : Nat} {c : Code}
    (h : c.IsExpression known nodes) (hused : ∀ v, .operand (.var v) ∈ c → used v) :
    c.IsExpression used c.nodes := by
  obtain ⟨e, hwf, -, rfl⟩ := h
  refine ⟨e, hwf.restrict 0 fun v hv => hused v ?_, hwf.nodes_linear.ge, rfl⟩
  rw [Expr.linear, List.mem_append]
  rcases hv with hv | hv
  · exact .inl hv
  · refine .inr ?_
    cases e with
    | var w => simpa [Expr.isLeaf] using congrArg Element.operand hv.symm
    | _ => cases hv

theorem Code.IsExpression.nodes_le {known : Variable → Prop} {nodes : Nat} {c : Code}
    (h : c.IsExpression known nodes) : c.nodes ≤ nodes := by
  obtain ⟨e, hwf, hsize, rfl⟩ := h
  rwa [hwf.nodes_linear]

/-- What stands in a linear form stands in one of its expressions. -/
theorem follows_mem (x : Element) (hx : x.inExpression = true) :
    Follows Code.Plain (x ∈ ·) (fun c p => x ∈ c ∨ p) where
  other e rest he := by
    have hne : x ≠ e := by
      rintro rfl
      rw [hx] at he
      cases he
    simp [hne]
  code c mark rest _ hmark := by
    have hne : x ≠ mark := by
      rintro rfl
      cases x with
      | operand | operator => cases hmark
      | _ => cases hx
    simp [hne]

theorem mem_bodyLinear {stmts : List Stmt} (h : blockSound Code.Plain false stmts) {x : Element}
    (hx : x.inExpression = true) :
    x ∈ bodyLinear stmts ↔ ∃ c ∈ blockExpressions stmts, x ∈ c := by
  have hfold : ∀ cs : List Code, cs.foldr (fun c p => x ∈ c ∨ p) (x ∈ []) ↔ ∃ c ∈ cs, x ∈ c := by
    intro cs
    induction cs with
    | nil => simp
    | cons c cs ih => simp only [List.foldr_cons, ih, List.exists_mem_cons_iff]
  have hbody : (x ∈ bodyLinear stmts) = _ := (follows_mem x hx).body h
  rw [hbody]
  exact hfold _

end WordC
