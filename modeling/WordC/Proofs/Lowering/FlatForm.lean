import Mathlib
import WordC.Proofs.Lowering.Structured
/-!
# Lowering follows the trees

Lowering the flat linear form of a body does what lowering its statements as
trees does (`elements_bodyLinear`), so that properties of bodies are proved by
induction on statements. Each construct is followed through its elements, with
any elements behind it (`Splits`): what the state holds open at each of them is
what the tree has around it.
-/

namespace WordC

open Lower

section Splits

variable {α β : Type}

/-- `r` succeeds just where `x` does and `k` then does. -/
def Splits (r : EStateM.Result LoweringError BodyState Unit)
    (x : EStateM.Result LoweringError BodyState α)
    (k : α → BodyState → EStateM.Result LoweringError BodyState Unit) : Prop :=
  ∀ s', r = .ok () s' ↔ ∃ a t, x = .ok a t ∧ k a t = .ok () s'

variable {r : EStateM.Result LoweringError BodyState Unit} {y : Lower α} {z : α → Lower β}
variable {s : BodyState}

theorem Lower.Local.splits (h : Local y) (k : α → Lower Unit) (s : BodyState) :
    Splits ((y >>= k) s) (y s.core) fun a t => k a (s.follow t) := by
  intro s'
  rw [bind_eq_ok]
  constructor
  · rintro ⟨a, s₁, hy, hk⟩
    obtain ⟨t, ht, rfl⟩ := (h s a s₁).1 hy
    exact ⟨a, t, ht, hk⟩
  · rintro ⟨a, t, ht, hk⟩
    exact ⟨a, s.follow t, (h s a _).2 ⟨t, ht, rfl⟩, hk⟩

/-- One step after the other. -/
theorem Splits.bind {r₁ : α → BodyState → EStateM.Result LoweringError BodyState Unit}
    {k : β → BodyState → EStateM.Result LoweringError BodyState Unit} (h : Splits r (y s.core) r₁)
    (hy : Local y) (h' : ∀ a t, Splits (r₁ a t) (z a t.core) k) :
    Splits r ((y >>= z) s.core) k := by
  intro s'
  rw [h s']
  constructor
  · rintro ⟨a, t, ht, hr⟩
    obtain ⟨b, t', ht', hk⟩ := (h' a t s').1 hr
    rw [hy.core_eq ht] at ht'
    exact ⟨b, t', bind_eq_ok.2 ⟨a, t, ht, ht'⟩, hk⟩
  · rintro ⟨b, t', hrun, hk⟩
    obtain ⟨a, t, ht, ht'⟩ := bind_eq_ok.1 hrun
    rw [← hy.core_eq ht] at ht'
    exact ⟨a, t, ht, (h' a t s').2 ⟨b, t', ht', hk⟩⟩

theorem Splits.of_eq {r' : EStateM.Result LoweringError BodyState Unit}
    {x : EStateM.Result LoweringError BodyState α}
    {k : α → BodyState → EStateM.Result LoweringError BodyState Unit} (h : r = r')
    (h' : Splits r' x k) : Splits r x k :=
  h ▸ h'

theorem Splits.congr {x : EStateM.Result LoweringError BodyState α}
    {k k' : α → BodyState → EStateM.Result LoweringError BodyState Unit} (h : Splits r x k)
    (hk : ∀ a t, k a t = k' a t) : Splits r x k' := by
  intro s'
  simp only [h s', hk]

end Splits

namespace BodyState

/-- The next element is lowered where it stands. -/
def AtElement (s : BodyState) : Prop :=
  ∀ head start, s.loopHead = some head → head.phase ≠ .step start

/-- No statement has been begun. -/
structure Between (s : BodyState) : Prop where
  loopHead : s.loopHead = none
  opening : s.opening = none
  conditionTarget : s.conditionTarget = none
  returning : s.returning = false

theorem atElement_of_none {s : BodyState} (h : s.loopHead = none) : s.AtElement := by
  intro head start hhead
  rw [h] at hhead
  cases hhead

theorem Between.atElement {s : BodyState} (h : s.Between) : s.AtElement :=
  atElement_of_none h.loopHead

end BodyState

namespace Lower

variable {f : Function} {n : Nat} {rest : List Element} {s u : BodyState}

theorem elements_cons (h : s.AtElement) (e : Element) :
    elements f n (e :: rest) s =
      (element f n e rest >>= fun _ => elements f n rest) s := by
  cases hhead : s.loopHead with
  | none => simp [elements, bind_apply, hhead]
  | some head =>
    cases hphase : head.phase with
    | step start => exact absurd hphase (h head start hhead)
    | _ => simp [elements, bind_apply, hhead, hphase]

/-- An operator looks no further than to the end of its expression. -/
theorem operator_congr {op : Operator} {rest rest' : List Element}
    (h : (rest.takeWhile fun e => !e.endsExpression) = rest'.takeWhile fun e => !e.endsExpression) :
    operator f op rest = operator f op rest' := by
  have hneeded : ∀ n, resultNeeded n rest = resultNeeded n rest' := by
    intro n
    rw [resultNeeded, resultNeeded, h]
  simp only [operator, apply, assign, hneeded]

theorem element_congr {n n' : Nat} {e : Element} (he : e.inExpression = true)
    {rest rest' : List Element}
    (h : (rest.takeWhile fun e => !e.endsExpression) = rest'.takeWhile fun e => !e.endsExpression) :
    element f n e rest = element f n' e rest' := by
  cases e with
  | operand o => rw [element_operand, element_operand]
  | operator op => rw [element_operator, element_operator, operator_congr h]
  | _ => cases he

theorem takeWhile_code {c : Code} (hc : ∀ e ∈ c, e.inExpression = true) {mark : Marker}
    (hmark : (Element.marker mark).endsExpression = true) (rest : List Element) :
    ((c ++ .marker mark :: rest).takeWhile fun e => !e.endsExpression) = c := by
  have hnot : ∀ e ∈ c, (!e.endsExpression) = true := by
    intro e he
    cases e with
    | marker m => cases hc _ he
    | _ => rfl
  rw [List.takeWhile_append_of_pos hnot, List.takeWhile_cons_of_neg (by simp [hmark]),
    List.append_nil]

/-- How the elements of an expression are lowered does not depend on what stands
behind its end. -/
theorem forFirst_code {c : Code} (hc : ∀ e ∈ c, e.inExpression = true) {mark : Marker}
    (hmark : (Element.marker mark).endsExpression = true) (n : Nat) (rest : List Element) :
    forFirst (element f n) (c ++ .marker mark :: rest) c.length = code f c mark := by
  unfold code
  induction c with
  | nil => simp
  | cons e c ih =>
    rw [List.forall_mem_cons] at hc
    have hfirst : element f n e (c ++ .marker mark :: rest) = element f 0 e (c ++ [.marker mark]) := by
      refine element_congr hc.1 ?_
      rw [takeWhile_code hc.2 hmark, takeWhile_code hc.2 hmark]
    simp only [List.cons_append, List.length_cons, forFirst]
    rw [hfirst, ih hc.2]

theorem elements_code {c : Code} (hc : ∀ e ∈ c, e.inExpression = true) (h : s.AtElement) :
    elements f n (c ++ rest) s =
      (forFirst (element f n) (c ++ rest) c.length >>= fun _ => elements f n rest) s := by
  induction c generalizing s with
  | nil => simp
  | cons e c ih =>
    rw [List.forall_mem_cons] at hc
    simp only [List.cons_append, List.length_cons, forFirst, bind_assoc]
    rw [elements_cons h, bind_apply, bind_apply]
    cases he : element f n e (c ++ rest) s with
    | error cause s' => rfl
    | ok u s' =>
      obtain ⟨t, -, rfl⟩ := (local_element f n hc.1 _ s u s').1 he
      exact ih hc.2 h

/-- **An expression** up to the mark of its end. -/
theorem splits_code {c : Code} (hc : ∀ e ∈ c, e.inExpression = true) {mark : Marker}
    (hmark : (Element.marker mark).endsExpression = true) (h : s.AtElement) :
    Splits (elements f n (c ++ .marker mark :: rest) s) (code f c mark s.core)
      fun _ t => elements f n (.marker mark :: rest) (s.follow t) := by
  rw [elements_code hc h, forFirst_code hc hmark]
  exact (local_code f hc mark).splits _ s

/-- What an element does once it is taken up. -/
def act (f : Function) (n : Nat) (rest : List Element) : Element → Lower Unit
  | .operand o => operand o
  | .operator op => operator f op rest
  | .keyword k => keyword f k
  | .marker .functionStart => functionStart f
  | .marker .functionEnd => functionEnd f
  | .marker .expressionEnd => expressionEnd f
  | .marker .zeroJump => zeroJump f rest
  | .marker .scopeOpen => openScope f
  | .marker .scopeClose =>
    closeScope f (fun stretch => forFirst (element f n) stretch.elements stretch.length) rest

/-- **One element** is taken up first. -/
theorem splits_element (h : s.AtElement) (e : Element) :
    Splits (elements f (n + 1) (e :: rest) s) (takes e s.core) fun _ t =>
      (act f n rest e >>= fun _ => elements f (n + 1) rest) (s.follow t) := by
  have hact : element f (n + 1) e rest = takes e >>= fun _ => act f n rest e := by
    cases e with
    | marker m => cases m <;> rfl
    | _ => rfl
  rw [elements_cons h, hact, bind_assoc]
  exact (local_takes e).splits _ s

/-- An element that only changes what is open. -/
theorem splits_change (h : s.AtElement) {e : Element}
    (hact : ∀ t, act f n rest e (s.follow t) = .ok () (u.follow t)) :
    Splits (elements f (n + 1) (e :: rest) s) (takes e s.core) fun _ t =>
      elements f (n + 1) rest (u.follow t) := by
  exact (splits_element h e).congr fun _ t => bind_ok (hact t)

/-- Begins a counted loop whose first expression ends here. -/
def startLoop : Lower Unit := do
  match (← get).loopHead with
  | some { base, depth, phase := .init } =>
    modify fun s => { s with loopHead := some { base, depth, phase := .condition } }
    storeWritten
    label base.startLabel
    invalidate
  | _ => pure ()

theorem expressionEnd_apply (h : s.returning = false) :
    expressionEnd f s = (finishExpression >>= fun _ => startLoop) s := by
  simp only [expressionEnd, bind_apply, get_apply, h, Bool.false_eq_true, if_false]
  rfl

theorem expressionEnd_returning (h : s.returning = true) :
    expressionEnd f s = leaveFunction f { s with returning := false } := by
  simp only [expressionEnd, bind_apply, get_apply, h, if_true]
  rfl

/-- The end of an expression. -/
theorem splits_expressionEnd (hat : s.AtElement) (hreturning : s.returning = false) :
    Splits (elements f (n + 1) (.marker .expressionEnd :: rest) s)
      ((takes (.marker .expressionEnd) >>= fun _ => finishExpression) s.core)
      fun _ t => (startLoop >>= fun _ => elements f (n + 1) rest) (s.follow t) := by
  refine (splits_element hat _).bind (local_takes _) fun _ t => ?_
  have hend : (act f n rest (.marker .expressionEnd) >>= fun _ =>
      elements f (n + 1) rest) (s.follow t) =
      (finishExpression >>= fun _ => startLoop >>= fun _ => elements f (n + 1) rest)
        (s.follow t) := by
    rw [← bind_assoc]
    simp only [act, bind_apply _ fun _ => elements f (n + 1) rest]
    rw [expressionEnd_apply]
    exact hreturning
  rw [hend]
  exact local_finishExpression.splits _ _

/-- **An expression statement.** -/
theorem splits_evaluate {c : Option Code} (hc : ∀ code ∈ c, code.Plain) (hat : s.AtElement)
    (hreturning : s.returning = false) :
    Splits (elements f (n + 1) (Code.ended c ++ rest) s) (evaluate f c s.core)
      fun _ t => (startLoop >>= fun _ => elements f (n + 1) rest) (s.follow t) := by
  have hplain := inExpression_getD hc
  rw [Code.ended, List.append_assoc, List.singleton_append]
  refine (splits_code hplain rfl hat).bind (local_code f hplain _) fun _ t => ?_
  exact splits_expressionEnd hat hreturning

/-- Where no counted loop is begun, there is nothing to start. -/
theorem startLoop_of_none (h : s.loopHead = none) (k : Unit → Lower Unit) :
    (startLoop >>= k) s = k () s := by
  simp [startLoop, bind_apply, h]

theorem startLoop_of_init {base : LabelBase} {depth : Nat}
    (h : s.loopHead = some ⟨base, depth, .init⟩) (k : Unit → Lower Unit) :
    (startLoop >>= k) s =
      (join base.startLabel >>= k) { s with loopHead := some ⟨base, depth, .condition⟩ } := by
  simp only [startLoop, bind_apply, get_apply, h]
  rfl

/-- **A condition.** -/
theorem splits_test {c : Code} (hc : c.Plain) {target : String} (hat : s.AtElement)
    (htake : ∀ t, takeConditionTarget f rest (s.follow t) = .ok target (u.follow t)) :
    Splits (elements f (n + 1) (Code.tested c ++ rest) s) (test f c target s.core)
      fun _ t => elements f (n + 1) rest (u.follow t) := by
  rw [Code.tested, List.append_assoc, List.singleton_append]
  refine (splits_code hc.2 rfl hat).bind (local_code f hc.2 _) fun _ t => ?_
  refine (splits_element (s := s.follow t) hat _).bind (local_takes _) fun _ t => ?_
  have hjump : act f n rest (.marker .zeroJump) >>= (fun _ => elements f (n + 1) rest) =
      expressionValue f >>= fun r => takeConditionTarget f rest >>= fun target =>
        branchOn target r >>= fun _ => elements f (n + 1) rest := by
    simp only [act, zeroJump, branchOn, bind_assoc]
  rw [hjump]
  refine ((inner_expressionValue f).isLocal.splits _ _).bind (inner_expressionValue f).isLocal
    fun r t => ?_
  have htarget : (takeConditionTarget f rest >>= fun target =>
      branchOn target r >>= fun _ => elements f (n + 1) rest) (s.follow t) =
      (branchOn target r >>= fun _ => elements f (n + 1) rest) (u.follow t) :=
    bind_ok (htake t)
  exact htarget ▸ (local_branchOn target r).splits _ (u.follow t)

/-- The step of a counted loop is passed over. -/
theorem elements_passOver {c : Code} (hc : ∀ e ∈ c, e.inExpression = true) {base : LabelBase}
    {depth : Nat} {start : List Element} (h : s.loopHead = some ⟨base, depth, .step start⟩) :
    elements f n (c ++ .marker .expressionEnd :: rest) s = elements f n rest { s with
      loopHead := some ⟨base, depth, .ready ⟨start, start.length - (rest.length + 1)⟩⟩ } := by
  induction c with
  | nil => simp [elements, bind_apply, h, passOver]
  | cons e c ih =>
    rw [List.forall_mem_cons] at hc
    have hne : e ≠ .marker .expressionEnd := by
      rintro rfl
      cases hc.1
    rw [← ih hc.2]
    simp [elements, bind_apply, h, passOver, hne]

/-! ## Scopes -/

/-- The action of a scope's end, with what follows it. -/
def scopeEnd (f : Function) (n : Nat) (rest : List Element) : Lower Unit :=
  closeScope f (fun stretch => forFirst (element f n) stretch.elements stretch.length) rest
    >>= fun _ => elements f (n + 1) rest

/-- **A scope**, up to what its end does. -/
theorem splits_scope {inner : List Element} {x : Lower Unit} (hx : Local x) (hat : s.AtElement)
    (hopen : ∀ t, openScope f (s.follow t) = .ok () (u.follow t)) (hu : u.AtElement)
    (hinner : ∀ t, Splits (elements f (n + 1) (inner ++ .marker .scopeClose :: rest) (u.follow t))
      (x t.core) fun _ t => elements f (n + 1) (.marker .scopeClose :: rest) (u.follow t)) :
    Splits (elements f (n + 1) (inScope inner ++ rest) s) (scope x s.core)
      fun _ t => scopeEnd f n rest (u.follow t) := by
  rw [inScope, List.cons_append, List.append_assoc, List.singleton_append]
  refine (splits_change (e := .marker .scopeOpen) hat hopen).bind (local_takes _) fun _ t => ?_
  exact (hinner t).bind hx fun _ t => splits_element (s := u.follow t) hu _

/-- What the end of an open scope does. -/
def closeAs (f : Function) (n : Nat) (rest : List Element) : OpenScope → Lower Unit
  | .block => pure ()
  | .branch => closeBranch f rest
  | .otherwise => closeOtherwise f
  | .whileLoop base depth => closeLoop base depth
  | .forLoop base depth stretch => do
    forFirst (element f n) stretch.elements stretch.length
    finishExpression
    closeLoop base depth

theorem scopeEnd_eq {scope : OpenScope} {scopes : List OpenScope} (h : s.scopes = scope :: scopes) :
    scopeEnd f n rest s =
      (closeAs f n rest scope >>= fun _ => elements f (n + 1) rest) { s with scopes } := by
  simp only [scopeEnd, closeScope, bind_apply, get_apply, h, modify_apply]
  cases scope <;> rfl

/-! ### Loops -/

/-- The end of a loop. -/
theorem splits_closeLoop (base : LabelBase) (depth : Nat) (k : Unit → Lower Unit) (s : BodyState) :
    Splits ((closeLoop base depth >>= k) s) (repeatLoop base depth s.core) fun _ t =>
      k () ({ s with depth := s.depth - 1, loops := s.loops.drop 1 }.follow t) :=
  (local_repeatLoop base depth).splits k { s with depth := s.depth - 1, loops := s.loops.drop 1 }

/-- The end of a counted loop, with its step. -/
theorem splits_scopeEnd_for {scopes : List OpenScope} {base : LabelBase} {depth : Nat} {c : Code}
    (hc : ∀ e ∈ c, e.inExpression = true) {after : List Element}
    (h : s.scopes = .forLoop base depth ⟨c ++ .marker .expressionEnd :: after, c.length⟩ :: scopes) :
    Splits (scopeEnd f n rest s) ((do
        code f c .expressionEnd
        finishExpression
        repeatLoop base depth) s.core) fun _ t =>
      elements f (n + 1) rest
        ({ s with scopes, depth := s.depth - 1, loops := s.loops.drop 1 }.follow t) := by
  have hstep : forFirst (element f n) (c ++ .marker .expressionEnd :: after) c.length =
      code f c .expressionEnd := forFirst_code hc rfl n after
  rw [scopeEnd_eq h]
  simp only [closeAs, hstep, bind_assoc]
  refine ((local_code f hc _).splits _ { s with scopes }).bind (local_code f hc _) fun _ t => ?_
  refine (local_finishExpression.splits _ _).bind local_finishExpression fun _ t => ?_
  exact splits_closeLoop base depth _ ({ s with scopes }.follow t)

/-! ### Branches -/

/-- What the end of a branch does once written variables are stored. -/
def branchEnd (f : Function) (rest : List Element) : Lower Unit := do
  match (← get).chains with
  | [] => throw (f.unexpected Keyword.ifThen.text)
  | chain :: chains =>
    if chainContinues rest then
      jump chain.base.endLabel
      modify fun s => { s with chains := { chain with jumped := true } :: chains }
      label chain.skip
      invalidate
    else
      label chain.skip
      if chain.jumped then
        label chain.base.endLabel
      invalidate
      closeChain

theorem closeBranch_eq : closeBranch f rest =
    leaveInner >>= fun _ => storeWritten >>= fun _ => branchEnd f rest :=
  rfl

theorem branchEnd_of_continues {chain : IfChain} {chains : List IfChain}
    (hchains : s.chains = chain :: chains) (hrest : chainContinues rest = true) :
    branchEnd f rest s = (do
      jump chain.base.endLabel
      modify fun s => { s with chains := { chain with jumped := true } :: chains }
      label chain.skip
      invalidate : Lower Unit) s := by
  simp only [branchEnd, bind_apply, get_apply, hchains, hrest, if_true]

theorem branchEnd_of_last {chain : IfChain} {chains : List IfChain}
    (hchains : s.chains = chain :: chains) (hrest : chainContinues rest = false) :
    branchEnd f rest s =
      (joinChain chain.base chain.skip chain.jumped >>= fun _ => closeChain) s := by
  simp only [branchEnd, joinChain, bind_apply, get_apply, hchains, hrest, Bool.false_eq_true, if_false]
  cases chain.jumped <;> rfl

/-- The end of a branch that others follow. -/
theorem splits_scopeEnd_branch (rest : List Element) {scopes : List OpenScope} {chain : IfChain} {chains : List IfChain}
    (h : s.scopes = .branch :: scopes) (hchains : s.chains = chain :: chains)
    (hrest : chainContinues rest = true) :
    Splits (scopeEnd f n rest s) (passOthers chain.base chain.skip s.core) fun _ t =>
      elements f (n + 1) rest ({ s with
        scopes, depth := s.depth - 1, chains := { chain with jumped := true } :: chains }.follow t) := by
  rw [scopeEnd_eq h]
  simp only [closeAs, closeBranch_eq, bind_assoc]
  refine (local_storeWritten.splits _ { s with scopes, depth := s.depth - 1 }).bind
    local_storeWritten fun _ t => ?_
  refine .of_eq (bind_congr_at (branchEnd_of_continues hchains hrest)) ?_
  simp only [bind_assoc]
  refine ((local_jump _).splits _ _).bind (local_jump _) fun _ t => ?_
  refine .of_eq (bind_ok rfl) ?_
  refine ((local_label _).splits _ _).bind (local_label _) fun _ t => ?_
  exact local_invalidate.splits _ _

/-- The end of a chain. -/
theorem splits_closeChain {chain : IfChain} {chains : List IfChain}
    (hchains : s.chains = chain :: chains) (k : Unit → Lower Unit) :
    Splits ((closeChain >>= k) s) (closeAt .ifChain chain.depth s.core) fun _ t =>
      k () ({ s with chains }.follow t) := by
  have hclose : (closeChain >>= k) s = (closeAt .ifChain chain.depth >>= k) { s with chains } := by
    simp [closeChain, closeAt, bind_apply, hchains]
  rw [hclose]
  exact (local_closeAt _ _).splits k { s with chains }

/-- The end of the last branch of a chain. -/
theorem splits_scopeEnd_last {scopes : List OpenScope} {chain : IfChain} {chains : List IfChain}
    (h : s.scopes = .branch :: scopes) (hchains : s.chains = chain :: chains)
    (hrest : chainContinues rest = false) :
    Splits (scopeEnd f n rest s)
      ((storeWritten >>= fun _ => joinChain chain.base chain.skip chain.jumped >>= fun _ =>
        closeAt .ifChain chain.depth) s.core) fun _ t =>
      elements f (n + 1) rest
        ({ s with scopes, depth := s.depth - 1, chains }.follow t) := by
  rw [scopeEnd_eq h]
  simp only [closeAs, closeBranch_eq, bind_assoc]
  refine (local_storeWritten.splits _ { s with scopes, depth := s.depth - 1 }).bind
    local_storeWritten fun _ t => ?_
  refine .of_eq (bind_congr_at (branchEnd_of_last hchains hrest)) ?_
  simp only [bind_assoc]
  have hjoin := local_joinChain chain.base chain.skip chain.jumped
  refine (hjoin.splits _ _).bind hjoin fun _ t => ?_
  refine splits_closeChain ?_ _
  exact hchains

/-- What the end of the last branch does once written variables are stored. -/
def otherwiseEnd (f : Function) : Lower Unit := do
  match (← get).chains with
  | [] => throw (f.unexpected Keyword.otherwise.text)
  | chain :: _ =>
    label chain.base.endLabel
    invalidate
    closeChain

theorem closeOtherwise_eq : closeOtherwise f =
    leaveInner >>= fun _ => storeWritten >>= fun _ => otherwiseEnd f :=
  rfl

theorem otherwiseEnd_apply {chain : IfChain} {chains : List IfChain}
    (hchains : s.chains = chain :: chains) :
    otherwiseEnd f s = (do
      label chain.base.endLabel
      invalidate
      closeChain) s := by
  simp only [otherwiseEnd, bind_apply, get_apply, hchains]

/-- The end of the branch that is taken otherwise. -/
theorem splits_scopeEnd_otherwise (scopes : List OpenScope) (chain : IfChain) (chains : List IfChain)
    (h : s.scopes = .otherwise :: scopes) (hchains : s.chains = chain :: chains) :
    Splits (scopeEnd f n rest s)
      ((join chain.base.endLabel >>= fun _ => closeAt .ifChain chain.depth) s.core) fun _ t =>
      elements f (n + 1) rest
        ({ s with scopes, depth := s.depth - 1, chains }.follow t) := by
  rw [scopeEnd_eq h]
  simp only [closeAs, closeOtherwise_eq, join, bind_assoc]
  refine (local_storeWritten.splits _ { s with scopes, depth := s.depth - 1 }).bind
    local_storeWritten fun _ t => ?_
  refine .of_eq (bind_congr_at (otherwiseEnd_apply hchains)) ?_
  simp only [bind_assoc]
  refine ((local_label _).splits _ _).bind (local_label _) fun _ t => ?_
  refine (local_invalidate.splits _ _).bind local_invalidate fun _ t => ?_
  refine splits_closeChain ?_ _
  exact hchains

end Lower

/-! ## Statements -/

section Statements

variable {f : Function} {n : Nat} {s : BodyState} {rest : List Element}

theorem chainContinues_code {c : Code} (hc : c.Plain) : chainContinues (c ++ rest) = false := by
  obtain ⟨hne, hplain⟩ := hc
  cases c with
  | nil => exact absurd rfl hne
  | cons e c =>
    cases e with
    | keyword k => cases hplain _ List.mem_cons_self
    | _ => rfl

theorem Stmt.Sound.chainContinues {inLoop : Bool} {stmt : Stmt} (h : stmt.Sound Code.Plain inLoop) :
    Lower.chainContinues (stmt.linear ++ rest) = false := by
  cases stmt with
  | eval c =>
    rw [Stmt.linear, Code.ended, List.append_assoc]
    exact chainContinues_code h
  | _ => rfl

theorem blockSound.chainContinues {inLoop : Bool} {body : List Stmt}
    (h : blockSound Code.Plain inLoop body) (hrest : Lower.chainContinues rest = false) :
    Lower.chainContinues (blockLinear body ++ rest) = false := by
  cases body with
  | nil => exact hrest
  | cons s body =>
    rw [blockLinear, List.append_assoc]
    exact h.1.chainContinues

/-- Statements in a row are lowered from their flat form as from the trees. -/
def BlockSplits (f : Function) (n : Nat) (body : List Stmt) : Prop :=
  ∀ s rest, s.Between → chainContinues rest = false →
    Splits (elements f (n + 1) (blockLinear body ++ rest) s)
      (blockLower f s.depth s.loops.head? body s.core)
      fun _ t => elements f (n + 1) rest (s.follow t)

/-- A scope with statements, up to what its end does. -/
theorem BlockSplits.scope {body : List Stmt} {u : BodyState} (h : BlockSplits f n body)
    (rest : List Element)
    (hlocal : Local (blockLower f u.depth u.loops.head? body)) (hat : s.AtElement)
    (hopen : ∀ t, openScope f (s.follow t) = .ok () (u.follow t)) (hu : u.Between) :
    Splits (elements f (n + 1) (inScope (blockLinear body) ++ rest) s)
      (Lower.scope (blockLower f u.depth u.loops.head? body) s.core)
      fun _ t => scopeEnd f n rest (u.follow t) :=
  splits_scope hlocal hat hopen hu.atElement fun t => h (u.follow t) _ ⟨hu.1, hu.2, hu.3, hu.4⟩ rfl

theorem splits_eval {c : Code} (hc : c.Plain) (hs : s.Between) :
    Splits (elements f (n + 1) ((Stmt.eval c).linear ++ rest) s)
      ((Stmt.eval c).lower f s.depth s.loops.head? s.core)
      fun _ t => elements f (n + 1) rest (s.follow t) := by
  have hplain : ∀ code ∈ some c, code.Plain := fun code h => Option.some.inj h ▸ hc
  rw [Stmt.linear, Stmt.lower_eval]
  exact (splits_evaluate hplain hs.atElement hs.returning).congr fun _ t =>
    startLoop_of_none (s := s.follow t) hs.loopHead _

theorem splits_ret {value : Option Code} (hc : ∀ code ∈ value, code.Plain) (hs : s.Between) :
    Splits (elements f (n + 1) ((Stmt.ret value).linear ++ rest) s)
      ((Stmt.ret value).lower f s.depth s.loops.head? s.core)
      fun _ t => elements f (n + 1) rest (s.follow t) := by
  have hplain := inExpression_getD hc
  obtain ⟨assembler, labels, depth, scopes, chains, loops, loopHead, opening, target, returning,
    expression⟩ := s
  obtain ⟨rfl, rfl, rfl, rfl⟩ := hs
  rw [Stmt.linear, Stmt.lower_ret, Code.ended, List.cons_append, List.append_assoc, List.singleton_append]
  generalize hs : BodyState.mk assembler labels depth scopes chains loops none none none false
    expression = s
  have hat : s.AtElement := by
    subst hs
    nofun
  refine (splits_change (u := { s with returning := true }) hat fun t => rfl).bind (local_takes _)
    fun _ t => ?_
  refine (splits_code (s := BodyState.follow { s with returning := true } t) hplain rfl hat).bind
    (local_code f hplain _) fun _ t => ?_
  refine (splits_element (s := BodyState.follow { s with returning := true } t) hat _).bind
    (local_takes _) fun _ t => ?_
  -- `returning` is on, so the end of the expression is the end of the function
  have hleave : act f n rest (.marker .expressionEnd)
      (BodyState.follow { s with returning := true } t) = leaveFunction f (s.follow t) := by
    subst hs
    exact expressionEnd_returning rfl
  refine .of_eq (bind_congr_at hleave) ?_
  exact (local_leaveFunction f).splits _ (s.follow t)

theorem splits_leave (hs : s.Between) :
    Splits (elements f (n + 1) (Stmt.leave.linear ++ rest) s)
      (Stmt.leave.lower f s.depth s.loops.head? s.core)
      fun _ t => elements f (n + 1) rest (s.follow t) := by
  have hbreak : ∀ s : BodyState, act f n rest (.keyword .breakLoop) s =
      leaveLoop f s.loops.head? s := by
    intro s
    cases hloops : s.loops with
    | nil => simp only [act, keyword, bind_apply, get_apply, hloops, List.head?_nil, leaveLoop]
    | cons target loops =>
      simp only [act, keyword, bind_apply, get_apply, hloops, List.head?_cons, leaveLoop]
      rfl
  rw [Stmt.linear, Stmt.lower_leave]
  refine (splits_element hs.atElement _).bind (local_takes _) fun _ t => ?_
  refine .of_eq (bind_congr_at (hbreak (s.follow t))) ?_
  exact (local_leaveLoop f _).splits _ _

theorem splits_block {body : List Stmt} (h : BlockSplits f n body)
    (hlocal : ∀ depth leave, Local (blockLower f depth leave body)) (hs : s.Between) :
    Splits (elements f (n + 1) ((Stmt.block body).linear ++ rest) s)
      ((Stmt.block body).lower f s.depth s.loops.head? s.core)
      fun _ t => elements f (n + 1) rest (s.follow t) := by
  rw [Stmt.linear, Stmt.lower_block]
  have hat := hs.atElement
  obtain ⟨a, l, depth, scopes, chains, loops, _, _, _, _, x⟩ := s
  obtain ⟨rfl, rfl, rfl, rfl⟩ := hs
  have hscope := h.scope rest
    (u := ⟨a, l, depth, .block :: scopes, chains, loops, none, none, none, false, x⟩)
    (hlocal _ _) hat (fun _ => rfl) ⟨rfl, rfl, rfl, rfl⟩
  exact hscope.congr fun _ t => (scopeEnd_eq rfl).trans rfl

theorem splits_openChain (hs : s.Between) :
    Splits (elements f (n + 1) (.keyword .ifThen :: rest) s) (openChain f s.depth s.core)
      fun base t => elements f (n + 1) rest (BodyState.follow { s with
        conditionTarget := some base.skipLabel
        chains := ⟨base, s.depth, 0, false, base.skipLabel⟩ :: s.chains
        opening := some .branch } t) := by
  refine (splits_element hs.atElement _).bind (local_takes _) fun _ t => ?_
  exact (local_openAt f .ifChain s.depth).splits (fun base s => elements f (n + 1) rest { s with
    conditionTarget := some base.skipLabel
    chains := ⟨base, s.depth, 0, false, base.skipLabel⟩ :: s.chains
    opening := some .branch }) (s.follow t)

theorem splits_openFor (hs : s.Between) :
    Splits (elements f (n + 1) (.keyword .forLoop :: rest) s) (openFor f s.depth s.core)
      fun base t => elements f (n + 1) rest (BodyState.follow { s with
        loopHead := some ⟨base, s.depth, .init⟩
        opening := some .forLoop } t) := by
  refine (splits_element hs.atElement _).bind (local_takes _) fun _ t => ?_
  exact (local_openAt f .forLoop s.depth).splits (fun base s => elements f (n + 1) rest { s with
    loopHead := some ⟨base, s.depth, .init⟩
    opening := some .forLoop }) (s.follow t)

theorem splits_openWhile (hs : s.Between) :
    Splits (elements f (n + 1) (.keyword .whileLoop :: rest) s) (openWhile f s.depth s.core)
      fun base t => elements f (n + 1) rest (BodyState.follow { s with
        conditionTarget := some base.endLabel
        opening := some (.whileLoop base s.depth) } t) := by
  refine (splits_element hs.atElement _).bind (local_takes _) fun _ t => ?_
  have hkey : (act f n rest (.keyword .whileLoop) >>= fun _ => elements f (n + 1) rest)
      (s.follow t) = (storeWritten >>= fun _ => invalidate >>= fun _ =>
        (fun s => (openAt f .whileLoop s.depth >>= fun base => label base.startLabel >>= fun _ s =>
          elements f (n + 1) rest { s with
            conditionTarget := some base.endLabel
            opening := some (.whileLoop base s.depth) }) s)) (s.follow t) := by
    simp only [act, keyword, bind_assoc]
    rfl
  refine .of_eq hkey ?_
  refine (local_storeWritten.splits _ _).bind local_storeWritten fun _ t => ?_
  refine (local_invalidate.splits _ _).bind local_invalidate fun _ t => ?_
  refine ((local_openAt f .whileLoop s.depth).splits _ (s.follow t)).bind (local_openAt f _ _)
    fun base t => ?_
  refine ((local_label _).splits _ (s.follow t)).bind (local_label _) fun _ t => ?_
  exact (local_pure base).splits (fun base s => elements f (n + 1) rest { s with
    conditionTarget := some base.endLabel
    opening := some (.whileLoop base s.depth) }) (s.follow t)

/-- **A loop that tests its condition first.** -/
theorem splits_loop {c : Code} {body : List Stmt} (hc : c.Plain) (h : BlockSplits f n body)
    (hlocal : ∀ depth leave, Local (blockLower f depth leave body)) (hs : s.Between) :
    Splits (elements f (n + 1) ((Stmt.loop c body).linear ++ rest) s)
      ((Stmt.loop c body).lower f s.depth s.loops.head? s.core)
      fun _ t => elements f (n + 1) rest (s.follow t) := by
  rw [Stmt.linear, Stmt.lower_loop, List.cons_append, List.append_assoc]
  refine (splits_openWhile hs).bind (local_openWhile f _) fun base t => ?_
  have hat := hs.atElement
  obtain ⟨a, l, depth, scopes, chains, loops, _, _, _, _, x⟩ := s
  obtain ⟨rfl, rfl, rfl, rfl⟩ := hs
  refine (splits_test (s := BodyState.follow ⟨a, l, depth, scopes, chains, loops, none,
    some (.whileLoop base depth), some base.endLabel, false, x⟩ t) (u := ⟨a, l, depth, scopes,
    chains, loops, none, some (.whileLoop base depth), none, false, x⟩) hc hat fun _ => rfl).bind
    (local_test f hc _) fun _ t => ?_
  refine (h.scope _ (s := BodyState.follow ⟨a, l, depth, scopes, chains, loops, none,
    some (.whileLoop base depth), none, false, x⟩ t) (u := ⟨a, l, depth + 1, .whileLoop base depth :: scopes, chains,
    base.endLabel :: loops, none, none, none, false, x⟩) (hlocal _ _) hat (fun _ => rfl)
    ⟨rfl, rfl, rfl, rfl⟩).bind (local_scope (hlocal _ _)) fun _ t => ?_
  refine .of_eq (scopeEnd_eq rfl) ?_
  exact splits_closeLoop base depth _ _

/-- **A counted loop.** -/
theorem splits_count {first step : Option Code} {c : Code} {body : List Stmt}
    (hfirst : ∀ code ∈ first, code.Plain) (hc : c.Plain) (hstep : ∀ code ∈ step, code.Plain)
    (h : BlockSplits f n body) (hlocal : ∀ depth leave, Local (blockLower f depth leave body))
    (hs : s.Between) :
    Splits (elements f (n + 1) ((Stmt.count first c step body).linear ++ rest) s)
      ((Stmt.count first c step body).lower f s.depth s.loops.head? s.core)
      fun _ t => elements f (n + 1) rest (s.follow t) := by
  simp only [Stmt.linear, Stmt.lower_count, List.cons_append, List.append_assoc]
  refine (splits_openFor hs).bind (local_openFor f _) fun base t => ?_
  have hat := hs.atElement
  obtain ⟨a, l, depth, scopes, chains, loops, _, _, _, _, x⟩ := s
  obtain ⟨rfl, rfl, rfl, rfl⟩ := hs
  -- The state at a phase of the loop's head.
  let head (phase : LoopPhase) : BodyState := ⟨a, l, depth, scopes, chains, loops,
    some ⟨base, depth, phase⟩, some .forLoop, none, false, x⟩
  refine (splits_evaluate (s := (head .init).follow t) hfirst nofun rfl).bind
    (local_evaluate f hfirst) fun _ t => ?_
  refine .of_eq (startLoop_of_init (s := (head .init).follow t) rfl _) ?_
  refine ((local_join _).splits _ ((head .condition).follow t)).bind (local_join _) fun _ t => ?_
  refine (splits_test (s := (head .condition).follow t) (u := head (.step _)) hc nofun
    fun _ => rfl).bind (local_test f hc _) fun _ t => ?_
  have hplain := inExpression_getD hstep
  have hended : Code.ended step ++ (inScope (blockLinear body) ++ rest) =
      step.getD [] ++ .marker .expressionEnd :: (inScope (blockLinear body) ++ rest) := by
    simp [Code.ended]
  have hlength : (step.getD [] ++ .marker .expressionEnd ::
      (inScope (blockLinear body) ++ rest)).length - ((inScope (blockLinear body) ++ rest).length + 1) =
      (step.getD []).length := by
    simp only [List.length_append, List.length_cons]
    omega
  rw [hended]
  refine .of_eq (elements_passOver hplain rfl) ?_
  rw [hlength]
  refine (h.scope _ (s := (head (.ready ⟨_, _⟩)).follow t) (u := ⟨a, l, depth + 1,
    .forLoop base depth ⟨_, _⟩ :: scopes, chains, base.endLabel :: loops, none, none, none, false, x⟩)
    (hlocal _ _) nofun (fun _ => rfl) ⟨rfl, rfl, rfl, rfl⟩).bind (local_scope (hlocal _ _))
    fun _ t => ?_
  exact splits_scopeEnd_for (s := BodyState.follow ⟨a, l, depth + 1,
    .forLoop base depth ⟨_, _⟩ :: scopes, chains, base.endLabel :: loops, none, none, none, false, x⟩ t)
    hplain rfl

/-- What follows a branch is lowered from its flat form as from the tree, beginning
with what the end of the branch does. -/
def AlternativeSplits (f : Function) (n : Nat) (other : Alternative) : Prop :=
  ∀ (s : BodyState) (rest : List Element) (scopes : List OpenScope) (chains : List IfChain)
    (base : LabelBase) (depth index : Nat) (skip : String), s.Between → s.depth = depth + 1 →
    s.scopes = .branch :: scopes →
    s.chains = ⟨base, depth, index, decide (0 < index), skip⟩ :: chains →
    chainContinues rest = false →
    Splits (scopeEnd f n (other.linear ++ rest) s)
      ((other.lower f depth s.loops.head? base index skip >>= fun _ => closeAt .ifChain depth) s.core)
      fun _ t => elements f (n + 1) rest (BodyState.follow { s with scopes, depth, chains } t)

theorem splits_none : AlternativeSplits f n .none := by
  intro s rest scopes chains base depth index skip hs hdepth hscopes hchains hrest
  rw [Alternative.linear, Alternative.lower_none, bind_assoc]
  have hlast := splits_scopeEnd_last (f := f) (n := n) hscopes hchains hrest
  rw [hdepth, Nat.add_sub_cancel] at hlast
  exact hlast

/-- **A branch with its condition**, and what follows it in the chain. The first branch and
those that come later differ only in the label that control goes to if they are not taken. -/
theorem splits_tested {c : Code} {body : List Stmt} {other : Alternative} (hc : c.Plain)
    (h : BlockSplits f n body) (hlocal : ∀ depth leave, Local (blockLower f depth leave body))
    (hother : AlternativeSplits f n other) (base : LabelBase) (index : Nat) (skip : String)
    (hs : s.Between) (hrest : chainContinues rest = false) :
    Splits (elements f (n + 1)
        (Code.tested c ++ (inScope (blockLinear body) ++ (other.linear ++ rest))) { s with
          chains := ⟨base, s.depth, index, decide (0 < index), skip⟩ :: s.chains
          opening := some .branch
          conditionTarget := some skip })
      ((do
        test f c skip
        scope (blockLower f (s.depth + 1) s.loops.head? body)
        other.lower f s.depth s.loops.head? base index skip
        closeAt .ifChain s.depth : Lower Unit) s.core)
      fun _ t => elements f (n + 1) rest (s.follow t) := by
  obtain ⟨a, l, depth, scopes, chains, loops, _, _, _, _, x⟩ := s
  obtain ⟨rfl, rfl, rfl, rfl⟩ := hs
  let chain : IfChain := ⟨base, depth, index, decide (0 < index), skip⟩
  -- The states up to the branch, by whether the condition is still to come.
  let around (target : Option String) : BodyState :=
    ⟨a, l, depth, scopes, chain :: chains, loops, none, some .branch, target, false, x⟩
  have hat : ∀ target t, ((around target).follow t).AtElement :=
    fun _ _ => BodyState.atElement_of_none rfl
  refine (splits_test (s := around (some skip)) (u := around none) hc (hat _ (around none))
    fun _ => rfl).bind (local_test f hc _) fun _ t => ?_
  let inside : BodyState :=
    ⟨a, l, depth + 1, .branch :: scopes, chain :: chains, loops, none, none, none, false, x⟩
  refine (h.scope _ (s := (around none).follow t) (u := inside) (hlocal _ _) (hat _ _)
    (fun _ => rfl) ⟨rfl, rfl, rfl, rfl⟩).bind (local_scope (hlocal _ _)) fun _ t => ?_
  exact hother (inside.follow t) rest scopes chains base depth index skip
    ⟨rfl, rfl, rfl, rfl⟩ rfl rfl rfl hrest

theorem splits_elseIf {c : Code} {body : List Stmt} {other : Alternative} (hc : c.Plain)
    (h : BlockSplits f n body) (hlocal : ∀ depth leave, Local (blockLower f depth leave body))
    (hother : AlternativeSplits f n other) :
    AlternativeSplits f n (.elseIf c body other) := by
  intro s rest scopes chains base depth index skip hs hdepth hscopes hchains hrest
  simp only [Alternative.linear, Alternative.lower_elseIf, List.cons_append, List.append_assoc, bind_assoc]
  have hclose := splits_scopeEnd_branch (f := f) (n := n) (.keyword .elseIf ::
    (Code.tested c ++ (inScope (blockLinear body) ++ (other.linear ++ rest)))) hscopes hchains rfl
  refine hclose.bind (local_passOthers _ _) fun _ t => ?_
  obtain ⟨a, l, _, _, _, loops, _, _, _, _, x⟩ := s
  obtain ⟨rfl, rfl, rfl, rfl⟩ := hs
  obtain rfl := hdepth
  let outside : BodyState := ⟨a, l, depth, scopes, chains, loops, none, none, none, false, x⟩
  let chain : IfChain := ⟨base, depth, index + 1, true, base.branchSkipLabel index⟩
  refine (splits_change (s := BodyState.follow { outside with
    chains := ⟨base, depth, index, true, skip⟩ :: chains } t) (u := { outside with
    chains := chain :: chains, opening := some .branch, conditionTarget := some chain.skip })
    (BodyState.atElement_of_none rfl) fun _ => rfl).bind (local_takes _) fun _ t => ?_
  have htested := splits_tested (s := outside.follow t) hc h hlocal hother base (index + 1)
    chain.skip ⟨rfl, rfl, rfl, rfl⟩ hrest
  rw [decide_eq_true index.succ_pos] at htested
  exact htested

theorem splits_otherwise {body : List Stmt} (h : BlockSplits f n body)
    (hlocal : ∀ depth leave, Local (blockLower f depth leave body)) :
    AlternativeSplits f n (.otherwise body) := by
  intro s rest scopes chains base depth index skip hs hdepth hscopes hchains hrest
  simp only [Alternative.linear, Alternative.lower_otherwise, List.cons_append, bind_assoc]
  have hclose := splits_scopeEnd_branch (f := f) (n := n)
    (.keyword .otherwise :: (inScope (blockLinear body) ++ rest)) hscopes hchains rfl
  refine hclose.bind (local_passOthers _ _) fun _ t => ?_
  obtain ⟨a, l, _, _, _, loops, _, _, _, _, x⟩ := s
  obtain ⟨rfl, rfl, rfl, rfl⟩ := hs
  obtain rfl := hdepth
  let chain : IfChain := ⟨base, depth, index, true, skip⟩
  -- the chain stays open while the braces of `else` are read
  let around (opening : Option Opening) : BodyState :=
    ⟨a, l, depth, scopes, chain :: chains, loops, none, opening, none, false, x⟩
  have hat : ∀ opening t, ((around opening).follow t).AtElement :=
    fun _ _ => BodyState.atElement_of_none rfl
  refine (splits_change (s := (around none).follow t) (u := around (some .otherwise)) (hat _ _)
    fun _ => rfl).bind (local_takes _) fun _ t => ?_
  let inside : BodyState :=
    ⟨a, l, depth + 1, .otherwise :: scopes, chain :: chains, loops, none, none, none, false, x⟩
  refine (h.scope _ (s := (around (some .otherwise)).follow t) (u := inside) (hlocal _ _) (hat _ _)
    (fun _ => rfl) ⟨rfl, rfl, rfl, rfl⟩).bind (local_scope (hlocal _ _)) fun _ t => ?_
  exact splits_scopeEnd_otherwise (s := inside.follow t) scopes chain chains rfl rfl

theorem splits_branch {c : Code} {body : List Stmt} {other : Alternative} (hc : c.Plain)
    (h : BlockSplits f n body) (hlocal : ∀ depth leave, Local (blockLower f depth leave body))
    (hother : AlternativeSplits f n other) (hs : s.Between) (hrest : chainContinues rest = false) :
    Splits (elements f (n + 1) ((Stmt.branch c body other).linear ++ rest) s)
      ((Stmt.branch c body other).lower f s.depth s.loops.head? s.core)
      fun _ t => elements f (n + 1) rest (s.follow t) := by
  simp only [Stmt.linear, Stmt.lower_branch, List.cons_append, List.append_assoc]
  refine (splits_openChain hs).bind (local_openChain f _) fun base t => ?_
  exact splits_tested (s := s.follow t) hc h hlocal hother base 0 base.skipLabel
    ⟨hs.1, hs.2, hs.3, hs.4⟩ hrest

end Statements

section Trees

variable {f : Function}

mutual

/-- **A statement is lowered from its flat form as from its tree**, whatever
follows it. -/
theorem Stmt.Sound.splits {inLoop : Bool} {stmt : Stmt} (h : stmt.Sound Code.Plain inLoop)
    {n : Nat} {s : BodyState} {rest : List Element} (hs : s.Between)
    (hrest : chainContinues rest = false) :
    Splits (elements f (n + 1) (stmt.linear ++ rest) s)
      (stmt.lower f s.depth s.loops.head? s.core)
      fun _ t => elements f (n + 1) rest (s.follow t) :=
  match stmt, h with
  | .eval _, h => splits_eval h hs
  | .ret _, h => splits_ret h hs
  | .leave, _ => splits_leave hs
  | .block _, h => splits_block (blockSound.splits h) (blockSound.local_lower h) hs
  | .branch .., ⟨hc, hbody, hother⟩ =>
    splits_branch hc hbody.splits hbody.local_lower hother.splits hs hrest
  | .loop .., ⟨hc, hbody⟩ => splits_loop hc hbody.splits hbody.local_lower hs
  | .count .., ⟨hfirst, hc, hstep, hbody⟩ =>
    splits_count hfirst hc hstep hbody.splits hbody.local_lower hs

theorem Alternative.Sound.splits {inLoop : Bool} {other : Alternative}
    (h : other.Sound Code.Plain inLoop) {n : Nat} : AlternativeSplits f n other :=
  match other, h with
  | .none, _ => splits_none
  | .elseIf .., ⟨hc, hbody, hother⟩ =>
    splits_elseIf hc hbody.splits hbody.local_lower hother.splits
  | .otherwise _, h => splits_otherwise (blockSound.splits h) (blockSound.local_lower h)

theorem blockSound.splits {inLoop : Bool} {body : List Stmt}
    (h : blockSound Code.Plain inLoop body) {n : Nat} : BlockSplits f n body :=
  match body, h with
  | [], _ => fun s rest _ _ => (local_pure ()).splits (fun _ => elements f (n + 1) rest) s
  | stmt :: body, ⟨hstmt, hbody⟩ => by
    intro s rest hs hrest
    rw [blockLinear, blockLower_cons, List.append_assoc]
    refine (hstmt.splits hs (hbody.chainContinues hrest)).bind (hstmt.local_lower _ _) fun _ t => ?_
    exact hbody.splits (s.follow t) rest ⟨hs.1, hs.2, hs.3, hs.4⟩ hrest

end

theorem local_functionStart : Local (functionStart f) :=
  (local_onAssembler _).bind fun _ => local_onAssembler _

theorem local_functionEnd : Local (functionEnd f) := by
  refine local_get (fun s => ?_) fun _ => rfl
  split
  · exact local_epilogue f
  · exact local_pure _

theorem local_bodyLower {body : List Stmt} (h : blockSound Code.Plain false body) :
    Local (bodyLower f body) :=
  (local_takes _).bind fun _ => local_functionStart.bind fun _ =>
    (h.local_lower 0 none).bind fun _ => (local_takes _).bind fun _ => local_functionEnd

/-- **A body is lowered from its flat form as from its trees.** -/
theorem elements_bodyLinear {body : List Stmt} (h : blockSound Code.Plain false body) (n : Nat)
    (a : Assembler) (s' : BodyState) :
    elements f (n + 1) (bodyLinear body) { assembler := a } = .ok () s' ↔
      bodyLower f body { assembler := a } = .ok () s' := by
  let s : BodyState := { assembler := a }
  have hat : ∀ t, (s.follow t).AtElement := fun _ => BodyState.atElement_of_none rfl
  have hsplit : Splits (elements f (n + 1) (bodyLinear body) s) (bodyLower f body s.core) fun _ t =>
      elements f (n + 1) [] (s.follow t) := by
    rw [bodyLinear, bodyLower]
    refine (splits_element (hat s) _).bind (local_takes _) fun _ t => ?_
    refine (local_functionStart.splits _ (s.follow t)).bind local_functionStart fun _ t => ?_
    refine (h.splits (s.follow t) _ ⟨rfl, rfl, rfl, rfl⟩ rfl).bind (h.local_lower _ _) fun _ t => ?_
    refine (splits_element (hat t) _).bind (local_takes _) fun _ t => ?_
    exact local_functionEnd.splits _ (s.follow t)
  change elements f (n + 1) (bodyLinear body) s = _ ↔ bodyLower f body s.core = _
  -- nothing follows the body, and a body leaves no trace outside the core of the state
  rw [hsplit s']
  constructor
  · rintro ⟨_, t, hrun, ht⟩
    cases ht
    rw [hrun]
    exact congrArg (EStateM.Result.ok ()) ((local_bodyLower h).core_eq hrun).symm
  · intro hrun
    refine ⟨(), s', hrun, ?_⟩
    exact congrArg (EStateM.Result.ok ()) ((local_bodyLower h).core_eq hrun)

end Trees

end WordC
