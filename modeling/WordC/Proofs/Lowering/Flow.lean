import Mathlib
import WordC.Lowering.Program
import WordC.Proofs.Lowering.FlatForm
/-!
# Where control passes

`waypoints` reads off a journal what control comes by: the expressions, each as
one step, and the labels, jumps and returns between them. `Stmt.flow` gives the
waypoints of a statement without lowering it. Lowering puts exactly these into
the journal (`Stmt.Sound.tells`), whatever the registers hold.
-/

namespace WordC

/-- What control comes by on its way through a function. -/
inductive Waypoint where
  /-- An expression, as one step. -/
  | code (c : Code)
  | label (name : String)
  | jump (target : String)
  /-- Control goes to `target` if the value of the last expression is zero. -/
  | branch (target : String)
  /-- Control leaves the function. -/
  | stop
  deriving DecidableEq, Repr

/-- The waypoint at a line, if control does not simply run through it. -/
def Line.waypoint? : Line → Option Waypoint
  | .label name => some (.label name)
  | .instruction .jmp [.label target] _ => some (.jump target)
  | .instruction .jz [.reg _, .label target] _ => some (.branch target)
  | .instruction .ret _ _ => some .stop
  | _ => none

/-- The waypoint of an expression, if it has any code. -/
def Code.waypoint : Code → List Waypoint
  | [] => []
  | c => [.code c]

/-- **The waypoints of a journal.** An expression is complete where another kind
of element is taken up, and where control joins or leaves. `pending` is what has
been taken up of the current one. -/
def waypoints (pending : Code) : List Moment → List Waypoint
  | [] => pending.waypoint
  | x :: xs =>
    match x.event with
    | .takes e =>
      if e.inExpression then waypoints (pending ++ [e]) xs
      else pending.waypoint ++ waypoints [] xs
    | .asks _ => waypoints pending xs
    | .emits l =>
      match l.waypoint? with
      | some w => pending.waypoint ++ w :: waypoints [] xs
      | none => waypoints pending xs

/-! ## What moments show -/

/-- The moments show the waypoints `ws`. Before them `p` was taken up of the
current expression, and behind them `q`. -/
structure Shows (p : Code) (xs : List Moment) (ws : List Waypoint) (q : Code) : Prop where
  waypoints : ∀ ys, waypoints p (xs ++ ys) = ws ++ waypoints q ys
  /-- Where control does not simply run through a line, there is a waypoint. -/
  lines : ∀ x ∈ xs, ∀ l, x.event = .emits l → l.isQuiet = true ∨ l.waypoint?.isSome = true

theorem Shows.append {p q r : Code} {xs ys : List Moment} {ws vs : List Waypoint}
    (h : Shows p xs ws q) (h' : Shows q ys vs r) : Shows p (xs ++ ys) (ws ++ vs) r where
  waypoints zs := by
    rw [List.append_assoc, h.waypoints, h'.waypoints, List.append_assoc]
  lines := List.forall_mem_append.2 ⟨h.lines, h'.lines⟩

/-- The waypoints of moments that begin and end between two expressions. -/
theorem Shows.eq {xs : List Moment} {ws : List Waypoint} (h : Shows [] xs ws []) :
    WordC.waypoints [] xs = ws := by
  have hall := h.waypoints []
  rwa [List.append_nil, WordC.waypoints, Code.waypoint, List.append_nil] at hall

theorem Line.waypoint?_of_isQuiet {l : Line} (h : l.isQuiet = true) : l.waypoint? = none := by
  cases l with
  | instruction mnemonic => cases mnemonic <;> first | rfl | cases h
  | label => cases h
  | _ => rfl

/-- Quiet moments show nothing. -/
theorem shows_quiet (p : Code) {xs : List Moment} (h : ∀ x ∈ xs, x.event.isQuiet = true) :
    Shows p xs [] p := by
  induction xs with
  | nil => exact ⟨fun _ => rfl, nofun⟩
  | cons x xs ih =>
    rw [List.forall_mem_cons] at h
    obtain ⟨event, file⟩ := x
    have hx : Shows p [⟨event, file⟩] [] p := by
      cases event with
      | takes e => exact absurd h.1 nofun
      | asks b => exact ⟨fun _ => rfl, by simp⟩
      | emits l =>
        refine ⟨fun ys => ?_, ?_⟩
        · simp only [List.singleton_append, waypoints, Line.waypoint?_of_isQuiet h.1,
            List.nil_append]
        · simpa using Or.inl (show l.isQuiet = true from h.1)
    exact hx.append (ih h.2)

theorem shows_takes (p : Code) {e : Element} (he : e.inExpression = true) (file : RegisterFile) :
    Shows p [⟨.takes e, file⟩] [] (p ++ [e]) :=
  ⟨fun ys => by simp [waypoints, he], by simp⟩

theorem shows_mark (p : Code) {e : Element} (he : e.inExpression = false) (file : RegisterFile) :
    Shows p [⟨.takes e, file⟩] p.waypoint [] :=
  ⟨fun ys => by simp [waypoints, he], by simp⟩

theorem shows_emits (p : Code) {l : Line} {w : Waypoint} (hl : l.waypoint? = some w)
    (file : RegisterFile) : Shows p [⟨.emits l, file⟩] (p.waypoint ++ [w]) [] :=
  ⟨fun ys => by simp [waypoints, hl], by simp [hl]⟩

/-- A waypoint stands where its line was emitted. -/
theorem waypoints_split {l : Line} {w : Waypoint} (hl : l.waypoint? = some w)
    (file : RegisterFile) (p : Code) (xs ys : List Moment) :
    ∃ ws, waypoints p (xs ++ ⟨.emits l, file⟩ :: ys) = ws ++ w :: waypoints [] ys := by
  induction xs generalizing p with
  | nil => exact ⟨p.waypoint, by simp [waypoints, hl]⟩
  | cons x xs ih =>
    rw [List.cons_append, waypoints]
    split
    · split
      · exact ih _
      · obtain ⟨ws, hws⟩ := ih []
        exact ⟨p.waypoint ++ ws, by rw [hws, List.append_assoc]⟩
    · exact ih p
    · split
      · next w' _ =>
        obtain ⟨ws, hws⟩ := ih []
        exact ⟨p.waypoint ++ w' :: ws, by simp [hws]⟩
      · exact ih p

/-- Without lines there are only expressions. -/
theorem waypoints_of_no_lines (p : Code) {xs : List Moment} (h : ∀ x ∈ xs, x.line? = none) :
    ∀ w ∈ waypoints p xs, ∃ c, w = .code c := by
  have hcode : ∀ c : Code, ∀ w ∈ c.waypoint, ∃ c, w = .code c := by
    intro c w hw
    cases c with
    | nil => cases hw
    | cons e c => exact ⟨_, List.mem_singleton.1 hw⟩
  induction xs generalizing p with
  | nil => exact hcode p
  | cons x xs ih =>
    rw [List.forall_mem_cons] at h
    obtain ⟨event, file⟩ := x
    cases event with
    | takes e =>
      change ∀ w ∈ if e.inExpression then waypoints (p ++ [e]) xs else p.waypoint ++ waypoints [] xs, _
      split
      · exact ih _ h.2
      · exact List.forall_mem_append.2 ⟨hcode p, ih [] h.2⟩
    | asks b => exact ih p h.2
    | emits l => exact absurd h.1 nofun

/-! ## The flow of statements -/

/-- Names control structures and gives the waypoints between them. -/
abbrev Plan := StateM Labels (List Waypoint)

/-- Names a control structure at a depth. -/
def Plan.openAt (name : String) (c : Construct) (depth : Nat) : StateM Labels LabelBase :=
  fun l => l.openAt name c depth

/-- Counts a control structure at a depth as complete. -/
def Plan.closeAt (c : Construct) (depth : Nat) : StateM Labels Unit :=
  modify (·.closeAt c depth)

/-- The waypoint of an expression that may be missing. -/
def expressionFlow (c : Option Code) : List Waypoint :=
  c.toList.map .code

mutual

/-- **The waypoints of a statement** of the function `name`, at a depth of control
structures. Control leaves the innermost loop by going to `leave`. -/
def Stmt.flow (name : String) (depth : Nat) (leave : Option String) : Stmt → Plan
  | .eval c => pure [.code c]
  | .ret value => pure (expressionFlow value ++ [.stop])
  | .leave => pure (leave.toList.map .jump)
  | .block body => blockFlow name depth leave body
  | .branch condition body other => do
    let base ← Plan.openAt name .ifChain depth
    let taken ← blockFlow name (depth + 1) leave body
    let others ← other.flow name depth leave base 0 base.skipLabel
    Plan.closeAt .ifChain depth
    return .code condition :: .branch base.skipLabel :: (taken ++ others)
  | .loop condition body => do
    let base ← Plan.openAt name .whileLoop depth
    let round ← blockFlow name (depth + 1) (some base.endLabel) body
    Plan.closeAt .whileLoop depth
    return .label base.startLabel :: .code condition :: .branch base.endLabel ::
      (round ++ [.jump base.startLabel, .label base.endLabel])
  | .count first condition step body => do
    let base ← Plan.openAt name .forLoop depth
    let round ← blockFlow name (depth + 1) (some base.endLabel) body
    Plan.closeAt .forLoop depth
    return expressionFlow first ++ .label base.startLabel :: .code condition ::
      .branch base.endLabel ::
      (round ++ (expressionFlow step ++ [.jump base.startLabel, .label base.endLabel]))

/-- The waypoints of what follows a branch of a chain. Control comes to `skip` if
the branch is not taken, and `index` further branches came before. -/
def Alternative.flow (name : String) (depth : Nat) (leave : Option String) (base : LabelBase)
    (index : Nat) (skip : String) : Alternative → Plan
  | .none => pure (.label skip :: if 0 < index then [.label base.endLabel] else [])
  | .elseIf condition body other => do
    let taken ← blockFlow name (depth + 1) leave body
    let others ← other.flow name depth leave base (index + 1) (base.branchSkipLabel index)
    return .jump base.endLabel :: .label skip :: .code condition ::
      .branch (base.branchSkipLabel index) :: (taken ++ others)
  | .otherwise body => do
    let taken ← blockFlow name (depth + 1) leave body
    return .jump base.endLabel :: .label skip :: (taken ++ [.label base.endLabel])

/-- The waypoints of statements in a row. -/
def blockFlow (name : String) (depth : Nat) (leave : Option String) : List Stmt → Plan
  | [] => pure []
  | s :: rest => do
    let first ← s.flow name depth leave
    let others ← blockFlow name depth leave rest
    return first ++ others

end

section Equations

variable (name : String) (depth : Nat) (leave : Option String) (l : Labels) (c : Code)
  (body : List Stmt) (other : Alternative)

theorem Stmt.flow_ret (value : Option Code) :
    (Stmt.ret value).flow name depth leave l = (expressionFlow value ++ [.stop], l) :=
  rfl

theorem Stmt.flow_branch : (Stmt.branch c body other).flow name depth leave l =
    let base := (l.openAt name .ifChain depth).1
    let taken := blockFlow name (depth + 1) leave body (l.openAt name .ifChain depth).2
    let others := other.flow name depth leave base 0 base.skipLabel taken.2
    (.code c :: .branch base.skipLabel :: (taken.1 ++ others.1), others.2.closeAt .ifChain depth) :=
  rfl

theorem Stmt.flow_loop : (Stmt.loop c body).flow name depth leave l =
    let base := (l.openAt name .whileLoop depth).1
    let round := blockFlow name (depth + 1) (some base.endLabel) body
      (l.openAt name .whileLoop depth).2
    (.label base.startLabel :: .code c :: .branch base.endLabel ::
      (round.1 ++ [.jump base.startLabel, .label base.endLabel]),
      round.2.closeAt .whileLoop depth) :=
  rfl

theorem Stmt.flow_count (first step : Option Code) :
    (Stmt.count first c step body).flow name depth leave l =
    let base := (l.openAt name .forLoop depth).1
    let round := blockFlow name (depth + 1) (some base.endLabel) body (l.openAt name .forLoop depth).2
    (expressionFlow first ++ .label base.startLabel :: .code c :: .branch base.endLabel ::
      (round.1 ++ (expressionFlow step ++ [.jump base.startLabel, .label base.endLabel])),
      round.2.closeAt .forLoop depth) :=
  rfl

variable (base : LabelBase) (index : Nat) (skip : String)

theorem Alternative.flow_elseIf :
    (Alternative.elseIf c body other).flow name depth leave base index skip l =
    let taken := blockFlow name (depth + 1) leave body l
    let others := other.flow name depth leave base (index + 1) (base.branchSkipLabel index) taken.2
    (.jump base.endLabel :: .label skip :: .code c :: .branch (base.branchSkipLabel index) ::
      (taken.1 ++ others.1), others.2) :=
  rfl

theorem Alternative.flow_otherwise :
    (Alternative.otherwise body).flow name depth leave base index skip l =
    let taken := blockFlow name (depth + 1) leave body l
    (.jump base.endLabel :: .label skip :: (taken.1 ++ [.label base.endLabel]), taken.2) :=
  rfl

theorem blockFlow_cons (s : Stmt) (rest : List Stmt) :
    blockFlow name depth leave (s :: rest) l =
    let first := s.flow name depth leave l
    let others := blockFlow name depth leave rest first.2
    (first.1 ++ others.1, others.2) :=
  rfl

end Equations

/-! ## What lowering shows -/

namespace Lower

variable {α β : Type} {y : Lower α} {z : α → Lower β} {l l₁ l₂ : Labels} {p q r : Code}
  {ws vs : List Waypoint}

/-- **If the step succeeds, it shows the waypoints `ws`** and leaves the names
`l'`, from the names `l` on. -/
def Tells (l : Labels) (p : Code) (y : Lower α) (ws : List Waypoint) (l' : Labels) (q : Code) :
    Prop :=
  ∀ s r s', s.labels = l → y s = .ok r s' → s'.labels = l' ∧
    ∃ xs, s'.assembler.journal.toList = s.assembler.journal.toList ++ xs ∧ Shows p xs ws q

theorem Tells.bind (h : Tells l p y ws l₁ q) (h' : ∀ a, Tells l₁ q (z a) vs l₂ r) :
    Tells l p (y >>= z) (ws ++ vs) l₂ r := by
  intro s r s' hs hrun
  obtain ⟨r₁, s₁, hy, hz⟩ := bind_eq_ok.1 hrun
  obtain ⟨hs₁, xs, hxs, hshows⟩ := h s r₁ s₁ hs hy
  obtain ⟨hs', ys, hys, hshows'⟩ := h' r₁ s₁ r s' hs₁ hz
  exact ⟨hs', xs ++ ys, by rw [hys, hxs, List.append_assoc], hshows.append hshows'⟩

theorem Tells.of_eq (h : Tells l p y ws l₁ q) (heq : ws = vs) : Tells l p y vs l₁ q :=
  heq ▸ h

/-- A step of an expression shows nothing. -/
theorem Inner.tells (h : Inner y) (l : Labels) (p : Code) : Tells l p y [] l p := by
  intro s r s' hs hy
  obtain ⟨hlabels, xs, hxs⟩ := h.plain s r s' hy
  exact ⟨hlabels.trans hs, xs, hxs.journal, shows_quiet p hxs.quiet⟩

/-- A quiet step in front. -/
theorem Inner.tells_bind (h : Inner y) (h' : ∀ r, Tells l p (z r) ws l₁ q) :
    Tells l p (y >>= z) ws l₁ q :=
  (h.tells l p).bind h'

/-- One moment. -/
theorem tells_record {event : Event} (h : ∀ file, Shows p [⟨event, file⟩] ws q) (l : Labels) :
    Tells l p (onAssembler (Assemble.record event)) ws l q := by
  intro s r s' hs hrun
  cases hrun
  exact ⟨hs, [⟨event, s.assembler.file⟩], by simp, h _⟩

theorem tells_mark {e : Element} (he : e.inExpression = false) (l : Labels) (p : Code) :
    Tells l p (takes e) p.waypoint l [] :=
  tells_record (shows_mark p he) l

theorem tells_label (name : String) (l : Labels) (p : Code) :
    Tells l p (label name) (p.waypoint ++ [.label name]) l [] :=
  tells_record (shows_emits p rfl) l

theorem tells_jump (target : String) (l : Labels) (p : Code) :
    Tells l p (jump target) (p.waypoint ++ [.jump target]) l [] :=
  tells_record (shows_emits p rfl) l

theorem tells_onFile (g : RegisterFile → RegisterFile) (l : Labels) (p : Code) :
    Tells l p (onAssembler (Assemble.onFile g)) [] l p := by
  intro s r s' hs hrun
  cases hrun
  exact ⟨hs, [], by simp, shows_quiet p nofun⟩

theorem tells_invalidate (l : Labels) (p : Code) : Tells l p invalidate [] l p :=
  tells_onFile _ l p

theorem tells_closeAt (c : Construct) (depth : Nat) (l : Labels) (p : Code) :
    Tells l p (closeAt c depth) [] (l.closeAt c depth) p := by
  intro s r s' hs hrun
  cases hrun
  exact ⟨hs ▸ rfl, [], by simp, shows_quiet p nofun⟩

variable (f : Function)

/-- Naming a control structure. -/
theorem tells_openAt {z : LabelBase → Lower β} (c : Construct) (depth : Nat)
    (h : Tells (l.openAt f.name c depth).2 p (z (l.openAt f.name c depth).1) ws l₁ q) :
    Tells l p (openAt f c depth >>= z) ws l₁ q := by
  intro s r s' hs hrun
  subst hs
  exact h { s with labels := (s.labels.openAt f.name c depth).2 } r s' rfl hrun

/-! ### Expressions -/

theorem tells_element {e : Element} (he : e.inExpression = true) (n : Nat) (rest : List Element)
    (l : Labels) (p : Code) : Tells l p (element f n e rest) [] l (p ++ [e]) := by
  have htakes : Tells l p (takes e) [] l (p ++ [e]) := tells_record (shows_takes p he) l
  cases e with
  | operand o =>
    rw [element_operand]
    exact htakes.bind fun _ => (inner_operand o).tells _ _
  | operator op =>
    rw [element_operator]
    exact htakes.bind fun _ => (inner_operator f op rest).tells _ _
  | _ => cases he

theorem tells_forFirst {n : Nat} {c : Code} (hc : ∀ e ∈ c, e.inExpression = true)
    (rest : List Element) (l : Labels) (p : Code) :
    Tells l p (forFirst (element f n) (c ++ rest) c.length) [] l (p ++ c) := by
  induction c generalizing p with
  | nil => simpa [forFirst] using (inner_pure ()).tells l p
  | cons e c ih =>
    rw [List.forall_mem_cons] at hc
    refine (tells_element f hc.1 n _ l p).bind fun _ => ?_
    simpa using ih hc.2 (p ++ [e])

/-- The elements of an expression are taken up. -/
theorem tells_code {c : Code} (hc : ∀ e ∈ c, e.inExpression = true) (mark : Marker) (l : Labels) :
    Tells l [] (code f c mark) [] l c :=
  tells_forFirst f hc _ l []

theorem waypoint_getD {c : Option Code} (hc : ∀ code ∈ c, code.Plain) :
    (c.getD []).waypoint = expressionFlow c := by
  match c with
  | none => rfl
  | some [] => exact absurd rfl (hc [] rfl).1
  | some (_ :: _) => rfl

theorem tells_evaluate {c : Option Code} (hc : ∀ code ∈ c, code.Plain) (l : Labels) :
    Tells l [] (evaluate f c) (expressionFlow c) l [] := by
  refine ((tells_code f (inExpression_getD hc) _ l).bind fun _ => (tells_mark rfl l _).bind fun _ =>
    inner_finishExpression.tells l []).of_eq ?_
  simp [waypoint_getD hc]

/-- A condition, and the jump behind it. -/
theorem tells_test {c : Code} (hc : c.Plain) (target : String) (l : Labels) :
    Tells l [] (test f c target) [.code c, .branch target] l [] := by
  have hjz : ∀ r, Tells l [] (instruction .jz [.reg r, .label target]) [.branch target] l [] :=
    fun r => tells_record (shows_emits [] rfl) l
  have hmark : c.waypoint = [.code c] := waypoint_getD (c := some c) fun _ h => Option.some.inj h ▸ hc
  refine (tells_code f hc.2 _ l).bind fun _ => (hmark ▸ tells_mark rfl l c).bind fun _ => ?_
  refine (inner_expressionValue f).tells_bind fun r => inner_finishExpression.tells_bind fun _ =>
    inner_storeWritten.tells_bind fun _ => ?_
  exact (hjz r).bind fun _ => tells_invalidate l []

/-! ### Statements -/

theorem tells_epilogue (l : Labels) : Tells l [] (epilogue f) [.stop] l [] := by
  have hframe : Inner (onAssembler Assemble.destroyFrame) :=
    (inner_emit rfl).bind fun _ => (inner_emit rfl).bind fun _ => inner_emit rfl
  exact (inner_lift (Assemble.plain_storeWhere _)).tells_bind fun _ => hframe.tells_bind fun _ =>
    tells_record (shows_emits [] rfl) l

theorem tells_leaveFunction (l : Labels) : Tells l [] (leaveFunction f) [.stop] l [] := by
  have hmov : ∀ r, Inner (instruction .mov [.reg .eax, .reg r]) := fun _ => inner_emit rfl
  have hrest : Tells l [] (do
      finishExpression
      epilogue f
      invalidate) [.stop] l [] :=
    inner_finishExpression.tells_bind fun _ => (tells_epilogue f l).bind fun _ =>
      tells_invalidate l []
  intro s r s' hs hrun
  obtain ⟨_, _, hget, hrun⟩ := bind_eq_ok.1 hrun
  cases hget
  split at hrun
  · exact ((inner_expressionValue f).tells_bind fun r => (hmov r).tells_bind fun _ => hrest)
      s r s' hs hrun
  · exact hrest s r s' hs hrun

theorem tells_scope {inner : Lower Unit} (h : Tells l [] inner ws l₁ []) :
    Tells l [] (scope inner) ws l₁ [] := by
  refine ((tells_mark rfl l []).bind fun _ => h.bind fun _ => tells_mark rfl l₁ []).of_eq ?_
  simp [Code.waypoint]

theorem tells_join (name : String) (l : Labels) : Tells l [] (join name) [.label name] l [] :=
  inner_storeWritten.tells_bind fun _ => (tells_label name l []).bind fun _ =>
    tells_invalidate l []

theorem tells_leaveLoop (leave : Option String) (l : Labels) :
    Tells l [] (leaveLoop f leave) (leave.toList.map .jump) l [] := by
  cases leave with
  | none =>
    intro s r s' _ hrun
    simp [leaveLoop] at hrun
  | some target =>
    exact inner_storeWritten.tells_bind fun _ => (tells_jump target l []).bind fun _ =>
      tells_invalidate l []

/-- The end of a loop. `p` is its step. -/
theorem tells_repeatLoop (base : LabelBase) (depth : Nat) (l : Labels) (p : Code) :
    Tells l p (repeatLoop base depth)
      (p.waypoint ++ [.jump base.startLabel, .label base.endLabel])
      (l.closeAt base.construct depth) [] := by
  refine inner_storeWritten.tells_bind fun _ => ?_
  refine ((tells_jump _ l p).bind fun _ => (tells_label _ l []).bind fun _ =>
    (tells_invalidate l []).bind fun _ => tells_closeAt _ _ l []).of_eq ?_
  simp [Code.waypoint]

theorem tells_passOthers (base : LabelBase) (skip : String) (l : Labels) :
    Tells l [] (passOthers base skip) [.jump base.endLabel, .label skip] l [] :=
  inner_storeWritten.tells_bind fun _ => (tells_jump _ l []).bind fun _ =>
    (tells_label _ l []).bind fun _ => tells_invalidate l []

theorem tells_joinChain (base : LabelBase) (skip : String) (index : Nat) (l : Labels) :
    Tells l [] (joinChain base skip (decide (0 < index)))
      (.label skip :: if 0 < index then [.label base.endLabel] else []) l [] := by
  have hlabel := tells_label skip l []
  by_cases hindex : 0 < index
  · simp only [joinChain, hindex, decide_true, if_true]
    exact hlabel.bind fun _ => (tells_label _ l []).bind fun _ => tells_invalidate l []
  · simp only [joinChain, hindex, decide_false, if_false]
    exact hlabel.bind fun _ => tells_invalidate l []

end Lower

open Lower

section Trees

variable {f : Function}

/-- Lowering the statements shows their waypoints, at any place. -/
def BlockTells (f : Function) (body : List Stmt) : Prop :=
  ∀ depth leave l, Tells l [] (blockLower f depth leave body) (blockFlow f.name depth leave body l).1
    (blockFlow f.name depth leave body l).2 []

/-- Lowering the alternative shows its waypoints, at any place. -/
def AlternativeTells (f : Function) (other : Alternative) : Prop :=
  ∀ depth leave base index skip l, Tells l [] (other.lower f depth leave base index skip)
    (other.flow f.name depth leave base index skip l).1
    (other.flow f.name depth leave base index skip l).2 []

variable {c : Code} {body : List Stmt} {other : Alternative} {depth : Nat} {leave : Option String}
  {l : Labels}

theorem tells_ret {value : Option Code} (h : ∀ code ∈ value, code.Plain) :
    Tells l [] ((Stmt.ret value).lower f depth leave) (expressionFlow value ++ [.stop]) l [] := by
  rw [← waypoint_getD h]
  exact (tells_mark rfl l []).bind fun _ => (tells_code f (inExpression_getD h) _ l).bind fun _ =>
    (tells_mark rfl l _).bind fun _ => tells_leaveFunction f l

theorem tells_branch (hc : c.Plain) (hbody : BlockTells f body) (hother : AlternativeTells f other) :
    Tells l [] ((Stmt.branch c body other).lower f depth leave)
      ((Stmt.branch c body other).flow f.name depth leave l).1
      ((Stmt.branch c body other).flow f.name depth leave l).2 [] := by
  simp only [Stmt.lower_branch, openChain, bind_assoc]
  refine (tells_mark rfl l []).bind fun _ => tells_openAt f _ _ ?_
  refine ((tells_test f hc _ _).bind fun _ => (tells_scope (hbody _ _ _)).bind fun _ =>
    (hother _ _ _ _ _ _).bind fun _ => tells_closeAt _ _ _ []).of_eq ?_
  rw [List.append_nil]
  rfl

theorem tells_loop (hc : c.Plain) (hbody : BlockTells f body) :
    Tells l [] ((Stmt.loop c body).lower f depth leave)
      ((Stmt.loop c body).flow f.name depth leave l).1
      ((Stmt.loop c body).flow f.name depth leave l).2 [] := by
  simp only [Stmt.lower_loop, openWhile, bind_assoc, pure_bind]
  refine (tells_mark rfl l []).bind fun _ => inner_storeWritten.tells_bind fun _ =>
    (tells_invalidate l []).bind fun _ => tells_openAt f _ _ ?_
  exact (tells_label _ _ []).bind fun _ => (tells_test f hc _ _).bind fun _ =>
    (tells_scope (hbody _ _ _)).bind fun _ => tells_repeatLoop _ _ _ []

theorem tells_count {first step : Option Code} (hfirst : ∀ code ∈ first, code.Plain) (hc : c.Plain)
    (hstep : ∀ code ∈ step, code.Plain) (hbody : BlockTells f body) :
    Tells l [] ((Stmt.count first c step body).lower f depth leave)
      ((Stmt.count first c step body).flow f.name depth leave l).1
      ((Stmt.count first c step body).flow f.name depth leave l).2 [] := by
  simp only [Stmt.lower_count, openFor, bind_assoc]
  refine (tells_mark rfl l []).bind fun _ => tells_openAt f _ _ ?_
  refine ((tells_evaluate f hfirst _).bind fun _ => (tells_join _ _).bind fun _ =>
    (tells_test f hc _ _).bind fun _ => (tells_scope (hbody _ _ _)).bind fun _ =>
    (tells_code f (inExpression_getD hstep) _ _).bind fun _ =>
    inner_finishExpression.tells_bind fun _ => tells_repeatLoop _ _ _ _).of_eq ?_
  rw [waypoint_getD hstep]
  rfl

theorem tells_elseIf (hc : c.Plain) (hbody : BlockTells f body) (hother : AlternativeTells f other) :
    AlternativeTells f (.elseIf c body other) := fun _ _ _ _ _ _ =>
  (tells_passOthers _ _ _).bind fun _ => (tells_mark rfl _ []).bind fun _ =>
    (tells_test f hc _ _).bind fun _ => (tells_scope (hbody _ _ _)).bind fun _ =>
    hother _ _ _ _ _ _

theorem tells_otherwise (hbody : BlockTells f body) : AlternativeTells f (.otherwise body) :=
  fun _ _ _ _ _ _ =>
  (tells_passOthers _ _ _).bind fun _ => (tells_mark rfl _ []).bind fun _ =>
    (tells_scope (hbody _ _ _)).bind fun _ => tells_join _ _

mutual

/-- **Lowering a statement shows its waypoints.** -/
theorem Stmt.Sound.tells {inLoop : Bool} {s : Stmt} (h : s.Sound Code.Plain inLoop) (depth : Nat)
    (leave : Option String) (l : Labels) :
    Tells l [] (s.lower f depth leave) (s.flow f.name depth leave l).1
      (s.flow f.name depth leave l).2 [] :=
  match s, h with
  | .eval _, h => tells_evaluate f (fun _ hcode => Option.some.inj hcode ▸ h) l
  | .ret _, h => tells_ret h
  | .leave, _ => (tells_mark rfl l []).bind fun _ => tells_leaveLoop f leave l
  | .block _, h => tells_scope (blockSound.tells h depth leave l)
  | .branch .., ⟨hc, hbody, hother⟩ => tells_branch hc hbody.tells hother.tells
  | .loop .., ⟨hc, hbody⟩ => tells_loop hc hbody.tells
  | .count .., ⟨hfirst, hc, hstep, hbody⟩ => tells_count hfirst hc hstep hbody.tells

theorem Alternative.Sound.tells {inLoop : Bool} {other : Alternative}
    (h : other.Sound Code.Plain inLoop) : AlternativeTells f other :=
  match other, h with
  | .none, _ => fun _ _ base index skip l =>
    inner_storeWritten.tells_bind fun _ => tells_joinChain base skip index l
  | .elseIf .., ⟨hc, hbody, hother⟩ => tells_elseIf hc hbody.tells hother.tells
  | .otherwise _, h => tells_otherwise (blockSound.tells h)

theorem blockSound.tells {inLoop : Bool} {body : List Stmt}
    (h : blockSound Code.Plain inLoop body) : BlockTells f body :=
  match body, h with
  | [], _ => fun _ _ l => (inner_pure ()).tells l []
  | _ :: _, ⟨hs, hrest⟩ => fun depth leave l =>
    (hs.tells depth leave l).bind fun _ => hrest.tells depth leave _

end

/-! ## The flow of a body -/

/-- Control has left the function before the last expressions, if any. -/
def EndsStopped (ws : List Waypoint) : Prop :=
  ∃ before after, ws = before ++ .stop :: after ∧ ∀ w ∈ after, ∃ c, w = .code c

/-- No line follows a return. -/
theorem endsStopped_of_ret {a : Assembler}
    (h : a.lines.back?.bind Line.mnemonic? = some .ret) :
    EndsStopped (waypoints [] a.journal.toList) := by
  obtain ⟨l, hlast, hret⟩ := Option.bind_eq_some_iff.1 h
  rw [Assembler.lines, ← Array.getLast?_toList, Array.toList_filterMap] at hlast
  obtain ⟨lines, hlines⟩ := List.getLast?_eq_some_iff.1 hlast
  -- what comes after the last line emits nothing, so it has no waypoints either
  obtain ⟨before, after, hjournal, -, hafter⟩ := List.filterMap_eq_append_iff.1 hlines
  obtain ⟨quiet, ⟨event, file⟩, rest, rfl, -, hline, hrest⟩ := List.filterMap_eq_cons_iff.1 hafter
  cases event with
  | emits l' =>
    cases hline
    have hstop : l.waypoint? = some .stop := by
      cases l with
      | instruction mnemonic =>
        cases hret
        rfl
      | _ => cases hret
    rw [hjournal, ← List.append_assoc]
    obtain ⟨ws, hws⟩ := waypoints_split hstop file [] (before ++ quiet) rest
    exact ⟨ws, _, hws, waypoints_of_no_lines [] (List.filterMap_eq_nil_iff.1 hrest)⟩
  | _ => cases hline

/-- All of a body but the end of the function. -/
def beforeEnd (f : Function) (body : List Stmt) : Lower Unit := do
  takes (.marker .functionStart)
  functionStart f
  blockLower f 0 none body
  takes (.marker .functionEnd)

theorem bodyLower_eq (body : List Stmt) :
    bodyLower f body = beforeEnd f body >>= fun _ => functionEnd f := by
  simp only [bodyLower, beforeEnd, bind_assoc]

theorem tells_beforeEnd {body : List Stmt} (h : blockSound Code.Plain false body) :
    Tells {} [] (beforeEnd f body) (blockFlow f.name 0 none body {}).1
      (blockFlow f.name 0 none body {}).2 [] := by
  have hstart : Inner (functionStart f) :=
    (inner_emit rfl).bind fun _ => inner_lift (Assemble.plain_createFrame _)
  refine ((tells_mark rfl _ []).bind fun _ => hstart.tells_bind fun _ =>
    (h.tells 0 none {}).bind fun _ => tells_mark rfl _ []).of_eq ?_
  simp [Code.waypoint]

/-- **The waypoints of a body** are those of its statements, and a return that is
left out only directly behind another. -/
theorem bodyLower_shows {body : List Stmt} (h : blockSound Code.Plain false body) {a : Assembler}
    (ha : a.journal = #[]) {s' : BodyState}
    (hrun : bodyLower f body { assembler := a } = .ok () s') :
    ∃ last, Shows [] s'.assembler.journal.toList ((blockFlow f.name 0 none body {}).1 ++ last) [] ∧
      (last = [.stop] ∨ last = [] ∧ EndsStopped (blockFlow f.name 0 none body {}).1) := by
  rw [bodyLower_eq] at hrun
  obtain ⟨_, s, hbefore, hend⟩ := bind_eq_ok.1 hrun
  obtain ⟨hlabels, xs, hxs, hshows⟩ := tells_beforeEnd h _ _ _ rfl hbefore
  have hjournal : s.assembler.journal.toList = xs := by simp [hxs, ha]
  obtain ⟨_, _, hget, hend⟩ := bind_eq_ok.1 hend
  cases hget
  split at hend
  · obtain ⟨-, ys, hys, hstop⟩ := tells_epilogue f _ _ _ _ hlabels hend
    rw [hys, hjournal]
    exact ⟨[.stop], hshows.append hstop, .inl rfl⟩
  · next hret =>
    cases hend
    refine ⟨[], by rwa [hjournal, List.append_nil], .inr ⟨rfl, ?_⟩⟩
    rw [← hshows.eq, ← hjournal]
    exact endsStopped_of_ret (not_not.1 hret)

/-- Lowering a function whose body is the linear form of statements. -/
theorem Function.bodyLower_of_assemble {stmts : List Stmt}
    (hbody : f.body = some (bodyLinear stmts)) (h : blockSound Code.Plain false stmts)
    {registers : Nat} {notes notes' : Array Note} {a : Assembler}
    (hassemble : f.assemble registers notes = .ok a notes') :
    ∃ pool s, RegisterFile.ofSize registers = .ok pool ∧
      bodyLower f stmts { assembler := { file := pool, notes } } = .ok () s ∧ s.assembler = a := by
  unfold Function.assemble at hassemble
  rw [hbody] at hassemble
  cases hpool : RegisterFile.ofSize registers with
  | error e =>
    rw [hpool] at hassemble
    cases hassemble
  | ok pool =>
    rw [hpool] at hassemble
    simp only at hassemble
    split at hassemble
    · next u s hrun =>
      cases hassemble
      exact ⟨pool, s, rfl, (elements_bodyLinear h _ _ s).1 hrun, rfl⟩
    · cases hassemble

/-- **The waypoints of a function** whose body is the linear form of statements. -/
theorem Function.assemble_shows {stmts : List Stmt} (hbody : f.body = some (bodyLinear stmts))
    (h : blockSound Code.Plain false stmts) {registers : Nat} {notes notes' : Array Note}
    {a : Assembler} (hassemble : f.assemble registers notes = .ok a notes') :
    ∃ last, Shows [] a.journal.toList ((blockFlow f.name 0 none stmts {}).1 ++ last) [] ∧
      (last = [.stop] ∨ last = [] ∧ EndsStopped (blockFlow f.name 0 none stmts {}).1) := by
  obtain ⟨pool, s, -, hlower, rfl⟩ := Function.bodyLower_of_assemble hbody h hassemble
  exact bodyLower_shows h rfl hlower

end Trees

end WordC
