import Mathlib
import WordC.Proofs.Lowering.Execution
import WordC.Proofs.Lowering.Labels
import WordC.Proofs.Lowering.Discipline
/-!
# Following the jumps

`ControlPoint.next?` follows the waypoints of a function one by one, jumps included, and
`Walks` is a run of such steps. Where labels are unique, a walk through the
waypoints of statements is their structured execution (`blockSound.tracks`).
-/

namespace WordC

/-- What stands behind a label. -/
def behind? (name : String) : List Waypoint → Option (List Waypoint)
  | [] => none
  | w :: ws => if w = .label name then some ws else behind? name ws

/-- A label that is there once is found where it stands. -/
theorem behind?_eq {name : String} {before after : List Waypoint}
    (h : (labelsOf (before ++ .label name :: after)).Nodup) :
    behind? name (before ++ .label name :: after) = some after := by
  induction before with
  | nil => exact if_pos rfl
  | cons w before ih =>
    have hw : w ≠ .label name := by
      rintro rfl
      simp at h
    have hrest : (labelsOf (before ++ .label name :: after)).Nodup :=
      h.sublist (List.Sublist.filterMap _ (List.sublist_cons_self _ _))
    rw [List.cons_append, behind?, if_neg hw]
    exact ih hrest

/-- Where control is: what is ahead, and the outcomes of the conditions to come. -/
structure ControlPoint where
  ahead : List Waypoint
  outcomes : List Bool

/-- **One step of control** among the waypoints `ws`, with the expression it
evaluates. Control stands still at the end, and at a condition without outcome. -/
def ControlPoint.next? (ws : List Waypoint) : ControlPoint → Option (List Code × ControlPoint)
  | ⟨.code c :: ahead, outcomes⟩ => some ([c], ⟨ahead, outcomes⟩)
  | ⟨.label _ :: ahead, outcomes⟩ => some ([], ⟨ahead, outcomes⟩)
  | ⟨.jump target :: _, outcomes⟩ => (behind? target ws).map fun ahead => ([], ⟨ahead, outcomes⟩)
  | ⟨.branch _ :: ahead, true :: outcomes⟩ => some ([], ⟨ahead, outcomes⟩)
  | ⟨.branch target :: _, false :: outcomes⟩ =>
    (behind? target ws).map fun ahead => ([], ⟨ahead, outcomes⟩)
  | _ => none

/-- **A walk of control** from place to place, by the expressions it evaluates. -/
inductive Walks (ws : List Waypoint) : ControlPoint → List Code → ControlPoint → Prop where
  | stay (p : ControlPoint) : Walks ws p [] p
  | step {p q r : ControlPoint} {visits later : List Code} :
      p.next? ws = some (visits, q) → Walks ws q later r → Walks ws p (visits ++ later) r

/-- Control has come to where it ends for this exit: it waits for an outcome, or
leaves the function. -/
def ControlPoint.EndsBy : Exit → ControlPoint → Prop
  | .waiting, p => (∃ target ahead, p.ahead = .branch target :: ahead) ∧ p.outcomes = []
  | _, p => ∃ ahead, p.ahead = .stop :: ahead

variable {ws : List Waypoint}

namespace Walks

variable {p q r : ControlPoint} {us vs : List Code} {outcomes : List Bool} {ahead : List Waypoint}

theorem trans (h : Walks ws p us q) (h' : Walks ws q vs r) : Walks ws p (us ++ vs) r := by
  induction h with
  | stay => exact h'
  | step hnext _ ih => exact List.append_assoc .. ▸ step hnext (ih h')

theorem single (h : p.next? ws = some (vs, q)) : Walks ws p vs q :=
  List.append_nil vs ▸ step h (stay q)

theorem code (c : Code) : Walks ws ⟨.code c :: ahead, outcomes⟩ [c] ⟨ahead, outcomes⟩ :=
  single rfl

theorem label (name : String) : Walks ws ⟨.label name :: ahead, outcomes⟩ [] ⟨ahead, outcomes⟩ :=
  single rfl

theorem expressionFlow (c : Option Code) :
    Walks ws ⟨WordC.expressionFlow c ++ ahead, outcomes⟩ c.toList ⟨ahead, outcomes⟩ :=
  match c with
  | none => stay _
  | some c => code c

theorem jump {target : String} {behind : List Waypoint} (h : behind? target ws = some behind) :
    Walks ws ⟨.jump target :: ahead, outcomes⟩ [] ⟨behind, outcomes⟩ :=
  single (by rw [ControlPoint.next?, h]; rfl)

/-- A condition that is not zero. -/
theorem pass (target : String) :
    Walks ws ⟨.branch target :: ahead, true :: outcomes⟩ [] ⟨ahead, outcomes⟩ :=
  single rfl

/-- A condition that is zero. -/
theorem skip {target : String} {behind : List Waypoint} (h : behind? target ws = some behind) :
    Walks ws ⟨.branch target :: ahead, false :: outcomes⟩ [] ⟨behind, outcomes⟩ :=
  single (by rw [ControlPoint.next?, h]; rfl)

/-- **Control has one way to go.** Two walks from one place that cannot go on are
the same walk. -/
theorem unique (h : Walks ws p us q) (h' : Walks ws p vs r) (hq : q.next? ws = none)
    (hr : r.next? ws = none) : us = vs ∧ q = r := by
  induction h generalizing vs with
  | stay p =>
    cases h' with
    | stay => exact ⟨rfl, rfl⟩
    | step hnext => exact absurd (hq.symm.trans hnext) nofun
  | step hnext _ ih =>
    cases h' with
    | stay => exact absurd (hr.symm.trans hnext) nofun
    | step hnext' hlater' =>
      obtain ⟨rfl, rfl⟩ := Prod.mk.inj (Option.some.inj (hnext.symm.trans hnext'))
      obtain ⟨rfl, rfl⟩ := ih hlater' hq
      exact ⟨rfl, rfl⟩

end Walks

/-- Control goes nowhere from where it ends. -/
theorem ControlPoint.EndsBy.next? {exit : Exit} {p : ControlPoint} (h : p.EndsBy exit) :
    p.next? ws = none := by
  obtain ⟨ahead, outcomes⟩ := p
  cases exit with
  | waiting =>
    obtain ⟨⟨target, behind, rfl⟩, rfl⟩ := h
    rfl
  | _ =>
    obtain ⟨behind, rfl⟩ := h
    rfl

/-! ## Walks by statements -/

/-- Where control is, behind statements that it has come out of. `after` follows
them, and the innermost loop is left by going to `leave`. -/
def ControlPoint.Beyond (ws : List Waypoint) (leave : Option String) (after : List Waypoint) :
    Exit → ControlPoint → Prop
  | .through, p => p.ahead = after
  | .left, p => ∃ target, leave = some target ∧ behind? target ws = some p.ahead
  | exit, p => p.EndsBy exit

/-- **The walk from a place is the passage.** -/
def Arrives (ws : List Waypoint) (leave : Option String) (start : ControlPoint)
    (after : List Waypoint) {outcomes : List Bool} (p : Passage outcomes) : Prop :=
  ∃ stop : ControlPoint, Walks ws start p.visits stop ∧ stop.outcomes = p.rest ∧
    stop.Beyond ws leave after p.exit

section Arrives

variable {leave : Option String} {start mid : ControlPoint} {between after : List Waypoint}
  {visits : List Code} {outcomes given : List Bool} {p : Passage outcomes}

/-- A walk in front of a passage. -/
theorem Arrives.behind (h : Arrives ws leave mid after p) (hwalk : Walks ws start visits mid)
    (hle : outcomes.length ≤ given.length) :
    Arrives ws leave start after (p.behind visits hle) := by
  obtain ⟨stop, hstop, hrest, hbeyond⟩ := h
  exact ⟨stop, hwalk.trans hstop, hrest, hbeyond⟩

/-- A walk without expressions in front of a passage. -/
theorem Arrives.of_walk (h : Arrives ws leave mid after p) (hwalk : Walks ws start [] mid) :
    Arrives ws leave start after p := by
  obtain ⟨stop, hstop, hrest, hbeyond⟩ := h
  exact ⟨stop, hwalk.trans hstop, hrest, hbeyond⟩

/-- Behind a passage that comes through there is another one. -/
theorem Arrives.andThen {next : ∀ outcomes, Passage outcomes}
    (h : Arrives ws leave start between p)
    (hnext : ∀ outcomes, Arrives ws leave ⟨between, outcomes⟩ after (next outcomes)) :
    Arrives ws leave start after (p.andThen next) := by
  unfold Passage.andThen
  split
  · next hexit =>
    obtain ⟨⟨ahead, rest⟩, hstop, rfl, hbeyond⟩ := h
    rw [hexit] at hbeyond
    cases hbeyond
    exact (hnext p.rest).behind hstop p.length_rest_le
  · next hexit =>
    obtain ⟨stop, hstop, hrest, hbeyond⟩ := h
    refine ⟨stop, hstop, hrest, ?_⟩
    cases hp : p.exit with
    | through => exact absurd hp hexit
    | _ => rwa [hp] at hbeyond

/-- A walk without expressions behind a passage that comes through. -/
theorem Arrives.walk (h : Arrives ws leave start between p)
    (hwalk : ∀ outcomes, Walks ws ⟨between, outcomes⟩ [] ⟨after, outcomes⟩) :
    Arrives ws leave start after p := by
  obtain ⟨⟨ahead, rest⟩, hstop, rfl, hbeyond⟩ := h
  cases hp : p.exit with
  | through =>
    rw [hp] at hbeyond
    cases hbeyond
    have hall := hstop.trans (hwalk p.rest)
    rw [List.append_nil] at hall
    exact ⟨_, hall, rfl, hp ▸ rfl⟩
  | _ =>
    rw [hp] at hbeyond
    exact ⟨_, hstop, rfl, hp ▸ hbeyond⟩

/-- **A condition and the branch behind it.** If it is zero, control goes to `target`. -/
theorem arrives_choose {c : Code} {target : String} {next : Bool → ∀ outcomes, Passage outcomes}
    {ahead behind : List Waypoint} (htarget : behind? target ws = some behind)
    (htrue : ∀ outcomes, Arrives ws leave ⟨ahead, outcomes⟩ after (next true outcomes))
    (hfalse : ∀ outcomes, Arrives ws leave ⟨behind, outcomes⟩ after (next false outcomes))
    (outcomes : List Bool) :
    Arrives ws leave ⟨.code c :: .branch target :: ahead, outcomes⟩ after
      (Passage.choose c next outcomes) := by
  have hcode : ∀ outcomes, Walks ws ⟨.code c :: .branch target :: ahead, outcomes⟩ [c]
      ⟨.branch target :: ahead, outcomes⟩ := fun _ => Walks.code c
  match outcomes with
  | [] => exact ⟨_, hcode [], rfl, ⟨target, ahead, rfl⟩, rfl⟩
  | true :: outcomes =>
    exact (htrue outcomes).behind ((hcode _).trans (.pass target)) (Nat.le_succ _)
  | false :: outcomes =>
    exact (hfalse outcomes).behind ((hcode _).trans (.skip htarget)) (Nat.le_succ _)

/-- **The rounds of a loop.** The loop is left by going to `last`, and `back` leads by
the step to its condition again. -/
theorem arrives_rounds {c : Code} {last : String} {round : ∀ outcomes, Passage outcomes}
    {step : List Code} {inner back : List Waypoint} (hlast : behind? last ws = some after)
    (hround : ∀ outcomes, Arrives ws (some last) ⟨inner, outcomes⟩ back (round outcomes))
    (hback : ∀ outcomes,
      Walks ws ⟨back, outcomes⟩ step ⟨.code c :: .branch last :: inner, outcomes⟩)
    (outcomes : List Bool) :
    Arrives ws leave ⟨.code c :: .branch last :: inner, outcomes⟩ after
      (Passage.rounds c round step outcomes) := by
  have hcode : ∀ outcomes, Walks ws ⟨.code c :: .branch last :: inner, outcomes⟩ [c]
      ⟨.branch last :: inner, outcomes⟩ := fun _ => Walks.code c
  have hpass : ∀ outcomes, Walks ws ⟨.code c :: .branch last :: inner, true :: outcomes⟩ [c]
      ⟨inner, outcomes⟩ := fun _ => (hcode _).trans (.pass last)
  fun_induction Passage.rounds c round step outcomes with
  | case1 => exact ⟨_, hcode [], rfl, ⟨last, inner, rfl⟩, rfl⟩
  | case2 outcomes => exact ⟨_, (hcode _).trans (.skip hlast), rfl, rfl⟩
  | case3 outcomes hle hexit ih =>
    -- the round comes through, and so does the step behind it
    obtain ⟨⟨ahead, rest⟩, hstop, rfl, hbeyond⟩ := hround outcomes
    rw [hexit] at hbeyond
    cases hbeyond
    exact ih.behind ((hpass outcomes).trans (hstop.trans (hback _))) hle
  | case4 outcomes hle hexit =>
    -- leaving the round is coming through the loop
    obtain ⟨⟨ahead, rest⟩, hstop, rfl, hbeyond⟩ := hround outcomes
    rw [hexit] at hbeyond
    obtain ⟨target, htarget, hahead⟩ := hbeyond
    cases htarget
    cases hlast.symm.trans hahead
    exact ⟨_, (hpass outcomes).trans hstop, rfl, rfl⟩
  | case5 outcomes hle hthrough hleft =>
    obtain ⟨stop, hstop, hrest, hbeyond⟩ := hround outcomes
    refine ⟨stop, (hpass outcomes).trans hstop, hrest, ?_⟩
    cases hexit : (round outcomes).exit with
    | through => exact absurd hexit hthrough
    | left => exact absurd hexit hleft
    | _ => rwa [hexit] at hbeyond

end Arrives

/-- **Control follows the passage** by the waypoints of statements, wherever they
stand among `ws`. -/
def Tracks (ws : List Waypoint) (leave : Option String) (flow : List Waypoint)
    (pass : ∀ outcomes, Passage outcomes) : Prop :=
  ∀ before after, ws = before ++ (flow ++ after) → ∀ outcomes,
    Arrives ws leave ⟨flow ++ after, outcomes⟩ after (pass outcomes)

/-- Control follows what else a chain holds. A branch of it that was taken passes it
over, and one that was not taken goes to `skip`. -/
structure TracksChain (ws : List Waypoint) (leave : Option String) (finish skip : String)
    (index : Nat) (flow after : List Waypoint) (pass : ∀ outcomes, Passage outcomes) : Prop where
  past : ∀ outcomes, Walks ws ⟨flow ++ after, outcomes⟩ [] ⟨after, outcomes⟩
  into : ∃ behind, behind? skip ws = some behind ∧
    ∀ outcomes, Arrives ws leave ⟨behind, outcomes⟩ after (pass outcomes)
  finish : 0 < index → behind? finish ws = some after

/-- Inside a loop there is a place to leave it to. -/
def LeadsOut (ws : List Waypoint) (leave : Option String) (inLoop : Bool) : Prop :=
  inLoop = true → ∃ target behind, leave = some target ∧ behind? target ws = some behind

section Statements

variable {leave : Option String} {c : Code} {finish skip further : String} {index : Nat}
  {taken others : List Waypoint} {yes no : ∀ outcomes, Passage outcomes}

/-- A branch and what else there is. -/
theorem tracks_branch (hyes : Tracks ws leave taken yes)
    (hno : ∀ before after, ws = before ++ (others ++ after) →
      TracksChain ws leave finish skip index others after no) :
    Tracks ws leave (.code c :: .branch skip :: (taken ++ others))
      (.choose c fun b => if b then yes else no) := by
  intro before after hws outcomes
  have hchain := hno (before ++ .code c :: .branch skip :: taken) after (by simp [hws])
  obtain ⟨behind, hskip, hfalse⟩ := hchain.into
  have htaken := hyes (before ++ [.code c, .branch skip]) (others ++ after) (by simp [hws])
  have htrue : ∀ outcomes, Arrives ws leave ⟨taken ++ (others ++ after), outcomes⟩ after
      (yes outcomes) := fun outcomes => (htaken outcomes).walk hchain.past
  simpa using arrives_choose hskip htrue hfalse outcomes

variable (hnodup : (labelsOf ws).Nodup)
include hnodup

theorem behind?_of_eq (name : String) (before after : List Waypoint)
    (h : ws = before ++ .label name :: after) : behind? name ws = some after := by
  subst h
  exact behind?_eq hnodup

/-- A further branch of a chain. -/
theorem tracksChain_elseIf (hyes : Tracks ws leave taken yes)
    (hno : ∀ before after, ws = before ++ (others ++ after) →
      TracksChain ws leave finish further (index + 1) others after no)
    {before after : List Waypoint}
    (hws : ws = before ++ (.jump finish :: .label skip :: .code c :: .branch further ::
      (taken ++ others) ++ after)) :
    TracksChain ws leave finish skip index
      (.jump finish :: .label skip :: .code c :: .branch further :: (taken ++ others)) after
      (.choose c fun b => if b then yes else no) := by
  have hrest := hno (before ++ .jump finish :: .label skip :: .code c :: .branch further :: taken)
    after (by simp [hws])
  have hfinish := hrest.finish (Nat.succ_pos index)
  have hskip := behind?_of_eq hnodup skip (before ++ [.jump finish])
    (.code c :: .branch further :: (taken ++ others) ++ after) (by simp [hws])
  refine ⟨fun _ => .jump hfinish, ⟨_, hskip, ?_⟩, fun _ => hfinish⟩
  exact tracks_branch hyes hno (before ++ [.jump finish, .label skip]) after (by simp [hws])

/-- The last branch of a chain. -/
theorem tracksChain_otherwise (hyes : Tracks ws leave taken yes) {before after : List Waypoint}
    (hws : ws = before ++ (.jump finish :: .label skip :: (taken ++ [.label finish]) ++ after)) :
    TracksChain ws leave finish skip index
      (.jump finish :: .label skip :: (taken ++ [.label finish])) after yes := by
  have hfinish := behind?_of_eq hnodup finish (before ++ .jump finish :: .label skip :: taken) after
    (by simp [hws])
  have hskip := behind?_of_eq hnodup skip (before ++ [.jump finish])
    (taken ++ .label finish :: after) (by simp [hws])
  have htaken := hyes (before ++ [.jump finish, .label skip]) (.label finish :: after)
    (by simp [hws])
  refine ⟨fun _ => .jump hfinish, ⟨_, hskip, fun outcomes => ?_⟩, fun _ => hfinish⟩
  exact (htaken outcomes).walk fun _ => .label finish

/-- A chain without a last branch. -/
theorem tracksChain_none {before after : List Waypoint}
    (hws : ws = before ++ ((.label skip :: if 0 < index then [.label finish] else []) ++ after)) :
    TracksChain ws leave finish skip index
      (.label skip :: if 0 < index then [.label finish] else []) after
      (.straight [] .through) := by
  have hpast : ∀ outcomes, Walks ws ⟨(if 0 < index then [.label finish] else []) ++ after, outcomes⟩
      [] ⟨after, outcomes⟩ := by
    intro outcomes
    split
    · exact .label finish
    · exact .stay _
  have hskip := behind?_of_eq hnodup skip before
    ((if 0 < index then [.label finish] else []) ++ after) (by simp [hws])
  refine ⟨fun outcomes => (Walks.label skip).trans (hpast outcomes), ⟨_, hskip, fun outcomes => ?_⟩,
    fun hindex => ?_⟩
  · exact ⟨_, hpast outcomes, rfl, rfl⟩
  · rw [if_pos hindex] at hws
    exact behind?_of_eq hnodup finish (before ++ [.label skip]) after (by simp [hws])

/-- A loop: its labels, its condition, a round and the way back. -/
theorem tracks_loop {first last : String} (step : Option Code) {flow : List Waypoint}
    {round : ∀ outcomes, Passage outcomes}
    (hround : (∃ behind, behind? last ws = some behind) → Tracks ws (some last) flow round) :
    Tracks ws leave (.label first :: .code c :: .branch last ::
      (flow ++ (expressionFlow step ++ [.jump first, .label last])))
      (.rounds c round step.toList) := by
  intro before after hws outcomes
  have hfirst := behind?_of_eq hnodup first before (.code c :: .branch last ::
    (flow ++ (expressionFlow step ++ .jump first :: .label last :: after))) (by simp [hws])
  have hlast := behind?_of_eq hnodup last (before ++ .label first :: .code c :: .branch last ::
    (flow ++ (expressionFlow step ++ [.jump first]))) after (by simp [hws])
  have hinner := hround ⟨after, hlast⟩ (before ++ [.label first, .code c, .branch last])
    (expressionFlow step ++ .jump first :: .label last :: after) (by simp [hws])
  -- the walk from behind the first label, where the jump of each round comes back to
  have hrounds : Arrives ws leave ⟨.code c :: .branch last ::
      (flow ++ (expressionFlow step ++ .jump first :: .label last :: after)), outcomes⟩ after
      (.rounds c round step.toList outcomes) := by
    refine arrives_rounds hlast hinner (fun outcomes => ?_) outcomes
    have hstep : Walks ws ⟨expressionFlow step ++ .jump first :: .label last :: after, outcomes⟩
      step.toList ⟨.jump first :: .label last :: after, outcomes⟩ := .expressionFlow step
    exact List.append_nil step.toList ▸ hstep.trans (.jump hfirst)
  simpa using hrounds.of_walk (Walks.label first)

end Statements

mutual

/-- **A walk by the waypoints of a statement is its structured execution.** -/
theorem Stmt.Sound.tracks {P : Code → Prop} {inLoop : Bool} {s : Stmt} (h : s.Sound P inLoop)
    (hnodup : (labelsOf ws).Nodup) (name : String) (depth : Nat) {leave : Option String}
    (hleave : LeadsOut ws leave inLoop) (l : Labels) :
    Tracks ws leave (s.flow name depth leave l).1 s.execute := by
  match s with
  | .eval c => exact fun _ _ _ _ => ⟨_, .code c, rfl, rfl⟩
  | .ret value =>
    intro _ after _ outcomes
    have hvalue : Walks ws ⟨expressionFlow value ++ (.stop :: after), outcomes⟩ value.toList
      ⟨.stop :: after, outcomes⟩ := .expressionFlow value
    rw [Stmt.flow_ret, List.append_assoc]
    exact ⟨_, hvalue, rfl, after, rfl⟩
  | .leave =>
    obtain ⟨target, behind, rfl, hbehind⟩ := hleave h
    exact fun _ _ _ _ => ⟨_, .jump hbehind, rfl, target, rfl, hbehind⟩
  | .block body => exact blockSound.tracks h hnodup name depth hleave l
  | .branch c body other =>
    obtain ⟨-, hbody, hother⟩ := h
    rw [Stmt.flow_branch]
    exact tracks_branch (hbody.tracks hnodup name (depth + 1) hleave _) fun _ _ hws =>
      hother.tracks hnodup name depth hleave _ 0 _ _ hws
  | .loop c body =>
    obtain ⟨-, hbody⟩ := h
    rw [Stmt.flow_loop]
    -- a round may leave the loop by `break`, to the loop's own end label
    have hround : ∀ last, (∃ behind, behind? last ws = some behind) → Tracks ws (some last)
        (blockFlow name (depth + 1) (some last) body (l.openAt name .whileLoop depth).2).1
        (blockExecute body) := fun last ⟨behind, hlast⟩ =>
      hbody.tracks hnodup name (depth + 1) (fun _ => ⟨last, behind, rfl, hlast⟩) _
    exact tracks_loop hnodup none (hround _)
  | .count first c step body =>
    obtain ⟨-, -, -, hbody⟩ := h
    rw [Stmt.flow_count]
    intro before after hws outcomes
    rw [List.append_assoc] at hws ⊢
    -- the first part runs once; from there the header is a loop with a step
    refine (tracks_loop hnodup step (fun ⟨behind, hlast⟩ => ?_) (before ++ expressionFlow first)
      after ?_ outcomes).behind (.expressionFlow first) le_rfl
    · rw [hws, List.append_assoc]
    · exact hbody.tracks hnodup name (depth + 1) (fun _ => ⟨_, behind, rfl, hlast⟩) _

/-- What else a chain holds, as its structured execution says. -/
theorem Alternative.Sound.tracks {P : Code → Prop} {inLoop : Bool} {other : Alternative}
    (h : other.Sound P inLoop) (hnodup : (labelsOf ws).Nodup) (name : String) (depth : Nat)
    {leave : Option String} (hleave : LeadsOut ws leave inLoop) (base : LabelBase)
    (index : Nat) (skip : String) (l : Labels) {before after : List Waypoint}
    (hws : ws = before ++ ((other.flow name depth leave base index skip l).1 ++ after)) :
    TracksChain ws leave base.endLabel skip index
      (other.flow name depth leave base index skip l).1 after other.execute := by
  match other with
  | .none => exact tracksChain_none hnodup hws
  | .elseIf c body other =>
    obtain ⟨-, hbody, hother⟩ := h
    exact tracksChain_elseIf hnodup (hbody.tracks hnodup name (depth + 1) hleave _)
      (fun _ _ hws => hother.tracks hnodup name depth hleave base (index + 1) _ _ hws) hws
  | .otherwise body =>
    exact tracksChain_otherwise hnodup (blockSound.tracks h hnodup name (depth + 1) hleave l) hws

/-- **A walk by the waypoints of statements in a row is their structured execution.** -/
theorem blockSound.tracks {P : Code → Prop} {inLoop : Bool} {body : List Stmt}
    (h : blockSound P inLoop body) (hnodup : (labelsOf ws).Nodup) (name : String) (depth : Nat)
    {leave : Option String} (hleave : LeadsOut ws leave inLoop) (l : Labels) :
    Tracks ws leave (blockFlow name depth leave body l).1 (blockExecute body) := by
  match body with
  | [] => exact fun _ _ _ _ => ⟨_, .stay _, rfl, rfl⟩
  | s :: rest =>
    obtain ⟨hs, hrest⟩ := h
    rw [blockFlow_cons]
    intro before after hws outcomes
    have hfirst := hs.tracks hnodup name depth hleave l before
      ((blockFlow name depth leave rest (s.flow name depth leave l).2).1 ++ after) (by simp [hws])
    have hothers := hrest.tracks hnodup name depth hleave (s.flow name depth leave l).2
      (before ++ (s.flow name depth leave l).1) after (by simp [hws])
    rw [List.append_assoc]
    exact (hfirst outcomes).andThen hothers

end

/-! ## Walks through functions -/

theorem behind?_append_stop {name : String} {before codes behind : List Waypoint}
    (hcodes : ∀ w ∈ codes, ∃ c, w = .code c)
    (h : behind? name (before ++ .stop :: codes) = some behind) :
    ∃ ahead, behind = ahead ++ .stop :: codes := by
  -- there is no label behind the stop
  have hnone : ∀ {codes : List Waypoint}, (∀ w ∈ codes, ∃ c, w = .code c) →
      behind? name codes = none := by
    intro codes hcodes
    induction codes with
    | nil => rfl
    | cons w codes ih =>
      obtain ⟨⟨c, rfl⟩, hrest⟩ := List.forall_mem_cons.1 hcodes
      exact ih hrest
  induction before with
  | nil =>
    have hrest : behind? name codes = some behind := h
    rw [hnone hcodes] at hrest
    cases hrest
  | cons w before ih =>
    rw [List.cons_append, behind?] at h
    split at h
    · cases h
      exact ⟨before, rfl⟩
    · exact ih h

/-- Control does not pass a return that only expressions follow. -/
theorem Walks.ahead_of_stop {before codes : List Waypoint} (hcodes : ∀ w ∈ codes, ∃ c, w = .code c)
    {p q : ControlPoint} {visits : List Code} (h : Walks (before ++ .stop :: codes) p visits q)
    (hp : ∃ ahead, p.ahead = ahead ++ .stop :: codes) :
    ∃ ahead, q.ahead = ahead ++ .stop :: codes := by
  induction h with
  | stay => exact hp
  | @step p q r visits later hnext _ ih =>
    refine ih ?_
    obtain ⟨ahead, outcomes⟩ := p
    obtain ⟨ahead, rfl⟩ := hp
    match ahead, hnext with
    | .code _ :: ahead, hnext | .label _ :: ahead, hnext =>
      cases hnext
      exact ⟨ahead, rfl⟩
    | .jump target :: ahead, hnext =>
      obtain ⟨behind, hbehind, heq⟩ := Option.map_eq_some_iff.1 hnext
      cases heq
      exact behind?_append_stop hcodes hbehind
    | .branch target :: ahead, hnext =>
      match outcomes, hnext with
      | true :: _, hnext =>
        cases hnext
        exact ⟨ahead, rfl⟩
      | false :: _, hnext =>
        obtain ⟨behind, hbehind, heq⟩ := Option.map_eq_some_iff.1 hnext
        cases heq
        exact behind?_append_stop hcodes hbehind

/-- **A walk from the start of a function is its structured execution**, and ends at
a return or a condition without outcome. -/
theorem Function.walks {f : Function} {stmts : List Stmt} {ws : List Waypoint}
    (h : blockSound Code.Plain false stmts) {last : List Waypoint}
    (hws : ws = (blockFlow f.name 0 none stmts {}).1 ++ last)
    (hlast : last = [.stop] ∨ last = [] ∧ EndsStopped (blockFlow f.name 0 none stmts {}).1)
    (outcomes : List Bool) :
    ∃ stop : ControlPoint, Walks ws ⟨ws, outcomes⟩ (blockExecute stmts outcomes).visits stop ∧
      stop.outcomes = (blockExecute stmts outcomes).rest ∧
      stop.EndsBy (blockExecute stmts outcomes).exit := by
  have hnodup : (labelsOf ws).Nodup := by
    obtain ⟨keys, hkeys, hdistinct, hnumbered⟩ := (blockFlow_keyed f.name 0 none {} stmts).keys
    have hlabels : labelsOf ws = labelsOf (blockFlow f.name 0 none stmts {}).1 := by
      rcases hlast with rfl | ⟨rfl, -⟩
      · simp [hws]
      · simp [hws]
    rw [hlabels]
    refine hkeys.nodup_iff.2 (hdistinct.map_on fun k hk k' hk' heq => ?_)
    exact LabelKey.name_injective f.name (List.ne_nil_of_length_pos (hnumbered k hk).deep)
      (List.ne_nil_of_length_pos (hnumbered k' hk').deep) heq
  have hout : LeadsOut ws none false := nofun
  obtain ⟨stop, hwalk, hrest, hbeyond⟩ := h.tracks hnodup f.name 0 hout {} [] last hws outcomes
  rw [← hws] at hwalk
  refine ⟨stop, hwalk, hrest, ?_⟩
  cases hexit : (blockExecute stmts outcomes).exit with
  | through =>
    -- falling off the end comes to the last return, for control passes no other
    rw [hexit] at hbeyond
    rcases hlast with rfl | ⟨rfl, before, codes, hflow, hcodes⟩
    · exact ⟨[], hbeyond⟩
    · rw [hws, hflow, List.append_nil] at hwalk
      obtain ⟨ahead, hahead⟩ := hwalk.ahead_of_stop hcodes ⟨before, rfl⟩
      rw [show stop.ahead = [] from hbeyond] at hahead
      exact absurd hahead (by simp)
  | left =>
    rw [hexit] at hbeyond
    obtain ⟨target, hleave, -⟩ := hbeyond
    cases hleave
  | _ => rwa [hexit] at hbeyond

/-- **The lines execute the statements.** Whatever the conditions come to, control that
follows the lines from the start evaluates the expressions of the structured execution,
in its order, and stops where that ends: at a return, or at a condition without outcome. -/
def Assembler.Executes (a : Assembler) (stmts : List Stmt) : Prop :=
  ∀ outcomes, ∃ stop : ControlPoint, stop.EndsBy (blockExecute stmts outcomes).exit ∧
    stop.outcomes = (blockExecute stmts outcomes).rest ∧
    ∀ visits q, Walks (waypoints [] a.journal.toList) ⟨waypoints [] a.journal.toList, outcomes⟩
        visits q ∧ q.next? (waypoints [] a.journal.toList) = none ↔
      visits = (blockExecute stmts outcomes).visits ∧ q = stop

theorem Function.executes {f : Function} {stmts : List Stmt}
    (hbody : f.body = some (bodyLinear stmts)) (h : blockSound Code.Plain false stmts)
    {registers : Nat} {notes notes' : Array Note} {a : Assembler}
    (hassemble : f.assemble registers notes = .ok a notes') : a.Executes stmts := by
  intro outcomes
  obtain ⟨last, hshows, hlast⟩ := Function.assemble_shows hbody h hassemble
  obtain ⟨stop, hwalk, hrest, hends⟩ := Function.walks h hshows.eq hlast outcomes
  refine ⟨stop, hends, hrest, fun visits q => ⟨fun ⟨hq, hstill⟩ => ?_, ?_⟩⟩
  · exact hq.unique hwalk hstill hends.next?
  · rintro ⟨rfl, rfl⟩
    exact ⟨hwalk, hends.next?⟩

namespace SourceUnit

/-- **Lowering keeps the order of execution.** The body of a function that was read is
the linear form of statements, it is lowered with any pool of registers, and its lines
execute the statements. -/
theorem parse_executes {tokens : List PlacedToken} {u : SourceUnit} (h : parse tokens = .ok u)
    {f : Function} (hf : f ∈ u.program.functions) {body : List Element}
    (hbody : f.body = some body) (registers : Nat) (notes : Array Note) :
    (∃ stmts, body = bodyLinear stmts ∧ blockSound Code.Plain false stmts) ∧
    (tokens.length < 2 ^ 32 → 2 ≤ registers → registers ≤ 64 →
      ∃ a notes', f.assemble registers notes = .ok a notes') ∧
    ∀ a notes', f.assemble registers notes = .ok a notes' →
      (∀ l ∈ a.lines.toList, l.isQuiet = true ∨ l.waypoint?.isSome = true) ∧
      ∀ stmts, body = bodyLinear stmts → blockSound Code.Plain false stmts → a.Executes stmts := by
  obtain ⟨stmts, locals, hread⟩ := (parse_readFrom h).functions f hf body hbody
  have hlinear : body = bodyLinear stmts := Option.some.inj (hbody.symm.trans hread.body)
  have hplain : blockSound Code.Plain false stmts := hread.sound.mono fun _ hcode => hcode.plain
  refine ⟨⟨stmts, hlinear, hplain⟩, fun hlen hmin hmax => ?_, fun a notes' hassemble => ⟨?_, ?_⟩⟩
  · obtain ⟨a, notes', ha, -⟩ := hread.assemble (by omega) hmin hmax notes
    exact ⟨a, notes', ha⟩
  · intro l hl
    obtain ⟨last, hshows, -⟩ := Function.assemble_shows hread.body hplain hassemble
    rw [Assembler.lines, Array.toList_filterMap] at hl
    obtain ⟨⟨event, file⟩, hx, hline⟩ := List.mem_filterMap.1 hl
    cases event with
    | emits l' =>
      cases hline
      exact hshows.lines _ hx l rfl
    | _ => cases hline
  -- any sound tree with this linear form will do, not only the one that was read
  · intro stmts' hlinear' hplain'
    exact Function.executes (hlinear' ▸ hbody) hplain' hassemble

theorem parse_executes_sample : ∃ u, parse sampleTokens = .ok u ∧
    ∃ f ∈ u.program.functions, ∃ body, f.body = some body ∧ ∃ a notes,
      f.assemble 2 #[] = .ok a notes ∧ ∃ stmts, body = bodyLinear stmts ∧ a.Executes stmts := by
  obtain ⟨u, hu, f, hf, hdefined, -⟩ := parse_sampleTokens
  obtain ⟨body, hbody⟩ := Option.isSome_iff_exists.1 hdefined
  obtain ⟨⟨stmts, hlinear, hplain⟩, hok, hall⟩ := parse_executes hu hf hbody 2 #[]
  obtain ⟨a, notes, ha⟩ := hok (by decide) (by decide) (by decide)
  exact ⟨u, hu, f, hf, body, hbody, a, notes, ha, stmts, hlinear,
    (hall a notes ha).2 stmts hlinear hplain⟩

end SourceUnit

end WordC
