import Mathlib
import WordC.Proofs.Expression.Draft
/-!
# Drafts read exactly the grammar

`derives_of_complete` says that what a draft reads is an expression of the
grammar. Its invariant, `Draft.Reads`, splits the tokens read so far along the
draft: every waiting operator has a left side that binds tightly enough, and
accepts on its right whatever the operator above it yields.
`complete_of_derives` is the converse, by induction on the derivation: from any
draft, the tokens of an expression leave its tree at hand, up to operators that
still wait and that whatever follows will settle.
-/

namespace WordC

variable {scopes : Scopes}

/-- A looser level accepts what a tighter one derives. -/
theorem Derives.loosen_le {p q : Nat} {ts : List Token} {e : Expr} (hle : p ≤ q)
    (h : Derives scopes q ts e) : Derives scopes p ts e := by
  induction hle with
  | refl => exact h
  | step _ ih => exact ih h.loosen

namespace Operator

/-- An operator between two values has a precedence from 1 to 10. -/
theorem precedence_infix {op : Operator} (h : op.isInfix) :
    1 ≤ op.precedence ∧ op.precedence ≤ 10 := by
  simpa [isInfix] using h

end Operator

namespace Waiting

/-- How tightly the value on top of waiting operators must bind. -/
def needAll : List Waiting → Nat
  | [] => 0
  | w :: _ => w.need

/-- The tokens that waiting operators have read. Each operator yields what the
one below it accepts. -/
inductive Reads (scopes : Scopes) : List Token → List Waiting → Prop where
  | nil : Reads scopes [] []
  | unary {ts ws t op form} : Reads scopes ts ws → Operator.ofToken? t = some op →
      op.unaryForm? = some form → Reads scopes (ts ++ [t]) (.unary form :: ws)
  | binary {ts us ws t op a} : Reads scopes ts ws → Derives scopes op.precedence us a →
      Operator.ofToken? t = some op → op.isInfix → needAll ws ≤ op.precedence →
      Reads scopes (ts ++ us ++ [t]) (.binary op a :: ws)
  | assign {ts us ws a target} : Reads scopes ts ws → Derives scopes 1 us a →
      a.place? = some target → needAll ws = 0 →
      Reads scopes (ts ++ us ++ [.symbol .assign]) (.assign target :: ws)

/-- An operator accepts every value that has calls and indexes only behind
it. -/
theorem Reads.needAll_le {ts : List Token} {ws : List Waiting} (h : Reads scopes ts ws) :
    needAll ws ≤ 11 := by
  cases h with
  | nil => exact Nat.zero_le _
  | unary => exact le_refl _
  | binary _ _ _ hop _ => have := Operator.precedence_infix hop; simp [needAll, need]; omega
  | assign => exact Nat.zero_le _

/-- Where settling at a level of infix operators stops, what waits accepts a
value of that level. -/
theorem Reads.needAll_le_of_stops {ts : List Token} {ws : List Waiting} {p : Nat}
    (h : Reads scopes ts ws) (hp : p ≤ 10) (hstop : Stops p ws) : needAll ws ≤ p := by
  cases h with
  | nil => exact Nat.zero_le _
  | unary _ ht hform =>
    have hprec := (Operator.unaryForm_spec ht hform).2
    simp only [Stops, precedence, operator, hprec] at hstop
    omega
  | binary =>
    simp only [Stops, precedence, operator] at hstop
    simp only [needAll, need]
    omega
  | assign => exact Nat.zero_le _

/-- What the innermost operator has read, applied to a value it accepts, is an
expression of its level, and the operators below accept it. -/
theorem Reads.uncons {ts : List Token} {w : Waiting} {ws : List Waiting}
    (h : Reads scopes ts (w :: ws)) :
    ∃ ts' vs, ts = ts' ++ vs ∧ Reads scopes ts' ws ∧ needAll ws ≤ w.precedence ∧
      ∀ us e, Derives scopes w.need us e →
        Derives scopes w.precedence (vs ++ us) (w.apply e) := by
  cases h with
  | @unary ts _ t op form h ht hform =>
    have hprec : (Waiting.unary form).precedence = 11 := (Operator.unaryForm_spec ht hform).2
    refine ⟨ts, [t], rfl, h, by rw [hprec]; exact h.needAll_le, fun us e he => ?_⟩
    rw [hprec]
    exact .unary ht hform he
  | @binary ts vs _ t op a h ha ht hop hle =>
    refine ⟨ts, vs ++ [t], by simp, h, hle, fun us e he => ?_⟩
    rw [List.append_assoc]
    exact .binary ht hop ha he
  | @assign ts vs _ a target h ha htarget hzero =>
    refine ⟨ts, vs ++ [.symbol .assign], by simp, h, by omega, fun us e he => ?_⟩
    rw [List.append_assoc]
    exact .assign ha htarget he

/-- **Settling keeps the tokens.** What was read as waiting operators and a
value is read as the remaining operators and a value of the level settled
at. -/
theorem Reads.settle {ts us : List Token} {ws : List Waiting} {e : Expr} {p q : Nat}
    (h : Reads scopes ts ws) (he : Derives scopes q us e) (hneed : needAll ws ≤ q)
    (hpq : p ≤ q) :
    ∃ ts' us', Reads scopes ts' (settle p ws e).1 ∧ Derives scopes p us' (settle p ws e).2 ∧
      ts ++ us = ts' ++ us' := by
  induction ws generalizing ts us e q with
  | nil => exact ⟨ts, us, h, he.loosen_le hpq, rfl⟩
  | cons w ws ih =>
    by_cases hp : p ≤ w.precedence
    · obtain ⟨ts', vs, rfl, hws, hle, happly⟩ := h.uncons
      rw [settle_cons_of_le hp, List.append_assoc]
      exact ih hws (happly us e (he.loosen_le hneed)) hle hp
    · have hstops : Stops p (w :: ws) := Nat.not_le.1 hp
      rw [settle_of_stops hstops]
      exact ⟨ts, us, h, he.loosen_le hpq, rfl⟩

/-- Settling everything leaves a whole expression. -/
theorem Reads.settle_zero {ts us : List Token} {ws : List Waiting} {e : Expr}
    (h : Reads scopes ts ws) (he : Derives scopes 12 us e) :
    Derives scopes 0 (ts ++ us) (Waiting.settle 0 ws e).2 := by
  have hneed := h.needAll_le
  obtain ⟨ts', us', hr, hd, heq⟩ := h.settle he (by omega) (Nat.zero_le 12)
  rw [Waiting.settle_zero] at hr
  cases hr
  simpa [heq] using hd

end Waiting

namespace Draft

open Waiting

/-- The tokens that the brackets and indexes around the current place have
read. -/
inductive ReadsAround (scopes : Scopes) : List Token → List Enclosing → Prop where
  | nil : ReadsAround scopes [] []
  | group {ts us ws r} : ReadsAround scopes ts r → Reads scopes us ws →
      ReadsAround scopes (ts ++ us ++ [.symbol .parenOpen]) (.group ws :: r)
  | callEmpty {ts us ws r name} : ReadsAround scopes ts r → Reads scopes us ws →
      scopes.find? name = none →
      ReadsAround scopes (ts ++ us ++ [.ident name, .symbol .parenOpen]) (.call name [] ws :: r)
  | call {ts us vs ws r name args} : ReadsAround scopes ts r → Reads scopes us ws →
      scopes.find? name = none → DerivesArguments scopes vs args →
      ReadsAround scopes
        (ts ++ us ++ .ident name :: .symbol .parenOpen :: vs ++ [.symbol .comma])
        (.call name args ws :: r)
  | index {ts us vs ws r base} : ReadsAround scopes ts r → Reads scopes us ws →
      Derives scopes 12 vs base →
      ReadsAround scopes (ts ++ us ++ vs ++ [.symbol .squareOpen]) (.index base ws :: r)

/-- The tokens behind the last waiting operator. -/
inductive ReadsHand (scopes : Scopes) : List Token → Hand → Prop where
  | nothing : ReadsHand scopes [] .nothing
  | value {ts e} : Derives scopes 12 ts e → ReadsHand scopes ts (.value e)
  | callee {name} : scopes.find? name = none → ReadsHand scopes [.ident name] (.callee name)

/-- **The invariant of reading**: `ts` splits into what the enclosing brackets,
the waiting operators and the value at hand have read. -/
def Reads (scopes : Scopes) (ts : List Token) (d : Draft) : Prop :=
  ∃ rs us vs, ts = rs ++ us ++ vs ∧ ReadsAround scopes rs d.around ∧
    Waiting.Reads scopes us d.waiting ∧ ReadsHand scopes vs d.hand

/-- Nothing has been read at the beginning. -/
theorem reads_start : Reads scopes [] {} :=
  ⟨[], [], [], rfl, .nil, .nil, .nothing⟩

/-- Where no value is at hand, one may be added. -/
theorem Reads.add_value {ts vs : List Token} {d : Draft} {e : Expr} (h : Reads scopes ts d)
    (hd : d.hand = .nothing) (he : Derives scopes 12 vs e) :
    Reads scopes (ts ++ vs) { d with hand := .value e } := by
  obtain ⟨rs, us, ws, rfl, hr, hu, hw⟩ := h
  rw [hd] at hw
  cases hw
  exact ⟨rs, us, vs, by simp, hr, hu, .value he⟩

/-- An argument may follow the arguments before it. -/
theorem snoc_argument {ts us : List Token} {args : List Expr} {e : Expr}
    (h : DerivesArguments scopes ts args) (he : Derives scopes 0 us e) :
    DerivesArguments scopes (ts ++ .symbol .comma :: us) (args ++ [e]) := by
  match h with
  | .one hd => exact .more hd (.one he)
  | .more hd hrest => simpa using DerivesArguments.more hd (snoc_argument hrest he)

/-- The arguments that a call has read once the one at hand is settled. -/
theorem ReadsAround.arguments {rs us : List Token} {name : String} {args : List Expr}
    {ws : List Waiting} {r : List Enclosing} {e : Expr}
    (h : ReadsAround scopes rs (.call name args ws :: r)) (he : Derives scopes 0 us e) :
    ∃ ts vs as, rs ++ us = ts ++ vs ++ .ident name :: .symbol .parenOpen :: as ∧
      ReadsAround scopes ts r ∧ Waiting.Reads scopes vs ws ∧ scopes.find? name = none ∧
      DerivesArguments scopes as (args ++ [e]) := by
  cases h with
  | @callEmpty ts vs _ _ _ hr hw hname =>
    exact ⟨ts, vs, us, by simp, hr, hw, hname, .one he⟩
  | @call ts vs as _ _ _ _ hr hw hname hargs =>
    exact ⟨ts, vs, as ++ .symbol .comma :: us, by simp, hr, hw, hname, snoc_argument hargs he⟩

variable {ts : List Token} {d d' : Draft}

theorem Reads.takeValue {vs : List Token} {e : Expr} (h : Reads scopes ts d)
    (he : Derives scopes 12 vs e) (hd : d.takeValue e = some d') : Reads scopes (ts ++ vs) d' := by
  unfold Draft.takeValue at hd
  split at hd
  · next hhand => cases hd; exact h.add_value hhand he
  · cases hd

theorem Reads.takeName {name : String} (h : Reads scopes ts d)
    (hd : d.takeName scopes name = some d') : Reads scopes (ts ++ [.ident name]) d' := by
  unfold Draft.takeName at hd
  split at hd
  · next hhand hfind => cases hd; exact h.add_value hhand (.var hfind)
  · next hhand hfind =>
    cases hd
    obtain ⟨rs, us, vs, rfl, hr, hu, hv⟩ := h
    rw [hhand] at hv
    cases hv
    exact ⟨rs, us, _, by simp, hr, hu, .callee hfind⟩
  · cases hd

theorem Reads.takeAssign (h : Reads scopes ts d) (hd : d.takeAssign = some d') :
    Reads scopes (ts ++ [.symbol .assign]) d' := by
  obtain ⟨rs, us, vs, rfl, hr, hu, hv⟩ := h
  unfold Draft.takeAssign at hd
  split at hd
  · next e hhand =>
    rw [hhand] at hv
    obtain ⟨target, hplace, rfl⟩ := Option.map_eq_some_iff.1 hd
    cases hv with
    | value he =>
      have hneed := hu.needAll_le
      obtain ⟨us', vs', hws, hder, heq⟩ := hu.settle he (p := 1) (by omega) (by omega)
      have hzero : needAll (settle 1 d.waiting e).1 = 0 := by
        -- what gives no way to level 1 is an assignment
        have hstop := stops_settle 1 d.waiting e
        revert hws hstop
        generalize (settle 1 d.waiting e).1 = ws
        intro hws hstop
        cases hws with
        | nil => rfl
        | unary _ ht hform =>
          simp [Stops, precedence, operator, (Operator.unaryForm_spec ht hform).2] at hstop
        | binary _ _ _ hop _ =>
          have hprec := Operator.precedence_infix hop
          simp only [Stops, precedence, operator] at hstop
          omega
        | assign => rfl
      refine ⟨rs, us' ++ vs' ++ [.symbol .assign], [], ?_, hr, hws.assign hder hplace hzero,
        .nothing⟩
      rw [List.append_assoc rs, heq]
      simp
  · cases hd

theorem Reads.takeOperator {t : Token} {op : Operator} (h : Reads scopes ts d)
    (ht : Operator.ofToken? t = some op) (hd : d.takeOperator op = some d') :
    Reads scopes (ts ++ [t]) d' := by
  obtain ⟨rs, us, vs, rfl, hr, hu, hv⟩ := h
  unfold Draft.takeOperator at hd
  split at hd
  -- an operator in front of its operand
  · next hhand =>
    obtain ⟨form, hform, rfl⟩ := Option.map_eq_some_iff.1 hd
    rw [hhand] at hv
    cases hv
    refine ⟨rs, us ++ [t], [], by simp, hr, hu.unary ht hform, ?_⟩
    simpa [hhand] using ReadsHand.nothing
  -- an operator behind a value, to which what binds tighter is applied first
  · next e hhand =>
    split at hd
    · next hop =>
      cases hd
      rw [hhand] at hv
      cases hv with
      | value he =>
        have hprec := Operator.precedence_infix hop
        have hneed := hu.needAll_le
        obtain ⟨us', vs', hws, hder, heq⟩ := hu.settle he (p := op.precedence) (by omega) (by omega)
        have hle := hws.needAll_le_of_stops hprec.2 (stops_settle _ _ _)
        refine ⟨rs, us' ++ vs' ++ [t], [], ?_, hr, hws.binary hder ht hop hle, .nothing⟩
        rw [List.append_assoc rs, heq]
        simp
    · cases hd
  · cases hd

theorem Reads.openRound (h : Reads scopes ts d) (hd : d.openRound = some d') :
    Reads scopes (ts ++ [.symbol .parenOpen]) d' := by
  obtain ⟨rs, us, vs, rfl, hr, hu, hv⟩ := h
  unfold Draft.openRound at hd
  split at hd
  · next hhand =>
    cases hd
    rw [hhand] at hv
    cases hv
    exact ⟨_, [], [], by simp, hr.group hu, .nil, .nothing⟩
  · next name hhand =>
    cases hd
    rw [hhand] at hv
    cases hv with
    | callee hname => exact ⟨_, [], [], by simp, hr.callEmpty hu hname, .nil, .nothing⟩
  · cases hd

theorem Reads.closeRound (h : Reads scopes ts d) (hd : d.closeRound = some d') :
    Reads scopes (ts ++ [.symbol .parenClose]) d' := by
  obtain ⟨rs, us, vs, rfl, hr, hu, hv⟩ := h
  unfold Draft.closeRound at hd
  split at hd
  -- brackets around a value
  · next ws r e haround hhand =>
    cases hd
    rw [haround] at hr
    rw [hhand] at hv
    cases hr with
    | @group rs ws' _ _ hr hw =>
      cases hv with
      | value he =>
        exact ⟨rs, ws', _, by simp, hr, hw, .value (.group (hu.settle_zero he))⟩
  -- the last argument of a call
  · next name args ws r e haround hhand =>
    cases hd
    rw [haround] at hr
    rw [hhand] at hv
    cases hv with
    | value he =>
      obtain ⟨rs', ws', as, heq, hr', hw, hname, hargs⟩ := hr.arguments (hu.settle_zero he)
      refine ⟨rs', ws', _, ?_, hr', hw, .value (.call hname hargs)⟩
      rw [List.append_assoc rs, heq]
      simp
  -- a call without arguments: nothing waits between its brackets
  · next name ws r haround hhand =>
    split at hd
    · next hempty =>
      cases hd
      rw [haround] at hr
      rw [hhand] at hv
      cases hv
      rw [List.isEmpty_iff.1 hempty] at hu
      cases hu
      cases hr with
      | callEmpty hr hw hname => exact ⟨_, _, _, by simp, hr, hw, .value (.callEmpty hname)⟩
      | call _ _ _ hargs => cases hargs
    · cases hd
  · cases hd

theorem Reads.takeComma (h : Reads scopes ts d) (hd : d.takeComma = some d') :
    Reads scopes (ts ++ [.symbol .comma]) d' := by
  obtain ⟨rs, us, vs, rfl, hr, hu, hv⟩ := h
  unfold Draft.takeComma at hd
  split at hd
  · next name args ws r e haround hhand =>
    cases hd
    rw [haround] at hr
    rw [hhand] at hv
    cases hv with
    | value he =>
      obtain ⟨rs', ws', as, heq, hr', hw, hname, hargs⟩ := hr.arguments (hu.settle_zero he)
      refine ⟨_, [], [], ?_, hr'.call hw hname hargs, .nil, .nothing⟩
      rw [List.append_assoc rs, heq]
      simp
  · cases hd

theorem Reads.openSquare (h : Reads scopes ts d) (hd : d.openSquare = some d') :
    Reads scopes (ts ++ [.symbol .squareOpen]) d' := by
  obtain ⟨rs, us, vs, rfl, hr, hu, hv⟩ := h
  unfold Draft.openSquare at hd
  split at hd
  · next e hhand =>
    cases hd
    rw [hhand] at hv
    cases hv with
    | value he => exact ⟨_, [], [], by simp, hr.index hu he, .nil, .nothing⟩
  · cases hd

theorem Reads.closeSquare (h : Reads scopes ts d) (hd : d.closeSquare = some d') :
    Reads scopes (ts ++ [.symbol .squareClose]) d' := by
  obtain ⟨rs, us, vs, rfl, hr, hu, hv⟩ := h
  unfold Draft.closeSquare at hd
  split at hd
  · next base ws r e haround hhand =>
    cases hd
    rw [haround] at hr
    rw [hhand] at hv
    cases hr with
    | index hr hw hbase =>
      cases hv with
      | value he =>
        exact ⟨_, _, _, by simp, hr, hw, .value (.index hbase (hu.settle_zero he))⟩
  · cases hd

/-- **One token keeps the invariant.** -/
theorem Reads.step {t : Token} (h : Reads scopes ts d) (hd : d.step scopes t = some d') :
    Reads scopes (ts ++ [t]) d' := by
  cases t with
  | ident name => exact h.takeName hd
  | integer n => exact h.takeValue .integer hd
  | truth b => exact h.takeValue .truth hd
  | char c => exact h.takeValue .char hd
  | symbol s =>
    cases s with
    | assign => exact h.takeAssign hd
    | parenOpen => exact h.openRound hd
    | parenClose => exact h.closeRound hd
    | squareOpen => exact h.openSquare hd
    | squareClose => exact h.closeSquare hd
    | comma => exact h.takeComma hd
    | semicolon | braceOpen | braceClose => nomatch hd
    | _ => exact h.takeOperator rfl hd
  | reserved _ | type _ | eof => nomatch hd

/-- So do all tokens of an expression. -/
theorem Reads.run {us : List Token} (h : Reads scopes ts d) (hd : d.run scopes us = some d') :
    Reads scopes (ts ++ us) d' := by
  induction us generalizing ts d with
  | nil => cases hd; simpa using h
  | cons t us ih =>
    obtain ⟨d₁, hstep, hrun⟩ := Option.bind_eq_some_iff.1 hd
    simpa using ih (h.step hstep) hrun

/-- **What is read is an expression of the grammar.** -/
theorem derives_of_complete {e : Expr} (hrun : run scopes ts {} = some d)
    (he : d.complete? = some e) : Derives scopes 0 ts e := by
  obtain ⟨rs, us, vs, heq, hr, hu, hv⟩ := reads_start.run hrun
  unfold complete? at he
  split at he
  · next haround hhand =>
    cases he
    rw [haround] at hr
    rw [hhand] at hv
    cases hr
    cases hv with
    | value hval =>
      have hts : ts = us ++ vs := by simpa using heq
      rw [hts]
      exact hu.settle_zero hval
  · cases he

/-! ## Every expression is read -/

/-- Operators that an expression of level `p` may be read behind: the first
token that ends one of its parts does not settle them. -/
def Fits (p : Nat) (ws : List Waiting) : Prop :=
  p ≤ 10 → Stops (max p 1) ws

/-- **What the tokens of an expression leave behind**: the value `x` at hand and
operators in front of it, none looser than `p`, that yield `e` once they are
settled. -/
def Leaves (scopes : Scopes) (p : Nat) (ts : List Token) (e : Expr) : Prop :=
  ∀ ws r, Fits p ws → ∃ us x, run scopes ts ⟨.nothing, ws, r⟩ = some ⟨.value x, us ++ ws, r⟩ ∧
    (∀ w ∈ us, p ≤ w.precedence) ∧ applyAll us x = e

theorem precedence_le (w : Waiting) : w.precedence ≤ 11 := by
  unfold precedence
  cases w.operator <;> decide

/-- A value of level 12 is at hand with nothing in front of it. -/
theorem Leaves.run_value {ts : List Token} {e : Expr} (h : Leaves scopes 12 ts e)
    (ws : List Waiting) (r : List Enclosing) :
    run scopes ts ⟨.nothing, ws, r⟩ = some ⟨.value e, ws, r⟩ := by
  obtain ⟨us, x, hrun, hprec, happly⟩ := h ws r (fun hp => by omega)
  cases us with
  | nil => simpa [← happly, applyAll] using hrun
  | cons u us =>
    have h12 := hprec u (by simp)
    have h11 := precedence_le u
    omega

theorem leaves_of_run {ts : List Token} {e : Expr}
    (h : ∀ ws r, run scopes ts ⟨.nothing, ws, r⟩ = some ⟨.value e, ws, r⟩) :
    Leaves scopes 12 ts e :=
  fun ws r _ => ⟨[], e, h ws r, by simp, rfl⟩

/-- A whole expression inside fresh brackets settles to its tree. -/
theorem Leaves.run_inside {ts : List Token} {e : Expr} (h : Leaves scopes 0 ts e)
    (r : List Enclosing) :
    ∃ us x, run scopes ts ⟨.nothing, [], r⟩ = some ⟨.value x, us, r⟩ ∧ applyAll us x = e := by
  obtain ⟨us, x, hrun, -, happly⟩ := h [] r (fun _ => trivial)
  exact ⟨us, x, by simpa using hrun, happly⟩

theorem Leaves.group {ts : List Token} {e : Expr} (h : Leaves scopes 0 ts e) :
    Leaves scopes 12 (.symbol .parenOpen :: ts ++ [.symbol .parenClose]) e := by
  refine leaves_of_run fun ws r => ?_
  obtain ⟨us, x, hrun, happly⟩ := h.run_inside (.group ws :: r)
  rw [List.cons_append, run]
  simp only [step_parenOpen, openRound, Option.bind_some]
  rw [run_append, hrun]
  simp [run, closeRound, Waiting.settle_zero, happly]

theorem Leaves.index {ts us : List Token} {a b : Expr} (ha : Leaves scopes 12 ts a)
    (hb : Leaves scopes 0 us b) :
    Leaves scopes 12 (ts ++ .symbol .squareOpen :: us ++ [.symbol .squareClose])
      (.binary .index a b) := by
  refine leaves_of_run fun ws r => ?_
  obtain ⟨vs, x, hrun, happly⟩ := hb.run_inside (.index a ws :: r)
  rw [List.append_assoc, run_append, ha.run_value, List.cons_append]
  simp only [Option.bind_some, run, step_squareOpen, openSquare]
  rw [run_append, hrun]
  simp [run, closeSquare, Waiting.settle_zero, happly]

theorem Leaves.unary {t : Token} {op form : Operator} {ts : List Token} {a : Expr}
    (ht : Operator.ofToken? t = some op) (hform : op.unaryForm? = some form)
    (h : Leaves scopes 11 ts a) : Leaves scopes 11 (t :: ts) (.unary form a) := by
  intro ws r _
  have hop : op ≠ .assign := by rintro rfl; cases hform
  obtain ⟨us, x, hrun, hprec, happly⟩ := h (.unary form :: ws) r (fun hp => by omega)
  refine ⟨us ++ [.unary form], x, ?_, ?_, ?_⟩
  · rw [run, step_of_operator ht hop]
    simp only [takeOperator, hform, Option.map_some, Option.bind_some]
    simpa using hrun
  · intro w hw
    rcases List.mem_append.1 hw with hw | hw
    · exact hprec w hw
    · rw [List.mem_singleton.1 hw]
      exact (Operator.unaryForm_spec ht hform).2.ge
  · rw [applyAll_concat, happly]
    rfl

theorem Leaves.binary {t : Token} {op : Operator} {ts us : List Token} {a b : Expr}
    (ht : Operator.ofToken? t = some op) (hop : op.isInfix)
    (ha : Leaves scopes op.precedence ts a) (hb : Leaves scopes (op.precedence + 1) us b) :
    Leaves scopes op.precedence (ts ++ t :: us) (.binary op a b) := by
  intro ws r hfits
  obtain ⟨hone, hten⟩ := Operator.precedence_infix hop
  have hassign : op ≠ .assign := by rintro rfl; cases hop
  have hstop : Stops op.precedence ws := by simpa [hone] using hfits hten
  obtain ⟨vs, x, hrun, hprec, happly⟩ := ha ws r hfits
  obtain ⟨vs', x', hrun', hprec', happly'⟩ := hb (.binary op a :: ws) r
    (fun _ => by simp [Stops, precedence, operator])
  refine ⟨vs' ++ [.binary op a], x', ?_, ?_, ?_⟩
  · rw [run_append, hrun, Option.bind_some, run, step_of_operator ht hassign]
    -- the left side is settled, and what stood in front of it stays
    simp only [takeOperator, hop, if_true, settle_append hprec, happly, settle_of_stops hstop,
      Option.bind_some]
    simpa using hrun'
  · intro w hw
    rcases List.mem_append.1 hw with hw | hw
    · have := hprec' w hw
      omega
    · rw [List.mem_singleton.1 hw]
      exact le_refl _
  · rw [applyAll_concat, happly']
    rfl

theorem Leaves.assign {ts us : List Token} {a target b : Expr} (ha : Leaves scopes 1 ts a)
    (hplace : a.place? = some target) (hb : Leaves scopes 0 us b) :
    Leaves scopes 0 (ts ++ .symbol .assign :: us) (.assign target b) := by
  intro ws r hfits
  have hstop : Stops 1 ws := hfits (by omega)
  obtain ⟨vs, x, hrun, hprec, happly⟩ := ha ws r (fun _ => hstop)
  obtain ⟨vs', x', hrun', hprec', happly'⟩ := hb (.assign target :: ws) r
    (fun _ => Nat.zero_lt_one)
  refine ⟨vs' ++ [.assign target], x', ?_, by simp, ?_⟩
  · rw [run_append, hrun, Option.bind_some, run]
    simp only [step_assign, takeAssign, settle_append hprec, happly, settle_of_stops hstop, hplace,
      Option.map_some, Option.bind_some]
    simpa using hrun'
  · rw [applyAll_concat, happly']
    rfl

theorem Leaves.loosen {p : Nat} {ts : List Token} {e : Expr} (h : Leaves scopes (p + 1) ts e) :
    Leaves scopes p ts e := by
  intro ws r hfits
  have hfits' : Fits (p + 1) ws := by
    intro hp
    have hstop := hfits (by omega)
    cases ws with
    | nil => trivial
    | cons w ws => simp only [Stops] at hstop ⊢; omega
  obtain ⟨us, x, hrun, hprec, happly⟩ := h ws r hfits'
  exact ⟨us, x, hrun, fun w hw => by have := hprec w hw; omega, happly⟩

/-- What the arguments of a call leave behind: the last one at hand, and the
others settled. -/
def LeavesArguments (scopes : Scopes) (ts : List Token) (args : List Expr) : Prop :=
  ∀ name first ws r, ∃ us x before,
    run scopes ts ⟨.nothing, [], .call name first ws :: r⟩ =
      some ⟨.value x, us, .call name before ws :: r⟩ ∧
    before ++ [applyAll us x] = first ++ args

theorem LeavesArguments.more {ts us : List Token} {e : Expr} {es : List Expr}
    (he : Leaves scopes 0 ts e) (hes : LeavesArguments scopes us es) :
    LeavesArguments scopes (ts ++ .symbol .comma :: us) (e :: es) := by
  intro name first ws r
  obtain ⟨vs, x, hrun, happly⟩ := he.run_inside (.call name first ws :: r)
  obtain ⟨vs', x', before, hrun', heq⟩ := hes name (first ++ [e]) ws r
  refine ⟨vs', x', before, ?_, by simpa using heq⟩
  rw [run_append, hrun, Option.bind_some, run]
  simp only [step_comma, takeComma, Waiting.settle_zero, happly, Option.bind_some]
  exact hrun'

theorem LeavesArguments.call {name : String} {ts : List Token} {args : List Expr}
    (hname : scopes.find? name = none) (h : LeavesArguments scopes ts args) :
    Leaves scopes 12 (.ident name :: .symbol .parenOpen :: ts ++ [.symbol .parenClose])
      (.call name args) := by
  refine leaves_of_run fun ws r => ?_
  obtain ⟨us, x, before, hrun, heq⟩ := h name [] ws r
  simp only [List.cons_append, run, step_ident, step_parenOpen, takeName, hname, openRound,
    Option.bind_some]
  rw [run_append, hrun]
  simp [run, closeRound, Waiting.settle_zero, heq]

mutual

/-- **The tokens of an expression leave its tree behind.** One lemma a rule of
the grammar. -/
theorem leaves_of_derives {p : Nat} {ts : List Token} {e : Expr} :
    Derives scopes p ts e → Leaves scopes p ts e
  | .var hfind => leaves_of_run fun ws r => by simp [run, takeName, hfind]
  | .integer => leaves_of_run fun _ _ => rfl
  | .truth => leaves_of_run fun _ _ => rfl
  | .char => leaves_of_run fun _ _ => rfl
  | .group h => (leaves_of_derives h).group
  | .callEmpty hname => leaves_of_run fun ws r => by
    simp [run, takeName, hname, openRound, closeRound]
  | .call hname h => (leaves_of_derivesArguments h).call hname
  | .index ha hb => (leaves_of_derives ha).index (leaves_of_derives hb)
  | .unary ht hform h => (leaves_of_derives h).unary ht hform
  | .binary ht hop ha hb => (leaves_of_derives ha).binary ht hop (leaves_of_derives hb)
  | .assign ha hplace hb => (leaves_of_derives ha).assign hplace (leaves_of_derives hb)
  | .loosen h => (leaves_of_derives h).loosen

theorem leaves_of_derivesArguments {ts : List Token} {args : List Expr} :
    DerivesArguments scopes ts args → LeavesArguments scopes ts args
  | .one h => fun name first ws r => by
    obtain ⟨us, x, hrun, happly⟩ := (leaves_of_derives h).run_inside (.call name first ws :: r)
    exact ⟨us, x, first, hrun, by rw [happly]⟩
  | .more h hs => .more (leaves_of_derives h) (leaves_of_derivesArguments hs)

end

/-- **Every expression of the grammar is read**, and its tree is the one
derived. -/
theorem complete_of_derives {e : Expr} (h : Derives scopes 0 ts e) :
    ∃ d, run scopes ts {} = some d ∧ d.complete? = some e := by
  obtain ⟨us, x, hrun, happly⟩ := (leaves_of_derives h).run_inside []
  exact ⟨_, hrun, by simp [complete?, Waiting.settle_zero, happly]⟩

end Draft

end WordC
