import Mathlib
import WordC.Lowering.Control
import WordC.Proofs.Lowering.Quiet
/-!
# Steps inside an expression

Lowering an expression neither looks at the open control structures nor changes
them (`Local`), and emits no line that control passes through (`Plain`). Both
hold of a row of steps if they hold of each (`Inner`).
-/

namespace WordC

namespace BodyState

/-- The state without its open control structures. -/
def core (s : BodyState) : BodyState :=
  { assembler := s.assembler, labels := s.labels, expression := s.expression }

/-- The open control structures of `s`, with all else as in `t`. -/
def follow (s t : BodyState) : BodyState :=
  { s with assembler := t.assembler, labels := t.labels, expression := t.expression }

end BodyState

namespace Lower

variable {α β : Type} {y : Lower α} {z : α → Lower β}

/-! ## Steps that leave control structures alone -/

/-- **The step neither depends on the open control structures nor changes
them.** -/
def Local (y : Lower α) : Prop :=
  ∀ s r s', y s = .ok r s' ↔ ∃ t, y s.core = .ok r t ∧ s' = s.follow t

/-- Without open control structures there are none afterwards. -/
theorem Local.core_eq (h : Local y) {s t : BodyState} {r : α} (hy : y s.core = .ok r t) :
    t.core = t := by
  obtain ⟨t', -, rfl⟩ := (h s.core r t).1 hy
  rfl

theorem Local.bind (h : Local y) (h' : ∀ r, Local (z r)) : Local (y >>= z) := by
  intro s r s'
  constructor
  · intro hrun
    obtain ⟨r₁, s₁, hy, hz⟩ := bind_eq_ok.1 hrun
    obtain ⟨t₁, ht₁, rfl⟩ := (h s r₁ s₁).1 hy
    obtain ⟨t₂, ht₂, rfl⟩ := (h' r₁ _ r s').1 hz
    refine ⟨t₂, bind_eq_ok.2 ⟨r₁, t₁, ht₁, ?_⟩, rfl⟩
    rw [← h.core_eq ht₁]
    exact ht₂
  · rintro ⟨t, hrun, rfl⟩
    obtain ⟨r₁, t₁, hy, hz⟩ := bind_eq_ok.1 hrun
    refine bind_eq_ok.2 ⟨r₁, s.follow t₁, (h s r₁ _).2 ⟨t₁, hy, rfl⟩, ?_⟩
    rw [← h.core_eq hy] at hz
    exact (h' r₁ (s.follow t₁) r _).2 ⟨t, hz, rfl⟩

/-- A step that always succeeds. -/
theorem local_of_ok {r : BodyState → α} {g : BodyState → BodyState}
    (h : ∀ s, y s = .ok (r s) (g s)) (hr : ∀ s, r s.core = r s)
    (hg : ∀ s, s.follow (g s.core) = g s) : Local y := by
  intro s r' s'
  simp only [h, hr]
  constructor
  · intro heq
    cases heq
    exact ⟨_, rfl, (hg s).symm⟩
  · rintro ⟨t, heq, rfl⟩
    cases heq
    rw [hg]

theorem local_pure (r : α) : Local (pure r : Lower α) :=
  local_of_ok (fun _ => rfl) (fun _ => rfl) fun _ => rfl

theorem local_throw (e : LoweringError) : Local (throw e : Lower α) := by
  intro s r s'
  simp

/-- What an operation on the register file gives. -/
theorem onAssembler_eq_ok {x : Assemble α} {s s' : BodyState} {r : α} :
    onAssembler x s = .ok r s' ↔
      ∃ a, x s.assembler = .ok r a ∧ s' = { s with assembler := a } := by
  unfold onAssembler
  cases hx : x s.assembler with
  | error e a => simp
  | ok r' a => simp [eq_comm]

theorem local_onAssembler (x : Assemble α) : Local (onAssembler x) := by
  intro s r s'
  rw [onAssembler_eq_ok]
  constructor
  · rintro ⟨a, ha, rfl⟩
    exact ⟨_, onAssembler_eq_ok.2 ⟨a, ha, rfl⟩, rfl⟩
  · rintro ⟨t, ht, rfl⟩
    obtain ⟨a, ha, rfl⟩ := onAssembler_eq_ok.1 ht
    exact ⟨a, ha, rfl⟩

theorem local_onExpression (g : ExpressionState → ExpressionState) : Local (onExpression g) :=
  local_of_ok (fun _ => rfl) (fun _ => rfl) fun _ => rfl

/-- A step that looks at the state first, but not at the control structures. -/
theorem local_get {y : BodyState → Lower α} (h : ∀ s, Local (y s)) (hy : ∀ s, y s.core = y s) :
    Local (get >>= y) := by
  intro s r s'
  change y s s = _ ↔ ∃ t, y s.core s.core = _ ∧ _
  rw [hy]
  exact h s s r s'

/-! ## Steps inside an expression -/

/-- **The step emits nothing that control passes through**, fills no register
without asking for it, and names no control structure. -/
def Plain (y : Lower α) : Prop :=
  ∀ s r s', y s = .ok r s' →
    s'.labels = s.labels ∧ ∃ xs, s.assembler.AddsPlainly s'.assembler xs

/-- A step that is part of an expression. -/
structure Inner (y : Lower α) : Prop where
  isLocal : Local y
  plain : Plain y

theorem Plain.bind (h : Plain y) (h' : ∀ r, Plain (z r)) : Plain (y >>= z) := by
  intro s r s' hrun
  obtain ⟨r₁, s₁, hy, hz⟩ := bind_eq_ok.1 hrun
  obtain ⟨hlabels, xs, hxs⟩ := h s r₁ s₁ hy
  obtain ⟨hlabels', ys, hys⟩ := h' r₁ s₁ r s' hz
  exact ⟨hlabels'.trans hlabels, xs ++ ys, hxs.append hys⟩

theorem plain_onAssembler {x : Assemble α} (h : Assemble.Plain x) : Plain (onAssembler x) := by
  intro s r s' hrun
  obtain ⟨a, ha, rfl⟩ := onAssembler_eq_ok.1 hrun
  exact ⟨rfl, h _ _ _ ha⟩

/-- A step that leaves the journal, the registers and the names as they are. -/
theorem plain_of_same
    (h : ∀ s r s', y s = .ok r s' → s'.assembler = s.assembler ∧ s'.labels = s.labels) :
    Plain y := by
  intro s r s' hy
  obtain ⟨hassembler, hlabels⟩ := h s r s' hy
  rw [hassembler]
  exact ⟨hlabels, [], ⟨by simp, nofun, id⟩, nofun, fun _ => id⟩

theorem Inner.bind (h : Inner y) (h' : ∀ r, Inner (z r)) : Inner (y >>= z) :=
  ⟨h.isLocal.bind fun r => (h' r).isLocal, h.plain.bind fun r => (h' r).plain⟩

theorem inner_pure (r : α) : Inner (pure r : Lower α) :=
  ⟨local_pure r, plain_of_same fun s r s' h => by cases h; exact ⟨rfl, rfl⟩⟩

theorem inner_throw (e : LoweringError) : Inner (throw e : Lower α) :=
  ⟨local_throw e, plain_of_same fun s r s' h => by simp at h⟩

theorem inner_lift {x : Assemble α} (h : Assemble.Plain x) : Inner (onAssembler x) :=
  ⟨local_onAssembler x, plain_onAssembler h⟩

theorem inner_onExpression (g : ExpressionState → ExpressionState) : Inner (onExpression g) :=
  ⟨local_onExpression g, plain_of_same fun s r s' h => by cases h; exact ⟨rfl, rfl⟩⟩

theorem inner_get {y : BodyState → Lower α} (h : ∀ s, Inner (y s)) (hy : ∀ s, y s.core = y s) :
    Inner (get >>= y) :=
  ⟨local_get (fun s => (h s).isLocal) hy, fun s r s' hrun => (h s).plain s r s' hrun⟩

/-- A line that control only runs through. -/
theorem inner_emit {l : Line} (h : l.isQuiet = true) : Inner (onAssembler (Assemble.emit l)) :=
  inner_lift (Assemble.plain_emit h)

/-! ## The operations of an expression -/

variable (f : Function)

theorem inner_releaseOperands : Inner releaseOperands :=
  inner_lift Assemble.plain_releaseOperands

theorem inner_storeWritten : Inner storeWritten :=
  inner_lift (Assemble.plain_storeWhere _)

theorem inner_load (o : Operand) : Inner (load f o) := by
  cases o with
  | var | constant | intermediate => exact inner_lift (Assemble.plain_loadOperand _)
  | result | parameter => exact inner_throw _

theorem inner_operandArg (o : Operand) : Inner (operandArg f o) := by
  cases o with
  | constant => exact inner_pure _
  | _ => exact (inner_load f _).bind fun _ => inner_pure _

theorem inner_result (n : Nat) : Inner (result n) :=
  inner_lift (Assemble.plain_bindResult n)

/-- The instruction of an operator is no jump. -/
theorem isQuiet_mnemonic (op : Operator) (args : List Arg) :
    (Line.plain op.mnemonic args).isQuiet = true := by
  cases op <;> rfl

theorem inner_instruction (op : Operator) (args : List Arg) :
    Inner (instruction op.mnemonic args) :=
  inner_emit (isQuiet_mnemonic op args)

theorem inner_unary (op : Operator) (a : Operand) (n : Nat) : Inner (unary f op a n) := by
  unfold unary
  split
  · exact (inner_result n).bind fun d => (inner_instruction _ _).bind fun _ => inner_pure _
  · exact (inner_result n).bind fun d => (inner_instruction _ _).bind fun _ => inner_pure _
  · refine (inner_load f a).bind fun r => (inner_result n).bind fun d => ?_
    cases op with
    | logicalNot | unaryPlus | bitwiseNot | unaryMinus =>
      exact (inner_instruction _ _).bind fun _ => inner_pure _
    | dereference =>
      have hload : Inner (instruction .load [.reg d, .mem r 0]) := inner_emit rfl
      exact hload.bind fun _ => inner_pure _
    | dereferenceStore =>
      have hmov : Inner (noted .mov [.reg d, .reg r] s!"address %{n}") := inner_emit rfl
      exact hmov.bind fun _ => (inner_onExpression _).bind fun _ => inner_pure _
    | _ => exact (inner_throw _).bind fun _ => inner_pure _

theorem inner_binary (op : Operator) (a b : Operand) (n : Nat) : Inner (binary f op a b n) := by
  refine (inner_load f a).bind fun r => (inner_operandArg f b).bind fun second =>
    (inner_result n).bind fun d => ?_
  cases op with
  | index =>
    have hadd : Inner (instruction .add [.reg d, .reg r, second]) := inner_emit rfl
    have hload : Inner (instruction .load [.reg d, .mem d 0]) := inner_emit rfl
    exact hadd.bind fun _ => hload.bind fun _ => inner_pure _
  | indexStore =>
    have hadd : Inner (noted .add [.reg d, .reg r, second] s!"address %{n}") := inner_emit rfl
    exact hadd.bind fun _ => (inner_onExpression _).bind fun _ => inner_pure _
  | _ => exact (inner_instruction _ _).bind fun _ => inner_pure _

theorem inner_argument (slot value : Operand) : Inner (argument f slot value) := by
  cases slot with
  | parameter k =>
    refine (inner_load f value).bind fun r => ?_
    have hrecord : Inner (onAssembler (Assemble.onFile (·.recordPush))) :=
      inner_lift (Assemble.plain_account fun _ => rfl)
    have hpush : Inner (do
        noted .push [.reg r] s!"argument {k.toNat}"
        Assemble.onFile (·.recordPush)
        releaseOperands) :=
      (inner_emit rfl).bind fun _ => hrecord.bind fun _ => inner_releaseOperands
    split
    · exact (inner_lift Assemble.plain_beginCall).bind fun _ => hpush
    · exact (inner_pure ()).bind fun _ => hpush
  | _ => exact inner_throw _

theorem inner_call (c : CallRef) : Inner (call c) := by
  have hcall : Inner (instruction .call [.label c.name]) := inner_emit rfl
  have hmov : ∀ d : Reg, Inner (instruction .mov [.reg d, .reg .eax]) := fun _ => inner_emit rfl
  refine (inner_onExpression _).bind fun _ => inner_releaseOperands.bind fun _ =>
    (inner_lift (Assemble.plain_storeWhere _)).bind fun _ => hcall.bind fun _ =>
    (inner_lift (Assemble.plain_endCall _ _)).bind fun _ =>
    (inner_lift (Assemble.plain_clearWhere _)).bind fun _ => inner_get (fun s => ?_) fun _ => rfl
  exact (inner_onExpression _).bind fun _ => (inner_result _).bind fun d => (hmov d).bind fun _ =>
    inner_onExpression _

theorem inner_write (target value : Operand) : Inner (write f target value) := by
  cases target with
  | var v =>
    have hmov : ∀ r source, Inner (noted .mov [.reg r, source] v.name) := fun _ _ => inner_emit rfl
    have hwrite : Inner (do
        let source ← operandArg f value
        let r ← Assemble.bindForWrite v
        noted .mov [.reg r, source] v.name
        releaseOperands
        return r) :=
      (inner_operandArg f value).bind fun source =>
        (inner_lift (Assemble.plain_bindForWrite v)).bind fun r => (hmov r source).bind fun _ =>
          inner_releaseOperands.bind fun _ => inner_pure _
    simp only [write]
    split
    · exact (inner_throw _).bind fun _ => hwrite
    · exact hwrite
  | intermediate t =>
    have hstore : ∀ address r, Inner (instruction .store [.mem address 0, .reg r]) :=
      fun _ _ => inner_emit rfl
    refine inner_get (fun s => ?_) fun _ => rfl
    have hwrite : Inner (do
        let address ← load f (.intermediate t)
        let r ← load f value
        instruction .store [.mem address 0, .reg r]
        onExpression fun x => { x with storeTargets := x.storeTargets.filter (· != t.toNat) }
        releaseOperands
        return r) :=
      (inner_load f _).bind fun address => (inner_load f value).bind fun r =>
        (hstore address r).bind fun _ => (inner_onExpression _).bind fun _ =>
          inner_releaseOperands.bind fun _ => inner_pure _
    split
    · exact (inner_throw _).bind fun _ => hwrite
    · exact hwrite
  | _ => exact inner_throw _

theorem inner_assign (target value : Operand) (n : Nat) (rest : List Element) :
    Inner (assign f target value n rest) := by
  have hmov : ∀ d r : Reg, Inner (instruction .mov [.reg d, .reg r]) := fun _ _ => inner_emit rfl
  refine (inner_write f target value).bind fun written => ?_
  split
  · exact (inner_result n).bind fun d => (hmov d written).bind fun _ => inner_pure _
  · exact inner_pure _

theorem inner_apply (op : Operator) (operands : List Operand) (n : Nat) (rest : List Element) :
    Inner (apply f op operands n rest) := by
  match operands with
  | [] => exact inner_throw _
  | [a] => exact (inner_unary f op a n).bind fun _ => inner_pure _
  | [a, b] =>
    simp only [apply]
    split
    · exact (inner_argument f a b).bind fun _ => inner_pure _
    · split
      · exact (inner_assign f a b n rest).bind fun _ => inner_pure _
      · exact (inner_binary f op a b n).bind fun _ => inner_pure _
  | _ :: _ :: _ :: _ => exact inner_throw _

/-- **An operator.** -/
theorem inner_operator (op : Operator) (rest : List Element) : Inner (operator f op rest) := by
  have hcheck : Inner (do
      if !(← Assemble.file).bindingsUnique then
        throw .valueHeldTwice : Lower Unit) := by
    refine (inner_lift Assemble.plain_file).bind fun file => ?_
    split
    · exact inner_throw _
    · exact inner_pure _
  refine inner_get (fun s => ?_) fun _ => rfl
  dsimp only
  split
  on_goal 1 => refine (inner_throw _).bind fun _ => ?_
  all_goals
    refine (inner_onExpression _).bind fun _ => (inner_apply f op _ _ rest).bind fun r => ?_
    cases r with
    | some r => exact (inner_onExpression _).bind fun _ => hcheck
    | none => exact hcheck

/-- **An operand.** -/
theorem inner_operand (o : Operand) : Inner (operand o) := by
  cases o with
  | result c => exact inner_call c
  | var | constant | intermediate | parameter =>
    exact inner_onExpression fun x => { x with pending := _ :: x.pending, hasValues := true }

/-- **The value of an expression.** -/
theorem inner_expressionValue : Inner (expressionValue f) := by
  refine inner_get (fun s => ?_) fun _ => rfl
  dsimp only
  split
  · exact (inner_onExpression _).bind fun _ => (inner_load f _).bind fun _ =>
      inner_releaseOperands.bind fun _ => inner_pure _
  · exact inner_pure _
  · exact inner_throw _

/-- **The end of an expression.** -/
theorem inner_finishExpression : Inner finishExpression :=
  (inner_lift Assemble.plain_endExpression).bind fun _ => inner_onExpression _

end Lower

end WordC
