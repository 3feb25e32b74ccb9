import Mathlib
import WordC.Lowering.Program
import WordC.Proofs.SourceUnit.Unit
import WordC.Proofs.Lowering.Expressions
import WordC.Proofs.Lowering.FlatForm
/-!
# Bodies that are read can be lowered

Between two expressions of a body the registers hold copies only and no word is
pushed. From there each construct is lowered without failing, the pushed words
can be followed through the journal, and it ends where the next one may begin.
So the functions that are read are lowered, and keep to the stack.

What the words are does not matter here, so that the machine of expressions is
taken over words of which there is only one.
-/

namespace WordC

open Lower RegisterFile

/-- A machine that computes nothing. -/
def Target.blank : Target Unit where
  imm _ := ()
  alu _ _ _ := ()
  alu₁ _ _ := ()
  base := ()
  callee _ _ file heap := ((), file, heap)

theorem HoldsValues.blank {known : Variable → Prop} {f : RegisterFile} {m m' : Machine Unit}
    {mem mem' : Memory Unit} {ρ ρ' : Nat → Unit} (h : HoldsValues .blank known f m mem ρ) :
    HoldsValues .blank known f m' mem' ρ' :=
  ⟨h.general, h.names, h.unique, h.known, h.written, fun _ _ _ => rfl, rfl, fun _ _ => rfl,
    Subsingleton.elim _ _⟩

theorem apart_unit (known : Variable → Prop) : Apart Unit known :=
  fun _ _ _ _ _ _ _ => rfl

/-- **The registers when no word is pushed**, with `k` results in them. -/
structure Still (known : Variable → Prop) (k : Nat) (f : RegisterFile) (t : StackTrace) :
    Prop where
  linked : ∃ (m : Traced Unit) (mem : Memory Unit) (ρ : Nat → Unit), m.trace = t ∧
    Linked .blank known 0 [] [] f m mem ρ k []
  pinned : f.pinned = []
  waiting : t.calls.waiting = []
  min : 2 ≤ f.size
  max : f.size ≤ 64

namespace Still

variable {known : Variable → Prop} {k : Nat} {f : RegisterFile} {t : StackTrace}

theorem words (h : Still known k f t) : t.words = [] := by
  obtain ⟨m, mem, ρ, rfl, hlinked⟩ := h.linked
  exact hlinked.stack.traced

theorem stackDepth (h : Still known k f t) : f.stackDepth = 0 := by
  obtain ⟨m, mem, ρ, rfl, hlinked⟩ := h.linked
  exact hlinked.stack.depth

/-- Without results the registers are at rest. -/
theorem rests (h : Still known 0 f t) {m : Traced Unit} (hm : m.trace = t) (mem : Memory Unit) :
    Rests .blank known f m mem := by
  obtain ⟨m', mem', ρ, -, hlinked⟩ := h.linked
  refine ⟨⟨fun _ => hlinked.holds.blank, h.pinned, hlinked.stack.spills, fun i n hi => ?_⟩, ?_, ?_⟩
  · exact absurd (hlinked.results.inRegister i n hi) (Nat.not_lt_zero n)
  · rw [hm, h.words, h.stackDepth]
    rfl
  · rw [hm]
    exact h.waiting

/-- Any element may be taken up that is no part of an expression. -/
theorem take (h : Still known k f t) {e : Element} (he : e.inExpression = false) :
    Still known k f { t with calls := t.calls.take e } := by
  obtain ⟨m, mem, ρ, rfl, hlinked⟩ := h.linked
  refine ⟨⟨m.take e, mem, ρ, rfl, hlinked.take e⟩, h.pinned, ?_, h.min, h.max⟩
  cases e with
  | operand | operator => cases he
  | marker | keyword => exact h.waiting

/-- Nothing is held and nothing is pushed. -/
theorem of_unbound (hgeneral : ∀ i < f.size, ∃ n, f.regAt i = .general n)
    (hnames : ∀ i < f.size, ∀ j < f.size, f.regAt i = f.regAt j → i = j)
    (hnone : ∀ i, f.bindingAt i = none) (hstored : ∀ i, f.writtenAt i = false)
    (hdepth : f.stackDepth = 0) (hspills : f.spills = []) (hpinned : f.pinned = [])
    (hwords : t.words = []) (hwaiting : t.calls.waiting = []) (hmin : 2 ≤ f.size)
    (hmax : f.size ≤ 64) : Still known 0 f t := by
  let mem : Memory Unit := ⟨fun _ => (), fun _ => (), fun _ => ()⟩
  let m : Traced Unit :=
    { regs := fun _ => (), stack := [], memory := mem, calls := [], trace := t }
  have hholds : HoldsValues .blank known f m.toMachine mem fun _ => () :=
    ⟨hgeneral, hnames, by simp [hnone], by simp [hnone], by simp [hstored], fun _ _ _ => rfl, rfl,
      fun _ _ => rfl, rfl⟩
  have hfits : StackFits 0 [] [] f m.stack m.trace.words (fun _ => ()) ([] : List (Slot Unit)) :=
    ⟨hdepth, hspills, ⟨[], rfl, .nil⟩, hwords, rfl⟩
  exact ⟨⟨m, mem, fun _ => (), rfl, hholds, hfits, nofun,
    ⟨by simp [hnone], nofun, .nil, by simp [hnone], nofun⟩⟩, hpinned, hwaiting, hmin, hmax⟩

/-- Everything is forgotten. -/
theorem invalidate (h : Still known k f t) : Still known 0 f.invalidate t := by
  obtain ⟨m, mem, ρ, -, hlinked⟩ := h.linked
  refine of_unbound (fun i hi => ?_) (fun i hi j hj => ?_) (bindingAt_invalidate f)
    (writtenAt_invalidate f) h.stackDepth hlinked.stack.spills rfl h.words h.waiting ?_ ?_
  · rw [size_invalidate] at hi
    rw [regAt_invalidate]
    exact hlinked.holds.general i hi
  · rw [size_invalidate] at hi hj
    rw [regAt_invalidate, regAt_invalidate]
    exact hlinked.holds.names i hi j hj
  · rw [size_invalidate]
    exact h.min
  · rw [size_invalidate]
    exact h.max

end Still

/-! ## Steps that succeed -/

/-- What is said of the registers, the expression and the pushed words. -/
abbrev Assertion := RegisterFile → ExpressionState → StackTrace → Prop

namespace Lower

variable {α β : Type} {y : Lower α} {z : α → Lower β} {P Q R : Assertion}

/-- **The step succeeds** where `P` holds. The pushed words can be followed
through what it adds to the journal, and `Q` holds afterwards. -/
def Proceeds (P : Assertion) (y : Lower α) (Q : Assertion) : Prop :=
  ∀ s t, P s.assembler.file s.expression t → ∃ r s' xs t', y s = .ok r s' ∧
    s'.assembler.journal.toList = s.assembler.journal.toList ++ xs ∧
    StackTrace.run xs t = some t' ∧ Q s'.assembler.file s'.expression t'

theorem Proceeds.bind (h : Proceeds P y Q) (h' : ∀ r, Proceeds Q (z r) R) :
    Proceeds P (y >>= z) R := by
  intro s t hP
  obtain ⟨r, s₁, xs, t₁, hy, hjournal, hrun, hQ⟩ := h s t hP
  obtain ⟨r', s₂, ys, t₂, hz, hjournal', hrun', hR⟩ := h' r s₁ t₁ hQ
  refine ⟨r', s₂, xs ++ ys, t₂, (bind_ok hy).trans hz, ?_, ?_, hR⟩
  · rw [hjournal', hjournal, List.append_assoc]
  · rw [StackTrace.run_append, hrun]
    exact hrun'

theorem Proceeds.imp (h : Proceeds P y Q) (hP : ∀ f e t, R f e t → P f e t) : Proceeds R y Q :=
  fun s t hR => h s t (hP _ _ t hR)

theorem proceeds_pure (r : α) : Proceeds P (pure r) P :=
  fun s t hP => ⟨r, s, [], t, rfl, by simp, rfl, hP⟩

theorem proceeds_get {y : BodyState → Lower α}
    (h : ∀ s, Proceeds (fun f x t => P f x t ∧ x = s.expression) (y s) Q) :
    Proceeds P (get >>= y) Q :=
  fun s t hP => h s s t ⟨hP, rfl⟩

/-- An event in the journal. -/
theorem proceeds_record {e : Event}
    (h : ∀ f x t, P f x t → ∃ t', t.step ⟨e, f⟩ = some t' ∧ Q f x t') :
    Proceeds P (onAssembler (Assemble.record e)) Q := by
  intro s t hP
  obtain ⟨t', hstep, hQ⟩ := h _ _ t hP
  exact ⟨(), _, [⟨e, s.assembler.file⟩], t', rfl, by simp,
    by rw [StackTrace.run_singleton, hstep], hQ⟩

/-- A change of the registers. -/
theorem proceeds_onFile {g : RegisterFile → RegisterFile}
    (h : ∀ f x t, P f x t → Q (g f) x t) : Proceeds P (onAssembler (Assemble.onFile g)) Q :=
  fun s t hP => ⟨(), _, [], t, rfl, by simp, rfl, h _ _ t hP⟩

/-- A line that keeps the stack. -/
theorem proceeds_keep {l : Line} (hl : l.keepsStack = true) :
    Proceeds P (onAssembler (Assemble.emit l)) P :=
  proceeds_record fun _ _ t hP => ⟨t, if_pos hl, hP⟩

/-- A step that is understood together with a machine. -/
theorem proceeds_of_steps (h : ∀ f e t, P f e t → ∃ (m m' : Traced Unit) (r : α) (f' : RegisterFile)
      (e' : ExpressionState), m.trace = t ∧ Steps .blank y f e m r f' e' m' ∧ Q f' e' m'.trace) :
    Proceeds P y Q := by
  intro s t hP
  obtain ⟨m, m', r, f', e', rfl, hsteps, hQ⟩ := h _ _ t hP
  obtain ⟨a', xs, hy, rfl, hjournal, hreach⟩ := hsteps s rfl rfl
  exact ⟨r, _, xs, m'.trace, hy, hjournal, hreach.trace, hQ⟩

end Lower

/-! ## Inside a function -/

/-- Between two expressions. -/
def Resting (known : Variable → Prop) : Assertion :=
  fun f x t => Still known 0 f t ∧ x = {}

/-- At the end of an expression, whose value is not needed any more. -/
def Ending (known : Variable → Prop) : Assertion :=
  fun f _ t => ∃ k, Still known k f t

/-- At the end of an expression that has a value. -/
def Valued (known : Variable → Prop) : Assertion :=
  fun f x t => ∃ k, Still known k f t ∧ ∃ p : Point Unit, Ended .blank known 0 [] [] k p ∧
    p.file = f ∧ p.expression = x ∧ p.machine.trace = t

/-- At the end of an expression that may be missing. -/
def Concluded (known : Variable → Prop) : Assertion :=
  fun f x t => Resting known f x t ∨ Valued known f x t

theorem Concluded.ending {known : Variable → Prop} {f : RegisterFile} {x : ExpressionState}
    {t : StackTrace} (h : Concluded known f x t) : Ending known f x t := by
  rcases h with ⟨h, -⟩ | ⟨k, h, -⟩
  · exact ⟨0, h⟩
  · exact ⟨k, h⟩

namespace Lower

variable {known : Variable → Prop} (fn : Function)

theorem proceeds_takes {e : Element} (he : e.inExpression = false) :
    Proceeds (Resting known) (takes e) (Resting known) :=
  proceeds_record fun _ _ _ ⟨h, hx⟩ =>
    ⟨_, if_pos (by rw [h.stackDepth, h.words]; rfl), h.take he, hx⟩

theorem proceeds_takes_valued {e : Element} (he : e.inExpression = false) :
    Proceeds (Valued known) (takes e) (Valued known) := by
  refine proceeds_record fun _ _ _ ⟨k, h, p, hp, hf, hx, ht⟩ =>
    ⟨_, if_pos (by rw [h.stackDepth, h.words]; rfl), k, h.take he,
      { p with machine := p.machine.take e }, ?_, hf, hx, by subst ht; rfl⟩
  refine ⟨hp.linked.take e, hp.pinned, hp.pending, ?_, hp.value⟩
  cases e with
  | operand | operator => cases he
  | marker | keyword => exact hp.waiting

theorem proceeds_takes_concluded {e : Element} (he : e.inExpression = false) :
    Proceeds (Concluded known) (takes e) (Concluded known) := by
  rintro s t (h | h)
  · obtain ⟨r, s', xs, t', hrun, hjournal, htrace, hrest⟩ := proceeds_takes he s t h
    exact ⟨r, s', xs, t', hrun, hjournal, htrace, .inl hrest⟩
  · obtain ⟨r, s', xs, t', hrun, hjournal, htrace, hvalued⟩ := proceeds_takes_valued he s t h
    exact ⟨r, s', xs, t', hrun, hjournal, htrace, .inr hvalued⟩

/-- The elements of an expression. -/
theorem proceeds_code {c : Code} {nodes : Nat} (hc : c.IsExpression known nodes)
    (hnodes : nodes ≤ 2 ^ 32) {mark : Marker} (hmark : (Element.marker mark).endsExpression = true) :
    Proceeds (Resting known) (code fn c mark) (Valued known) := by
  obtain ⟨e, hwf, hsize, rfl⟩ := hc
  refine proceeds_of_steps fun f x t ⟨h, hx⟩ => ?_
  subst hx
  let mem : Memory Unit := ⟨fun _ => (), fun _ => (), fun _ => ()⟩
  let m : Traced Unit :=
    { regs := fun _ => (), stack := [], memory := mem, calls := arities e.linear, trace := t }
  have hrests : Rests .blank known f m mem := h.rests rfl mem
  obtain ⟨q, hq⟩ := hwf.completes fn 0 [] (apart_unit known) (hsize.trans hnodes) h.min h.max hrests (List.append_nil _).symm hmark fun _ => ()
  obtain ⟨k, hended⟩ := hq.ended
  have hwords : m.trace.words = [] := h.words
  rw [h.stackDepth, hwords] at hended
  refine ⟨m, q.machine, (), q.file, q.expression, rfl, hq.steps, k, ?_, q, hended, rfl, rfl, rfl⟩
  exact ⟨⟨q.machine, _, _, rfl, hended.linked⟩, hended.pinned, hended.waiting,
    hq.size ▸ h.min, hq.size ▸ h.max⟩

/-- The value of an expression. -/
theorem proceeds_expressionValue :
    Proceeds (Valued known) (expressionValue fn) (Ending known) := by
  refine proceeds_of_steps fun f x t ⟨k, h, p, hp, hf, hx, ht⟩ => ?_
  subst hf hx ht
  obtain ⟨r, f', e', m', hsteps, -, hlinked, hpin, hcoming, hsize, -⟩ :=
    expressionValue_ended fn hp (apart_unit known) h.min
  have hcalls : m'.trace.calls = p.machine.trace.calls := congrArg Prod.snd hcoming
  exact ⟨p.machine, m', r, f', e', rfl, hsteps, k, ⟨m', _, _, rfl, hlinked⟩, hpin,
    hcalls ▸ h.waiting, hsize ▸ h.min, hsize ▸ h.max⟩

/-- The end of an expression. -/
theorem proceeds_finishExpression :
    Proceeds (Ending known) finishExpression (Resting known) := by
  refine proceeds_of_steps fun f x t ⟨k, h⟩ => ?_
  obtain ⟨m, mem, ρ, rfl, hlinked⟩ := h.linked
  obtain ⟨f', hsteps, hrests, hstack, hwords, hsize⟩ :=
    finishExpression_linked (e := x) hlinked h.pinned h.waiting
  have hlinked' := hrests.linked ρ
  rw [hstack, hwords, ← hrests.depth, hwords] at hlinked'
  exact ⟨m, m, (), f', {}, rfl, hsteps, ⟨⟨m, mem, ρ, rfl, hlinked'⟩, hrests.pinned, h.waiting,
    hsize ▸ h.min, hsize ▸ h.max⟩, rfl⟩

/-- Storing written variables. -/
theorem proceeds_storeWhere (chosen : Variable → Bool) :
    Proceeds (Resting known) (onAssembler (Assemble.storeWhere chosen)) (Resting known) := by
  refine proceeds_of_steps fun f x t ⟨h, hx⟩ => ?_
  obtain ⟨m, mem, ρ, rfl, hlinked⟩ := h.linked
  obtain ⟨f', m', hruns, hlinked', -, hcoming, hsize, -, -, hpinned, -, -⟩ :=
    Assemble.storeWhere_linked hlinked chosen
  have hcalls : m'.trace.calls = m.trace.calls := congrArg Prod.snd hcoming
  exact ⟨m, m', (), f', x, rfl, Steps.lift hruns, ⟨⟨m', mem, ρ, rfl, hlinked'⟩,
    hpinned.trans h.pinned, hcalls ▸ h.waiting, hsize ▸ h.min, hsize ▸ h.max⟩, hx⟩

theorem proceeds_invalidate : Proceeds (Resting known) invalidate (Resting known) :=
  proceeds_onFile (g := (·.invalidate)) fun _ _ _ ⟨h, hx⟩ => ⟨h.invalidate, hx⟩

theorem proceeds_storeWritten : Proceeds (Resting known) storeWritten (Resting known) :=
  proceeds_storeWhere _

/-- Control may join or leave where no word is pushed. -/
theorem proceeds_edge {l : Line} (hkeeps : l.keepsStack = false)
    (hl : ∀ t : StackTrace, t.words = [] → t.line l = some t) :
    Proceeds (Resting known) (onAssembler (Assemble.emit l)) (Resting known) :=
  proceeds_record fun _ _ t ⟨h, hx⟩ =>
    ⟨t, (if_neg (by simp [hkeeps])).trans (hl t h.words), h, hx⟩

theorem proceeds_label (name : String) :
    Proceeds (Resting known) (label name) (Resting known) :=
  proceeds_edge rfl fun _ ht => if_pos ht

theorem proceeds_jump (target : String) :
    Proceeds (Resting known) (jump target) (Resting known) :=
  proceeds_edge rfl fun _ ht => if_pos ht

theorem proceeds_jz (r : Reg) (target : String) :
    Proceeds (Resting known) (instruction .jz [.reg r, .label target]) (Resting known) :=
  proceeds_edge rfl fun _ ht => if_pos ht

theorem proceeds_openAt (c : Construct) (depth : Nat) :
    Proceeds (Resting known) (openAt fn c depth) (Resting known) :=
  fun s t h => ⟨_, _, [], t, rfl, by simp, rfl, h⟩

theorem proceeds_closeAt (c : Construct) (depth : Nat) :
    Proceeds (Resting known) (closeAt c depth) (Resting known) :=
  fun s t h => ⟨_, _, [], t, rfl, by simp, rfl, h⟩

section Expressions

variable {nodes : Nat} (hnodes : nodes ≤ 2 ^ 32)
include hnodes

/-- An expression that may be missing, up to its end. -/
theorem proceeds_optional {c : Option Code} (hc : ∀ code ∈ c, code.IsExpression known nodes) :
    Proceeds (Resting known) (code fn (c.getD []) .expressionEnd)
      (Concluded known) := by
  cases c with
  | none => exact fun s t h => ⟨(), s, [], t, rfl, by simp, rfl, .inl h⟩
  | some c =>
    have hcode : Proceeds (Resting known) (code fn c .expressionEnd) (Valued known) :=
      proceeds_code fn (hc c rfl) hnodes rfl
    intro s t h
    obtain ⟨r, s', xs, t', hrun, hjournal, htrace, hvalued⟩ := hcode s t h
    exact ⟨r, s', xs, t', hrun, hjournal, htrace, .inr hvalued⟩

theorem proceeds_evaluate {c : Option Code} (hc : ∀ code ∈ c, code.IsExpression known nodes) :
    Proceeds (Resting known) (evaluate fn c) (Resting known) :=
  (proceeds_optional fn hnodes hc).bind fun _ => (proceeds_takes_concluded rfl).bind fun _ =>
    proceeds_finishExpression.imp fun _ _ _ h => h.ending

theorem proceeds_test {c : Code} (hc : c.IsExpression known nodes) (target : String) :
    Proceeds (Resting known) (test fn c target) (Resting known) :=
  (proceeds_code fn hc hnodes rfl).bind fun _ => (proceeds_takes_valued rfl).bind fun _ =>
    (proceeds_expressionValue fn).bind fun r => proceeds_finishExpression.bind fun _ =>
    proceeds_storeWritten.bind fun _ => (proceeds_jz r target).bind fun _ => proceeds_invalidate

end Expressions

theorem proceeds_epilogue : Proceeds (Resting known) (epilogue fn) (Resting known) := by
  have hpopa : Proceeds (Resting known) (onAssembler (Assemble.instruction .popa []))
      (Resting known) := proceeds_edge rfl fun _ ht => if_pos ht
  have hframe : Proceeds (Resting known) (onAssembler Assemble.destroyFrame) (Resting known) :=
    hpopa.bind fun _ => (proceeds_keep rfl).bind fun _ => proceeds_keep rfl
  exact (proceeds_storeWhere _).bind fun _ => hframe.bind fun _ => proceeds_keep rfl

/-- Leaving the function, with a value or without. -/
theorem proceeds_leaveFunction :
    Proceeds (Concluded known) (leaveFunction fn) (Resting known) := by
  have hrest : Proceeds (Ending known) (do
      finishExpression
      epilogue fn
      invalidate) (Resting known) :=
    proceeds_finishExpression.bind fun _ => (proceeds_epilogue fn).bind fun _ => proceeds_invalidate
  have hmov : ∀ r, Proceeds (Ending known) (instruction .mov [.reg .eax, .reg r]) (Ending known) :=
    fun _ => proceeds_keep rfl
  refine proceeds_get fun s => ?_
  split
  · next hvalues =>
    have hvalued : Proceeds (Valued known) (do
        let r ← expressionValue fn
        instruction .mov [.reg .eax, .reg r]
        finishExpression
        epilogue fn
        invalidate) (Resting known) :=
      (proceeds_expressionValue fn).bind fun r => (hmov r).bind fun _ => hrest
    refine hvalued.imp fun f x t ⟨h, hx⟩ => h.resolve_left fun hresting => ?_
    -- Nothing was begun between two expressions.
    rw [← hx, hresting.2] at hvalues
    cases hvalues
  · exact hrest.imp fun _ _ _ h => h.1.ending

theorem proceeds_scope {inner : Lower Unit} (h : Proceeds (Resting known) inner (Resting known)) :
    Proceeds (Resting known) (scope inner) (Resting known) :=
  (proceeds_takes rfl).bind fun _ => h.bind fun _ => proceeds_takes rfl

theorem proceeds_join (name : String) :
    Proceeds (Resting known) (join name) (Resting known) :=
  proceeds_storeWritten.bind fun _ => (proceeds_label name).bind fun _ => proceeds_invalidate

theorem proceeds_repeatLoop (base : LabelBase) (depth : Nat) :
    Proceeds (Resting known) (repeatLoop base depth) (Resting known) :=
  proceeds_storeWritten.bind fun _ => (proceeds_jump _).bind fun _ => (proceeds_label _).bind
    fun _ => proceeds_invalidate.bind fun _ => proceeds_closeAt _ _

theorem proceeds_passOthers (base : LabelBase) (skip : String) :
    Proceeds (Resting known) (passOthers base skip) (Resting known) :=
  proceeds_storeWritten.bind fun _ => (proceeds_jump _).bind fun _ => (proceeds_label _).bind
    fun _ => proceeds_invalidate

theorem proceeds_joinChain (base : LabelBase) (skip : String) (jumped : Bool) :
    Proceeds (Resting known) (joinChain base skip jumped) (Resting known) := by
  refine (proceeds_label _).bind fun _ => ?_
  split
  · exact (proceeds_label _).bind fun _ => proceeds_invalidate
  · exact proceeds_invalidate

theorem proceeds_leaveLoop {leave : Option String} (h : leave.isSome = true) :
    Proceeds (Resting known) (leaveLoop fn leave) (Resting known) := by
  cases leave with
  | none => cases h
  | some target =>
    exact proceeds_storeWritten.bind fun _ => (proceeds_jump _).bind fun _ => proceeds_invalidate

theorem proceeds_openChain (depth : Nat) :
    Proceeds (Resting known) (openChain fn depth) (Resting known) :=
  (proceeds_takes rfl).bind fun _ => proceeds_openAt fn _ _

theorem proceeds_openFor (depth : Nat) :
    Proceeds (Resting known) (openFor fn depth) (Resting known) :=
  (proceeds_takes rfl).bind fun _ => proceeds_openAt fn _ _

theorem proceeds_openWhile (depth : Nat) :
    Proceeds (Resting known) (openWhile fn depth) (Resting known) :=
  (proceeds_takes rfl).bind fun _ => proceeds_storeWritten.bind fun _ => proceeds_invalidate.bind
    fun _ => (proceeds_openAt fn _ _).bind fun _ => (proceeds_label _).bind fun _ => proceeds_pure _

end Lower

section Statements

variable {known : Variable → Prop} {fn : Function} {nodes : Nat}

mutual

/-- **A statement is lowered**, from between two expressions to there again. -/
theorem Stmt.Sound.proceeds {inLoop : Bool} {s : Stmt}
    (h : s.Sound (Code.IsExpression known nodes) inLoop) (hnodes : nodes ≤ 2 ^ 32) (depth : Nat)
    {leave : Option String} (hleave : inLoop = true → leave.isSome = true) :
    Proceeds (Resting known) (s.lower fn depth leave) (Resting known) :=
  match s, h with
  | .eval _, h => proceeds_evaluate fn hnodes fun _ hcode => Option.some.inj hcode ▸ h
  | .ret _, h =>
    (proceeds_takes rfl).bind fun _ => (proceeds_optional fn hnodes h).bind fun _ =>
      (proceeds_takes_concluded rfl).bind fun _ => proceeds_leaveFunction fn
  | .leave, h => (proceeds_takes rfl).bind fun _ => proceeds_leaveLoop fn (hleave h)
  | .block _, h => proceeds_scope (blockSound.proceeds h hnodes depth hleave)
  | .branch .., ⟨hc, hbody, hother⟩ =>
    (proceeds_openChain fn depth).bind fun _ => (proceeds_test fn hnodes hc _).bind fun _ =>
      (proceeds_scope (hbody.proceeds hnodes _ hleave)).bind fun _ =>
      (hother.proceeds hnodes depth hleave _ _ _).bind fun _ => proceeds_closeAt _ _
  | .loop .., ⟨hc, hbody⟩ =>
    (proceeds_openWhile fn depth).bind fun _ => (proceeds_test fn hnodes hc _).bind fun _ =>
      (proceeds_scope (hbody.proceeds hnodes _ fun _ => rfl)).bind fun _ => proceeds_repeatLoop _ _
  | .count .., ⟨hfirst, hc, hstep, hbody⟩ =>
    (proceeds_openFor fn depth).bind fun _ => (proceeds_evaluate fn hnodes hfirst).bind fun _ =>
      (proceeds_join _).bind fun _ => (proceeds_test fn hnodes hc _).bind fun _ =>
      (proceeds_scope (hbody.proceeds hnodes _ fun _ => rfl)).bind fun _ =>
      (proceeds_optional fn hnodes hstep).bind fun _ =>
      (proceeds_finishExpression.imp fun _ _ _ h => h.ending).bind fun _ => proceeds_repeatLoop _ _

theorem Alternative.Sound.proceeds {inLoop : Bool} {other : Alternative}
    (h : other.Sound (Code.IsExpression known nodes) inLoop) (hnodes : nodes ≤ 2 ^ 32) (depth : Nat)
    {leave : Option String} (hleave : inLoop = true → leave.isSome = true) (base : LabelBase) (index : Nat)
    (skip : String) :
    Proceeds (Resting known) (other.lower fn depth leave base index skip) (Resting known) :=
  match other, h with
  | .none, _ => proceeds_storeWritten.bind fun _ => proceeds_joinChain _ _ _
  | .elseIf .., ⟨hc, hbody, hother⟩ =>
    (proceeds_passOthers _ _).bind fun _ => (proceeds_takes rfl).bind fun _ =>
      (proceeds_test fn hnodes hc _).bind fun _ =>
      (proceeds_scope (hbody.proceeds hnodes _ hleave)).bind fun _ => hother.proceeds hnodes depth hleave _ _ _
  | .otherwise _, h =>
    (proceeds_passOthers _ _).bind fun _ => (proceeds_takes rfl).bind fun _ =>
      (proceeds_scope (blockSound.proceeds h hnodes _ hleave)).bind fun _ => proceeds_join _

theorem blockSound.proceeds {inLoop : Bool} {body : List Stmt}
    (h : blockSound (Code.IsExpression known nodes) inLoop body) (hnodes : nodes ≤ 2 ^ 32)
    (depth : Nat) {leave : Option String} (hleave : inLoop = true → leave.isSome = true) :
    Proceeds (Resting known) (blockLower fn depth leave body) (Resting known) :=
  match body, h with
  | [], _ => proceeds_pure ()
  | _ :: _, ⟨hs, hrest⟩ =>
    (hs.proceeds hnodes depth hleave).bind fun _ => hrest.proceeds hnodes depth hleave

end

end Statements

/-! ## Functions -/

section Functions

variable {known : Variable → Prop} {f : Function}

/-- The lines that a function begins with, up to the one that saves the
registers. -/
def Function.prologue (f : Function) : List Line :=
  [.function f.name, .noted .push [.reg .ebp] "stack frame", .plain .mov [.reg .ebp, .reg .esp]] ++
    if 0 < f.frameSize then
      [.noted .sub [.reg .esp, .reg .esp, .imm f.frameSize.toInt64]
        s!"{f.frameSize.toNat} local word(s)"]
    else []

theorem Function.pusha_notMem_prologue (f : Function) : .plain .pusha [] ∉ f.prologue := by
  unfold prologue
  split <;> simp [Line.plain, Line.noted]

/-- The frame of a function, where nothing is held. -/
theorem functionStart_apply (f : Function) (s : BodyState) :
    ∃ a, functionStart f s = .ok () { s with assembler := a } ∧
      a.journal.toList = s.assembler.journal.toList ++
        f.prologue.map (fun l => ⟨.emits l, s.assembler.file⟩) ++
        [⟨.emits (.plain .pusha []), s.assembler.file⟩] ∧
      a.file = { s.assembler.file.invalidate with stackDepth := 0, spills := [], callStarts := [] } := by
  by_cases hwords : 0 < f.frameSize
  · simp only [functionStart, Assemble.createFrame, Function.prologue, if_pos hwords]
    exact ⟨_, rfl, by simp, rfl⟩
  · simp only [functionStart, Assemble.createFrame, Function.prologue, if_neg hwords]
    exact ⟨_, rfl, by simp, rfl⟩

/-- A pool has as many registers as were asked for, all with their own names. -/
theorem ofSize_ok {registers : Nat} (hmin : 2 ≤ registers) (hmax : registers ≤ 64) :
    ∃ file, RegisterFile.ofSize registers = .ok file ∧ file.size = registers ∧
      (∀ i < registers, ∃ n, file.regAt i = .general n) ∧
      ∀ i < registers, ∀ j < registers, file.regAt i = file.regAt j → i = j := by
  have hreg : ∀ i < registers, ∀ file : RegisterFile, file.registers =
      ((List.range registers).map fun i => { reg := .general (UInt8.ofNat (min (i + 1) 255)) }) →
      file.regAt i = .general (UInt8.ofNat (i + 1)) := by
    intro i hi file hfile
    have hnumber : min (i + 1) 255 = i + 1 := by omega
    simp [RegisterFile.regAt, hfile, hi, hnumber]
  refine ⟨_, if_neg (by unfold minRegisters; omega), by simp [RegisterFile.size], fun i hi =>
    ⟨_, hreg i hi _ rfl⟩, fun i hi j hj heq => ?_⟩
  rw [hreg i hi _ rfl, hreg j hj _ rfl] at heq
  have hnumber : ∀ i < registers, (UInt8.ofNat (i + 1)).toNat = i + 1 := by
    intro i hi
    rw [UInt8.toNat_ofNat']
    omega
  have := congrArg UInt8.toNat (Reg.general.inj heq)
  rw [hnumber i hi, hnumber j hj] at this
  omega

/-- What remains of a function behind its frame. -/
theorem proceeds_body {nodes : Nat} {stmts : List Stmt} (hnodes : nodes ≤ 2 ^ 32)
    (h : blockSound (Code.IsExpression known nodes) false stmts) :
    Proceeds (Resting known) (do
      blockLower f 0 none stmts
      takes (.marker .functionEnd)
      functionEnd f) (Resting known) := by
  refine (h.proceeds hnodes 0 nofun).bind fun _ => (proceeds_takes rfl).bind fun _ => ?_
  refine proceeds_get fun s => ?_
  split
  · exact (proceeds_epilogue f).imp fun _ _ _ h => h.1
  · exact (proceeds_pure ()).imp fun _ _ _ h => h.1

/-- **The lines behind the prologue keep to the stack.** The pushed words can be
followed to the end, where there are none, and each result is filled as often as
it was spilled. -/
def Assembler.KeepsStack (a : Assembler) : Prop :=
  ∃ prologue file body t,
    a.journal.toList = prologue ++ ⟨.emits (.plain .pusha []), file⟩ :: body ∧
    (∀ x ∈ prologue, x.line? ≠ some (.plain .pusha [])) ∧
    StackTrace.run body {} = some t ∧ t.words = [] ∧ a.file.stackDepth = 0 ∧
    ∀ name, StackTrace.spills name body = StackTrace.fills name body

/-- **A function that was read is lowered**, and its lines keep to the stack. -/
theorem Function.ReadAs.assemble {nodes : Nat} {file locals : List Variable} {stmts : List Stmt}
    (h : f.ReadAs nodes file stmts locals) (hnodes : nodes ≤ 2 ^ 32) {registers : Nat}
    (hmin : 2 ≤ registers) (hmax : registers ≤ 64) (notes : Array Note) :
    ∃ a notes', f.assemble registers notes = .ok a notes' ∧ a.KeepsStack := by
  obtain ⟨pool, hpool, hsize, hgeneral, hnames⟩ := ofSize_ok hmin hmax
  let s : BodyState := { assembler := { file := pool, notes } }
  obtain ⟨a, hstart, hjournal, hfile⟩ := functionStart_apply f { s with
    assembler := { s.assembler with
      journal := s.assembler.journal.push ⟨.takes (.marker .functionStart), pool⟩ } }
  let s₁ : BodyState := { s with assembler := a }
  -- the prologue leaves every register unbound, which is where a body may start
  have hstill : Still (fun v => v ∈ file ∨ v ∈ f.parameters ∨ v ∈ locals) 0 a.file {} := by
    have hcount : pool.invalidate.size = registers := (size_invalidate pool).trans hsize
    rw [hfile]
    refine Still.of_unbound (fun i (hi : i < pool.invalidate.size) => ?_)
      (fun i (hi : i < pool.invalidate.size) j (hj : j < pool.invalidate.size) => ?_)
      (bindingAt_invalidate pool) (writtenAt_invalidate pool) rfl rfl rfl rfl rfl ?_ ?_
    · change ∃ n, pool.invalidate.regAt i = _
      rw [regAt_invalidate]
      exact hgeneral i (hcount ▸ hi)
    · change pool.invalidate.regAt i = pool.invalidate.regAt j → _
      rw [regAt_invalidate, regAt_invalidate]
      exact hnames i (hcount ▸ hi) j (hcount ▸ hj)
    · exact hcount.symm ▸ hmin
    · exact hcount.symm ▸ hmax
  obtain ⟨_, s₂, body, t, hbody, hgrown, hrun, hresting⟩ :=
    proceeds_body (f := f) hnodes h.sound { s with assembler := a } {} ⟨hstill, rfl⟩
  -- the body's lowering by its tree is the run over its elements
  have hlower : bodyLower f stmts s = .ok () s₂ :=
    (bind_ok rfl).trans ((bind_ok hstart).trans hbody)
  have hplain : blockSound Code.Plain false stmts := h.sound.mono fun _ hcode => hcode.plain
  have helements : elements f (bodyLinear stmts).length (bodyLinear stmts) s = .ok () s₂ :=
    (elements_bodyLinear hplain _ _ s₂).2 hlower
  refine ⟨s₂.assembler, s₂.assembler.notes, ?_, ?_⟩
  · simp only [Function.assemble, h.body, hpool]
    rw [helements]
  · refine ⟨⟨.takes (.marker .functionStart), pool⟩ ::
      f.prologue.map (fun l => ⟨.emits l, pool⟩), pool, body, t, ?_, ?_, hrun, hresting.1.words,
      hresting.1.stackDepth, fun name => StackTrace.spills_eq_fills name hrun rfl hresting.1.words⟩
    · rw [hgrown, hjournal]
      simp [s]
    · intro x hx
      rcases List.mem_cons.1 hx with rfl | hx
      · nofun
      · obtain ⟨l, hl, rfl⟩ := List.mem_map.1 hx
        intro heq
        cases heq
        exact f.pusha_notMem_prologue hl

end Functions

/-! ## Programs -/

theorem mapM_ok {ε σ α β : Type} {g : α → EStateM ε σ β} {as : List α}
    (h : ∀ a ∈ as, ∀ s, ∃ b s', g a s = .ok b s') (s : σ) :
    ∃ bs s', as.mapM g s = .ok bs s' := by
  induction as generalizing s with
  | nil => exact ⟨[], s, rfl⟩
  | cons a as ih =>
    rw [List.forall_mem_cons] at h
    obtain ⟨b, s₁, hb⟩ := h.1 s
    obtain ⟨bs, s₂, hbs⟩ := ih h.2 s₁
    rw [List.mapM_cons]
    exact ⟨b :: bs, s₂, (bind_ok hb).trans ((bind_ok hbs).trans rfl)⟩

/-- A program is lowered if its functions are. -/
theorem Program.lower_ok {p : Program} {registers : Nat} (hmin : 2 ≤ registers)
    (h : ∀ f ∈ p.functions, f.isDefined = true → ∀ notes, ∃ a notes',
      f.assemble registers notes = .ok a notes') (notes : Array Note) :
    ∃ lines notes', p.lower registers notes = .ok lines notes' := by
  have hfunction : ∀ f ∈ p.functions.filter (·.isDefined), ∀ notes, ∃ lines notes', (do
      Logged.note .debug s!"generating `{f.name}`"
      f.lower registers : Logged LoweringError (List Line)) notes = .ok lines notes' := by
    intro f hf notes
    obtain ⟨hf, hdefined⟩ := List.mem_filter.1 hf
    obtain ⟨a, notes', ha⟩ := h f hf hdefined (notes.push ⟨.debug, s!"generating `{f.name}`"⟩)
    exact ⟨_, notes', (bind_ok rfl).trans (bind_ok ha)⟩
  obtain ⟨bodies, notes', hbodies⟩ := mapM_ok hfunction notes
  unfold lower
  rw [if_neg (by unfold minRegisters; omega)]
  exact ⟨_, _, (bind_ok hbodies).trans rfl⟩

namespace SourceUnit

/-- **Every program that is read can be lowered**, with any pool of registers. -/
theorem parse_lowers {tokens : List PlacedToken} {u : SourceUnit} (h : parse tokens = .ok u)
    (hlen : tokens.length < 2 ^ 32) {registers : Nat} (hmin : 2 ≤ registers)
    (hmax : registers ≤ 64) : ∃ lines, (u.program.lower registers).value = .ok lines := by
  have hfunction : ∀ f ∈ u.program.functions, f.isDefined = true → ∀ notes, ∃ a notes',
      f.assemble registers notes = .ok a notes' := by
    intro f hf hdefined notes
    obtain ⟨linear, hbody⟩ := Option.isSome_iff_exists.1 hdefined
    obtain ⟨stmts, locals, hread⟩ := (parse_readFrom h).functions f hf linear hbody
    obtain ⟨a, notes', ha, -⟩ := hread.assemble (by omega) hmin hmax notes
    exact ⟨a, notes', ha⟩
  obtain ⟨lines, notes, hlower⟩ := Program.lower_ok hmin hfunction #[]
  exact ⟨lines, by rw [Logged.value, hlower]⟩

theorem parse_lowers_sample : ∃ u, parse sampleTokens = .ok u ∧ sampleTokens.length < 2 ^ 32 ∧
    ∃ lines, (u.program.lower 2).value = .ok lines := by
  obtain ⟨u, hu, -⟩ := parse_sampleTokens
  exact ⟨u, hu, by decide, parse_lowers hu (by decide) (by decide) (by decide)⟩

/-- **The lines of every function that is read keep to the stack**, with any pool
of registers. Results are numbered by 32 bits, so no expression has more than `2 ^ 32` nodes. -/
theorem parse_keepsStack {tokens : List PlacedToken} {u : SourceUnit} (h : parse tokens = .ok u)
    {registers : Nat} (hmin : 2 ≤ registers) (hmax : registers ≤ 64) :
    ∀ f ∈ u.program.functions, f.isDefined = true → (∀ c ∈ f.expressions, c.nodes ≤ 2 ^ 32) →
      ∀ notes, ∃ a notes', f.assemble registers notes = .ok a notes' ∧ a.KeepsStack := by
  intro f hf hdefined hshort notes
  obtain ⟨linear, hbody⟩ := Option.isSome_iff_exists.1 hdefined
  obtain ⟨stmts, locals, hread⟩ := (parse_readFrom h).functions f hf linear hbody
  exact (hread.bounded hshort).assemble le_rfl hmin hmax notes

theorem parse_keepsStack_sample : ∃ u, parse sampleTokens = .ok u ∧
    ∃ f ∈ u.program.functions, f.isDefined = true ∧ (∀ c ∈ f.expressions, c.nodes ≤ 2 ^ 32) ∧
      ∃ a notes, f.assemble 2 #[] = .ok a notes ∧ a.KeepsStack := by
  obtain ⟨u, hu, f, hf, hdefined, -⟩ := parse_sampleTokens
  have hshort : ∀ c ∈ f.expressions, c.nodes ≤ 2 ^ 32 := fun c hc =>
    ((parse_readFrom hu).nodes_le hf hc).trans (by decide)
  exact ⟨u, hu, f, hf, hdefined, hshort,
    parse_keepsStack hu (by decide) (by decide) f hf hdefined hshort #[]⟩

end SourceUnit

end WordC
