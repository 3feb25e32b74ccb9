import Mathlib
import WordC.Proofs.Lowering.Trees
/-!
# Lowering whole expressions

An expression begins with registers that hold copies only, and ends so. Its
value, if it is asked for, is in a register when it ends.
-/

namespace WordC

open RegisterFile

variable {W : Type}

/-- **The registers as they are between two expressions**: they hold copies of
variables and constants only, nothing is pinned and no result is pushed. `mem` is
what memory would be with all written variables stored. -/
structure AtRest (T : Target W) (known : Variable → Prop) (f : RegisterFile) (m : Machine W)
    (mem : Memory W) : Prop where
  holds : ∀ ρ, HoldsValues T known f m mem ρ
  pinned : f.pinned = []
  spills : f.spills = []
  results : ∀ i n, f.bindingAt i ≠ some (.intermediate n)

/-- The registers are at rest, and so are the pushed words: the file knows how
many there are, and no argument waits for its call. -/
structure Rests (T : Target W) (known : Variable → Prop) (f : RegisterFile) (m : Traced W)
    (mem : Memory W) : Prop extends AtRest T known f m.toMachine mem where
  depth : m.trace.words.length = f.stackDepth
  waiting : m.trace.calls.waiting = []

theorem Rests.linked {T : Target W} {known : Variable → Prop} {f : RegisterFile}
    {m : Traced W} {mem : Memory W} (h : Rests T known f m mem) (ρ : Nat → W) :
    Linked T known f.stackDepth m.stack m.trace.words f m mem ρ 0 [] :=
  ⟨h.holds ρ, ⟨rfl, h.spills, ⟨[], rfl, .nil⟩, rfl, h.depth⟩, nofun,
    ⟨fun i n hi => absurd hi (h.results i n), nofun, .nil, fun i n hi => absurd hi (h.results i n),
      nofun⟩⟩

/-- An expression has been evaluated and waits for its end, with `k` results
left: its value is the operand left over, or in a register. -/
structure Ended (T : Target W) (known : Variable → Prop) (d : Nat) (below : List W)
    (base : List Pushed) (k : Nat) (p : Point W) : Prop where
  linked : Linked T known d below base p.file p.machine p.evaluation.memory p.evaluation.results k []
  pinned : p.file.pinned = []
  pending : p.expression.pending = p.evaluation.pending
  waiting : p.machine.trace.calls.waiting = []
  value : (k = 0 ∧ ∃ e : Expr, e.isLeaf = true ∧ e.WellFormed known ∧
      p.evaluation.pending = [e.operand 0]) ∨
    p.evaluation.pending = [] ∧ ∃ r, p.expression.lastResult = some r ∧
      p.machine.regs r = p.evaluation.results 0

variable [DecidableEq W]

section Expressions

variable {T : Target W} {known : Variable → Prop} {d : Nat} {below : List W} {base : List Pushed} {fn : Function}
variable {nesting : Nat} {p q : Point W} {f : RegisterFile} {m : Traced W} {mem : Memory W}

/-- Ending an expression that has left no words on the stack. -/
theorem endExpression_linked {ρ : Nat → W} {k : Nat}
    (h : Linked T known d below base f m mem ρ k []) (hpin : f.pinned = []) :
    ∃ f', Runs T Assemble.endExpression f m () f' m ∧ AtRest T known f' m.toMachine mem ∧
      f'.stackDepth = f.stackDepth ∧ f'.size = f.size ∧ (∀ i, f'.regAt i = f.regAt i) ∧
      f'.callStarts = [] := by
  have hc := cleared_clearIntermediates f
  have hnone : ∀ i n, f.clearIntermediates.bindingAt i ≠ some (.intermediate n) := by
    intro i n hi
    obtain ⟨hq, hi⟩ := hc.bound hi
    simp [holdsResult, hi, Binding.isIntermediate] at hq
  have hspills : f.clearIntermediates.spills = [] := hc.spills.trans h.stack.spills
  refine ⟨{ f.clearIntermediates with callStarts := [] }, ?_, ⟨fun ρ' => ?_, ?_, hspills, hnone⟩,
    hc.stackDepth, hc.size, hc.regAt, rfl⟩
  · refine (Runs.onFile _).bind (Runs.bind Runs.file ?_)
    have hlast := Runs.onFile (T := T) (f := f.clearIntermediates) (m := m) fun f =>
      { f with callStarts := [] }
    generalize ({ f.clearIntermediates with callStarts := [] } : RegisterFile) = f' at hlast ⊢
    simp only [releaseOperands_of_pinned hpin, hspills]
    exact hlast
  -- no register holds a result any more, so what the results are does not matter
  · have hholds : HoldsValues T known f.clearIntermediates m.toMachine mem ρ :=
      h.holds.clear hc fun i v hq hi => by simp [holdsResult, hi, Binding.isIntermediate] at hq
    have hholds' : HoldsValues T known f.clearIntermediates m.toMachine mem ρ' :=
      hholds.results_congr fun i n hi => absurd hi (hnone i n)
    exact hholds'.congr rfl
  · exact hpin

/-- **The end of an expression** leaves copies only in the registers. -/
theorem finishExpression_linked {e : ExpressionState} {ρ : Nat → W} {k : Nat}
    (h : Linked T known d below base f m mem ρ k []) (hpin : f.pinned = [])
    (hwaiting : m.trace.calls.waiting = []) :
    ∃ f', Steps T Lower.finishExpression f e m () f' {} m ∧ Rests T known f' m mem ∧
      m.stack = below ∧ m.trace.words = base ∧ f'.size = f.size := by
  obtain ⟨f', hend, hrest, hdepth, hsize, -, -⟩ := endExpression_linked h hpin
  refine ⟨f', (Steps.lift hend).bind (Steps.onExpression _),
    { hrest with depth := ?_, waiting := hwaiting }, ?_, h.stack.traced, hsize⟩
  · rw [hdepth, h.stack.length_kinds]
  · obtain ⟨ws, hws, hfit⟩ := h.stack.words
    cases hfit
    exact hws

/-- **The value of an expression** is brought into a register. -/
theorem expressionValue_ended (fn : Function) {k : Nat} (h : Ended T known d below base k p) (ha : Apart W known)
    (hsize : 2 ≤ p.file.size) :
    ∃ r f' e' m', Steps T (Lower.expressionValue fn) p.file p.expression p.machine r f' e' m' ∧
      p.evaluation.outcome? T = some (m'.regs r) ∧
      Linked T known d below base f' m' p.evaluation.memory p.evaluation.results k [] ∧
      f'.pinned = [] ∧ m'.coming = p.machine.coming ∧ f'.size = p.file.size ∧
      ∀ i, f'.regAt i = p.file.regAt i := by
  rcases h.value with ⟨rfl, e, hleaf, hwf, hpending⟩ | ⟨hpending, r, hr, hvalue⟩
  · -- a variable or a constant is loaded now
    have hweight : e.weight = 0 := by rw [Expr.weight, if_pos hleaf]
    have hresults : (e.binding 0).results = [] := by rw [Expr.results_binding, if_pos hleaf]
    have hbinding := e.operand_binding (k := 0) (by norm_num)
    obtain ⟨r, f₁, m₁, σ₁, hload, h₁, hg, hready, -⟩ := Lower.load_linked fn (n := 0)
      (e := { p.expression with pending := [] }) h.linked ha
      (Gathered.start (m := p.machine) (σ := []) h.pinned) (by omega) (by simp) hbinding
      (hwf.available (by omega)) (by simp [hresults])
    rw [hresults, List.append_nil] at hg
    obtain ⟨hrelease, h₂, hg₂⟩ := Lower.releaseOperands_linked
      (e := { p.expression with pending := [] }) h₁ hg (Consumes.nil 0)
    have hempty : σ₁ = [] := by
      refine eq_nil_of_unused (List.eq_nil_iff_forall_not_mem.2 fun l hl => ?_) hg.passed h₁.top
      exact Nat.not_lt_zero l (h₁.results.onStack l hl)
    subst hempty
    refine ⟨r, _, { p.expression with pending := [] }, m₁, ?_, ?_, h₂, pinned_releaseOperands _,
      hg₂.coming, hg₂.frame.size,
      hg₂.frame.regAt⟩
    · refine Steps.get fun s _ hs => ?_
      simp only [hs, h.pending, hpending]
      exact (Steps.onExpression _).bind (hload.bind (hrelease.bind (Steps.pure r)))
    · simp only [Evaluation.outcome?, hpending]
      rw [p.evaluation.value?_of_binding hbinding, hready.value h₁.holds]
  · refine ⟨r, p.file, p.expression, p.machine, ?_, ?_, h.linked, h.pinned, rfl, rfl,
      fun _ => rfl⟩
    · refine Steps.get fun s _ hs => ?_
      simp only [hs, h.pending, hpending, hr]
      exact Steps.pure r
    · simp only [Evaluation.outcome?, hpending, hvalue]

/-- The start of an expression. -/
def Point.start (f : RegisterFile) (m : Traced W) (mem : Memory W) (ρ : Nat → W) : Point W :=
  ⟨f, {}, m, { results := ρ, memory := mem }, []⟩

omit [DecidableEq W] in
theorem Rests.tracks (h : Rests T known f m mem) (ρ : Nat → W) :
    (Point.start f m mem ρ).Tracks T known f.stackDepth m.stack m.trace.words :=
  ⟨h.linked ρ, h.pinned, rfl, rfl, rfl, h.waiting.symm⟩

omit [DecidableEq W] in
/-- Nothing is on the stack once at most one result is left, in a register. -/
theorem stack_eq_nil {ρ : Nat → W} {k : Nat} {σ : List (Slot W)}
    (h : Linked T known d below base f m mem ρ k σ) (hpassed : passedArgs σ = [])
    (hplaced : ∀ l < k, ∃ i, f.bindingAt i = some (.intermediate l)) : σ = [] := by
  refine eq_nil_of_unused (List.eq_nil_iff_forall_not_mem.2 fun l hl => ?_) hpassed h.top
  obtain ⟨i, hi⟩ := hplaced l (h.results.onStack l hl)
  exact h.results.apart i l hi hl

/-- The elements of an expression were lowered up to its end. -/
structure Completes (T : Target W) (known : Variable → Prop) (d : Nat) (below : List W) (base : List Pushed)
    (fn : Function) (nesting : Nat) (code rest : List Element) (p q : Point W) : Prop where
  steps : Steps T (forFirst (Lower.element fn nesting) (code ++ rest) code.length)
    p.file p.expression p.machine () q.file q.expression q.machine
  run : Evaluation.run T code p.evaluation = some q.evaluation
  ended : ∃ k, Ended T known d below base k q
  calls : p.machine.calls = arities code ++ q.machine.calls
  size : q.file.size = p.file.size
  regAt : ∀ i, q.file.regAt i = p.file.regAt i

/-- A tree that is neither a leaf nor an assignment. -/
theorem completes_tree {e : Expr} {ρ : Nat → W} {rest : List Element} (hwf : e.WellFormed known)
    (ha : Apart W known) (hleaf : e.isLeaf = false) (hassign : ∀ t v, e ≠ .assign t v)
    (hk : e.size ≤ 2 ^ 32)
    (hready : Ready T known f.stackDepth m.stack m.trace.words (e.linearAt 0) (Point.start f m mem ρ)) :
    ∃ q, Completes T known f.stackDepth m.stack m.trace.words fn nesting (e.linearAt 0) rest
      (Point.start f m mem ρ) q := by
  obtain ⟨q, hq, he⟩ := hwf.lowerable fn nesting ha 0 rest
    (Point.start f m mem ρ) (by omega) hready rfl fun t v heq => absurd heq (hassign t v)
  have hweight : e.weight = 1 := by simp [Expr.weight, hleaf]
  have hcount : q.evaluation.count = 1 := by rw [he.count, hweight]
  obtain ⟨i, hi, hlast⟩ := he.result hleaf
  have hlinked := hq.tracks.linked
  rw [hcount] at hlinked
  have hempty : q.stack = [] :=
    stack_eq_nil hlinked he.passed fun l hl => ⟨i, by rwa [Nat.lt_one_iff.1 hl]⟩
  have hwaiting := hq.tracks.waiting
  rw [hempty] at hlinked hwaiting
  refine ⟨q, hq.steps, hq.run, ⟨1, hlinked, hq.tracks.pinned, hq.tracks.pending, hwaiting.symm,
    .inr ⟨he.pending, _, hlast, hlinked.holds.value i _ hi⟩⟩, hq.calls, he.frame.size,
    he.frame.regAt⟩

/-- A variable or a constant. -/
theorem completes_leaf {e : Expr} {ρ : Nat → W} {rest : List Element} (hwf : e.WellFormed known)
    (hleaf : e.isLeaf = true) (hrest : Rests T known f m mem) :
    ∃ q, Completes T known f.stackDepth m.stack m.trace.words fn nesting [.operand (e.operand 0)] rest
      (Point.start f m mem ρ) q := by
  have hq := lowers_operand fn nesting rest (n := 0) (hrest.tracks ρ) (e.operand_ne_result 0)
  exact ⟨_, hq.steps, hq.run, ⟨0, hq.tracks.linked, hq.tracks.pinned, hq.tracks.pending,
    hq.tracks.waiting.symm, .inl ⟨rfl, e, hleaf, hwf, rfl⟩⟩, hq.calls, rfl, fun _ => rfl⟩

/-- An assignment, whose value is not used by the expression itself. -/
theorem completes_assign {t v : Expr} {ρ : Nat → W} {rest : List Element} (ha : Apart W known)
    (hplace : t.isPlace = true) (hwft : t.WellFormed known) (hwfv : v.WellFormed known)
    (hk : t.size + v.size < 2 ^ 32)
    (hready : Ready T known f.stackDepth m.stack m.trace.words ((Expr.assign t v).linearAt 0)
      (Point.start f m mem ρ))
    (hneeded : Lower.resultNeeded 0 rest = false) :
    ∃ q, Completes T known f.stackDepth m.stack m.trace.words fn nesting ((Expr.assign t v).linearAt 0) rest
      (Point.start f m mem ρ) q := by
  rw [Expr.linearAt] at hready ⊢
  obtain ⟨q, hq, hpending, hcount, hpassed, hstarts, hframe, htargets, hroom⟩ :=
    lowers_pair fn nesting rest (k := 0) hwft hwfv
      (hwft.lowerable fn nesting ha) (hwfv.lowerable fn nesting ha) (by omega) hready rfl rfl
  have hk' : 0 + t.weight < 2 ^ 32 := by
    have := t.weight_le_one
    omega
  obtain ⟨q', hsteps, hrun, hlinked, hpin, hpending', hpending'', ⟨r, hlast, hvalue⟩, hframe',
      hpassed', -, hcalls, hwaiting⟩ := lowers_last_assign fn nesting rest (n := 0)
    hq.tracks ha (hframe.size ▸ hready.size) (by omega) hpending
    (t.operand_binding (by norm_num)) (hwft.assignable hplace (by norm_num) (by omega) htargets)
    (v.operand_binding hk') (hwfv.available (by omega)) (hcount ▸ Expr.consumes_two 0 t v)
    (hcount ▸ countP_operands 0 t v) hneeded
  -- no result is left to fill, so nothing of the expression is on the machine's stack
  have hempty : q'.stack = [] := stack_eq_nil hlinked (hpassed'.trans hpassed) nofun
  rw [hempty] at hlinked
  have hwaiting : q'.machine.trace.calls.waiting = [] := by
    rw [hwaiting, ← hq.tracks.waiting, hpassed]
    rfl
  have hcode : t.linearAt 0 ++ v.linearAt (0 + t.weight) ++ [.operand (t.operand 0),
        .operand (v.operand (0 + t.weight)), .operator .assign] =
      t.linearAt 0 ++ v.linearAt (0 + t.weight) ++
        [.operand (t.operand 0), .operand (v.operand (0 + t.weight))] ++ [.operator .assign] := by
    simp
  rw [hcode]
  refine ⟨q', ?_, ?_, ⟨0, hlinked, hpin, hpending'.trans hpending''.symm,
    hwaiting, .inr ⟨hpending'', r, hlast, hvalue⟩⟩, ?_, hframe'.size.trans hframe.size,
    fun i => (hframe'.regAt i).trans (hframe.regAt i)⟩
  · rw [forFirst_append]
    exact hq.steps.bind hsteps
  · rw [Evaluation.run_append, hq.run]
    exact hrun
  · have hlast : arities [.operator .assign] = [] := rfl
    rw [arities_append _ [.operator .assign], hlast, List.append_nil, hcalls]
    exact hq.calls

/-- **A whole expression is lowered** from registers at rest, up to the mark of
its end. -/
theorem Expr.WellFormed.completes (fn : Function) (nesting : Nat) {e : Expr} {calls : List Nat}
    {mark : Element} (rest : List Element) (hwf : e.WellFormed known) (ha : Apart W known) (hk : e.size ≤ 2 ^ 32)
    (hmin : 2 ≤ f.size) (hmax : f.size ≤ 64) (hrest : Rests T known f m mem)
    (hcalls : m.calls = arities e.linear ++ calls) (hmark : mark.endsExpression = true)
    (ρ : Nat → W) :
    ∃ q, Completes T known f.stackDepth m.stack m.trace.words fn nesting e.linear (mark :: rest)
      (Point.start f m mem ρ) q := by
  cases hleaf : e.isLeaf with
  | true =>
    have hlinear : e.linear = [.operand (e.operand 0)] := by
      cases e <;> first | rfl | cases hleaf
    rw [hlinear]
    exact completes_leaf hwf hleaf hrest
  | false =>
    have hlinear : e.linear = e.linearAt 0 := by simp [linear, hleaf]
    rw [hlinear] at hcalls ⊢
    -- with at most 64 registers and `2 ^ 32` nodes, the stack stays below `2 ^ 63` words
    have hroom : 0 + (f.size + 3) * (e.linearAt 0).length < 2 ^ 63 := by
      have hlen := hwf.length_linearAt 0
      have := Nat.mul_le_mul (show f.size + 3 ≤ 67 by omega)
        (show (e.linearAt 0).length ≤ 4 * 2 ^ 32 by omega)
      omega
    have hready : Ready T known f.stackDepth m.stack m.trace.words (e.linearAt 0) (Point.start f m mem ρ) :=
      ⟨hrest.tracks ρ, hmin, hroom, calls, hcalls⟩
    -- an assignment that is a whole statement keeps no result
    by_cases hassign : ∃ t v, e = .assign t v
    · obtain ⟨t, v, rfl⟩ := hassign
      cases hwf with
      | assign hplace hwft hwfv =>
        rw [size] at hk
        refine completes_assign ha hplace hwft hwfv (by omega) hready ?_
        simp [Lower.resultNeeded, hmark]
    · exact completes_tree hwf ha hleaf (fun t v heq => hassign ⟨t, v, heq⟩) hk hready

end Expressions

end WordC
