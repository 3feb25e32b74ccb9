import Mathlib
import WordC.Proofs.Lowering.Elements
/-!
# Lowering expression trees

The linear form of a tree is lowered as the tree is built: the values first,
then the operator. Whatever waits when a tree begins is still there when it
ends, and the value of the tree waits besides.
-/

namespace WordC

open RegisterFile

namespace Expr

/-- The value of a tree with `k` results below it. -/
def binding (k : Nat) : Expr → Binding
  | var v => .var v
  | constant c => .constant c.value
  | _ => .intermediate k

theorem operand_binding {k : Nat} (hk : k < 2 ^ 32) (e : Expr) :
    (e.operand k).binding? = some (e.binding k) := by
  have hn : (UInt32.ofNat k).toNat = k := UInt32.toNat_ofNat_of_lt' hk
  cases e <;> simp [operand, binding, Operand.binding?, hn]

theorem results_binding (k : Nat) (e : Expr) :
    (e.binding k).results = if e.isLeaf then [] else [k] := by
  cases e <;> rfl

/-- The value of a tree is a result, or a known variable or a constant. -/
theorem WellFormed.available {known : Variable → Prop} {e : Expr} (h : e.WellFormed known)
    {k n : Nat} (hn : k + e.weight ≤ n) : (e.binding k).Available known n := by
  cases h with
  | var hv => exact hv
  | constant => trivial
  | unary | binary | call | assign => exact Nat.lt_of_succ_le hn

/-- Using the value of a tree gives back what it took. -/
theorem consumes_one (k : Nat) (e : Expr) : Consumes (e.binding k).results k (k + e.weight) := by
  rw [results_binding, weight]
  split
  · exact Consumes.nil k
  · refine ⟨Nat.le_succ k, fun l => ?_⟩
    simp only [List.mem_singleton]
    omega

/-- Using the values of two trees gives back what they took. -/
theorem consumes_two (k : Nat) (a b : Expr) :
    Consumes ((b.binding (k + a.weight)).results ++ (a.binding k).results) k
      (k + a.weight + b.weight) := by
  have ha := consumes_one k a
  have hb := consumes_one (k + a.weight) b
  refine ⟨ha.1.trans hb.1, fun l => ?_⟩
  rw [List.mem_append, ha.2 l, hb.2 l]
  have := ha.1
  have := hb.1
  omega

end Expr

/-- The value of an assignment is used if it is named before the expression
ends. -/
theorem resultNeeded_of_mem {k : Nat} (hk : k < 2 ^ 32) {code rest : List Element}
    (hcode : ∀ x ∈ code, x.inExpression = true) {e : Expr} (hmem : .operand (e.operand k) ∈ code)
    (target value : Expr) (he : e = .assign target value) :
    Lower.resultNeeded k (code ++ rest) = true := by
  subst he
  have ht : (UInt32.ofNat k).toNat = k := UInt32.toNat_ofNat_of_lt' hk
  have hend : ∀ x ∈ code, (!x.endsExpression) = true := fun x hx => by
    have := hcode x hx
    cases x <;> first | rfl | cases this
  rw [Lower.resultNeeded, List.takeWhile_append_of_pos hend, List.any_append, Bool.or_eq_true]
  exact .inl (List.any_eq_true.2 ⟨_, hmem, decide_eq_true ht⟩)

variable {W : Type} [DecidableEq W]

/-- The machine is ready for the lines of `code`: the stack has room for them,
and the calls that come are those of the code. -/
structure Ready (T : Target W) (known : Variable → Prop) (d : Nat) (below : List W) (base : List Pushed)
    (code : List Element) (p : Point W) : Prop where
  tracks : p.Tracks T known d below base
  size : 2 ≤ p.file.size
  room : p.stack.length + (p.file.size + 3) * code.length < 2 ^ 63
  calls : ∃ calls, p.machine.calls = arities code ++ calls

/-- A tree has been evaluated with `k` results below it. -/
structure Evaluated (e : Expr) (k : Nat) (p q : Point W) : Prop where
  pending : q.evaluation.pending = p.evaluation.pending
  count : q.evaluation.count = k + e.weight
  passed : passedArgs q.stack = passedArgs p.stack
  callStarts : q.file.callStarts = p.file.callStarts
  frame : Framed ((p.file.size + 3) * (e.linearAt k).length) k p.file p.stack q.file q.stack
  target : e.isStore = true → k ∈ q.expression.storeTargets
  result : e.isLeaf = false → ∃ i, q.file.bindingAt i = some (.intermediate k) ∧
    q.expression.lastResult = some (q.file.regAt i)

section Trees

variable {T : Target W} {known : Variable → Prop} {d : Nat} {below : List W} {base : List Pushed} {fn : Function}
variable {nesting n k : Nat} {code code' rest : List Element} {p q : Point W}

omit [DecidableEq W] in
theorem Ready.first (h : Ready T known d below base (code ++ code') p) :
    Ready T known d below base code p := by
  obtain ⟨calls, hcalls⟩ := h.calls
  have hroom := h.room
  rw [List.length_append, Nat.mul_add] at hroom
  rw [arities_append, List.append_assoc] at hcalls
  exact ⟨h.tracks, h.size, by omega, _, hcalls⟩

/-- Ready for what comes next. -/
theorem Ready.next (h : Ready T known d below base (code ++ code') p)
    (hq : Lowers T known d below base fn nesting code rest n p q)
    (hframe : Framed ((p.file.size + 3) * code.length) n p.file p.stack q.file q.stack) :
    Ready T known d below base code' q := by
  obtain ⟨calls, hcalls⟩ := h.calls
  have hroom := h.room
  have hlen := hframe.length_le
  rw [List.length_append, Nat.mul_add] at hroom
  rw [hq.calls, arities_append, List.append_assoc] at hcalls
  refine ⟨hq.tracks, hframe.size ▸ h.size, ?_, calls, List.append_cancel_left hcalls⟩
  rw [hframe.size]
  omega

/-- **The linear form of a tree can be lowered** wherever it stands. An
assignment must not be the last thing of its expression. -/
def Expr.Lowerable (T : Target W) (known : Variable → Prop) (d : Nat) (below : List W) (base : List Pushed)
    (fn : Function) (nesting : Nat) (e : Expr) : Prop :=
  ∀ (k : Nat) (rest : List Element) (p : Point W), k + e.size ≤ 2 ^ 32 →
    Ready T known d below base (e.linearAt k) p → p.evaluation.count = k →
    (∀ target value, e = .assign target value → Lower.resultNeeded k rest = true) →
    ∃ q, Lowers T known d below base fn nesting (e.linearAt k) rest k p q ∧ Evaluated e k p q

/-- A leaf has no code. -/
theorem lowerable_leaf {e : Expr} (hleaf : e.isLeaf = true) :
    e.Lowerable T known d below base fn nesting := by
  intro k rest p _ hready hcount _
  have hcode : e.linearAt k = [] := by cases e <;> first | rfl | cases hleaf
  have hstore : e.isStore = false := by cases e <;> first | rfl | cases hleaf
  have hweight : e.weight = 0 := by rw [Expr.weight, if_pos hleaf]
  refine ⟨p, hcode ▸ Lowers.nil hready.tracks, rfl, by rw [hcount, hweight, Nat.add_zero], rfl,
    rfl, by rw [hcode]; exact Framed.refl k p.file p.stack, ?_, ?_⟩
  · rw [hstore]
    exact nofun
  · rw [hleaf]
    exact nofun

/-- **An operator applied to one tree.** -/
theorem lowerable_unary {op : Operator} {a : Expr} (ha : Apart W known) (hop : op.isUnary = true)
    (hwf : a.WellFormed known) (ih : a.Lowerable T known d below base fn nesting) :
    (Expr.unary op a).Lowerable T known d below base fn nesting := by
  intro k rest p hk hready hcount _
  rw [Expr.size] at hk
  have hpos := a.size_pos
  rw [Expr.linearAt] at hready ⊢
  obtain ⟨q₁, hq₁, he₁⟩ := ih k ([.operand (a.operand k), .operator op] ++ rest) p (by omega)
    hready.first hcount
    (resultNeeded_of_mem (by omega) (by simp [Element.inExpression]) List.mem_cons_self)
  -- what the operand left is where the operator starts from
  have hready₁ := hready.next hq₁ he₁.frame
  have hroom := hready₁.room
  simp only [List.length_cons, List.length_nil] at hroom
  have hq₂ := lowers_operand fn nesting ([.operator op] ++ rest) (n := k) hq₁.tracks
    (a.operand_ne_result k)
  obtain ⟨q₃, hq₃, hyields, htarget⟩ := lowers_unary fn nesting rest (n := k) hq₂.tracks ha
    hready₁.size (by change q₁.stack.length + 2 < _; omega) hop
    (P := q₁.evaluation.pending) rfl (a.operand_binding (by omega))
    (hwf.available (Nat.le_of_eq he₁.count.symm)) (he₁.count ▸ a.consumes_one k)
    (by rw [a.countP_operand]; change k = q₁.evaluation.count - _; rw [he₁.count]; omega)
  refine ⟨q₃, hq₁.append (hq₂.append hq₃), hyields.pending.trans he₁.pending, hyields.count,
    hyields.passed.trans he₁.passed, hyields.callStarts.trans he₁.callStarts, ?_, ?_,
    fun _ => hyields.result⟩
  · refine (he₁.frame.trans hyields.frame).mono ?_ (Nat.le_refl k)
    rw [Expr.linearAt]
    simp only [List.length_append, Nat.mul_add, List.length_cons, List.length_nil]
    omega
  · intro hstore
    refine htarget ?_
    cases op <;> first | rfl | cases hstore

/-- **Two trees, one after the other**, whose values wait then. -/
theorem lowers_pair (fn : Function) (nesting : Nat) (rest : List Element) {a b : Expr}
    (hwfa : a.WellFormed known) (hwfb : b.WellFormed known)
    (iha : a.Lowerable T known d below base fn nesting) (ihb : b.Lowerable T known d below base fn nesting)
    (hk : k + (a.size + b.size) < 2 ^ 32)
    (hready : Ready T known d below base (a.linearAt k ++ b.linearAt (k + a.weight) ++ code) p)
    (hcount : p.evaluation.count = k) {op : Operator} (hcode : code = [.operand (a.operand k),
      .operand (b.operand (k + a.weight)), .operator op]) :
    ∃ q, Lowers T known d below base fn nesting (a.linearAt k ++ b.linearAt (k + a.weight) ++
        [.operand (a.operand k), .operand (b.operand (k + a.weight))]) ([.operator op] ++ rest) k p q ∧
      q.evaluation.pending =
        b.operand (k + a.weight) :: a.operand k :: p.evaluation.pending ∧
      q.evaluation.count = k + a.weight + b.weight ∧ passedArgs q.stack = passedArgs p.stack ∧
      q.file.callStarts = p.file.callStarts ∧
      Framed ((p.file.size + 3) * (a.linearAt k ++ b.linearAt (k + a.weight)).length) k
        p.file p.stack q.file q.stack ∧
      (a.isStore = true → k ∈ q.expression.storeTargets) ∧ q.stack.length + 5 < 2 ^ 63 := by
  subst hcode
  have hweight : k + a.weight < 2 ^ 32 ∧ k + a.weight + b.size ≤ 2 ^ 32 := by
    have := a.size_pos
    have := a.weight_le_one
    have := b.size_pos
    omega
  let A := a.linearAt k
  let B := b.linearAt (k + a.weight)
  let oa : Element := .operand (a.operand k)
  let ob : Element := .operand (b.operand (k + a.weight))
  -- the first result is needed behind the code of the second operand, so it is not dropped there
  obtain ⟨q₁, hq₁, he₁⟩ := iha k (B ++ ([oa, ob] ++ ([.operator op] ++ rest))) p (by omega)
    hready.first.first hcount fun target value he => by
      rw [← List.append_assoc]
      refine resultNeeded_of_mem (by omega) ?_ (List.mem_append_right B List.mem_cons_self)
        target value he
      rw [List.forall_mem_append]
      exact ⟨hwfb.inExpression _, by simp [oa, ob, Element.inExpression]⟩
  obtain ⟨q₂, hq₂, he₂⟩ := ihb (k + a.weight) ([oa, ob] ++ ([.operator op] ++ rest)) q₁ hweight.2
    (hready.first.next hq₁ he₁.frame) he₁.count
    (resultNeeded_of_mem hweight.1 (by simp [oa, ob, Element.inExpression])
      (List.mem_cons_of_mem _ List.mem_cons_self))
  have hframe : Framed ((p.file.size + 3) * (A ++ B).length) k p.file p.stack q₂.file q₂.stack := by
    have := he₁.frame.trans (he₂.frame.mono (Nat.le_refl _) (Nat.le_add_right k _))
    rwa [he₁.frame.size, ← Nat.mul_add, ← List.length_append] at this
  have hboth : Lowers T known d below base fn nesting (A ++ B) ([oa, ob] ++ ([.operator op] ++ rest)) k
      p q₂ := hq₁.append (hq₂.mono (Nat.le_add_right k _))
  have hroom := (hready.next hboth hframe).room
  simp only [List.length_cons, List.length_nil] at hroom
  have hpush := lowers_operand fn nesting ([ob] ++ ([.operator op] ++ rest)) (n := k) hq₂.tracks
    (a.operand_ne_result k)
  have hpush' := lowers_operand fn nesting ([.operator op] ++ rest) (n := k) hpush.tracks
    (b.operand_ne_result (k + a.weight))
  refine ⟨_, hboth.append (hpush.append hpush'), ?_, he₂.count, he₂.passed.trans he₁.passed,
    he₂.callStarts.trans he₁.callStarts, hframe, fun hstore => ?_, ?_⟩
  · change _ :: _ :: q₂.evaluation.pending = _
    rw [he₂.pending, he₁.pending]
  -- an address has number `k`, and the second operand's code only touches later ones
  · have hleaf : a.isLeaf = false := by cases a <;> first | rfl | cases hstore
    refine hq₂.targets k ?_ (he₁.target hstore)
    rw [Expr.weight, hleaf]
    exact Nat.lt_succ_self k
  · change q₂.stack.length + 5 < 2 ^ 63
    omega

/-- The two values of an operator are the operands it takes. -/
theorem countP_operands (k : Nat) (a b : Expr) :
    k = k + a.weight + b.weight -
      [a.operand k, b.operand (k + a.weight)].countP Operand.isIntermediate := by
  have ha := a.countP_operand k
  have hb := b.countP_operand (k + a.weight)
  have hboth : [a.operand k, b.operand (k + a.weight)].countP Operand.isIntermediate =
      a.weight + b.weight :=
    Eq.trans (List.countP_append : ([_] ++ [_]).countP _ = _) (congrArg₂ (· + ·) ha hb)
  omega

/-- **An operator applied to two trees.** -/
theorem lowerable_binary {op : Operator} {a b : Expr} (ha : Apart W known)
    (hop : op.joins = true) (hwfa : a.WellFormed known) (hwfb : b.WellFormed known)
    (iha : a.Lowerable T known d below base fn nesting) (ihb : b.Lowerable T known d below base fn nesting) :
    (Expr.binary op a b).Lowerable T known d below base fn nesting := by
  intro k rest p hk hready hcount _
  rw [Expr.size] at hk
  rw [Expr.linearAt] at hready ⊢
  obtain ⟨q, hq, hpending, hcount', hpassed, hstarts, hframe, -, hroom⟩ :=
    lowers_pair fn nesting rest hwfa hwfb iha ihb (by omega) hready hcount rfl
  have hk' : k + a.weight < 2 ^ 32 := by
    have := a.weight_le_one
    have := a.size_pos
    have := b.size_pos
    omega
  obtain ⟨q', hq', hyields, htarget⟩ := lowers_binary fn nesting rest (n := k) hq.tracks ha
    (hframe.size ▸ hready.size) (by omega) hop hpending (a.operand_binding (by omega))
    (hwfa.available (by omega)) (b.operand_binding hk')
    (hwfb.available (by omega)) (hcount' ▸ Expr.consumes_two k a b)
    (hcount' ▸ countP_operands k a b)
  refine ⟨q', ?_, hyields.pending, hyields.count, hyields.passed.trans hpassed,
    hyields.callStarts.trans hstarts, ?_, ?_, fun _ => hyields.result⟩
  · have := hq.append hq'
    rwa [List.append_assoc] at this
  · refine (hframe.trans hyields.frame).mono ?_ (Nat.le_refl k)
    rw [Expr.linearAt]
    simp only [List.length_append, Nat.mul_add, List.length_cons, List.length_nil]
    omega
  -- of the operators that join, only `indexStore` leaves an address
  · intro hstore
    refine htarget ?_
    cases op <;> first | rfl | cases hstore

/-- What can stand left of `=` can be assigned to, once it is evaluated. -/
theorem Expr.WellFormed.assignable {t : Expr} (h : t.WellFormed known) (hplace : t.isPlace = true)
    (hk : k < 2 ^ 32) (hn : k + t.weight ≤ n) {targets : List Nat}
    (htargets : t.isStore = true → k ∈ targets) :
    Lower.Assignable known n targets (t.operand k) := by
  have hstored : t.isStore = true → t.weight = 1 →
      Lower.Assignable known n targets (.intermediate (UInt32.ofNat k)) := by
    intro hstore hweight
    have : (UInt32.ofNat k).toNat = k := UInt32.toNat_ofNat_of_lt' hk
    simp only [Lower.Assignable, this]
    exact ⟨by omega, htargets hstore⟩
  cases h with
  | var hv => exact ⟨hv, by simpa [isPlace] using hplace⟩
  | constant | call | assign => cases hplace
  | unary | binary => exact hstored hplace rfl

/-- **An assignment** that is not the last thing of its expression. -/
theorem lowerable_assign {t v : Expr} (ha : Apart W known) (hplace : t.isPlace = true)
    (hwft : t.WellFormed known) (hwfv : v.WellFormed known)
    (iht : t.Lowerable T known d below base fn nesting) (ihv : v.Lowerable T known d below base fn nesting) :
    (Expr.assign t v).Lowerable T known d below base fn nesting := by
  intro k rest p hk hready hcount hneeded
  rw [Expr.size] at hk
  rw [Expr.linearAt] at hready ⊢
  obtain ⟨q, hq, hpending, hcount', hpassed, hstarts, hframe, htargets, hroom⟩ :=
    lowers_pair fn nesting rest hwft hwfv iht ihv (by omega) hready hcount rfl
  have hk' : k + t.weight < 2 ^ 32 := by
    have := t.weight_le_one
    have := t.size_pos
    have := v.size_pos
    omega
  obtain ⟨q', hq', hyields⟩ := lowers_assign fn nesting rest (n := k) hq.tracks ha
    (hframe.size ▸ hready.size) (by omega) hpending (t.operand_binding (by omega))
    (hwft.assignable hplace (by omega) (by omega) htargets)
    (v.operand_binding hk') (hwfv.available (by omega)) (hcount' ▸ Expr.consumes_two k t v)
    (hcount' ▸ countP_operands k t v) (hneeded t v rfl)
  refine ⟨q', ?_, hyields.pending, hyields.count, hyields.passed.trans hpassed,
    hyields.callStarts.trans hstarts, ?_, nofun, fun _ => hyields.result⟩
  · have := hq.append hq'
    rwa [List.append_assoc] at this
  · refine (hframe.trans hyields.frame).mono ?_ (Nat.le_refl k)
    rw [Expr.linearAt]
    simp only [List.length_append, Nat.mul_add, List.length_cons, List.length_nil]
    omega

/-! ## Calls -/

omit [DecidableEq W] in
theorem Framed.passed {c : Nat} {f f' : RegisterFile} {σ σ' : List (Slot W)}
    (h : Framed c n f σ f' σ') (a : Nat × W) : Framed (c + 1) n f σ f' (.passed a :: σ') :=
  { h with
    under := fun L hL htop hl => (h.under L hL htop hl).trans (List.suffix_cons _ _)
    length_le := Nat.succ_le_succ h.length_le }

/-- The code of one argument. -/
def argumentLinear (k slot : Nat) (a : Expr) : Code :=
  a.linearAt k ++
    [.operand (.parameter (UInt64.ofNat slot)), .operand (a.operand k), .operator .argument]

theorem argumentsLinear_cons (k slot : Nat) (a : Expr) (args : List Expr) :
    argumentsLinear k slot (a :: args) =
      argumentLinear k slot a ++ argumentsLinear k (slot + 1) args :=
  rfl

/-- **One argument.** Behind it the stack is as before it, up to results that were
pushed, with the argument on top. -/
theorem lowers_argument_tree (fn : Function) (nesting : Nat) (rest : List Element) {a : Expr}
    {slot : Nat} (ha : Apart W known)
    (hwf : a.WellFormed known) (ih : a.Lowerable T known d below base fn nesting)
    (hk : k + a.size < 2 ^ 32) (hready : Ready T known d below base (argumentLinear k slot a) p)
    (hcount : p.evaluation.count = k) :
    ∃ q x σ', Lowers T known d below base fn nesting (argumentLinear k slot a) rest k p q ∧
      q.stack = .passed x :: σ' ∧ q.evaluation.pending = p.evaluation.pending ∧
      q.evaluation.count = k ∧ (∀ τ, σ' ≠ .read :: τ) ∧
      Framed ((p.file.size + 3) * (a.linearAt k).length + (p.file.size + 1)) k p.file p.stack
        q.file σ' ∧
      passedArgs σ' = passedArgs p.stack ∧
      q.file.callStarts =
        Lower.startsAt (UInt64.ofNat slot) (d + σ'.length) p.file.callStarts ∧
      (UInt64.ofNat slot = 0 → ∀ l < k, .result l ∈ σ') := by
  let slotMark : Element := .operand (.parameter (UInt64.ofNat slot))
  let value : Element := .operand (a.operand k)
  obtain ⟨q₁, hq₁, he₁⟩ := ih k ([slotMark, value, .operator .argument] ++ rest) p (by omega)
    hready.first hcount (resultNeeded_of_mem (by omega)
      (by simp [slotMark, value, Element.inExpression]) (List.mem_cons_of_mem _ List.mem_cons_self))
  have hroom := (hready.next hq₁ he₁.frame).room
  simp only [List.length_cons, List.length_nil] at hroom
  have hq₂ := lowers_operand fn nesting ([value, .operator .argument] ++ rest) (n := k) hq₁.tracks
    (o := .parameter (UInt64.ofNat slot)) (by simp)
  have hq₃ := lowers_operand fn nesting ([.operator .argument] ++ rest) (n := k) hq₂.tracks
    (a.operand_ne_result k)
  -- the slot and the value are pending when the operator pushes the value
  obtain ⟨q, x, σ', hq, hstack, hpending, hcount', htop, hframe, hpassed, hstarts, hfirst⟩ :=
    lowers_argument fn nesting rest (n := k) hq₃.tracks ha
      (he₁.frame.size ▸ hready.size) (by change q₁.stack.length + 2 < _; omega)
      (P := q₁.evaluation.pending) rfl (a.operand_binding (by omega))
      (hwf.available (Nat.le_of_eq he₁.count.symm)) (he₁.count ▸ a.consumes_one k)
      (by rw [a.countP_operand]; change k = q₁.evaluation.count - _; rw [he₁.count]; omega)
  refine ⟨q, x, σ', hq₁.append (hq₂.append (hq₃.append hq)), hstack,
    hpending.trans he₁.pending, hcount', htop, ?_, hpassed.trans he₁.passed, ?_, hfirst⟩
  · have := he₁.frame.trans hframe
    change Framed (_ + (q₁.file.size + 1)) _ _ _ _ _ at this
    rwa [he₁.frame.size] at this
  · rw [hstarts, ← he₁.callStarts]
    rfl

omit [DecidableEq W] in
/-- The frame of one argument, with the argument itself. -/
theorem framed_argument {a : Expr} {slot : Nat} {x : Nat × W} {σ' : List (Slot W)}
    (h : Framed ((p.file.size + 3) * (a.linearAt k).length + (p.file.size + 1)) k p.file p.stack
      q.file σ') :
    Framed ((p.file.size + 3) * (argumentLinear k slot a).length) k p.file p.stack q.file
      (.passed x :: σ') := by
  refine (h.passed x).mono ?_ (Nat.le_refl k)
  rw [argumentLinear, List.length_append, Nat.mul_add]
  simp only [List.length_cons, List.length_nil]
  omega

/-- **The arguments behind the first one** are pushed side by side. -/
theorem lowers_later_arguments (fn : Function) (nesting : Nat) (rest : List Element)
    (ha : Apart W known) {args : List Expr}
    (hwf : ∀ a ∈ args, a.WellFormed known)
    (ih : ∀ a ∈ args, a.Lowerable T known d below base fn nesting) {slot : Nat} (hslot : 0 < slot)
    (hlast : slot + args.length < 2 ^ 64) (hk : k + argumentsSize args < 2 ^ 32)
    {as : List (Nat × W)} {σ : List (Slot W)}
    (hready : Ready T known d below base (argumentsLinear k slot args) p)
    (hcount : p.evaluation.count = k) (hstack : p.stack = as.map .passed ++ σ)
    (hresults : ∀ l < k, .result l ∈ σ) :
    ∃ q as', Lowers T known d below base fn nesting (argumentsLinear k slot args) rest k p q ∧
      q.stack = (as' ++ as).map .passed ++ σ ∧ as'.length = args.length ∧
      q.evaluation.pending = p.evaluation.pending ∧ q.evaluation.count = k ∧
      q.file.callStarts = p.file.callStarts ∧ q.file.size = p.file.size ∧
      ∀ i, q.file.regAt i = p.file.regAt i := by
  induction args generalizing slot p as with
  | nil =>
    exact ⟨p, [], Lowers.nil hready.tracks, hstack, rfl, rfl, hcount, rfl, rfl, fun _ => rfl⟩
  | cons a args iha =>
    rw [argumentsLinear_cons] at hready ⊢
    rw [argumentsSize] at hk
    rw [List.length_cons] at hlast
    obtain ⟨q₁, x, σ', hq₁, hstack₁, hpending₁, hcount₁, htop, hframe, hpassed, hstarts, -⟩ :=
      lowers_argument_tree fn nesting (argumentsLinear k (slot + 1) args ++ rest) ha
        (hwf a List.mem_cons_self) (ih a List.mem_cons_self) (by omega) hready.first hcount
    -- all results lie below the arguments, so nothing is left above them
    have hsame : σ' = p.stack := by
      have hresults₁ := hq₁.tracks.linked.results
      rw [hstack₁, spilled_passed, hcount₁] at hresults₁
      have hplaced := hready.tracks.linked.results
      refine eq_of_suffix (hframe.under p.stack (List.suffix_refl _) hready.tracks.linked.top ?_)
        hresults₁.once (fun l hl => ?_) hpassed htop
      · intro l hl hmem
        have := hplaced.onStack l (mem_spilled.2 hmem)
        omega
      · rw [hstack]
        exact List.mem_append_right _ (hresults l (hresults₁.onStack l (mem_spilled.2 hl)))
    have hne : UInt64.ofNat slot ≠ 0 := by
      intro heq
      have := congrArg UInt64.toNat heq
      rw [UInt64.toNat_ofNat_of_lt' (by omega : slot < 2 ^ 64)] at this
      exact Nat.ne_of_gt hslot this
    rw [Lower.startsAt, if_neg hne] at hstarts
    have hready₁ := hready.next hq₁ (hstack₁ ▸ framed_argument hframe)
    obtain ⟨q, as', hq, hstack', hlen, hpending, hcount', hstarts', hsize, hreg⟩ := iha
      (fun a ha => hwf a (List.mem_cons_of_mem _ ha)) (fun a ha => ih a (List.mem_cons_of_mem _ ha))
      (Nat.succ_pos slot) (by omega) (by omega) hready₁ hcount₁
      (show q₁.stack = (x :: as).map .passed ++ σ by rw [hstack₁, hsame, hstack]; rfl)
    refine ⟨q, as' ++ [x], hq₁.append hq, ?_, ?_, hpending.trans hpending₁, hcount',
      hstarts'.trans hstarts, hsize.trans hframe.size, fun i => (hreg i).trans (hframe.regAt i)⟩
    · rw [hstack', List.append_assoc]
      rfl
    · rw [List.length_append, hlen]
      rfl

/-- **The arguments of a call** lie on top of the stack when the call comes. -/
theorem lowers_arguments (fn : Function) (nesting : Nat) (rest : List Element)
    (ha : Apart W known) {args : List Expr}
    (hwf : ∀ a ∈ args, a.WellFormed known)
    (ih : ∀ a ∈ args, a.Lowerable T known d below base fn nesting)
    (hk : k + argumentsSize args < 2 ^ 32)
    (hready : Ready T known d below base (argumentsLinear k 0 args) p)
    (hcount : p.evaluation.count = k) :
    ∃ q as σ, Lowers T known d below base fn nesting (argumentsLinear k 0 args) rest k p q ∧
      q.stack = as.map .passed ++ σ ∧ as.length = args.length ∧ (∀ τ, σ ≠ .read :: τ) ∧
      passedArgs σ = passedArgs p.stack ∧
      q.file.callStarts = Assemble.startsWith as (d + σ.length) p.file.callStarts ∧
      q.evaluation.pending = p.evaluation.pending ∧ q.evaluation.count = k ∧
      Framed ((p.file.size + 3) * (argumentsLinear k 0 args).length) k p.file p.stack q.file σ := by
  cases args with
  | nil =>
    exact ⟨p, [], p.stack, Lowers.nil hready.tracks, rfl, rfl, hready.tracks.linked.top, rfl, rfl,
      rfl, hcount, Framed.refl k p.file p.stack⟩
  | cons a args =>
    rw [argumentsLinear_cons] at hready ⊢
    rw [argumentsSize] at hk
    obtain ⟨q₁, x, σ, hq₁, hstack₁, hpending₁, hcount₁, htop, hframe, hpassed, hstarts, hresults⟩ :=
      lowers_argument_tree fn nesting (argumentsLinear k 1 args ++ rest) ha
        (hwf a List.mem_cons_self) (ih a List.mem_cons_self) (by omega) hready.first hcount
    have hlen := length_le_argumentsSize args
    -- the first argument has put every earlier result on the stack, so the others find none to move
    obtain ⟨q, as, hq, hstack, has, hpending, hcount', hstarts', hsize, hreg⟩ :=
      lowers_later_arguments fn nesting rest ha (fun a ha => hwf a (List.mem_cons_of_mem _ ha))
        (fun a ha => ih a (List.mem_cons_of_mem _ ha)) Nat.one_pos (by omega) (by omega)
        (hready.next hq₁ (hstack₁ ▸ framed_argument hframe)) hcount₁
        (show q₁.stack = [x].map .passed ++ σ from hstack₁) (hresults rfl)
    refine ⟨q, as ++ [x], σ, hq₁.append hq, hstack, ?_, htop, hpassed, ?_,
      hpending.trans hpending₁, hcount', ?_⟩
    · rw [List.length_append, has]
      rfl
    · rw [hstarts', hstarts, Assemble.startsWith, if_neg (by simp)]
      rfl
    · have hbound : (p.file.size + 3) * (a.linearAt k).length + (p.file.size + 1) ≤
          (p.file.size + 3) * (argumentLinear k 0 a ++ argumentsLinear k 1 args).length := by
        rw [argumentLinear, List.append_assoc, List.length_append, Nat.mul_add, List.length_append,
          Nat.mul_add]
        simp only [List.length_cons, List.length_nil]
        omega
      have := hframe.mono hbound (Nat.le_refl k)
      exact { this with
        size := hsize.trans this.size
        regAt := fun i => (hreg i).trans (this.regAt i) }

/-- **A call** with its arguments. -/
theorem lowerable_call {name : String} {args : List Expr} (ha : Apart W known)
    (hwf : ∀ a ∈ args, a.WellFormed known)
    (ih : ∀ a ∈ args, a.Lowerable T known d below base fn nesting) :
    (Expr.call name args).Lowerable T known d below base fn nesting := by
  intro k rest p hk hready hcount _
  rw [Expr.size] at hk
  rw [Expr.linearAt] at hready ⊢
  have hlen := length_le_argumentsSize args
  have harity : (UInt64.ofNat args.length).toNat = args.length :=
    UInt64.toNat_ofNat_of_lt' (by omega : args.length < 2 ^ 64)
  obtain ⟨q, as, σ, hq, hstack, has, htop, hpassed, hstarts, hpending, hcount', hframe⟩ :=
    lowers_arguments fn nesting ([.operand (.result ⟨name, UInt64.ofNat args.length⟩)] ++ rest)
      ha hwf ih (by omega) hready.first hcount
  obtain ⟨calls, hcalls⟩ := hready.calls
  rw [hq.calls, arities_append, List.append_assoc] at hcalls
  -- the calls of the arguments are over, so the next one is this one
  have hcalls : q.machine.calls = as.length :: calls := by
    rw [List.append_cancel_left hcalls, has]
    change (UInt64.ofNat args.length).toNat :: calls = _
    rw [harity]
  obtain ⟨q', hq', hpending', hcount'', hpassed', hstarts', hframe', hresult⟩ :=
    lowers_call fn nesting rest (n := k) (c := ⟨name, UInt64.ofNat args.length⟩) hq.tracks
      hstack htop
      (by rw [hframe.size]; exact Nat.lt_of_lt_of_le Nat.two_pos hready.size) hstarts hcalls
      (by rw [has]; exact harity)
  rw [hcount'] at hframe' hcount'' hresult
  refine ⟨q', hq.append hq', hpending'.trans hpending, hcount'', hpassed'.trans hpassed, hstarts', ?_,
    nofun, fun _ => hresult⟩
  · have hboth : Framed _ k p.file p.stack q'.file q'.stack := hframe.trans hframe'
    refine hboth.mono ?_ (Nat.le_refl k)
    rw [Expr.linearAt]
    simp only [List.length_append, Nat.mul_add, List.length_cons, List.length_nil]
    omega

/-- **Every well-formed tree can be lowered.** -/
theorem Expr.WellFormed.lowerable (fn : Function) (nesting : Nat) {e : Expr}
    (h : e.WellFormed known) (ha : Apart W known) :
    e.Lowerable T known d below base fn nesting := by
  induction h with
  | var | constant => exact lowerable_leaf rfl
  | unary hop hwf ih => exact lowerable_unary ha hop hwf ih
  | binary hop hwfa hwfb iha ihb => exact lowerable_binary ha hop hwfa hwfb iha ihb
  | call hwf ih => exact lowerable_call ha hwf ih
  | assign hplace hwft hwfv iht ihv => exact lowerable_assign ha hplace hwft hwfv iht ihv

end Trees

end WordC
