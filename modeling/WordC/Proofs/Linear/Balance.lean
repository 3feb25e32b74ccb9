import Mathlib
import WordC.Linear.Balance
import WordC.Proofs.SourceUnit.Unit
/-!
# Expressions that are read balance

Replaying the linear form of a well-formed tree leaves one value, under the
number that the tree has for it, and disturbs nothing below. The replay counts
the operators it passes. So the check succeeds on every function that is read.
-/

namespace WordC

/-- The element is an operator that takes one value. -/
def Element.isUnary : Element → Bool
  | .operator op => op.isUnary
  | _ => false

/-- The element is an operator that takes two values. -/
def Element.isBinary : Element → Bool
  | .operator op => !op.isUnary
  | _ => false

namespace Expr

/-- The number that a value waits under when `k` results wait below it. -/
def waiting (k : Nat) (e : Expr) : List Nat :=
  if e.isLeaf then [] else [k]

theorem mem_waiting {k n : Nat} {e : Expr} (h : n ∈ e.waiting k) : n = k ∧ n < k + e.weight := by
  unfold waiting at h
  unfold weight
  split at h
  · cases h
  · next hleaf =>
    rw [List.mem_singleton.1 h]
    simp [hleaf]

end Expr

namespace Replay

variable {r r' r'' : Replay} {code code' : Code}

theorem run_append (r : Replay) (index : Nat) (code code' : Code) :
    run r index (code ++ code') =
      match run r index code with
      | .ok r => run r (index + code.length) code'
      | .error cause => .error cause := by
  induction code generalizing r index with
  | nil => rfl
  | cons e code ih =>
    simp only [List.cons_append, run]
    cases r.step index e with
    | error cause => rfl
    | ok r' =>
      simp only [ih, List.length_cons]
      rw [show index + 1 + code.length = index + (code.length + 1) by omega]

/-- Replaying the code succeeds, wherever it begins. -/
def Replays (code : Code) (r r' : Replay) : Prop :=
  ∀ index, run r index code = .ok r'

theorem Replays.nil : Replays [] r r :=
  fun _ => rfl

theorem Replays.cons {e : Element} (h : ∀ index, r.step index e = .ok r')
    (h' : Replays code r' r'') : Replays (e :: code) r r'' := by
  intro index
  rw [run, h]
  exact h' _

theorem Replays.append (h : Replays code r r') (h' : Replays code' r' r'') :
    Replays (code ++ code') r r'' := by
  intro index
  rw [run_append, h]
  exact h' _

/-! ## One element -/

/-- Referring to a value: its number no longer waits. -/
theorem step_operand (e : Expr) {k : Nat} (hk : k < 2 ^ 32) (above below : List Nat)
    (hlive : r.live = above ++ e.waiting k ++ below) (hnew : e.isLeaf = false → k ∉ above) :
    ∀ index, r.step index (.operand (e.operand k)) =
      .ok { r with live := above ++ below, slots := (!e.isLeaf) :: r.slots } := by
  intro index
  have hnumber : (UInt32.ofNat k).toNat = k := UInt32.toNat_ofNat_of_lt' hk
  have herase : e.isLeaf = false → (above ++ k :: below).erase k = above ++ below := by
    intro hleaf
    rw [List.erase_append_right _ (hnew hleaf), List.erase_cons_head]
  cases e with
  | var | constant => simp [step, Expr.operand, hlive, Expr.waiting, Expr.isLeaf]
  | _ => simp [step, Expr.operand, hlive, Expr.waiting, Expr.isLeaf, hnumber, herase rfl]

/-- An operator that yields a value takes what it needs and gives its result the
lowest free number. -/
theorem step_operator {op : Operator} (top rest : List Bool) {k : Nat}
    (hslots : r.slots = top ++ rest) (htop : top.length = op.arity)
    (hvalue : op.producesValue = true) (hcount : r.count = k + top.countP id)
    (hlive : ∀ n ∈ r.live, n < k) :
    ∃ r', (∀ index, r.step index (.operator op) = .ok r') ∧ r'.slots = rest ∧
      r'.live = k :: r.live ∧ r'.count = k + 1 := by
  have hfree : k ∉ r.live := fun h => (hlive k h).false
  have henough : ¬ r.slots.length < op.arity := by
    rw [hslots, List.length_append]
    omega
  have hcount' : r.count - ((top ++ rest).take op.arity).countP id = k := by
    rw [List.take_left' htop]
    omega
  refine ⟨(r.consume op).produce, fun index => ?_, ?_, ?_, ?_⟩
  · have hfree' : (r.consume op).live.contains (r.consume op).count = false := by
      simpa [consume, hslots, hcount'] using hfree
    simp only [step, if_neg henough, hvalue, hfree', Bool.not_true, Bool.false_eq_true, if_false]
  · simp [produce, consume, hslots, List.drop_left' htop]
  · simp [produce, consume, hslots, hcount']
  · simp [produce, consume, hslots, hcount']

/-- Passing an argument takes the value and its slot and yields nothing. -/
theorem step_argument (top rest : List Bool) {k : Nat} (hslots : r.slots = top ++ rest)
    (htop : top.length = 2) (hcount : r.count = k + top.countP id) :
    ∃ r', (∀ index, r.step index (.operator .argument) = .ok r') ∧ r'.slots = rest ∧
      r'.live = r.live ∧ r'.count = k := by
  have henough : ¬ r.slots.length < 2 := by
    rw [hslots, List.length_append]
    omega
  refine ⟨r.consume .argument, fun index => ?_, ?_, rfl, ?_⟩
  · simp [step, henough, Operator.arity, Operator.isUnary, Operator.producesValue,
      Operator.isArgument]
  · simp [consume, hslots, Operator.arity, Operator.isUnary, List.drop_left' htop]
  · simp only [consume, hslots, Operator.arity, Operator.isUnary, Bool.false_eq_true, if_false,
      List.take_left' htop]
    omega

end Replay

/-! ## Trees -/

open Replay

/-- **What replaying a tree leaves** when `k` results wait below it. -/
structure Expr.Replayed (e : Expr) (k : Nat) (r r' : Replay) : Prop where
  slots : r'.slots = r.slots
  live : r'.live = e.waiting k ++ r.live
  count : r'.count = k + e.weight

/-- The code of the tree can be replayed wherever `k` results wait. -/
def Expr.Replayable (e : Expr) : Prop :=
  ∀ k r, k + e.size ≤ 2 ^ 32 → r.count = k → (∀ n ∈ r.live, n < k) →
    ∃ r', Replays (e.linearAt k) r r' ∧ e.Replayed k r r'

theorem Operator.arity_of_joins {op : Operator} (h : op.joins = true) : op.arity = 2 := by
  revert h
  cases op <;> decide

theorem Operator.producesValue_of_joins {op : Operator} (h : op.joins = true) :
    op.producesValue = true := by
  revert h
  cases op <;> decide

section Trees

variable {r : Replay} {k : Nat} {a b : Expr} {args : List Expr}

theorem replayable_unary {op : Operator} (hop : op.isUnary = true) (ha : a.Replayable) :
    (Expr.unary op a).Replayable := by
  intro k r hk hcount hlive
  rw [Expr.size] at hk
  have hpos := a.size_pos
  obtain ⟨r₁, hrun₁, h₁⟩ := ha k r (by omega) hcount hlive
  have hpush := step_operand a (by omega : k < 2 ^ 32) [] r.live h₁.live fun _ => List.not_mem_nil
  obtain ⟨r₂, hstep, hslots, hlive₂, hcount₂⟩ :=
    step_operator (r := { r₁ with live := [] ++ r.live, slots := (!a.isLeaf) :: r₁.slots })
      (k := k) [!a.isLeaf] r.slots (by simp [h₁.slots])
      (show _ = op.arity by simp [Operator.arity, hop])
      (by cases op <;> first | rfl | cases hop)
      (by cases hleaf : a.isLeaf <;> simp [h₁.count, Expr.weight, hleaf]) hlive
  exact ⟨r₂, hrun₁.append (.cons hpush (.cons hstep .nil)), hslots, hlive₂, hcount₂⟩

/-- Two values and the operator between them. -/
theorem replays_pair {op : Operator} (hop : op.arity = 2) (hvalue : op.producesValue = true)
    (ha : a.Replayable) (hb : b.Replayable) (hk : k + a.size + b.size < 2 ^ 32)
    (hcount : r.count = k) (hlive : ∀ n ∈ r.live, n < k) :
    ∃ r', Replays (a.linearAt k ++ b.linearAt (k + a.weight) ++
        [.operand (a.operand k), .operand (b.operand (k + a.weight)), .operator op]) r r' ∧
      r'.slots = r.slots ∧ r'.live = k :: r.live ∧ r'.count = k + 1 := by
  have hweight : a.weight ≤ 1 := by
    unfold Expr.weight
    split <;> omega
  have hpos := a.size_pos
  obtain ⟨r₁, hrun₁, h₁⟩ := ha k r (by omega) hcount hlive
  have hlive₁ : ∀ n ∈ r₁.live, n < k + a.weight := by
    intro n hn
    rw [h₁.live, List.mem_append] at hn
    rcases hn with hn | hn
    · exact (Expr.mem_waiting hn).2
    · exact (hlive n hn).trans_le (by omega)
  obtain ⟨r₂, hrun₂, h₂⟩ := hb (k + a.weight) r₁ (by have := b.size_pos; omega) h₁.count hlive₁
  -- each operand takes the result that waits for it off the stack, unless it is a leaf
  have hpush := step_operand a (by omega : k < 2 ^ 32) (b.waiting (k + a.weight)) r.live
    (by rw [h₂.live, h₁.live, List.append_assoc]) fun hleaf hmem => by
      have := (Expr.mem_waiting hmem).1
      simp [Expr.weight, hleaf] at this
  have hpush' := step_operand b (by omega : k + a.weight < 2 ^ 32) [] r.live
    (r := { r₂ with live := b.waiting (k + a.weight) ++ r.live, slots := (!a.isLeaf) :: r₂.slots })
    rfl fun _ => List.not_mem_nil
  obtain ⟨r₃, hstep, hslots, hlive₃, hcount₃⟩ :=
    step_operator (r := { r₂ with
        live := [] ++ r.live, slots := (!b.isLeaf) :: (!a.isLeaf) :: r₂.slots })
      (k := k) [!b.isLeaf, !a.isLeaf] r.slots (by simp [h₂.slots, h₁.slots]) hop.symm hvalue
      (by
        cases hleaf : a.isLeaf <;> cases hleaf' : b.isLeaf <;>
          simp [h₂.count, Expr.weight, hleaf, hleaf']) hlive
  exact ⟨r₃, (hrun₁.append hrun₂).append (.cons hpush (.cons hpush' (.cons hstep .nil))), hslots,
    hlive₃, hcount₃⟩

/-- Arguments leave what they found: each is passed before the next one. -/
theorem replays_arguments (h : ∀ a ∈ args, a.Replayable) (hk : k + argumentsSize args < 2 ^ 32)
    (hcount : r.count = k) (hlive : ∀ n ∈ r.live, n < k) (slot : Nat) :
    ∃ r', Replays (argumentsLinear k slot args) r r' ∧ r'.slots = r.slots ∧ r'.live = r.live ∧
      r'.count = k := by
  induction args generalizing r slot with
  | nil => exact ⟨r, .nil, rfl, rfl, hcount⟩
  | cons a args ih =>
    rw [argumentsSize] at hk
    have hpos := a.size_pos
    obtain ⟨r₁, hrun₁, h₁⟩ := h a List.mem_cons_self k r (by omega) hcount hlive
    have hpush := step_operand a (by omega : k < 2 ^ 32) [] r.live
      (r := { r₁ with slots := false :: r₁.slots }) h₁.live fun _ => List.not_mem_nil
    -- an argument takes its slot and its value and leaves no result
    obtain ⟨r₂, hstep, hslots, hlive₂, hcount₂⟩ :=
      step_argument (r := { r₁ with
          live := [] ++ r.live, slots := (!a.isLeaf) :: false :: r₁.slots })
        (k := k) [!a.isLeaf, false] r.slots (by simp [h₁.slots]) rfl
        (by cases hleaf : a.isLeaf <;> simp [h₁.count, Expr.weight, hleaf])
    obtain ⟨r₃, hrun₃, hslots₃, hlive₃, hcount₃⟩ :=
      ih (fun b hb => h b (List.mem_cons_of_mem _ hb)) (by omega) hcount₂
        (by rw [hlive₂]; exact hlive) (slot + 1)
    refine ⟨r₃, (hrun₁.append (.cons (fun _ => rfl) (.cons hpush (.cons hstep .nil)))).append hrun₃,
      hslots₃.trans hslots, hlive₃.trans hlive₂, hcount₃⟩

/-- **Every well-formed tree can be replayed.** -/
theorem Expr.WellFormed.replayable {known : Variable → Prop} {e : Expr} (h : e.WellFormed known) :
    e.Replayable := by
  induction h with
  | var | constant => exact fun k r _ hcount _ => ⟨r, .nil, rfl, rfl, hcount⟩
  | unary hop _ ih => exact replayable_unary hop ih
  | @binary op a b hop _ _ iha ihb =>
    intro k r hk hcount hlive
    rw [Expr.size] at hk
    obtain ⟨r', hrun, hslots, hlive', hcount'⟩ :=
      replays_pair (Operator.arity_of_joins hop) (Operator.producesValue_of_joins hop) iha ihb
        (by omega) hcount hlive
    exact ⟨r', hrun, hslots, hlive', hcount'⟩
  | assign _ _ _ iht ihv =>
    intro k r hk hcount hlive
    rw [Expr.size] at hk
    obtain ⟨r', hrun, hslots, hlive', hcount'⟩ :=
      replays_pair (rfl : Operator.assign.arity = 2) rfl iht ihv (by omega) hcount hlive
    exact ⟨r', hrun, hslots, hlive', hcount'⟩
  | call _ ih =>
    intro k r hk hcount hlive
    rw [Expr.size] at hk
    obtain ⟨r', hrun, hslots, hlive', hcount'⟩ := replays_arguments ih (by omega) hcount hlive 0
    refine ⟨r'.produce, hrun.append (.cons (fun _ => rfl) .nil), hslots, ?_, ?_⟩
    · simp [produce, hlive', hcount', waiting, isLeaf]
    · simp [produce, hcount', weight, isLeaf]

end Trees

/-! ## Counting -/

/-- The counts of a replay grow by the operators it passes. -/
structure Counted (code : Code) (b b' : Balance) : Prop where
  unary : b'.unary = b.unary + code.countP Element.isUnary
  binary : b'.binary = b.binary + code.countP Element.isBinary
  slots : b'.operandSlots =
    b.operandSlots + (code.countP Element.isUnary + 2 * code.countP Element.isBinary)

theorem Replay.step_counted {r r' : Replay} {index : Nat} {e : Element}
    (h : r.step index e = .ok r') : Counted [e] r.balance r'.balance := by
  cases e with
  | operand o =>
    -- an operand leaves the balance as it is, also where it takes a result
    have hsame : r'.balance = r.balance := by
      cases o with
      | intermediate n =>
        simp only [step] at h
        split at h <;> cases h
        rfl
      | _ =>
        cases h
        rfl
    rw [hsame]
    exact ⟨rfl, rfl, rfl⟩
  | operator op =>
    have hsame : r'.balance = (r.consume op).balance := by
      simp only [step] at h
      split at h
      · cases h
      · split at h
        · cases h
          rfl
        · split at h <;> cases h
          rfl
    rw [hsame]
    cases hop : op.isUnary <;>
      constructor <;> simp [consume, Element.isUnary, Element.isBinary, Operator.arity, hop]
  | marker m => cases h
  | keyword k => cases h

theorem Replay.run_counted {r r' : Replay} {index : Nat} {code : Code}
    (h : run r index code = .ok r') : Counted code r.balance r'.balance := by
  induction code generalizing r index with
  | nil =>
    cases h
    exact ⟨rfl, rfl, rfl⟩
  | cons e code ih =>
    rw [run] at h
    cases hstep : r.step index e with
    | error cause =>
      rw [hstep] at h
      cases h
    | ok r₁ =>
      rw [hstep] at h
      have h₁ := step_counted hstep
      have h₂ := ih h
      have hcons : e :: code = [e] ++ code := rfl
      constructor
      · rw [h₂.unary, h₁.unary, hcons, List.countP_append, Nat.add_assoc]
      · rw [h₂.binary, h₁.binary, hcons, List.countP_append, Nat.add_assoc]
      · rw [h₂.slots, h₁.slots, hcons, List.countP_append, List.countP_append]
        omega

/-! ## Expressions and bodies -/

/-- The check accepts the expression and counts its operators. -/
def Code.Balanced (code : Code) : Prop :=
  ∃ b, checkExpression code = .ok b ∧ b.unary = code.countP Element.isUnary ∧
    b.binary = code.countP Element.isBinary ∧ b.operandSlots = b.unary + 2 * b.binary

/-- The check accepts what replays and leaves one value. -/
theorem Code.balanced_of_replays {code : Code} {r : Replay} (h : Replays code {} r)
    (hone : (r.slots.length = 1 ∧ r.live.length = 0) ∨ (r.slots.length = 0 ∧ r.live.length = 1)) :
    code.Balanced := by
  have hcounted := run_counted (h 0)
  refine ⟨r.balance, ?_, by simpa using hcounted.unary, by simpa using hcounted.binary, ?_⟩
  · rw [checkExpression, h 0]
    rcases hone with ⟨hs, hl⟩ | ⟨hs, hl⟩ <;> simp only [hs, hl]
  · have hslots := hcounted.slots
    have hunary := hcounted.unary
    have hbinary := hcounted.binary
    simp only [Nat.zero_add] at hslots hunary hbinary
    rw [hslots, hunary, hbinary]

theorem Code.IsExpression.balanced {known : Variable → Prop} {nodes : Nat} {code : Code}
    (h : code.IsExpression known nodes) (hnodes : nodes ≤ 2 ^ 32) : code.Balanced := by
  obtain ⟨e, hwf, hsize, rfl⟩ := h
  obtain ⟨r, hrun, hr⟩ := hwf.replayable 0 {} (by omega) rfl nofun
  unfold Expr.linear
  cases hleaf : e.isLeaf with
  | true =>
    have hpush := step_operand e (by norm_num : 0 < 2 ^ 32) [] [] (r := r) (by simp [hr.live])
      fun _ => List.not_mem_nil
    refine Code.balanced_of_replays (hrun.append (.cons hpush .nil)) (.inl ?_)
    simp [hr.slots]
  | false =>
    refine Code.balanced_of_replays (hrun.append .nil) (.inr ?_)
    simp [hr.slots, hr.live, Expr.waiting, hleaf]

/-- Checking a body follows its linear form. -/
theorem follows_checkBody :
    Follows (fun code => code.Plain ∧ code.Balanced) (checkBody []) fun _ rest => rest where
  other e rest he := by simp [checkBody, he]
  code c mark rest hc hmark := by
    obtain ⟨⟨hne, hplain⟩, b, hb, -⟩ := hc
    have hcollect : ∀ (pending code : Code), (∀ e ∈ code, e.inExpression = true) →
        checkBody pending (code ++ mark :: rest) =
          checkBody (code.reverse ++ pending) (mark :: rest) := by
      intro pending code hcode
      induction code generalizing pending with
      | nil => rfl
      | cons e code ih =>
        rw [List.cons_append, checkBody, if_pos (hcode e List.mem_cons_self),
          ih _ fun e he => hcode e (List.mem_cons_of_mem _ he)]
        simp
    have hout : mark.inExpression = false := by
      cases mark <;> first | rfl | cases hmark
    rw [hcollect [] c hplain, List.append_nil, checkBody]
    simp [hout, hne, hmark, hb]

/-- **What is read balances.** Of every source unit that is read the check
accepts each function, and it counts the unary and the binary operators of each
expression. -/
theorem SourceUnit.parse_balanced {tokens : List PlacedToken} {u : SourceUnit}
    (h : parse tokens = .ok u) (hlen : tokens.length < 2 ^ 32) :
    ∀ f ∈ u.program.functions, f.checkBalance = .ok () ∧
      ∀ code ∈ f.expressions, ∃ b, checkExpression code = .ok b ∧
        b.unary = code.countP Element.isUnary ∧ b.binary = code.countP Element.isBinary ∧
        b.operandSlots = b.unary + 2 * b.binary := by
  intro f hf
  cases hbody : f.body with
  | none =>
    refine ⟨?_, ?_⟩
    · simp [Function.checkBalance, hbody, checkBody]
    · simp [Function.expressions, hbody, Code.runs]
  | some linear =>
    obtain ⟨stmts, locals, hread⟩ := (parse_readFrom h).functions f hf linear hbody
    have hsound : blockSound (fun code => code.Plain ∧ code.Balanced) false stmts :=
      hread.sound.mono fun code hcode => ⟨hcode.plain, hcode.balanced (by omega)⟩
    refine ⟨?_, ?_⟩
    · rw [Function.checkBalance, hread.body, Option.getD_some, follows_checkBody.body hsound,
        List.foldr_fixed]
      rfl
    · rw [Function.expressions, hread.body, Option.getD_some,
        runs_bodyLinear (hsound.mono fun _ hcode => hcode.1)]
      exact fun code hcode => (hsound.forall_expressions code hcode).2

theorem SourceUnit.parse_balanced_sample : ∃ u, parse sampleTokens = .ok u ∧
    sampleTokens.length < 2 ^ 32 ∧ ∃ f ∈ u.program.functions, f.isDefined = true ∧
      f.checkBalance = .ok () ∧
      ∀ code ∈ f.expressions, ∃ b, checkExpression code = .ok b ∧
        b.unary = code.countP Element.isUnary ∧ b.binary = code.countP Element.isBinary ∧
        b.operandSlots = b.unary + 2 * b.binary := by
  obtain ⟨u, hu, f, hf, hdefined, -⟩ := parse_sampleTokens
  exact ⟨u, hu, by decide, f, hf, hdefined, parse_balanced hu (by decide) f hf⟩

end WordC
