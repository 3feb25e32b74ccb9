import Mathlib
import WordC.Proofs.Linear.Balance
/-!
# Numbers of results

A reference names a result by its number, and numbers are taken again. A result
waits from the element that yields it to the first reference to its number
(`Code.Waits`). The check of balance refuses an operator whose result would take
the number of a result that waits. It asks nothing of the kind of a call, so an
accepted expression can hold two results of one number. References are free of
doubt just if no call takes a number that waits
(`checkExpression_references_iff`).
-/

namespace WordC

/-- The number of the result that an element yields where a replay stands at `r`. -/
def Replay.yields? (r : Replay) : Element → Option Nat
  | .operand (.result _) => some r.count
  | .operator op => if op.producesValue then some (r.consume op).count else none
  | _ => none

namespace Code

/-- A replay of the code comes to the element at `i` in the state `r`. -/
def Reaches (code : Code) (i : Nat) (r : Replay) : Prop :=
  Replay.run {} 0 (code.take i) = .ok r

instance (code : Code) (i : Nat) (r : Replay) : Decidable (code.Reaches i r) :=
  inferInstanceAs (Decidable (_ = _))

/-- The element at `i` yields a result of number `n`. -/
def Yields (code : Code) (i n : Nat) : Prop :=
  ∃ r e, code.Reaches i r ∧ code[i]? = some e ∧ r.yields? e = some n

/-- The element at `i` is a reference to number `n`. -/
def RefersTo (code : Code) (i n : Nat) : Prop :=
  ∃ k : UInt32, code[i]? = some (.operand (.intermediate k)) ∧ k.toNat = n

/-- **The result of the element at `j` waits before the element at `i`.** It has number
`n`, and nothing between the two refers to that number. -/
structure Waits (code : Code) (n j i : Nat) : Prop where
  before : j < i
  yields : code.Yields j n
  silent : ∀ k, j < k → k < i → ¬code.RefersTo k n

/-- The result of the element at `i` takes the number of one that waits. -/
def Clashes (code : Code) (i : Nat) : Prop :=
  ∃ n j, code.Yields i n ∧ code.Waits n j i

end Code

/-! ## One element -/

namespace Replay

variable {r r' : Replay} {code : Code} {i n : Nat} {e : Element}

/-- **What one element does to the numbers that wait.** A reference takes its number
away, a result adds its own, and an operator makes sure that this number is new. -/
theorem live_of_step (h : r.step i e = .ok r') :
    (∃ k : UInt32, e = .operand (.intermediate k) ∧ r.yields? e = none ∧ k.toNat ∈ r.live ∧
      r'.live = r.live.erase k.toNat) ∨
    (∃ n, r.yields? e = some n ∧ r'.live = n :: r.live ∧
      ∀ op, e = .operator op → n ∉ r.live) ∨
    (r.yields? e = none ∧ (∀ k, e ≠ .operand (.intermediate k)) ∧ r'.live = r.live) := by
  cases e with
  | operand o =>
    cases o with
    | intermediate k =>
      rw [step] at h
      split at h
      -- a reference takes the number off the list
      · next hlive =>
        cases h
        exact .inl ⟨k, rfl, rfl, List.contains_iff_mem.1 hlive, rfl⟩
      · cases h
    | result c =>
      cases h
      exact .inr (.inl ⟨r.count, rfl, rfl, by simp⟩)
    | var | constant | parameter =>
      cases h
      exact .inr (.inr ⟨rfl, by simp, rfl⟩)
  | operator op =>
    rw [step] at h
    split at h
    · cases h
    · dsimp only at h
      split at h
      · next hvalue =>
        cases h
        refine .inr (.inr ⟨?_, by simp, rfl⟩)
        rw [yields?, if_neg (by simpa using hvalue)]
      · next hvalue =>
        split at h
        · cases h
        · next hlive =>
          cases h
          refine .inr (.inl ⟨(r.consume op).count, ?_, rfl, fun _ _ => ?_⟩)
          · rw [yields?, if_pos (by simpa using hvalue)]
          · exact fun hmem => hlive (List.contains_iff_mem.2 hmem)
  | marker m => cases h
  | keyword k => cases h

/-- A number that waits goes on waiting until there is a reference to it. -/
theorem count_le_of_step (h : r.step i e = .ok r')
    (he : ∀ k : UInt32, e = .operand (.intermediate k) → k.toNat ≠ n) :
    r.live.count n ≤ r'.live.count n := by
  rcases live_of_step h with ⟨k, rfl, -, -, hlive⟩ | ⟨m, -, hlive, -⟩ | ⟨-, -, hlive⟩
  · rw [hlive, List.count_erase_of_ne (he k rfl).symm]
  · rw [hlive]
    exact List.count_le_count_cons
  · rw [hlive]

end Replay

/-! ## A whole replay -/

namespace Code

open Replay

variable {code : Code} {r r' : Replay} {i j n : Nat} {e : Element}

theorem reaches_zero (code : Code) : code.Reaches 0 {} :=
  rfl

theorem Reaches.step_eq (h : code.Reaches i r) (h' : code.Reaches (i + 1) r')
    (he : code[i]? = some e) : r.step i e = .ok r' := by
  obtain ⟨hi, -⟩ := List.getElem?_eq_some_iff.1 he
  rw [Reaches, List.take_add_one, he, Option.toList_some, run_append, h] at h'
  simp only [List.length_take, min_eq_left hi.le, Nat.zero_add, run] at h'
  split at h'
  · next hstep =>
    cases h'
    exact hstep
  · cases h'

/-- A replay to the end comes to every element. -/
theorem exists_reaches (h : run {} 0 code = .ok r) (i : Nat) : ∃ r, code.Reaches i r := by
  rw [← List.take_append_drop i code, run_append] at h
  unfold Reaches
  cases hrun : run {} 0 (code.take i) with
  | error cause =>
    rw [hrun] at h
    cases h
  | ok r₁ => exact ⟨r₁, rfl⟩

theorem Reaches.exists_of_le (h : code.Reaches j r) (hij : i ≤ j) : ∃ r, code.Reaches i r := by
  simpa only [Reaches, List.take_take, min_eq_left hij] using exists_reaches h i

theorem Reaches.unique (h : code.Reaches i r) (h' : code.Reaches i r') : r = r' :=
  Except.ok.inj (h.symm.trans h')

theorem Reaches.yields (h : code.Reaches i r) (he : code[i]? = some e) :
    code.Yields i n ↔ r.yields? e = some n := by
  constructor
  · rintro ⟨r₁, e₁, hr, he₁, hyields⟩
    obtain rfl := hr.unique h
    obtain rfl := Option.some.inj (he₁.symm.trans he)
    exact hyields
  · exact fun hyields => ⟨r, e, h, he, hyields⟩

theorem refersTo_iff (he : code[i]? = some e) :
    code.RefersTo i n ↔ ∃ k : UInt32, e = .operand (.intermediate k) ∧ k.toNat = n := by
  simp [RefersTo, he]

theorem Waits.succ (h : code.Waits n j i) (hi : ¬code.RefersTo i n) : code.Waits n j (i + 1) where
  before := h.before.trans (Nat.lt_succ_self i)
  yields := h.yields
  silent k hj hk := by
    rcases Nat.lt_succ_iff_lt_or_eq.1 hk with hk | rfl
    · exact h.silent k hj hk
    · exact hi

theorem waits_succ (h : code.Yields i n) : code.Waits n i (i + 1) :=
  ⟨Nat.lt_succ_self i, h, fun _ hi hk => absurd (Nat.lt_succ_iff.1 hk) hi.not_ge⟩

/-- **Without references, copies of a number only add up.** -/
theorem Reaches.count_le (h : code.Reaches i r) (h' : code.Reaches j r') (hij : i ≤ j)
    (hj : j ≤ code.length) (hsilent : ∀ k, i ≤ k → k < j → ¬code.RefersTo k n) :
    r.live.count n ≤ r'.live.count n := by
  induction j, hij using Nat.le_induction generalizing r' with
  | base => rw [h.unique h']
  | succ j hij ih =>
    obtain ⟨r₁, h₁⟩ := h'.exists_of_le j.le_succ
    have he : code[j]? = some code[j] := List.getElem?_eq_getElem hj
    refine (ih h₁ (Nat.le_of_succ_le hj) fun k hk hkj =>
      hsilent k hk (hkj.trans j.lt_succ_self)).trans (count_le_of_step (h₁.step_eq h' he) fun k hk hkn => ?_)
    exact hsilent j hij j.lt_succ_self ((refersTo_iff he).2 ⟨k, hk, hkn⟩)

/-- Where the result of an element has been yielded, its number waits. -/
theorem Reaches.live_of_yields (h : code.Reaches i r) (h' : code.Reaches (i + 1) r')
    (hyields : code.Yields i n) : r'.live = n :: r.live := by
  obtain ⟨r₁, e, hr, he, hn⟩ := hyields
  obtain rfl := hr.unique h
  rcases live_of_step (h.step_eq h' he) with ⟨_, -, hnone, -⟩ | ⟨m, hm, hlive, -⟩ | ⟨hnone, -⟩
  · rw [hnone] at hn
    cases hn
  · rw [hm] at hn
    cases hn
    exact hlive
  · rw [hnone] at hn
    cases hn

theorem Yields.lt_length (h : code.Yields i n) : i < code.length := by
  obtain ⟨_, _, -, he, -⟩ := h
  exact (List.getElem?_eq_some_iff.1 he).1

/-- A result that waits has its number among those of the replay. -/
theorem Waits.mem_live (h : code.Waits n j i) (hr : code.Reaches i r) (hi : i ≤ code.length) :
    n ∈ r.live := by
  obtain ⟨r₀, h₀⟩ := hr.exists_of_le h.before.le
  obtain ⟨r₁, h₁⟩ := hr.exists_of_le h.before
  have hcount := h₁.count_le hr h.before hi fun k hk hki => h.silent k hk hki
  rw [h₀.live_of_yields h₁ h.yields, List.count_cons_self] at hcount
  exact List.count_pos_iff.1 (Nat.lt_of_lt_of_le (Nat.succ_pos _) hcount)

/-- **While no result clashes, the numbers of the replay are those that wait**, each of
them once. -/
theorem Reaches.live_waits (hr : code.Reaches i r) (hi : i ≤ code.length)
    (hfree : ∀ k < i, ¬code.Clashes k) : r.live.Nodup ∧ ∀ n ∈ r.live, ∃ j, code.Waits n j i := by
  induction i generalizing r with
  | zero =>
    obtain rfl := hr.unique (reaches_zero code)
    exact ⟨List.nodup_nil, nofun⟩
  | succ i ih =>
    obtain ⟨r₀, h₀⟩ := hr.exists_of_le i.le_succ
    have he : code[i]? = some code[i] := List.getElem?_eq_getElem hi
    obtain ⟨hnodup, hwaits⟩ :=
      ih h₀ (Nat.le_of_succ_le hi) fun k hk => hfree k (hk.trans i.lt_succ_self)
    rcases live_of_step (h₀.step_eq hr he) with
      ⟨k, hk, -, -, hlive⟩ | ⟨m, hm, hlive, -⟩ | ⟨-, hnone, hlive⟩
    · rw [hlive]
      refine ⟨hnodup.erase _, fun n hn => ?_⟩
      obtain ⟨hne, hn⟩ := hnodup.mem_erase_iff.1 hn
      obtain ⟨j, hj⟩ := hwaits n hn
      refine ⟨j, hj.succ fun hrefers => hne ?_⟩
      obtain ⟨k', hk', rfl⟩ := (refersTo_iff he).1 hrefers
      rw [hk] at hk'
      cases hk'
      rfl
    · have hyields : code.Yields i m := (h₀.yields he).2 hm
      -- were the number not new, the element at `i` would clash
      have hnew : m ∉ r₀.live := fun hmem =>
        (hwaits m hmem).elim fun j hj => hfree i i.lt_succ_self ⟨m, j, hyields, hj⟩
      rw [hlive]
      refine ⟨List.nodup_cons.2 ⟨hnew, hnodup⟩,
        List.forall_mem_cons.2 ⟨⟨i, waits_succ hyields⟩, ?_⟩⟩
      intro n hn
      obtain ⟨j, hj⟩ := hwaits n hn
      refine ⟨j, hj.succ fun hrefers => ?_⟩
      obtain ⟨k, hk, -⟩ := (refersTo_iff he).1 hrefers
      rw [hk] at hm
      cases hm
    · rw [hlive]
      refine ⟨hnodup, fun n hn => ?_⟩
      obtain ⟨j, hj⟩ := hwaits n hn
      refine ⟨j, hj.succ fun hrefers => ?_⟩
      obtain ⟨k, hk, -⟩ := (refersTo_iff he).1 hrefers
      exact hnone k hk

/-- Where no result clashes, one result at most waits under a number. -/
theorem Waits.unique {j' : Nat} (h : code.Waits n j i) (h' : code.Waits n j' i)
    (hfree : ∀ k, ¬code.Clashes k) : j = j' := by
  rcases lt_trichotomy j j' with hlt | heq | hlt
  · exact absurd ⟨n, j, h'.yields, hlt, h.yields, fun k hj hk => h.silent k hj (hk.trans h'.before)⟩
      (hfree j')
  · exact heq
  · exact absurd ⟨n, j', h.yields, hlt, h'.yields,
      fun k hj hk => h'.silent k hj (hk.trans h.before)⟩ (hfree j)

/-- A clash leads to a reference that names two results, if the replay leaves no two
results over. -/
theorem Clashes.exists_ambiguous (h : code.Clashes i) (hrun : run {} 0 code = .ok r)
    (hone : r.live.length ≤ 1) :
    ∃ k n j j', code.RefersTo k n ∧ j ≠ j' ∧ code.Waits n j k ∧ code.Waits n j' k := by
  obtain ⟨n, j, hyields, hwaits⟩ := h
  have hi := hyields.lt_length
  obtain ⟨r₀, h₀⟩ := exists_reaches hrun i
  obtain ⟨r₁, h₁⟩ := exists_reaches hrun (i + 1)
  have hend : code.Reaches code.length r := by rwa [Reaches, List.take_length]
  -- behind the clash there are two copies of the number, and one at most is left over
  have htwo : 2 ≤ r₁.live.count n := by
    rw [h₀.live_of_yields h₁ hyields, List.count_cons_self]
    exact Nat.succ_le_succ (List.count_pos_iff.2 (hwaits.mem_live h₀ hi.le))
  have hlater : ∃ k, i < k ∧ code.RefersTo k n := by
    by_contra hnone
    have hcount := h₁.count_le (n := n) hend hi le_rfl fun k hk _ hrefers => hnone ⟨k, hk, hrefers⟩
    have hlength : r.live.count n ≤ r.live.length := List.count_le_length
    omega
  -- the first of them sees both results waiting
  classical
  obtain ⟨hik, hk⟩ := Nat.find_spec hlater
  have hfirst : ∀ m, i < m → m < Nat.find hlater → ¬code.RefersTo m n := fun m him hm hrefers =>
    Nat.find_min hlater hm ⟨him, hrefers⟩
  refine ⟨Nat.find hlater, n, j, i, hk, hwaits.before.ne, ?_, hik, hyields, hfirst⟩
  refine ⟨hwaits.before.trans hik, hwaits.yields, fun m hjm hm hrefers => ?_⟩
  rcases lt_trichotomy m i with hlt | rfl | hlt
  · exact hwaits.silent m hjm hlt hrefers
  · obtain ⟨r', e, hr', he, hn⟩ := hyields
    obtain ⟨k', rfl, -⟩ := (refersTo_iff he).1 hrefers
    cases hn
  · exact hfirst m hlt hm hrefers

end Code

/-! ## Accepted expressions -/

open Replay

variable {code : Code} {b : Balance}

/-- What the check accepts can be replayed, and leaves one value. -/
theorem run_of_checkExpression (h : checkExpression code = .ok b) :
    ∃ r, run {} 0 code = .ok r ∧ r.slots.length + r.live.length = 1 := by
  unfold checkExpression at h
  split at h
  · cases h
  · next r hrun =>
    refine ⟨r, hrun, ?_⟩
    split at h
    · next hslots hlive => rw [hslots, hlive]
    · next hslots hlive => rw [hslots, hlive]
    · cases h

/-- A number that is new to the replay clashes with none. -/
theorem Code.Reaches.not_clashes {r : Replay} {i : Nat} {e : Element} (h : code.Reaches i r)
    (he : code[i]? = some e) (hnew : ∀ n ∈ r.yields? e, n ∉ r.live) : ¬code.Clashes i := by
  rintro ⟨n, j, hyields, hwaits⟩
  refine hnew n ((h.yields he).1 hyields) (hwaits.mem_live h ?_)
  exact (List.getElem?_eq_some_iff.1 he).1.le

/-- The result of an operator has a number of its own. -/
theorem Code.not_clashes_of_operator {r : Replay} (hrun : run {} 0 code = .ok r) {i : Nat}
    {op : Operator} (hop : code[i]? = some (.operator op)) : ¬code.Clashes i := by
  obtain ⟨r₀, h₀⟩ := exists_reaches hrun i
  obtain ⟨r₁, h₁⟩ := exists_reaches hrun (i + 1)
  refine h₀.not_clashes hop fun n hn => ?_
  rcases live_of_step (h₀.step_eq h₁ hop) with ⟨_, hk, -⟩ | ⟨m, hm, -, hnew⟩ | ⟨hnone, -⟩
  · cases hk
  · rw [hm] at hn
    cases hn
    exact hnew op rfl
  · rw [hnone] at hn
    cases hn

/-- Only operators and calls yield results. -/
theorem Code.Yields.operator_or_call {i n : Nat} (h : code.Yields i n) :
    (∃ op, code[i]? = some (.operator op)) ∨ ∃ c, code[i]? = some (.operand (.result c)) := by
  obtain ⟨r, e, -, he, hn⟩ := h
  cases e with
  | operand o =>
    cases o with
    | result c => exact .inr ⟨c, he⟩
    | _ => cases hn
  | operator op => exact .inl ⟨op, he⟩
  | _ => cases hn

/-- **Numbers in an accepted expression.** The result of an operator never takes the
number of a result that waits. Each reference denotes exactly one result just if the
results of calls take no such number either. -/
theorem checkExpression_references_iff (h : checkExpression code = .ok b) :
    (∀ i op, code[i]? = some (.operator op) → ¬code.Clashes i) ∧
    ((∀ i c, code[i]? = some (.operand (.result c)) → ¬code.Clashes i) ↔
      ∀ i n, code.RefersTo i n → ∃! j, code.Waits n j i) := by
  obtain ⟨r, hrun, hone⟩ := run_of_checkExpression h
  refine ⟨fun i op hop => Code.not_clashes_of_operator hrun hop, fun hcalls i n hrefers => ?_,
    fun hunique i c hc hclash => ?_⟩
  -- without a clash at a call there is none anywhere
  · have hfree : ∀ k, ¬code.Clashes k := by
      intro k hclash
      obtain ⟨m, _, hyields, -⟩ := id hclash
      rcases hyields.operator_or_call with ⟨op, hop⟩ | ⟨c, hc⟩
      · exact Code.not_clashes_of_operator hrun hop hclash
      · exact hcalls k c hc hclash
    obtain ⟨k, hk, rfl⟩ := hrefers
    have hi := (List.getElem?_eq_some_iff.1 hk).1
    obtain ⟨r₀, h₀⟩ := Code.exists_reaches hrun i
    obtain ⟨r₁, h₁⟩ := Code.exists_reaches hrun (i + 1)
    have hmem : k.toNat ∈ r₀.live := by
      rcases live_of_step (h₀.step_eq h₁ hk) with ⟨k', hk', -, hmem, -⟩ | ⟨m, hm, -⟩ | ⟨-, hnone, -⟩
      · cases hk'
        exact hmem
      · cases hm
      · exact absurd rfl (hnone k)
    obtain ⟨j, hj⟩ := (h₀.live_waits hi.le fun k _ => hfree k).2 _ hmem
    exact ⟨j, hj, fun j' hj' => hj'.unique hj hfree⟩
  · obtain ⟨k, n, j, j', hk, hne, hj, hj'⟩ := hclash.exists_ambiguous hrun (by omega)
    exact hne ((hunique k n hk).unique hj hj')

/-- The product of two calls, one of which is passed a sum. -/
def productCode : Code :=
  [.operand (.constant (.int 1)), .operand (.constant (.int 2)), .operator .plus,
    .operand (.parameter 0), .operand (.intermediate 0), .operator .argument,
    .operand (.result ⟨"f", 1⟩), .operand (.result ⟨"g", 0⟩),
    .operand (.intermediate 0), .operand (.intermediate 1), .operator .multiply]

theorem checkExpression_references_productCode :
    ∃ b, checkExpression productCode = .ok b ∧
      ∀ i n, productCode.RefersTo i n → ∃! j, productCode.Waits n j i := by
  have hcheck : checkExpression productCode = .ok ⟨0, 3, 6⟩ := by decide
  refine ⟨_, hcheck, (checkExpression_references_iff hcheck).2.1 fun i c hc => ?_⟩
  have hi : i < 11 := (List.getElem?_eq_some_iff.1 hc).1
  interval_cases i
  case «6» =>
    have hreaches : productCode.Reaches 6 ⟨[], [], 0, ⟨0, 2, 4⟩⟩ := by decide
    exact hreaches.not_clashes hc (by simp [yields?])
  case «7» =>
    have hreaches : productCode.Reaches 7 ⟨[], [0], 1, ⟨0, 2, 4⟩⟩ := by decide
    exact hreaches.not_clashes hc (by simp [yields?])
  all_goals cases hc

/-- Two sums, one of which is passed to a call. The result of the call takes the number
of the other. -/
def clashingCode : Code :=
  [.operand (.constant (.int 1)), .operand (.constant (.int 2)), .operator .plus,
    .operand (.constant (.int 3)), .operand (.constant (.int 4)), .operator .plus,
    .operand (.parameter 0), .operand (.intermediate 0), .operator .argument,
    .operand (.result ⟨"f", 1⟩),
    .operand (.intermediate 1), .operand (.intermediate 1), .operator .plus]

/-- **The check accepts two results of one number.** -/
theorem checkExpression_clashingCode :
    checkExpression clashingCode = .ok ⟨0, 4, 8⟩ ∧ clashingCode.Yields 9 1 ∧
      clashingCode.Waits 1 5 9 := by
  refine ⟨by decide, ⟨⟨[], [1], 1, ⟨0, 3, 6⟩⟩, _, by decide, rfl, rfl⟩, by decide,
    ⟨⟨[false, false], [0], 1, ⟨0, 1, 2⟩⟩, _, by decide, rfl, rfl⟩, ?_⟩
  rintro k hj hk ⟨m, hm, hn⟩
  interval_cases k <;> simp [clashingCode] at hm
  · subst hm
    cases hn

end WordC
