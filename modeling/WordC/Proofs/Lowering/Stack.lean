import Mathlib
import WordC.Proofs.Lowering.StackTrace
/-!
# The words that an expression has pushed

A `Slot` says what a pushed word is: a result that was spilled, a result that
was read from below the top, or an argument. The register file keeps only the
spilled words and their positions; `slots` gives that account for a whole
stack, and the lemmas here say how it follows the stack.
-/

namespace WordC

/-- What a pushed word is. -/
inductive Slot (W : Type) where
  /-- A result that was spilled. -/
  | result (n : Nat)
  /-- A word that is of no use any more. -/
  | read
  /-- An argument: the number of the element that passes it, and its word. -/
  | passed (a : Nat × W)

variable {W : Type}

namespace Slot

/-- The word is of no use any more. -/
def isRead : Slot W → Bool
  | read => true
  | _ => false

/-- The number of a spilled result. -/
def result? : Slot W → Option Nat
  | result n => some n
  | _ => none

/-- The number and the word of an argument. -/
def passed? : Slot W → Option (Nat × W)
  | passed a => some a
  | _ => none

/-- The word as the journal tells it. -/
def pushed : Slot W → Pushed
  | result n => .spill (toString n).toList
  | read => .spent
  | passed a => .argument a.1

/-- A word fits its slot, with the results `ρ`. -/
def Holds (ρ : Nat → W) : Slot W → W → Prop
  | result n, w => w = ρ n
  | read, _ => True
  | passed a, w => w = a.2

/-- The spilled word that a slot is, with `position` words below it. -/
def spill? (position : Nat) : Slot W → Option SpillSlot
  | result n => some ⟨some n, position⟩
  | read => some ⟨none, position⟩
  | passed _ => none

end Slot

/-- The numbers of the results on a stack. -/
def spilled (σ : List (Slot W)) : List Nat :=
  σ.filterMap Slot.result?

@[simp] theorem mem_spilled {n : Nat} {σ : List (Slot W)} : n ∈ spilled σ ↔ .result n ∈ σ := by
  rw [spilled, List.mem_filterMap]
  refine ⟨?_, fun h => ⟨_, h, rfl⟩⟩
  rintro ⟨s, hs, hn⟩
  cases s with
  | result l => cases hn; exact hs
  | read | passed => cases hn

@[simp] theorem spilled_append (σ τ : List (Slot W)) : spilled (σ ++ τ) = spilled σ ++ spilled τ :=
  List.filterMap_append

@[simp] theorem spilled_nil : spilled ([] : List (Slot W)) = [] := rfl

@[simp] theorem spilled_result (n : Nat) (σ : List (Slot W)) :
    spilled (.result n :: σ) = n :: spilled σ := rfl

@[simp] theorem spilled_read (σ : List (Slot W)) : spilled (.read :: σ) = spilled σ := rfl

@[simp] theorem spilled_passed (a : Nat × W) (σ : List (Slot W)) :
    spilled (.passed a :: σ) = spilled σ := rfl

theorem spilled_dropWhile (σ : List (Slot W)) :
    spilled (σ.dropWhile Slot.isRead) = spilled σ := by
  induction σ with
  | nil => rfl
  | cons s σ ih =>
    cases s with
    | read => exact ih
    | result | passed => rfl

/-- The arguments on a stack, the last one first. -/
def passedArgs (σ : List (Slot W)) : List (Nat × W) :=
  σ.filterMap Slot.passed?

@[simp] theorem passedArgs_append (σ τ : List (Slot W)) :
    passedArgs (σ ++ τ) = passedArgs σ ++ passedArgs τ :=
  List.filterMap_append

@[simp] theorem passedArgs_nil : passedArgs ([] : List (Slot W)) = [] := rfl

@[simp] theorem passedArgs_result (n : Nat) (σ : List (Slot W)) :
    passedArgs (.result n :: σ) = passedArgs σ := rfl

@[simp] theorem passedArgs_read (σ : List (Slot W)) :
    passedArgs (.read :: σ) = passedArgs σ := rfl

@[simp] theorem passedArgs_passed (a : Nat × W) (σ : List (Slot W)) :
    passedArgs (.passed a :: σ) = a :: passedArgs σ := rfl

theorem passedArgs_dropWhile (σ : List (Slot W)) :
    passedArgs (σ.dropWhile Slot.isRead) = passedArgs σ := by
  induction σ with
  | nil => rfl
  | cons s σ ih =>
    cases s with
    | read => exact ih
    | result | passed => rfl

@[simp] theorem passedArgs_map_result (ns : List Nat) :
    passedArgs (ns.map .result : List (Slot W)) = [] := by
  induction ns with
  | nil => rfl
  | cons n ns ih => exact ih

/-- A part of the stack with a top of use stays when what was read is dropped. -/
theorem suffix_dropWhile {L σ : List (Slot W)} (h : L <:+ σ) (htop : ∀ τ, L ≠ .read :: τ) :
    L <:+ σ.dropWhile Slot.isRead := by
  induction σ with
  | nil => exact h
  | cons s σ ih =>
    cases s with
    | read =>
      rcases List.suffix_cons_iff.1 h with rfl | h
      · exact absurd rfl (htop σ)
      · exact ih h
    | result | passed => exact h

/-- The words that were read are spent. -/
theorem map_pushed_takeWhile (σ : List (Slot W)) :
    (σ.takeWhile Slot.isRead).map Slot.pushed =
      List.replicate (σ.takeWhile Slot.isRead).length .spent := by
  induction σ with
  | nil => rfl
  | cons s σ ih =>
    cases s with
    | read => exact congrArg (Pushed.spent :: ·) ih
    | result | passed => rfl

theorem dropWhile_top (σ τ : List (Slot W)) : σ.dropWhile Slot.isRead ≠ .read :: τ := by
  induction σ with
  | nil => exact nofun
  | cons s σ ih =>
    cases s with
    | read => exact ih
    | result | passed => exact fun h => nomatch (List.cons.inj h).1

/-- A part of the stack without a result lies below that result. -/
theorem suffix_of_not_mem {L A B : List (Slot W)} {n : Nat} (h : L <:+ A ++ .result n :: B)
    (hn : .result n ∉ L) : L <:+ B := by
  have hB : (.result n :: B : List (Slot W)) <:+ A ++ .result n :: B := List.suffix_append _ _
  rcases List.suffix_or_suffix_of_suffix h hB with h | h
  · rcases List.suffix_cons_iff.1 h with rfl | h
    · exact absurd List.mem_cons_self hn
    · exact h
  · exact absurd (h.subset List.mem_cons_self) hn

/-- A stack without results and arguments, and with a top of use, is empty. -/
theorem eq_nil_of_unused {σ : List (Slot W)} (hspilled : spilled σ = [])
    (hpassed : passedArgs σ = []) (htop : ∀ τ, σ ≠ .read :: τ) : σ = [] := by
  cases σ with
  | nil => rfl
  | cons s σ =>
    cases s with
    | result n => cases hspilled
    | read => exact absurd rfl (htop σ)
    | passed w => cases hpassed

/-- Nothing lies above a part of the stack that has all results and all
arguments. -/
theorem eq_of_suffix {L σ : List (Slot W)} (h : L <:+ σ) (hnodup : (spilled σ).Nodup)
    (hresults : ∀ n, .result n ∈ σ → .result n ∈ L) (hpassed : passedArgs σ = passedArgs L)
    (htop : ∀ τ, σ ≠ .read :: τ) : σ = L := by
  obtain ⟨A, rfl⟩ := h
  rw [spilled_append, List.nodup_append] at hnodup
  have hspilled : spilled A = [] := by
    refine List.eq_nil_iff_forall_not_mem.2 fun n hn => ?_
    have hmem := hresults n (List.mem_append_left _ (mem_spilled.1 hn))
    exact hnodup.2.2 n hn n (mem_spilled.2 hmem) rfl
  have hargs : passedArgs A = [] := by
    rw [passedArgs_append] at hpassed
    exact List.append_left_eq_self.1 hpassed
  have hA : A = [] := eq_nil_of_unused hspilled hargs fun τ hτ => htop (τ ++ L) (by rw [hτ]; rfl)
  rw [hA, List.nil_append]

/-- The spilled words of a stack, the newest first, with `d` words below. -/
def slots (d : Nat) : List (Slot W) → List SpillSlot
  | [] => []
  | s :: σ => (s.spill? (d + σ.length)).toList ++ slots d σ

theorem slots_append (d : Nat) (σ τ : List (Slot W)) :
    slots d (σ ++ τ) = slots (d + τ.length) σ ++ slots d τ := by
  induction σ with
  | nil => rfl
  | cons s σ ih =>
    simp only [List.cons_append, slots, ih, List.length_append, List.append_assoc]
    congr 3
    omega

/-- Arguments are no spilled words. -/
theorem slots_passed (d : Nat) (as : List (Nat × W)) (σ : List (Slot W)) :
    slots d (as.map .passed ++ σ) = slots d σ := by
  induction as with
  | nil => rfl
  | cons a as ih => exact ih

@[simp] theorem spilled_map_passed (as : List (Nat × W)) :
    spilled (as.map .passed : List (Slot W)) = [] := by
  induction as with
  | nil => rfl
  | cons a as ih => exact ih

@[simp] theorem passedArgs_map_passed (as : List (Nat × W)) :
    passedArgs (as.map .passed : List (Slot W)) = as := by
  induction as with
  | nil => rfl
  | cons a as ih => exact congrArg (a :: ·) ih

/-- Spilled words lie within the stack. -/
theorem position_of_mem_slots {d : Nat} {σ : List (Slot W)} {slot : SpillSlot}
    (h : slot ∈ slots d σ) : d ≤ slot.position ∧ slot.position < d + σ.length := by
  induction σ with
  | nil => cases h
  | cons s σ ih =>
    rw [List.length_cons]
    rcases List.mem_append.1 h with h | h
    · have : slot.position = d + σ.length := by
        cases s <;> simp [Slot.spill?] at h <;> rw [h]
      omega
    · have := ih h
      omega

/-- The results among the spilled words are those of the stack. -/
theorem exists_mem_slots {d n : Nat} {σ : List (Slot W)} :
    (∃ slot ∈ slots d σ, slot.value = some n) ↔ Slot.result n ∈ σ := by
  induction σ with
  | nil => simp [slots]
  | cons s σ ih =>
    simp only [slots, List.mem_append, or_and_right, exists_or, ih, List.mem_cons]
    cases s <;> simp [Slot.spill?, eq_comm]

/-- **Dropping what was read** from the top of the stack. -/
theorem dropRead_slots (d : Nat) (σ : List (Slot W)) :
    Assemble.dropRead (slots d σ) (d + σ.length) =
      (slots d (σ.dropWhile Slot.isRead), d + (σ.dropWhile Slot.isRead).length,
        (σ.takeWhile Slot.isRead).length) := by
  induction σ with
  | nil => rfl
  | cons s σ ih =>
    cases s with
    | read =>
      have hpos : d + σ.length + 1 = d + (σ.length + 1) := by omega
      have hdepth : d + (σ.length + 1) - 1 = d + σ.length := by omega
      simp only [slots, Slot.spill?, Option.toList_some, List.cons_append, List.nil_append,
        Assemble.dropRead, List.length_cons, Option.isNone_none, Bool.true_and, hpos, decide_true,
        if_true, hdepth, ih]
      rfl
    | result n =>
      simp [slots, Slot.spill?, Assemble.dropRead, Slot.isRead]
    | passed w =>
      -- the newest spilled word lies below the argument
      have hstop : ∀ slot rest, slots d σ = slot :: rest →
          slot.position + 1 ≠ d + (σ.length + 1) := by
        intro slot rest h
        have hmem : slot ∈ slots d σ := by simp [h]
        have := position_of_mem_slots hmem
        omega
      simp only [slots, Slot.spill?, Option.toList_none, List.nil_append, List.length_cons,
        Slot.isRead, Bool.false_eq_true, not_false_eq_true, List.dropWhile_cons_of_neg,
        List.takeWhile_cons_of_neg, List.length_nil]
      cases h : slots d σ with
      | nil => rfl
      | cons slot rest => simp [Assemble.dropRead, hstop slot rest h]

/-- Where the spilled words of a stack are split at a result. -/
theorem slots_split (d n : Nat) (σ τ : List (Slot W)) :
    (slots d (σ ++ .result n :: τ)).reverse =
      (slots d τ).reverse ++ ⟨some n, d + τ.length⟩ :: (slots (d + τ.length + 1) σ).reverse := by
  rw [slots_append]
  simp [slots, Slot.spill?, Nat.add_assoc]

/-- A result that was read is no longer one of the spilled words. -/
theorem slots_split_read (d : Nat) (σ τ : List (Slot W)) :
    (slots d (σ ++ .read :: τ)).reverse =
      (slots d τ).reverse ++ ⟨none, d + τ.length⟩ :: (slots (d + τ.length + 1) σ).reverse := by
  rw [slots_append]
  simp [slots, Slot.spill?, Nat.add_assoc]

/-- The first member with a property, and where it is. -/
theorem find?_zipIdx_split {α : Type} {p : α → Bool} {xs : List α} {a : α} (ys : List α)
    (ha : p a = true)
    (hxs : ∀ x ∈ xs, p x = false) :
    (xs ++ a :: ys).zipIdx.find? (fun x => p x.1) = some (a, xs.length) := by
  rw [List.zipIdx_append, List.find?_append]
  have hnone : xs.zipIdx.find? (fun x => p x.1) = none := by
    simp only [List.find?_eq_none, Bool.not_eq_true]
    rintro ⟨x, i⟩ hx
    exact hxs x (List.fst_mem_of_mem_zipIdx hx)
  simp [hnone, ha]

/-- Splitting a stack at a result it holds once. -/
theorem exists_split_of_mem {n : Nat} {σ : List (Slot W)} (h : Slot.result n ∈ σ)
    (hnodup : (spilled σ).Nodup) :
    ∃ A B, σ = A ++ .result n :: B ∧ Slot.result n ∉ A ∧ Slot.result n ∉ B := by
  obtain ⟨A, B, rfl⟩ := List.append_of_mem h
  rw [spilled_append, spilled_result, List.nodup_append, List.nodup_cons] at hnodup
  refine ⟨A, B, rfl, fun hA => ?_, fun hB => hnodup.2.1.1 (mem_spilled.2 hB)⟩
  exact hnodup.2.2 n (mem_spilled.2 hA) n List.mem_cons_self rfl

end WordC
