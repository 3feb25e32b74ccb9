import Mathlib
/-!
# Running stateful steps

How a step that may fail acts on a state: one equation for each way of putting
steps together, so that proofs follow a run without unfolding the monad.
-/

namespace WordC

variable {ε σ α β : Type}

theorem bind_apply (x : EStateM ε σ α) (f : α → EStateM ε σ β) (s : σ) :
    (x >>= f) s = match x s with
      | .ok a s => f a s
      | .error e s => .error e s := by
  rfl

/-- After a step that succeeds, the rest goes on from the state it has left. -/
theorem bind_ok {x : EStateM ε σ α} {f : α → EStateM ε σ β} {s s' : σ} {a : α}
    (h : x s = .ok a s') : (x >>= f) s = f a s' := by
  rw [bind_apply, h]

/-- What follows a step depends on what the step does from this state only. -/
theorem bind_congr_at {x y : EStateM ε σ α} {f : α → EStateM ε σ β} {s s' : σ} (h : x s = y s') :
    (x >>= f) s = (y >>= f) s' := by
  rw [bind_apply, bind_apply, h]

/-- After a step that fails, nothing is run. -/
theorem bind_error {x : EStateM ε σ α} {f : α → EStateM ε σ β} {s s' : σ} {e : ε}
    (h : x s = .error e s') : (x >>= f) s = .error e s' := by
  rw [bind_apply, h]

/-- What a run that succeeds was made of. -/
theorem bind_eq_ok {x : EStateM ε σ α} {f : α → EStateM ε σ β} {s s' : σ} {b : β} :
    (x >>= f) s = .ok b s' ↔ ∃ a s₁, x s = .ok a s₁ ∧ f a s₁ = .ok b s' := by
  rw [bind_apply]
  cases x s with
  | ok a s₁ => simp
  | error e s₁ => simp

theorem map_apply (f : α → β) (x : EStateM ε σ α) (s : σ) :
    (f <$> x) s = match x s with
      | .ok a s => .ok (f a) s
      | .error e s => .error e s := by
  rfl

/-- A row of steps whose first one succeeds. -/
theorem forM_cons_ok {a : α} {as : List α} {f : α → EStateM ε σ PUnit} {s s' : σ}
    (h : f a s = .ok ⟨⟩ s') :
    ((a :: as).forM f : EStateM ε σ PUnit) s = (as.forM f : EStateM ε σ PUnit) s' := by
  change (f a >>= fun _ => as.forM f) s = _
  exact bind_ok h

@[simp] theorem pure_apply (a : α) (s : σ) : (pure a : EStateM ε σ α) s = .ok a s := rfl

@[simp] theorem get_apply (s : σ) : (get : EStateM ε σ σ) s = .ok s s := rfl

@[simp] theorem set_apply (s s' : σ) : (set s' : EStateM ε σ PUnit) s = .ok ⟨⟩ s' := rfl

@[simp] theorem modify_apply (f : σ → σ) (s : σ) :
    (modify f : EStateM ε σ PUnit) s = .ok ⟨⟩ (f s) := rfl

@[simp] theorem throw_apply (e : ε) (s : σ) : (throw e : EStateM ε σ α) s = .error e s := rfl

end WordC
