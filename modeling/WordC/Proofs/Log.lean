import Mathlib
import WordC.Log
import WordC.Proofs.Stateful
/-!
# Notes do not decide outcomes

A computation that only adds notes has the same outcome whatever has been noted
before it (`Logged.Steady`), so the outcome of steps in a row is that of their
outcomes in a row.
-/

namespace WordC

namespace Logged

variable {ε ε' α β : Type}

/-- The outcome of a computation that begins with some notes. -/
def outcome (x : Logged ε α) (notes : Array Note) : Except ε α :=
  match x notes with
  | .ok a _ => .ok a
  | .error e _ => .error e

theorem exists_of_value {x : Logged ε α} {a : α} (h : x.value = .ok a) :
    ∃ notes, x #[] = .ok a notes := by
  unfold Logged.value at h
  split at h
  · next notes hrun =>
    cases h
    exact ⟨notes, hrun⟩
  · cases h

theorem value_of_ok {x : Logged ε α} {notes : Array Note} {a : α} (h : x #[] = .ok a notes) :
    x.value = .ok a := by
  rw [Logged.value, h]

theorem value_of_toOption {x : Logged ε α} {a : α} (h : x.value.toOption = some a) :
    x.value = .ok a := by
  cases hvalue : x.value with
  | error e =>
    rw [hvalue] at h
    cases h
  | ok b =>
    rw [hvalue] at h
    cases h
    rfl

theorem eq_of_ofExcept {x : Except ε α} {notes notes' : Array Note} {a : α}
    (h : ofExcept x notes = .ok a notes') : notes = notes' := by
  cases x with
  | error e => cases h
  | ok b =>
    cases h
    rfl

theorem mapError_eq_ok {f : ε → ε'} {x : Logged ε α} {notes notes' : Array Note} {a : α} :
    x.mapError f notes = .ok a notes' ↔ x notes = .ok a notes' := by
  unfold mapError
  cases x notes with
  | error e notes' => simp
  | ok a notes' => simp

/-- The outcome does not depend on the notes that are there. -/
def Steady (x : Logged ε α) : Prop :=
  ∀ notes, x.outcome notes = x.value

theorem outcome_bind {x : Logged ε α} {f : α → Logged ε β} (hf : ∀ a, Steady (f a))
    (notes : Array Note) :
    Logged.outcome (x >>= f) notes = (x.outcome notes).bind fun a => (f a).value := by
  unfold outcome
  rw [bind_apply]
  cases x notes with
  | error e notes' => rfl
  | ok a notes' => exact hf a notes'

/-- The outcome of steps in a row. -/
theorem value_bind {x : Logged ε α} {f : α → Logged ε β} (hf : ∀ a, Steady (f a)) :
    Logged.value (x >>= f) = x.value.bind fun a => (f a).value :=
  outcome_bind hf #[]

theorem Steady.bind {x : Logged ε α} {f : α → Logged ε β} (hx : Steady x)
    (hf : ∀ a, Steady (f a)) : Steady (x >>= f) := by
  intro notes
  rw [outcome_bind hf, value_bind hf, hx notes]

theorem outcome_mapError (f : ε → ε') (x : Logged ε α) (notes : Array Note) :
    (x.mapError f).outcome notes = (x.outcome notes).mapError f := by
  unfold outcome mapError
  cases x notes with
  | error e notes' => rfl
  | ok a notes' => rfl

theorem value_mapError (f : ε → ε') (x : Logged ε α) :
    (x.mapError f).value = x.value.mapError f :=
  outcome_mapError f x #[]

theorem Steady.mapError {x : Logged ε α} (hx : Steady x) (f : ε → ε') :
    Steady (x.mapError f) := by
  intro notes
  rw [outcome_mapError, value_mapError, hx notes]

theorem Steady.value_eq_ok {x : Logged ε α} (hx : Steady x) (notes : Array Note) {a : α} :
    x.value = .ok a ↔ ∃ notes', x notes = .ok a notes' := by
  rw [← hx notes]
  unfold outcome
  cases x notes with
  | error e notes' => simp
  | ok b notes' => simp

theorem steady_pure (a : α) : Steady (pure a : Logged ε α) :=
  fun _ => rfl

theorem steady_throw (e : ε) : Steady (throw e : Logged ε α) :=
  fun _ => rfl

theorem steady_note (level : LogLevel) (text : String) : Steady (note level text : Logged ε Unit) :=
  fun _ => rfl

theorem value_ofExcept (x : Except ε α) : (ofExcept x).value = x := by
  cases x with
  | error e => rfl
  | ok a => rfl

theorem steady_ofExcept (x : Except ε α) : Steady (ofExcept x) := by
  cases x with
  | error e => exact steady_throw e
  | ok a => exact steady_pure a

theorem steady_forM {as : List α} {f : α → Logged ε PUnit} (hf : ∀ a, Steady (f a)) :
    Steady (as.forM f) := by
  induction as with
  | nil => exact steady_pure PUnit.unit
  | cons a as ih => exact (hf a).bind fun _ => ih

/-- Steps that always succeed leave the outcome to what follows them. -/
theorem value_forM {as : List α} {f : α → Logged ε PUnit} (hf : ∀ a, Steady (f a))
    (hok : ∀ a, (f a).value = .ok ⟨⟩) : Logged.value (as.forM f) = .ok ⟨⟩ := by
  induction as with
  | nil => rfl
  | cons a as ih =>
    change Logged.value (f a >>= fun _ => as.forM f) = _
    rw [value_bind fun _ => steady_forM hf, hok a]
    exact ih

end Logged

end WordC
