import Mathlib.Logic.Basic

/-!
# Computations that can stop

A computation that can stop with an error is a value of `Except ε α`. The file has the inversion
lemmas for sequences and images of such computations, for both outcomes. A decidable property of the
result, if there is one, can be decided.
-/

set_option autoImplicit false

namespace ConcurrentCyclone.Transition

universe u v w

variable {ε : Type u} {α : Type v} {β : Type w}

variable {m : Except ε α} {f : α → Except ε β} {e : ε}

/-- A sequence goes through when both parts do. -/
theorem bind_eq_ok {b : β} : m.bind f = .ok b ↔ ∃ a, m = .ok a ∧ f a = .ok b := by
  cases m with
  | error | ok => simp [Except.bind]

/-- A sequence stops where its first part stops, or its second one. -/
theorem bind_eq_error : m.bind f = .error e ↔ m = .error e ∨ ∃ a, m = .ok a ∧ f a = .error e := by
  cases m with
  | error | ok => simp [Except.bind]

/-- A mapped result is the image of a result. -/
theorem map_eq_ok {f : α → β} {b : β} : m.map f = .ok b ↔ ∃ a, m = .ok a ∧ f a = b := by
  cases m with
  | error | ok => simp [Except.map]

/-- A mapped computation stops where the computation stops. -/
theorem map_eq_error {f : α → β} : m.map f = .error e ↔ m = .error e := by
  cases m with
  | error | ok => simp [Except.map]

/-- Naming an error anew does not change a result. -/
theorem mapError_eq_ok {f : ε → ε} {a : α} : m.mapError f = .ok a ↔ m = .ok a := by
  cases m with
  | error e =>
    change (Except.error (f e) : Except ε α) = .ok a ↔ _
    simp
  | ok b => exact Iff.rfl

/-- An error named anew is the image of an error. -/
theorem mapError_eq_error {f : ε → ε} :
    m.mapError f = .error e ↔ ∃ e', m = .error e' ∧ f e' = e := by
  cases m with
  | error e' =>
    change (Except.error (f e') : Except ε α) = .error e ↔ _
    simp
  | ok a =>
    change (Except.ok a : Except ε α) = .error e ↔ _
    simp

/-- A sequence does not stop with an error that neither part stops with. -/
theorem bind_ne_error (hm : m ≠ .error e) (hf : ∀ a, f a ≠ .error e) : m.bind f ≠ .error e := by
  intro h
  rcases bind_eq_error.1 h with h | ⟨a, _, h⟩
  · exact hm h
  · exact hf a h

instance decidableForallOk {p : α → Prop} [DecidablePred p] : Decidable (∀ a, m = .ok a → p a) :=
  match m with
  | .ok a => decidable_of_iff (p a) (by simp)
  | .error _ => isTrue (by simp)

end ConcurrentCyclone.Transition
