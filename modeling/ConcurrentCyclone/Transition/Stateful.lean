import Mathlib.Init

/-!
# Postconditions of state-passing computations

`Ensures m s P` says that the value and the state that `m` gives from the state `s` satisfy `P`. A
`do` block is taken apart from its front: `ensures_bind` turns a step into what has to hold after
it, and `Ensures.mono` puts in what is known of the step.
-/

set_option autoImplicit false

namespace ConcurrentCyclone.Transition

universe u

variable {σ α β : Type u} {s : σ}

/-- Run from `s`, the computation ends with a value and a state that satisfy `P`. -/
def Ensures (m : StateM σ α) (s : σ) (P : α → σ → Prop) : Prop :=
  P (m s).1 (m s).2

variable {m : StateM σ α} {f : α → StateM σ β} {P Q : α → σ → Prop}

theorem ensures_bind {P : β → σ → Prop} :
    Ensures (m >>= f) s P ↔ Ensures m s fun a t => Ensures (f a) t P :=
  Iff.rfl

theorem Ensures.mono (h : Ensures m s P) (hPQ : ∀ a t, P a t → Q a t) : Ensures m s Q :=
  hPQ _ _ h

theorem Ensures.and (hP : Ensures m s P)
    (hQ : Ensures m s Q) : Ensures m s fun a t => P a t ∧ Q a t :=
  ⟨hP, hQ⟩

/-- One step of a `do` block: what the step ensures must be enough for the rest. -/
theorem Ensures.bind
    {Q : β → σ → Prop} (h : Ensures m s P) (hrest : ∀ a t, P a t → Ensures (f a) t Q) :
    Ensures (m >>= f) s Q :=
  ensures_bind.mpr (h.mono hrest)

end ConcurrentCyclone.Transition
