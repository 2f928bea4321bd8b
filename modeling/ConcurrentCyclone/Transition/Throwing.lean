import Mathlib.Init

/-!
# Postconditions of state-passing computations that can throw

In `EStateM ε σ` an error keeps the state at which it was thrown, and a handler goes on from that
state. `Outcome m s P Q` says that `m`, run from the state `s`, ends with a value and a state that
satisfy `P`, or with an error and a state that satisfy `Q`. A `do` block is taken apart from its
front by `Outcome.bind`.
-/

set_option autoImplicit false

namespace ConcurrentCyclone.Transition

universe u

variable {ε σ α β : Type u} {s : σ}

/-- Run from `s`, the computation ends with a value and a state that satisfy `P`, or it throws, with
an error and a state that satisfy `Q`. -/
def Outcome (m : EStateM ε σ α) (s : σ) (P : α → σ → Prop) (Q : ε → σ → Prop) : Prop :=
  match m s with
  | .ok a t => P a t
  | .error e t => Q e t

variable {m : EStateM ε σ α} {f : α → EStateM ε σ β} {P : α → σ → Prop} {Q : ε → σ → Prop}
  {P' : β → σ → Prop}

variable {a : α} {e : ε} {t : σ} {Q1 : ε → σ → Prop}

theorem outcome_pure (h : P a s) : Outcome (pure a : EStateM ε σ α) s P Q := h

theorem outcome_throw (h : Q e s) : Outcome (throw e : EStateM ε σ α) s P Q := h

/-- A block that starts by reading the state. -/
theorem get_bind {f : σ → EStateM ε σ β} : (get >>= f) s = f s s := rfl

theorem outcome_get_bind {f : σ → EStateM ε σ β} {Q : ε → σ → Prop} :
    Outcome (get >>= f) s P' Q ↔ Outcome (f s) s P' Q :=
  Iff.rfl

theorem outcome_modify {f : σ → σ} {P : PUnit → σ → Prop} (h : P ⟨⟩ (f s)) :
    Outcome (modify f : EStateM ε σ PUnit) s P Q := h

section

variable (h : Outcome m s P Q)

include h

theorem Outcome.of_ok (hrun : m s = .ok a t) : P a t := by
  unfold Outcome at h
  rw [hrun] at h
  exact h

theorem Outcome.mono {P1 : α → σ → Prop}
    (hP : ∀ a t, P a t → P1 a t) (hQ : ∀ e t, Q e t → Q1 e t) : Outcome m s P1 Q1 := by
  unfold Outcome at h ⊢
  cases hrun : m s with
  | ok a t =>
    rw [hrun] at h
    exact hP a t h
  | error e t =>
    rw [hrun] at h
    exact hQ e t h

/-- One step of a `do` block: an error of the step is an error of the block, and what the step
ensures must be enough for the rest. -/
theorem Outcome.bind
    (hrest : ∀ a t, P a t → Outcome (f a) t P' Q1) (herror : ∀ e t, Q e t → Q1 e t) :
    Outcome (m >>= f) s P' Q1 := by
  show Outcome (EStateM.bind m f) s P' Q1
  unfold Outcome EStateM.bind
  unfold Outcome at h
  cases hrun : m s with
  | ok a t =>
    rw [hrun] at h
    exact hrest a t h
  | error e t =>
    rw [hrun] at h
    exact herror e t h

/-- A handler goes on from the state at which the error was thrown. -/
theorem Outcome.tryCatch {handle : ε → EStateM ε σ α} {Q1 : ε → σ → Prop}
    (hhandle : ∀ e t, Q e t → Outcome (handle e) t P Q1) : Outcome (tryCatch m handle) s P Q1 := by
  show Outcome (EStateM.tryCatch m handle) s P Q1
  unfold Outcome EStateM.tryCatch
  unfold Outcome at h
  cases hrun : m s with
  | ok a t =>
    rw [hrun] at h
    exact h
  | error e t =>
    rw [hrun] at h
    exact hhandle e t h

end

/-- What a block does when its first step ends with a value. -/
theorem bind_of_ok (h : m s = .ok a t) : (m >>= f) s = f a t := by
  show EStateM.bind m f s = f a t
  unfold EStateM.bind
  rw [h]

theorem bind_of_error (h : m s = .error e t) : (m >>= f) s = .error e t := by
  show EStateM.bind m f s = .error e t
  unfold EStateM.bind
  rw [h]

/-- Only the end of the first step matters. -/
theorem bind_congr_run {m' : EStateM ε σ α} {s' : σ} (h : m' s' = m s) :
    (m' >>= f) s' = (m >>= f) s := by
  show EStateM.bind m' f s' = EStateM.bind m f s
  unfold EStateM.bind
  rw [h]

theorem tryCatch_of_ok {handle : ε → EStateM ε σ α} (h : m s = .ok a t) :
    tryCatch m handle s = .ok a t := by
  show EStateM.tryCatch m handle s = .ok a t
  unfold EStateM.tryCatch
  simp only [h]

end ConcurrentCyclone.Transition
