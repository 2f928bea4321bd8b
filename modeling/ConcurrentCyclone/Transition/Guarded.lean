import Mathlib.Logic.Relation

/-!
# Guarded runs of a labelled transition system

A system is given by a step relation `step : σ → α → σ → Prop`. A run is guarded by `ok` when every
step of it starts in a state and with a label that `ok` admits. `Reach step ok` is reachability by
guarded runs. The file has the invariant rule (`Reach.invariant`) and the change of the guard of a
run under an invariant (`Reach.strengthen`).

A system with a partial step function `step : σ → α → Option σ` is run on a list of labels.
`Along step P` says that `P` holds of every step of such a run, up to a step that fails.
-/

set_option autoImplicit false

namespace ConcurrentCyclone.Transition

open Relation

universe u v

variable {σ : Type u} {α : Type v}

/-- One step whose start state and label the guard admits. -/
def GStep (step : σ → α → σ → Prop) (ok : σ → α → Prop) (s s' : σ) : Prop :=
  ∃ a, ok s a ∧ step s a s'

/-- Reachability by steps that the guard admits. -/
abbrev Reach (step : σ → α → σ → Prop) (ok : σ → α → Prop) : σ → σ → Prop :=
  ReflTransGen (GStep step ok)

/-- A property of the start state that every guarded step keeps holds in every reached state. -/
theorem Reach.invariant {step : σ → α → σ → Prop} {ok : σ → α → Prop} {I : σ → Prop}
    (hstep : ∀ s a s', ok s a → step s a s' → I s → I s') {s0 s : σ}
    (h : Reach step ok s0 s) (h0 : I s0) : I s := by
  induction h with
  | refl => exact h0
  | tail _ hst ih =>
    obtain ⟨a, ha, hs⟩ := hst
    exact hstep _ a _ ha hs ih

variable {step P : σ → α → σ → Prop} {ok : σ → α → Prop} {I : σ → Prop} {s0 s : σ}

/-- If the invariant of the runs of one guard makes another guard admit their steps, then the runs
of the first are runs of the second, and the invariant holds. -/
theorem Reach.strengthen {ok' : σ → α → Prop} (himp : ∀ s a, I s → ok s a → ok' s a)
    (hstep : ∀ s a s', ok' s a → step s a s' → I s → I s')
    (h : Reach step ok s0 s) (h0 : I s0) : Reach step ok' s0 s ∧ I s := by
  induction h with
  | refl => exact ⟨ReflTransGen.refl, h0⟩
  | tail _ hst ih =>
    obtain ⟨hreach, hI⟩ := ih
    obtain ⟨a, ha, hs⟩ := hst
    have ha' := himp _ a hI ha
    exact ⟨hreach.tail ⟨a, ha', hs⟩, hstep _ a _ ha' hs hI⟩

/-! ## Runs on a list of labels -/

/-- Run a partial step function on labels that the guard admits. -/
def runWhen (step : σ → α → Option σ) (ok : σ → α → Prop) [∀ s a, Decidable (ok s a)] :
    σ → List α → Option σ
  | s, [] => some s
  | s, a :: as => if ok s a then (step s a).bind fun s' => runWhen step ok s' as else none

/-- A computed run is a guarded run. -/
theorem reach_of_runWhen {next : σ → α → Option σ} [∀ s a, Decidable (ok s a)]
    (hnext : ∀ s a s', next s a = some s' → step s a s') {as : List α} {s s' : σ}
    (h : runWhen next ok s as = some s') : Reach step ok s s' := by
  induction as generalizing s with
  | nil =>
    cases h
    exact ReflTransGen.refl
  | cons a as ih =>
    rw [runWhen, Option.ite_none_right_eq_some] at h
    obtain ⟨hok, hbind⟩ := h
    obtain ⟨m, hm, hrest⟩ := Option.bind_eq_some_iff.1 hbind
    exact ReflTransGen.head ⟨a, hok, hnext s a m hm⟩ (ih hrest)

/-- Every step of the run has the property. -/
def Along (step : σ → α → Option σ) (P : σ → α → σ → Prop) : σ → List α → Prop
  | _, [] => True
  | s, a :: as => ∀ s', step s a = some s' → P s a s' ∧ Along step P s' as

variable {step : σ → α → Option σ}

/-- Two properties of steps hold along the same runs if they agree where an invariant holds, and the
second one keeps the invariant. -/
theorem along_iff {Q : σ → α → σ → Prop}
    (hagree : ∀ s a s', I s → step s a = some s' → (P s a s' ↔ Q s a s'))
    (hkeep : ∀ s a s', I s → step s a = some s' → Q s a s' → I s') (hs : I s)
    (as : List α) : Along step P s as ↔ Along step Q s as := by
  induction as generalizing s with
  | nil => exact Iff.rfl
  | cons a as ih =>
    refine forall₂_congr fun s' hstep => ?_
    rw [hagree s a s' hs hstep]
    exact and_congr_right fun hq => ih (hkeep s a s' hs hstep hq)

end ConcurrentCyclone.Transition
