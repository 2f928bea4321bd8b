import Mathlib.Data.Finset.Card
import Mathlib.Algebra.BigOperators.Group.Finset.Basic
import Mathlib.Algebra.BigOperators.Group.Finset.Piecewise
import Mathlib.Algebra.BigOperators.Ring.Finset

/-!
# Counting the components of a product state

A state with one component per index is a function `f : ι → β`. `tally T f p` is the number of
indices in `T` whose component has the property `p`; changing one component changes it by the
difference of the two indicators (`tally_change`).
-/

set_option autoImplicit false

namespace ConcurrentCyclone.Transition

open Function

universe u v

variable {ι : Type u} {β : Type v}

variable {f : ι → β} {T : Finset ι} {p : β → Bool} {i : ι}

/-- A relation between the components of two product states, after a change of both at one index. -/
theorem forall_update₂ {γ : Type v} [DecidableEq ι] {g : ι → γ} {Q : β → γ → Prop}
    (h : ∀ i, Q (f i) (g i)) {j : ι} {b : β} {c : γ} (hj : Q b c) (i : ι) :
    Q (update f j b i) (update g j c i) := by
  by_cases hi : i = j
  · subst hi
    rwa [update_self, update_self]
  · rw [update_of_ne hi, update_of_ne hi]
    exact h i

/-- A property of all components, after a change at one index. -/
theorem forall_update [DecidableEq ι] {Q : β → Prop} (h : ∀ i, Q (f i)) {j : ι} {b : β}
    (hj : Q b) : ∀ i, Q (update f j b i) :=
  (forall_update_iff f fun _ => Q).2 ⟨hj, fun i _ => h i⟩

/-- The number of indices of `T` whose component satisfies `p`. -/
def tally (T : Finset ι) (f : ι → β) (p : β → Bool) : Int := (T.filter fun i => p (f i)).card

theorem tally_nonneg (T : Finset ι) (f : ι → β) (p : β → Bool) : 0 ≤ tally T f p := by
  unfold tally
  omega

/-- The tally is the sum of the indicators. -/
theorem tally_eq_sum (T : Finset ι) (f : ι → β) (p : β → Bool) :
    tally T f p = ∑ i ∈ T, (p (f i)).toInt := by
  rw [tally, Finset.card_filter]
  push_cast
  apply Finset.sum_congr rfl
  intro i _
  cases p (f i) <;> rfl

/-- Changing one component. -/
theorem tally_change [DecidableEq ι] {g : ι → β}
    (hi : i ∈ T) (hrest : ∀ j, j ≠ i → p (g j) = p (f j)) :
    tally T g p = tally T f p - (p (f i)).toInt + (p (g i)).toInt := by
  rw [tally_eq_sum, tally_eq_sum, ← Finset.add_sum_erase T _ hi, ← Finset.add_sum_erase T _ hi]
  have hsum : ∑ j ∈ T.erase i, (p (g j)).toInt = ∑ j ∈ T.erase i, (p (f j)).toInt := by
    apply Finset.sum_congr rfl
    intro j hj
    rw [hrest j (Finset.ne_of_mem_erase hj)]
  omega

/-- A tally over one more index. -/
theorem tally_insert [DecidableEq ι]
    (hi : i ∉ T) : tally (insert i T) f p = tally T f p + (p (f i)).toInt := by
  rw [tally_eq_sum, tally_eq_sum, Finset.sum_insert hi]
  omega

/-- A tally depends on the components in the set only. -/
theorem tally_congr {g : ι → β} (h : ∀ i ∈ T, p (g i) = p (f i)) : tally T g p = tally T f p := by
  rw [tally_eq_sum, tally_eq_sum]
  apply Finset.sum_congr rfl
  intro i hi
  rw [h i hi]

/-- A tally is zero exactly when no index has the property. -/
theorem tally_eq_zero_iff : tally T f p = 0 ↔ ∀ i ∈ T, p (f i) = false := by
  rw [tally]
  simp

/-- A tally is positive exactly when some index has the property. -/
theorem tally_pos_iff : 0 < tally T f p ↔ ∃ i ∈ T, p (f i) = true := by
  have hn := tally_nonneg T f p
  rw [lt_iff_le_and_ne, ne_comm, ne_eq, tally_eq_zero_iff]
  simp [hn]

/-- Tallies of properties that exclude each other count no index twice. -/
theorem tally_add_le {q : β → Bool} (h : ∀ i ∈ T, ¬ (p (f i) = true ∧ q (f i) = true)) :
    tally T f p + tally T f q ≤ T.card := by
  have hdisj : Disjoint (T.filter fun i => p (f i)) (T.filter fun i => q (f i)) :=
    Finset.disjoint_filter.2 fun i hi hp hq => h i hi ⟨hp, hq⟩
  rw [tally, tally]
  norm_cast
  rw [← Finset.card_disjUnion _ _ hdisj]
  refine Finset.card_le_card fun i hi => ?_
  rcases Finset.mem_disjUnion.1 hi with hi | hi <;> exact Finset.mem_of_mem_filter i hi

/-- Two indices with the property make the tally at least two. -/
theorem eq_of_tally_lt_two (h : tally T f p < 2)
    {j : ι} (hi : i ∈ T) (hj : j ∈ T) (hpi : p (f i) = true) (hpj : p (f j) = true) : i = j := by
  unfold tally at h
  have hcard : (T.filter fun i => p (f i)).card ≤ 1 := by omega
  rw [Finset.card_le_one] at hcard
  exact hcard i (Finset.mem_filter.2 ⟨hi, hpi⟩) j (Finset.mem_filter.2 ⟨hj, hpj⟩)

end ConcurrentCyclone.Transition
