import Mathlib.Algebra.Order.Group.Defs
import Mathlib.Data.Finset.Max
import Mathlib.Data.Finset.Option
import Mathlib.Data.Finset.Union
import Mathlib.Data.Set.Insert
import Mathlib.Order.Bounds.Basic
import Mathlib.Tactic.Abel
import Mathlib.Tactic.Linarith

/-!
# Difference constraints and shortest walks

A difference constraint bounds `x - y` from above. A set of constraints is a weighted graph: the
constraint `x - y ≤ a` is an edge from `x` to `y` of weight `a`. A table of distances is exact for a
set of constraints if each entry is the least weight of a walk (`Exact`). An exact table over
finitely many vertices has a solution (`Exact.feasible`), and a closed walk of negative weight
excludes one (`not_feasible_of_walk`).

`relax` is the table after one more edge; `Exact.relax` says that it is exact for the larger set if
the new edge closes no negative walk.
-/

set_option autoImplicit false

namespace ConcurrentCyclone.Difference

/-- The constraint `x - y ≤ weight`. -/
structure Bound (N A : Type) where
  x : N
  y : N
  weight : A
  deriving DecidableEq

section Walks

variable {N A : Type} [AddCommGroup A]

/-- A walk along constraints of `C`, with the sum of their weights. -/
inductive Walk (C : Set (Bound N A)) : N → N → A → Prop
  | nil (x : N) : Walk C x x 0
  | cons {x y z : N} {a w : A} : ⟨x, y, a⟩ ∈ C → Walk C y z w → Walk C x z (a + w)

variable {C C' : Set (Bound N A)} {x y z : N} {a b w : A}

theorem Walk.single (h : (⟨x, y, a⟩ : Bound N A) ∈ C) : Walk C x y a := by
  simpa using Walk.cons h (.nil y)

theorem Walk.append (h1 : Walk C x y a) (h2 : Walk C y z b) : Walk C x z (a + b) := by
  induction h1 with
  | nil x => simpa using h2
  | cons hc _ ih =>
    rw [add_assoc]
    exact .cons hc (ih h2)

theorem Walk.mono (hsub : C ⊆ C') (h : Walk C x y w) : Walk C' x y w := by
  induction h with
  | nil x => exact .nil x
  | cons hc _ ih => exact .cons (hsub hc) ih

/-- Both ends of a walk between two vertices are ends of constraints. -/
theorem Walk.mem_ends {P : N → Prop} (hC : ∀ c ∈ C, P c.x ∧ P c.y) (h : Walk C x y w) :
    x = y ∨ P x ∧ P y := by
  induction h with
  | nil x => exact .inl rfl
  | cons hc _ ih =>
    refine .inr ⟨(hC _ hc).1, ?_⟩
    rcases ih with rfl | ⟨_, hz⟩
    · exact (hC _ hc).2
    · exact hz

variable [LinearOrder A]

/-- The assignment `v` meets the constraint. -/
def Bound.Holds (v : N → A) (c : Bound N A) : Prop := v c.x - v c.y ≤ c.weight

/-- Some assignment meets all constraints. -/
def Feasible (C : Set (Bound N A)) : Prop := ∃ v : N → A, ∀ c ∈ C, c.Holds v

variable [IsOrderedAddMonoid A]

/-- The weight of a walk bounds the difference of its ends. -/
theorem Walk.holds {v : N → A} (hv : ∀ c ∈ C, c.Holds v) (h : Walk C x y w) : v x - v y ≤ w := by
  induction h with
  | nil x => simp
  | @cons x y z a w hc _ ih =>
    have hstep : v x - v y ≤ a := hv _ hc
    calc v x - v z = (v x - v y) + (v y - v z) := by abel
      _ ≤ a + w := add_le_add hstep ih

/-- A closed walk of negative weight excludes every solution. -/
theorem not_feasible_of_walk (h : Walk C x x w) (hw : w < 0) : ¬Feasible C := by
  rintro ⟨v, hv⟩
  have hle := h.holds hv
  rw [sub_self] at hle
  exact absurd hle (not_le.2 hw)

end Walks

/-! ## Tables of distances -/

/-- A table of distances; a missing entry is infinite. -/
abbrev Table (N A : Type) := N → N → Option A

/-- The least of an entry and a further weight. -/
def shorter {A : Type} [LinearOrder A] (d : Option A) (e : A) : A := d.elim e fun d => min d e

theorem shorter_le_left {A : Type} [LinearOrder A] (d e : A) : shorter (some d) e ≤ d := by
  simp [shorter]

theorem shorter_le_right {A : Type} [LinearOrder A] (o : Option A) (e : A) : shorter o e ≤ e := by
  cases o <;> simp [shorter]

section Tables

variable {N A : Type} [AddCommGroup A] [LinearOrder A]

/-- Every entry is the least weight of a walk, and a missing entry means that there is none. -/
structure Exact (D : Table N A) (C : Set (Bound N A)) : Prop where
  least : ∀ {x y d}, D x y = some d → IsLeast {w | Walk C x y w} d
  complete : ∀ {x y w}, Walk C x y w → ∃ d, D x y = some d

/-- The table with one more edge, from `i` to `j` of weight `a`. -/
def relax (D : Table N A) (i j : N) (a : A) : Table N A := fun x y =>
  match D x i, D j y with
  | some d, some e => some (shorter (D x y) (d + (a + e)))
  | _, _ => D x y

variable {D : Table N A} {C : Set (Bound N A)} {i j x y z : N} {a d e w : A}

section

variable (h : Exact D C)

include h

theorem Exact.le_of_walk (hd : D x y = some d) (hw : Walk C x y w) : d ≤ w :=
  (h.least hd).2 hw

theorem Exact.walk (hd : D x y = some d) : Walk C x y d := (h.least hd).1

theorem Exact.exists_le (hw : Walk C x y w) : ∃ d, D x y = some d ∧ d ≤ w := by
  obtain ⟨d, hd⟩ := h.complete hw
  exact ⟨d, hd, h.le_of_walk hd hw⟩

/-- An exact table is determined by its set of constraints. -/
theorem Exact.eq_some_iff : D x y = some d ↔ IsLeast {w | Walk C x y w} d := by
  refine ⟨h.least, fun hleast => ?_⟩
  obtain ⟨e, he⟩ := h.complete hleast.1
  rw [he, (h.least he).unique hleast]

theorem Exact.eq_none_iff : D x y = none ↔ ∀ w, ¬Walk C x y w := by
  constructor
  · intro hnone w hw
    obtain ⟨d, hd⟩ := h.complete hw
    simp [hnone] at hd
  · intro hwalk
    cases hd : D x y with
    | none => rfl
    | some d => exact absurd (h.walk hd) (hwalk d)

/-- The triangle inequality. -/
theorem Exact.triangle (hd : D x y = some d) (he : D y z = some e) :
    ∃ f, D x z = some f ∧ f ≤ d + e :=
  h.exists_le ((h.walk hd).append (h.walk he))

end

/-- Entries that are weights of walks, and not larger than that of any walk. -/
theorem exact_of_le (hwalk : ∀ {x y d}, D x y = some d → Walk C x y d)
    (hle : ∀ {x y w}, Walk C x y w → ∃ f, D x y = some f ∧ f ≤ w) : Exact D C := by
  refine ⟨fun hd => ⟨hwalk hd, fun w hw => ?_⟩, fun hw => (hle hw).imp fun _ => And.left⟩
  obtain ⟨f, hf, hfw⟩ := hle hw
  rw [hd, Option.some.injEq] at hf
  exact hf ▸ hfw

theorem relax_of_some (hd : D x i = some d) (he : D j y = some e) :
    relax D i j a x y = some (shorter (D x y) (d + (a + e))) := by
  simp [relax, hd, he]

theorem relax_of_none (h : D x i = none ∨ D j y = none) : relax D i j a x y = D x y := by
  unfold relax
  rcases h with h | h
  · simp [h]
  · cases D x i <;> simp [h]

/-- An entry of the old table is not shorter than the new one. -/
theorem relax_le (hd : D x y = some d) : ∃ f, relax D i j a x y = some f ∧ f ≤ d := by
  cases hxi : D x i with
  | none => exact ⟨d, by rw [relax_of_none (.inl hxi), hd], le_rfl⟩
  | some d' =>
    cases hjy : D j y with
    | none => exact ⟨d, by rw [relax_of_none (.inr hjy), hd], le_rfl⟩
    | some e' =>
      refine ⟨_, relax_of_some hxi hjy, ?_⟩
      rw [hd]
      exact shorter_le_left d _

/-- The cases of an entry of the new table. -/
theorem relax_cases (h : relax D i j a x y = some w) :
    D x y = some w ∨ ∃ d e, D x i = some d ∧ D j y = some e ∧ w = d + (a + e) := by
  cases hxi : D x i with
  | none => exact .inl (by rwa [relax_of_none (.inl hxi)] at h)
  | some d =>
    cases hjy : D j y with
    | none => exact .inl (by rwa [relax_of_none (.inr hjy)] at h)
    | some e =>
      rw [relax_of_some hxi hjy, Option.some.injEq] at h
      cases hxy : D x y with
      | none => exact .inr ⟨d, e, rfl, rfl, by simpa [shorter, hxy] using h.symm⟩
      | some f =>
        simp only [hxy, shorter, Option.elim_some] at h
        rcases min_choice f (d + (a + e)) with hmin | hmin
        · exact .inl (by rw [← h, hmin])
        · exact .inr ⟨d, e, rfl, rfl, by rw [← h, hmin]⟩

variable [IsOrderedAddMonoid A]

section Relax

variable (hcycle : ∀ d, D j i = some d → 0 ≤ d + a)

include hcycle

/-- The distances from `j` do not change: a detour over the new edge comes back to `j`. -/
theorem relax_from (y : N) : relax D i j a j y = D j y := by
  cases hji : D j i with
  | none => exact relax_of_none (.inl hji)
  | some d =>
    cases hjy : D j y with
    | none => rw [relax_of_none (.inr hjy), hjy]
    | some e =>
      rw [relax_of_some hji hjy, hjy]
      have hle : e ≤ d + (a + e) := by
        rw [← add_assoc]
        exact le_add_of_nonneg_left (hcycle d hji)
      simp [shorter, hle]

/-- The distances to `i` do not change. -/
theorem relax_to (x : N) : relax D i j a x i = D x i := by
  cases hxi : D x i with
  | none => rw [relax_of_none (.inl hxi), hxi]
  | some d =>
    cases hji : D j i with
    | none => rw [relax_of_none (.inr hji), hxi]
    | some e =>
      rw [relax_of_some hxi hji, hxi]
      have hle : d ≤ d + (a + e) := by
        rw [add_comm a e]
        exact le_add_of_nonneg_right (hcycle e hji)
      simp [shorter, hle]

variable (h : Exact D C)

include h

/-- A closed walk over the new edge is not negative. -/
theorem Exact.detour_nonneg (hd : D x i = some d) (he : D j x = some e) : 0 ≤ d + (a + e) := by
  obtain ⟨f, hf, hle⟩ := h.triangle he hd
  calc 0 ≤ f + a := hcycle f hf
    _ ≤ (e + d) + a := by gcongr
    _ = d + (a + e) := by abel

/-- The new table has an entry for every walk of the larger set, and no larger one. -/
theorem Exact.relax_le_walk (hw : Walk (insert ⟨i, j, a⟩ C) x y w) :
    ∃ f, relax D i j a x y = some f ∧ f ≤ w := by
  induction hw with
  | nil x =>
    obtain ⟨d, hd, hd0⟩ := h.exists_le (Walk.nil x)
    obtain ⟨f, hf, hle⟩ := relax_le (i := i) (j := j) (a := a) hd
    exact ⟨f, hf, hle.trans hd0⟩
  | @cons x z y b w hc _ ih =>
    obtain ⟨f, hf, hfw⟩ := ih
    rcases hc with hc | hc
    · -- the new edge, from `i` to `j`: the rest is a walk from `j`, whose distances are old
      cases hc
      rw [relax_from hcycle] at hf
      obtain ⟨d, hd, hd0⟩ := h.exists_le (Walk.nil i)
      refine ⟨_, relax_of_some hd hf, (shorter_le_right _ _).trans ?_⟩
      calc d + (a + f) ≤ 0 + (a + w) := add_le_add hd0 (by gcongr)
        _ = a + w := zero_add _
    · -- an old edge in front of a walk
      obtain ⟨d, hd, hdb⟩ := h.exists_le (Walk.single hc)
      rcases relax_cases hf with hzy | ⟨d', e', hzi, hjy, rfl⟩
      · obtain ⟨g, hg, hle⟩ := h.triangle hd hzy
        obtain ⟨g', hg', hle'⟩ := relax_le (i := i) (j := j) (a := a) hg
        exact ⟨g', hg', hle'.trans (hle.trans (add_le_add hdb hfw))⟩
      · obtain ⟨g, hg, hle⟩ := h.triangle hd hzi
        refine ⟨_, relax_of_some hg hjy, (shorter_le_right _ _).trans ?_⟩
        calc g + (a + e') ≤ (d + d') + (a + e') := by gcongr
          _ = d + (d' + (a + e')) := add_assoc _ _ _
          _ ≤ b + w := add_le_add hdb hfw

/-- One more edge that closes no negative walk: the new table is exact. -/
theorem Exact.relax : Exact (relax D i j a) (insert ⟨i, j, a⟩ C) := by
  refine exact_of_le (fun hd => ?_) (h.relax_le_walk hcycle)
  rcases relax_cases hd with hxy | ⟨e, f, hxi, hjy, rfl⟩
  · exact (h.walk hxy).mono (Set.subset_insert _ _)
  · refine ((h.walk hxi).mono (Set.subset_insert _ _)).append ?_
    exact .cons (Set.mem_insert _ _) ((h.walk hjy).mono (Set.subset_insert _ _))

end Relax

/-- A constraint that is implied changes no distance. -/
theorem Exact.insert_of_le (h : Exact D C) (hd : D i j = some d) (hle : d ≤ a) :
    Exact D (insert ⟨i, j, a⟩ C) := by
  refine exact_of_le (fun he => (h.walk he).mono (Set.subset_insert _ _)) fun hw => ?_
  induction hw with
  | nil x => exact h.exists_le (.nil x)
  | @cons x z y b w hc _ ih =>
    obtain ⟨f, hf, hfw⟩ := ih
    have hedge : ∃ g, D x z = some g ∧ g ≤ b := by
      rcases hc with hc | hc
      · cases hc
        exact ⟨d, hd, hle⟩
      · exact h.exists_le (Walk.single hc)
    obtain ⟨g, hg, hgb⟩ := hedge
    obtain ⟨k, hk, hkle⟩ := h.triangle hg hf
    exact ⟨k, hk, hkle.trans (add_le_add hgb hfw)⟩

/-- The new edge closes a negative walk. -/
theorem Exact.not_feasible_insert (h : Exact D C) (hd : D j i = some d) (hneg : d + a < 0) :
    ¬Feasible (insert ⟨i, j, a⟩ C) := by
  have hback : Walk (insert ⟨i, j, a⟩ C) j i d := (h.walk hd).mono (Set.subset_insert _ _)
  have hcycle : Walk (insert ⟨i, j, a⟩ C) i i (a + d) := .cons (Set.mem_insert _ _) hback
  exact not_feasible_of_walk hcycle (by rwa [add_comm])

/-- An exact table over finitely many vertices has a solution: the least distance from each vertex
to any vertex. -/
theorem Exact.feasible (h : Exact D C) (S : Finset N) (hS : ∀ c ∈ C, c.x ∈ S ∧ c.y ∈ S) :
    Feasible C := by
  classical
  -- the distances from `x`; `x` itself is among the targets of every vertex of `S`
  let reach : N → Finset A := fun x => S.biUnion fun y => (D x y).toFinset
  have hmem : ∀ {x d}, d ∈ reach x ↔ ∃ y ∈ S, D x y = some d := by
    intro x d
    simp only [reach, Finset.mem_biUnion, Option.mem_toFinset, Option.mem_def]
  have hne : ∀ {x}, x ∈ S → (reach x).Nonempty := by
    intro x hx
    obtain ⟨d, hd⟩ := h.complete (Walk.nil x)
    exact ⟨d, hmem.2 ⟨x, hx, hd⟩⟩
  refine ⟨fun x => if hx : x ∈ S then (reach x).min' (hne hx) else 0, ?_⟩
  intro c hc
  obtain ⟨hx, hy⟩ := hS c hc
  simp only [Bound.Holds, dif_pos hx, dif_pos hy]
  -- the least distance from `c.y`, with the edge in front of it
  obtain ⟨z, hz, hmin⟩ := hmem.1 ((reach c.y).min'_mem (hne hy))
  obtain ⟨d, hd, hdc⟩ := h.exists_le (Walk.single hc)
  obtain ⟨f, hf, hle⟩ := h.triangle hd hmin
  have hleast := (reach c.x).min'_le f (hmem.2 ⟨z, hz, hf⟩)
  rw [sub_le_iff_le_add]
  calc (reach c.x).min' (hne hx) ≤ f := hleast
    _ ≤ d + (reach c.y).min' (hne hy) := hle
    _ ≤ c.weight + (reach c.y).min' (hne hy) := by gcongr

end Tables

end ConcurrentCyclone.Difference
