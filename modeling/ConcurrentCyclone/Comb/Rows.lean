import Mathlib.Logic.Function.Basic
import Mathlib.Data.List.Basic

/-!
# Rows in one shared table

A sparse matrix is kept in one table of cells: each row is placed at an offset of its own, only the
entries that differ from the row's default are stored, and every stored value carries the name of
its row. A row may be placed wherever the cells it needs are free, so rows overlap, and a cell of
another row reads as the default (`entry`). Placing a further row changes no earlier row
(`entry_put_other`) and the row itself is read back as it was given (`entry_put_self`).
-/

set_option autoImplicit false

namespace ConcurrentCyclone.Comb

open Function

universe u v

variable {ι : Type u} {V : Type v}

/-- The entries of a row that are stored, each with its column. -/
abbrev Row (V : Type v) := List (Nat × V)

/-- A cell is free, or holds a value of the row that is named. -/
abbrev Cells (ι : Type u) (V : Type v) := Nat → Option (ι × V)

/-- Every cell that the row needs at the offset `b` is free. -/
def Fits (m : Cells ι V) (b : Nat) (row : Row V) : Prop :=
  ∀ e ∈ row, m (b + e.1) = none

/-- Stores the row `i` at the offset `b`. -/
def put (m : Cells ι V) (i : ι) (b : Nat) : Row V → Cells ι V
  | [] => m
  | e :: row => put (update m (b + e.1) (some (i, e.2))) i b row

/-- The entry in column `c` of the row `i`, placed at `b` and with the default `d`. -/
def entry [DecidableEq ι] (m : Cells ι V) (i : ι) (b : Nat) (d : V) (c : Nat) : V :=
  match m (b + c) with
  | some (j, v) => if j = i then v else d
  | none => d

section Put

variable {m : Cells ι V} {i j : ι} {b x : Nat} {row : Row V}

theorem put_of_ne (h : ∀ e ∈ row, b + e.1 ≠ x) : put m i b row x = m x := by
  induction row generalizing m with
  | nil => rfl
  | cons e row ih =>
    obtain ⟨he, hrow⟩ := List.forall_mem_cons.1 h
    rw [put, ih hrow]
    exact update_of_ne he.symm _ _

theorem put_of_mem (hcols : row.Pairwise fun e f => e.1 ≠ f.1) {e : Nat × V} (he : e ∈ row) :
    put m i b row (b + e.1) = some (i, e.2) := by
  induction row generalizing m with
  | nil => cases he
  | cons f row ih =>
    obtain ⟨hf, hrow⟩ := List.pairwise_cons.1 hcols
    rcases List.mem_cons.1 he with rfl | he
    · have hne : ∀ g ∈ row, b + g.1 ≠ b + e.1 := by
        intro g hg heq
        exact hf g hg (Nat.add_left_cancel heq).symm
      rw [put, put_of_ne hne]
      exact update_self _ _ _
    · rw [put]
      exact ih hrow he

/-- A cell is changed only to hold a value of the row that is placed. -/
theorem put_cases (row : Row V) (x : Nat) :
    put m i b row x = m x ∨ ∃ v, put m i b row x = some (i, v) := by
  induction row generalizing m with
  | nil => exact .inl rfl
  | cons e row ih =>
    rcases ih (m := update m (b + e.1) (some (i, e.2))) with h | h
    · by_cases hx : x = b + e.1
      · subst hx
        rw [update_self] at h
        exact .inr ⟨e.2, h⟩
      · rw [update_of_ne hx] at h
        exact .inl h
    · exact .inr h

/-- A cell that is taken stays as it is when a row is placed where it fits. -/
theorem put_of_taken (hfit : Fits m b row) {o : ι × V} (ho : m x = some o) :
    put m i b row x = some o := by
  rw [put_of_ne, ho]
  intro e he heq
  have hfree := hfit e he
  rw [heq, ho] at hfree
  cases hfree

variable [DecidableEq ι]

/-- Placing a row where it fits changes no other row. -/
theorem entry_put_other (hfit : Fits m b row) (hji : j ≠ i) (b' : Nat) (d : V) (c : Nat) :
    entry (put m i b row) j b' d c = entry m j b' d c := by
  unfold entry
  cases hm : m (b' + c) with
  | some o => rw [put_of_taken hfit hm]
  | none =>
    rcases put_cases (m := m) (i := i) (b := b) row (b' + c) with h | ⟨v, h⟩
    · rw [h, hm]
    · rw [h]
      exact if_neg hji.symm

/-- A row is read back as it was placed. -/
theorem entry_put_self (hcols : row.Pairwise fun e f => e.1 ≠ f.1)
    (hnew : ∀ x v, m x ≠ some (i, v)) (d : V) (c : Nat) :
    entry (put m i b row) i b d c = ((row.find? fun e => e.1 == c).map Prod.snd).getD d := by
  unfold entry
  cases hfind : row.find? fun e => e.1 == c with
  | some e =>
    have hec : e.1 = c := by simpa using List.find?_some hfind
    have hput := put_of_mem (m := m) (i := i) (b := b) hcols (List.mem_of_find?_eq_some hfind)
    rw [hec] at hput
    rw [hput]
    exact if_pos rfl
  | none =>
    have hne : ∀ e ∈ row, b + e.1 ≠ b + c := by
      intro e he heq
      have hec := List.find?_eq_none.1 hfind e he
      exact hec (by simpa using Nat.add_left_cancel heq)
    rw [put_of_ne hne]
    cases hm : m (b + c) with
    | none => rfl
    | some o =>
      obtain ⟨k, v⟩ := o
      have hki : k ≠ i := by
        rintro rfl
        exact hnew _ v hm
      exact if_neg hki

end Put

end ConcurrentCyclone.Comb
