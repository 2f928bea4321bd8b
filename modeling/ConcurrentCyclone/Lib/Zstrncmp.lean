import Mathlib

/-!
# Comparison of buffers up to a length

`zstrncmp` of `lib/string.cyc`. It is to tell the order of the first `n` characters of two buffers.
It does so if they differ in a place that both have, and else only if they are equal and one of the
buffers ends with them: equal parts of longer buffers are reported as different, in both orders, and
a buffer is taken to be equal to one that it is a part of (`zstrncmp_right_iff`).
-/

set_option autoImplicit false

namespace ConcurrentCyclone.Lib

variable {α : Type} [LinearOrder α]

/-- The loop of `zstrncmp`; `none` when it finds no difference. -/
def zstrncmpLoop : Nat → List α → List α → Option Int
  | bound + 1, a :: s1, b :: s2 =>
    if a < b then some (-1) else if b < a then some 1 else zstrncmpLoop bound s1 s2
  | _, _, _ => none

def zstrncmp (s1 s2 : List α) (n : Nat) : Int :=
  if n ≤ 0 then 0
  else
    let minSize := if s1.length > s2.length then s2.length else s1.length
    let bound := if minSize > n then n else minSize
    match zstrncmpLoop bound s1 s2 with
    | some c => c
    | none =>
      if minSize ≤ bound then 0
      else if s1.length < s2.length then -1
      else 1

/-- The number tells the lexicographic order of the first `n` characters. -/
structure Tells (c : Int) (s t : List α) (n : Nat) : Prop where
  eq : c = 0 ↔ s.take n = t.take n
  lt : c < 0 ↔ s.take n < t.take n

/-- The buffers differ before `n`, in a place that both have. -/
def Differ (s t : List α) (n : Nat) : Prop :=
  s.take (min n (min s.length t.length)) ≠ t.take (min n (min s.length t.length))

variable {s t : List α} {n k : Nat}

theorem tells_cons {a : α} {c : Int} (h : Tells c s t n) : Tells c (a :: s) (a :: t) (n + 1) := by
  constructor
  · simp [h.eq]
  · simp [h.lt]

/-- The loop over characters that both buffers have: it finds no difference, or one that tells the
order of all longer parts. -/
theorem zstrncmpLoop_cases (hs : k ≤ s.length) (ht : k ≤ t.length) :
    (s.take k = t.take k ∧ zstrncmpLoop k s t = none) ∨ s.take k ≠ t.take k ∧ ∃ c,
      zstrncmpLoop k s t = some c ∧ zstrncmpLoop k t s = some (-c) ∧ ∀ n ≥ k, Tells c s t n := by
  induction k generalizing s t with
  | zero => exact .inl ⟨rfl, by unfold zstrncmpLoop; rfl⟩
  | succ k ih =>
    obtain ⟨a, s, rfl⟩ := List.exists_cons_of_length_pos (Nat.zero_lt_of_lt hs)
    obtain ⟨b, t, rfl⟩ := List.exists_cons_of_length_pos (Nat.zero_lt_of_lt ht)
    rcases lt_trichotomy a b with hab | rfl | hab
    · refine .inr ⟨by simp [hab.ne], -1, by simp [zstrncmpLoop, hab],
        by simp [zstrncmpLoop, hab, hab.not_gt], fun n hn => ?_⟩
      obtain ⟨n, rfl⟩ := Nat.exists_eq_add_of_lt hn
      constructor <;> simp [List.cons_lt_cons_iff, hab, hab.ne]
    · rcases ih (Nat.le_of_succ_le_succ hs) (Nat.le_of_succ_le_succ ht) with
        ⟨heq, hloop⟩ | ⟨hne, c, hloop, hback, htells⟩
      · exact .inl ⟨by simp [heq], by simpa [zstrncmpLoop] using hloop⟩
      · refine .inr ⟨by simpa using hne, c, by simpa [zstrncmpLoop] using hloop,
          by simpa [zstrncmpLoop] using hback, fun n hn => ?_⟩
        obtain ⟨n, rfl⟩ := Nat.exists_eq_add_of_lt (Nat.zero_lt_of_lt hn)
        exact tells_cons (htells _ (by omega))
    · refine .inr ⟨by simp [hab.ne'], 1, by simp [zstrncmpLoop, hab, hab.not_gt],
        by simp [zstrncmpLoop, hab], fun n hn => ?_⟩
      obtain ⟨n, rfl⟩ := Nat.exists_eq_add_of_lt hn
      refine ⟨by simp [hab.ne'], iff_of_false (by decide) fun h => ?_⟩
      exact (List.cons_lt_cons_iff.1 h).elim hab.not_gt fun h => hab.ne' h.1

theorem zstrncmp_eq (hn : 0 < n) : zstrncmp s t n =
    (zstrncmpLoop (min n (min s.length t.length)) s t).getD
      (if min s.length t.length ≤ n then 0 else if s.length < t.length then -1 else 1) := by
  have hmin : (if s.length > t.length then t.length else s.length) = min s.length t.length := by
    split <;> omega
  have hbound : (if min s.length t.length > n then n else min s.length t.length) =
      min n (min s.length t.length) := by split <;> omega
  have hend : min s.length t.length ≤ min n (min s.length t.length) ↔
      min s.length t.length ≤ n := by omega
  simp only [zstrncmp, Nat.not_le.2 hn, if_false, hmin, hbound, hend]
  cases zstrncmpLoop (min n (min s.length t.length)) s t <;> rfl

/-- The answer is right, and the opposite one for the buffers in the other order, exactly if they
differ in a place that both have, or they are equal up to `n` and one of them ends there. -/
theorem zstrncmp_right_iff (s t : List α) (n : Nat) :
    (Tells (zstrncmp s t n) s t n ∧ zstrncmp s t n = -zstrncmp t s n) ↔
      n = 0 ∨ Differ s t n ∨ s.take n = t.take n ∧ min s.length t.length ≤ n := by
  obtain rfl | hn := Nat.eq_zero_or_pos n
  · exact iff_of_true ⟨⟨by simp [zstrncmp], by simp [zstrncmp]⟩, by simp [zstrncmp]⟩ (.inl rfl)
  rw [zstrncmp_eq hn, zstrncmp_eq hn, Nat.min_comm t.length]
  have hs : min n (min s.length t.length) ≤ s.length := by omega
  have ht : min n (min s.length t.length) ≤ t.length := by omega
  rcases zstrncmpLoop_cases hs ht with ⟨heq, hloop⟩ | ⟨hne, c, hloop, hback, htells⟩
  · have hback : zstrncmpLoop (min n (min s.length t.length)) t s = none := by
      obtain h | h := zstrncmpLoop_cases ht hs
      · exact h.2
      · exact absurd heq.symm h.1
    rw [hloop, hback]
    by_cases hend : min s.length t.length ≤ n
    · rw [if_pos hend, if_pos hend]
      constructor
      · rintro ⟨h, -⟩
        exact .inr (.inr ⟨h.eq.1 rfl, hend⟩)
      · rintro (rfl | h | ⟨h, -⟩)
        · exact absurd hn (Nat.lt_irrefl 0)
        · exact absurd heq h
        · exact ⟨⟨iff_of_true rfl h, by simp [h]⟩, rfl⟩
    · rw [if_neg hend]
      refine iff_of_false (fun h => ?_) (by rintro (rfl | h | ⟨-, h⟩) <;> contradiction)
      rw [Nat.min_eq_left (Nat.le_of_not_le hend)] at heq
      have hzero := h.1.eq.2 heq
      split at hzero <;> contradiction
  · rw [hloop, hback]
    exact iff_of_true ⟨htells n (Nat.min_le_left _ _), by simp⟩ (.inr (.inl hne))

theorem not_zstrncmp_right :
    zstrncmp ['a', 'b'] ['a', 'b'] 1 = 1 ∧ zstrncmp ['a'] ['a', 'b'] 2 = 0 := by
  decide

end ConcurrentCyclone.Lib
