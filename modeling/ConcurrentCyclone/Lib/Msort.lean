import Mathlib.Algebra.Group.Nat.Defs
import Mathlib.Data.List.Sort
import Mathlib.Data.Nat.Log

/-!
# Merge sort of arrays

`Array::msort` of `lib/array.cyc` merges runs of 1, 2, 4, … elements, in each pass from one of two
buffers into the other. The last pass leaves its result in the buffer that it writes, and nothing
copies it back: the flag `swapped` is never set. So the array argument is sorted, and stably,
exactly for the lengths with an even number of passes (`msort_sorts`).
-/

set_option autoImplicit false

namespace ConcurrentCyclone.Lib.Msort

universe u

section Model

variable {α : Type u} (lessEq : α → α → Int)

/-- The three `while` loops, on the two runs that are merged. -/
def mergeRuns (l r : List α) : List α := l.merge r fun x y => lessEq x y ≤ 0

/-- The loop over `start`, with runs of `2 ^ k` elements: what it writes when it reads this list. -/
def pass (k : Nat) : List α → List α
  | [] => []
  | x :: l =>
    mergeRuns lessEq ((x :: l).take (2 ^ k)) (((x :: l).drop (2 ^ k)).take (2 ^ k)) ++
      pass k (((x :: l).drop (2 ^ k)).drop (2 ^ k))
  termination_by l => l.length
  decreasing_by
    have := Nat.two_pow_pos k
    simp only [List.length_drop, List.length_cons]
    omega

/-- The buffers `from` and `to`, and whether `to` is the array argument. -/
structure Buffers (α : Type u) where
  src : List α
  dst : List α
  argIsDst : Bool

/-- The loop over `stepsize`, which is `2 ^ k`. -/
def loop (len k : Nat) (b : Buffers α) : Buffers α :=
  if 2 ^ k < len then loop len (k + 1) ⟨b.dst, pass lessEq k b.dst, !b.argIsDst⟩ else b
  termination_by len - k
  decreasing_by
    have := Nat.lt_two_pow_self (n := k)
    omega

/-- `msort`: the array afterwards, or the exception. The sums do not overflow for `len` up to
`2 ^ 30`. -/
def msort (arr : List α) (len : Int) : Option (List α) :=
  if arr.length < len ∨ len < 0 then none
  else
    let n := len.toNat
    -- the second buffer is filled with `arr[0]`
    let b := loop lessEq n 0 ⟨(arr.take n).map fun x => arr.headD x, arr.take n, true⟩
    some ((if b.argIsDst then b.dst else b.src) ++ arr.drop n)

end Model

variable {α : Type u} {lessEq : α → α → Int}

/-- Neither element has to be before the other one. -/
def Same (lessEq : α → α → Int) (z x : α) : Bool := lessEq z x ≤ 0 ∧ lessEq x z ≤ 0

/-- The second list is a sorted and stable permutation of the first one. -/
structure Sorts (lessEq : α → α → Int) (l l' : List α) : Prop where
  perm : l'.Perm l
  sorted : l'.Pairwise fun x y => lessEq x y ≤ 0
  stable : ∀ z, l'.filter (Same lessEq z) = l.filter (Same lessEq z)

variable {n : Nat} {l l' : List α}

/-- The list is cut in runs of `n` elements, the last one possibly shorter, and each is sorted. -/
inductive Runs (lessEq : α → α → Int) (n : Nat) : List α → List α → Prop
  | last {l l' : List α} : Sorts lessEq l l' → l.length ≤ n → Runs lessEq n l l'
  | cons {l l' r r' : List α} : Sorts lessEq l l' → l.length = n → Runs lessEq n r r' →
      Runs lessEq n (l ++ r) (l' ++ r')

theorem Runs.perm (h : Runs lessEq n l l') : l'.Perm l := by
  induction h with
  | last h => exact h.perm
  | cons h _ _ ih => exact h.perm.append ih

theorem Runs.sorts (h : Runs lessEq n l l') (hn : l.length ≤ n) : Sorts lessEq l l' := by
  cases h with
  | last h => exact h
  | @cons _ _ r _ h hlen hr =>
    rw [List.length_append] at hn
    obtain rfl : r = [] := List.eq_nil_of_length_eq_zero (by omega)
    rw [hr.perm.eq_nil, List.append_nil, List.append_nil]
    exact h

/-- A smaller element after the first run is not in its place. -/
theorem Runs.not_sorted {m : Nat} (h : Runs lessEq m l l') (hm : 0 < m) (hmn : m < n) {x y : α}
    (hl : l = List.replicate (n - 1) x ++ [y]) (hxy : ¬ lessEq x y ≤ 0) :
    ¬ l'.Pairwise fun x y => lessEq x y ≤ 0 := by
  intro hsorted
  cases h with
  | last _ hn =>
    rw [hl, List.length_append, List.length_replicate, List.length_singleton] at hn
    omega
  | @cons a a' r r' h hlen hr =>
    have ha := congrArg (List.take m) hl
    have hr' := congrArg (List.drop m) hl
    rw [List.take_left' hlen, List.take_append_of_le_length (by simp; omega)] at ha
    rw [List.drop_left' hlen, List.drop_append_of_le_length (by simp; omega)] at hr'
    refine hxy ((List.pairwise_append.1 hsorted).2.2 x ?_ y ?_)
    · apply h.perm.mem_iff.2
      rw [ha, List.take_replicate, List.mem_replicate]
      exact ⟨by omega, rfl⟩
    · apply hr.perm.mem_iff.2
      simp [hr']

theorem pass_eq (k : Nat) (l : List α) : pass lessEq k l =
    mergeRuns lessEq (l.take (2 ^ k)) ((l.drop (2 ^ k)).take (2 ^ k)) ++
      pass lessEq k ((l.drop (2 ^ k)).drop (2 ^ k)) := by
  cases l with
  | nil => simp [pass, mergeRuns]
  | cons => rw [pass]

theorem runs_one : ∀ l : List α, Runs lessEq 1 l l
  | [] => .last ⟨.refl _, .nil, fun _ => rfl⟩ (Nat.zero_le _)
  | x :: l => .cons ⟨.refl [x], List.pairwise_singleton _ _, fun _ => rfl⟩ rfl (runs_one l)

section Passes

variable (htotal : ∀ x y, lessEq x y ≤ 0 ∨ lessEq y x ≤ 0)
  (htrans : ∀ x y z, lessEq x y ≤ 0 → lessEq y z ≤ 0 → lessEq x z ≤ 0)

include htotal htrans

theorem filter_mergeRuns {l : List α} (hl : l.Pairwise fun x y => lessEq x y ≤ 0) (r : List α)
    (z : α) : (mergeRuns lessEq l r).filter (Same lessEq z) =
      l.filter (Same lessEq z) ++ r.filter (Same lessEq z) := by
  unfold mergeRuns
  induction l generalizing r with
  | nil => simp
  | cons x l ihl =>
    obtain ⟨hx, hl'⟩ := List.pairwise_cons.1 hl
    induction r with
    | nil => simp
    | cons y r ihr =>
      rw [List.cons_merge_cons]
      split_ifs with hle
      · simp [List.filter_cons, ihl hl']
        grind
      · rw [List.filter_cons, ihr]
        -- an element like `y` is not in the left run
        have hnil : Same lessEq z y = true → (x :: l).filter (Same lessEq z) = [] := by
          intro hy
          apply List.filter_eq_nil_iff.2
          intro w hw
          grind [Same]
        grind

theorem Sorts.merge {l r l' r' : List α} (hl : Sorts lessEq l l') (hr : Sorts lessEq r r') :
    Sorts lessEq (l ++ r) (mergeRuns lessEq l' r') where
  perm := (List.merge_perm_append _).trans (hl.perm.append hr.perm)
  sorted := by
    have hmerge := @List.pairwise_merge _ (fun x y => lessEq x y ≤ 0) (by simpa using htrans)
      (by simpa using htotal) l' r'
    simp only [decide_eq_true_eq] at hmerge
    exact hmerge hl.sorted hr.sorted
  stable z := by
    rw [filter_mergeRuns htotal htrans hl.sorted, hl.stable, hr.stable, List.filter_append]

/-- One pass doubles the runs. -/
theorem Runs.pass {k : Nat} : ∀ {l l' : List α}, Runs lessEq (2 ^ k) l l' →
    Runs lessEq (2 ^ (k + 1)) l (pass lessEq k l')
  | l, l', .last h hn => by
    have hlen := h.perm.length_eq
    rw [pass_eq, List.take_of_length_le (by omega), List.drop_of_length_le (by omega)]
    simp only [mergeRuns, Msort.pass, List.take_nil, List.drop_nil, List.merge_right,
      List.append_nil]
    exact .last h (by omega)
  | _, _, @Runs.cons _ _ _ l1 l1' l2 l2' h1 hn1 (.last h2 hn2) => by
    have hlen1 := h1.perm.length_eq
    have hlen2 := h2.perm.length_eq
    rw [pass_eq, List.take_left' (by omega), List.drop_left' (by omega),
      List.take_of_length_le (by omega), List.drop_of_length_le (by omega), Msort.pass,
      List.append_nil]
    exact .last (h1.merge htotal htrans h2) (by rw [List.length_append]; omega)
  | _, _, @Runs.cons _ _ _ l1 l1' _ _ h1 hn1 (@Runs.cons _ _ _ l2 l2' r r' h2 hn2 hr) => by
    have hlen1 := h1.perm.length_eq
    have hlen2 := h2.perm.length_eq
    rw [pass_eq, List.take_left' (by omega), List.drop_left' (by omega),
      List.take_left' (by omega), List.drop_left' (by omega), ← List.append_assoc]
    exact .cons (h1.merge htotal htrans h2) (by rw [List.length_append]; omega) (Runs.pass hr)

theorem loop_spec {len k : Nat} {b : Buffers α} {l : List α} (hruns : Runs lessEq (2 ^ k) l b.dst)
    (hlen : l.length = len) : Sorts lessEq l (loop lessEq len k b).dst ∧
      ((loop lessEq len k b).argIsDst = b.argIsDst ↔ (Nat.clog 2 len - k) % 2 = 0) ∧
      (2 ^ k < len → ∃ j, 2 ^ j < len ∧ Runs lessEq (2 ^ j) l (loop lessEq len k b).src) := by
  fun_induction loop lessEq len k b with
  | case1 k b hlt ih =>
    obtain ⟨hsorts, harg, hsrc⟩ := ih (hruns.pass htotal htrans)
    have hclog : k < Nat.clog 2 len := (Nat.lt_clog_iff_pow_lt Nat.one_lt_two).2 hlt
    refine ⟨hsorts, ?_, fun _ => ?_⟩
    · rw [Bool.eq_not] at harg
      rw [← not_iff_not, ← ne_eq, harg]
      omega
    · by_cases hlt' : 2 ^ (k + 1) < len
      · exact hsrc hlt'
      · rw [loop, if_neg hlt']
        exact ⟨_, hlt, hruns⟩
  | case2 k b hle =>
    have hclog : Nat.clog 2 len ≤ k := Nat.clog_le_of_le_pow (by omega)
    refine ⟨hruns.sorts (by omega), ?_, fun hlt => absurd hlt hle⟩
    simp [Nat.sub_eq_zero_of_le hclog]

theorem msort_spec {n : Nat} {arr : List α} (hn : n ≤ arr.length) :
    ∃ out, msort lessEq arr n = some (out ++ arr.drop n) ∧
      (Nat.clog 2 n % 2 = 0 → Sorts lessEq (arr.take n) out) ∧
      (Nat.clog 2 n % 2 = 1 → ∃ j, 2 ^ j < n ∧ Runs lessEq (2 ^ j) (arr.take n) out) := by
  obtain ⟨hsorts, harg, hsrc⟩ := loop_spec htotal htrans (k := 0)
    (b := ⟨(arr.take n).map fun x => arr.headD x, arr.take n, true⟩) (runs_one (arr.take n))
    (List.length_take_of_le hn)
  simp only [msort]
  rw [if_neg (by omega), Int.toNat_natCast]
  refine ⟨_, rfl, fun heven => ?_, fun hodd => ?_⟩
  · rwa [harg.2 heven, if_pos rfl]
  · rw [if_neg fun h => by have := harg.1 h; omega]
    exact hsrc ((Nat.lt_clog_iff_pow_lt Nat.one_lt_two).1 (by omega))

/-- With an even number of passes all arrays are sorted, and with an odd number there is one, for
every comparison that tells two elements apart, that is not. -/
theorem msort_sorts (n : Nat) :
    (Nat.clog 2 n % 2 = 0 → ∀ arr : List α, n ≤ arr.length →
      ∃ out, msort lessEq arr n = some out ∧ Sorts lessEq (arr.take n) (out.take n)) ∧
    (Nat.clog 2 n % 2 = 1 → ∀ x y, ¬ lessEq x y ≤ 0 → ∃ arr : List α, arr.length = n ∧
      ∃ out, msort lessEq arr n = some out ∧ ¬ Sorts lessEq arr out) := by
  constructor
  · intro heven arr hn
    obtain ⟨out, hout, hsorts, -⟩ := msort_spec htotal htrans hn
    have hlen := (hsorts heven).perm.length_eq
    refine ⟨_, hout, ?_⟩
    rw [List.take_left' (hlen.trans (List.length_take_of_le hn))]
    exact hsorts heven
  · intro hodd x y hxy
    have hlt := (Nat.lt_clog_iff_pow_lt (y := 0) Nat.one_lt_two).1 (by omega : 0 < Nat.clog 2 n)
    have hlen : (List.replicate (n - 1) x ++ [y]).length = n := by
      simp
      omega
    obtain ⟨out, hout, -, hruns⟩ := msort_spec htotal htrans hlen.ge
    obtain ⟨j, hj, hruns⟩ := hruns hodd
    rw [List.take_of_length_le hlen.le] at hruns
    rw [List.drop_of_length_le hlen.le, List.append_nil] at hout
    refine ⟨_, hlen, out, hout, fun hsorts => ?_⟩
    exact hruns.not_sorted (Nat.two_pow_pos j) hj rfl hxy hsorts.sorted

end Passes

theorem msort_sorts_three : ∃ out, msort (fun x y : Int => x - y) [3, 1, 2] 3 = some out ∧
    Sorts (fun x y : Int => x - y) [3, 1, 2] (out.take 3) :=
  (msort_sorts (by omega) (by omega) 3).1 (by decide) [3, 1, 2] (by decide)

/-- One pass writes the two elements in order, but not to the argument. -/
theorem msort_two : msort (fun x y : Int => x - y) [2, 1] 2 = some [2, 1] := by
  simp [msort, loop, pass, mergeRuns]

end ConcurrentCyclone.Lib.Msort
