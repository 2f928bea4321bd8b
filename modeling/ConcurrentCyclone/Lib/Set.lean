import Mathlib.Order.Lattice
import Mathlib.Data.List.Basic

/-!
# Sets as sorted lists

`lib/set.cyc`: a set is a sorted list without duplicates, together with its cardinality and a
comparison function. `member` stops at the first element that is larger, and `insert` relies on the
list being sorted, so both are right only if the comparisons that they make are those of a linear
order (`Compares`), as they are on elements that the function orders (`Orders`).
-/

set_option autoImplicit false

namespace ConcurrentCyclone.Lib

universe u v

/-- `struct Set`, apart from the comparison function. -/
structure CSet (α : Type u) where
  cardinality : Nat
  nodes : List α
  deriving DecidableEq

namespace CSet

variable {α : Type u} (cmp : α → α → Int)

/-- `empty`. -/
def empty : CSet α := ⟨0, []⟩

/-- `member_b`. -/
def memberB (elt : α) : List α → Bool
  | [] => false
  | x :: n =>
    let i := cmp elt x
    if i = 0 then true else if i < 0 then false else memberB elt n

/-- `member`. -/
def member (s : CSet α) (elt : α) : Bool := memberB cmp elt s.nodes

/-- The loop of `insert_b`. -/
def insertLoop (elt : α) : List α → List α
  | [] => [elt]
  | x :: n => if cmp x elt < 0 then x :: insertLoop elt n else elt :: x :: n

/-- `insert_b`. -/
def insertB (elt : α) : List α → List α
  | [] => [elt]
  | x :: n => if cmp elt x < 0 then elt :: x :: n else x :: insertLoop cmp elt n

/-- The comparisons that `member_b` makes. -/
def memberCmps (elt : α) : List α → List (α × α)
  | [] => []
  | x :: n => (elt, x) :: if cmp elt x ≤ 0 then [] else memberCmps elt n

/-- The comparisons in the loop of `insert_b`. -/
def loopCmps (elt : α) : List α → List (α × α)
  | [] => []
  | x :: n => (x, elt) :: if cmp x elt < 0 then loopCmps elt n else []

/-- The comparisons that `insert_b` makes. -/
def insertCmps (elt : α) : List α → List (α × α)
  | [] => []
  | x :: n => (elt, x) :: if cmp elt x < 0 then [] else loopCmps cmp elt n

/-- `insert`. -/
def insert (s : CSet α) (elt : α) : CSet α :=
  if s.member cmp elt then s else ⟨s.cardinality + 1, insertB cmp elt s.nodes⟩

end CSet

/-- The result of `cmp` is that of the comparison of keys in a linear order. -/
structure Compares {α : Type u} {κ : Type v} [LinearOrder κ] (cmp : α → α → Int) (key : α → κ)
    (x y : α) : Prop where
  lt_iff : cmp x y < 0 ↔ key x < key y
  eq_iff : cmp x y = 0 ↔ key x = key y

/-- On the elements with the property `dom`, `cmp` is the comparison of keys in a linear order. -/
structure Orders {α : Type u} {κ : Type v} [LinearOrder κ] (cmp : α → α → Int) (key : α → κ)
    (dom : α → Prop) : Prop where
  lt_iff : ∀ {x y}, dom x → dom y → (cmp x y < 0 ↔ key x < key y)
  eq_iff : ∀ {x y}, dom x → dom y → (cmp x y = 0 ↔ key x = key y)

/-- A set of elements with the property `dom`, in the order of their keys. -/
structure CSet.Sorted {α : Type u} {κ : Type v} [LinearOrder κ] (key : α → κ) (dom : α → Prop)
    (s : CSet α) : Prop where
  sorted : s.nodes.Pairwise fun x y => key x < key y
  card : s.cardinality = s.nodes.length
  dom : ∀ x ∈ s.nodes, dom x

section Sorted

variable {α : Type u} {κ : Type v} [LinearOrder κ] {cmp : α → α → Int} {key : α → κ}
  {dom : α → Prop} {s : CSet α} {elt : α}

theorem CSet.sorted_empty : (CSet.empty : CSet α).Sorted key dom :=
  ⟨List.Pairwise.nil, rfl, nofun⟩

variable {n : List α}

theorem memberB_iff (hcmp : ∀ q ∈ CSet.memberCmps cmp elt n, Compares cmp key q.1 q.2)
    (hsorted : n.Pairwise fun x y => key x < key y) :
    CSet.memberB cmp elt n = true ↔ key elt ∈ n.map key := by
  induction n with
  | nil => simp [CSet.memberB]
  | cons x n ih =>
    obtain ⟨hx, hn⟩ := List.pairwise_cons.1 hsorted
    obtain ⟨hhead, hcmp⟩ := List.forall_mem_cons.1 hcmp
    change Compares cmp key elt x at hhead
    simp only [CSet.memberB, hhead.eq_iff, hhead.lt_iff]
    split_ifs with heq hlt
    · simp [heq]
    · -- all later elements are larger still
      have hnot : key elt ∉ n.map key := by
        intro hmem
        obtain ⟨y, hy, hky⟩ := List.mem_map.1 hmem
        exact absurd (hky ▸ hx y hy) (lt_asymm hlt)
      simp [heq, hnot]
    · have hgt : ¬cmp elt x ≤ 0 := by
        rw [← hhead.eq_iff] at heq
        rw [← hhead.lt_iff] at hlt
        omega
      rw [if_neg hgt] at hcmp
      rw [ih hcmp hn]
      simp [heq]

/-- `member` finds what is in the set. -/
theorem CSet.Sorted.member_iff (hs : s.Sorted key dom)
    (hcmp : ∀ q ∈ CSet.memberCmps cmp elt s.nodes, Compares cmp key q.1 q.2) :
    s.member cmp elt = true ↔ key elt ∈ s.nodes.map key :=
  memberB_iff hcmp hs.sorted

theorem insertLoop_perm (cmp : α → α → Int) (elt : α) (n : List α) :
    (CSet.insertLoop cmp elt n).Perm (elt :: n) := by
  induction n with
  | nil => exact List.Perm.refl _
  | cons x n ih =>
    rw [CSet.insertLoop]
    split_ifs
    · exact (ih.cons x).trans (List.Perm.swap elt x n)
    · exact List.Perm.refl _

theorem insertB_perm (cmp : α → α → Int) (elt : α) (n : List α) :
    (CSet.insertB cmp elt n).Perm (elt :: n) := by
  cases n with
  | nil => exact List.Perm.refl _
  | cons x n =>
    rw [CSet.insertB]
    split_ifs
    · exact List.Perm.refl _
    · exact ((insertLoop_perm cmp elt n).cons x).trans (List.Perm.swap elt x n)

section

variable (hsorted : n.Pairwise fun x y => key x < key y) (hnot : key elt ∉ n.map key)

include hsorted hnot

theorem insertLoop_sorted (hcmp : ∀ q ∈ CSet.loopCmps cmp elt n, Compares cmp key q.1 q.2) :
    (CSet.insertLoop cmp elt n).Pairwise fun x y => key x < key y := by
  induction n with
  | nil => exact List.pairwise_singleton _ _
  | cons x n ih =>
    obtain ⟨hx, hn⟩ := List.pairwise_cons.1 hsorted
    obtain ⟨hhead, hcmp⟩ := List.forall_mem_cons.1 hcmp
    obtain ⟨hne, hnot'⟩ : key elt ≠ key x ∧ key elt ∉ n.map key := by simpa using hnot
    simp only [hhead.lt_iff] at hcmp
    simp only [CSet.insertLoop, hhead.lt_iff]
    split_ifs at hcmp ⊢ with hlt
    · refine List.pairwise_cons.2 ⟨fun y hy => ?_, ih hn hnot' hcmp⟩
      rcases List.mem_cons.1 ((insertLoop_perm cmp elt n).mem_iff.1 hy) with rfl | hy
      · exact hlt
      · exact hx y hy
    · have hgt : key elt < key x := lt_of_le_of_ne (not_lt.1 hlt) hne
      refine List.pairwise_cons.2 ⟨fun y hy => ?_, hsorted⟩
      rcases List.mem_cons.1 hy with rfl | hy
      · exact hgt
      · exact hgt.trans (hx y hy)

theorem insertB_sorted (hcmp : ∀ q ∈ CSet.insertCmps cmp elt n, Compares cmp key q.1 q.2) :
    (CSet.insertB cmp elt n).Pairwise fun x y => key x < key y := by
  cases n with
  | nil => exact List.pairwise_singleton _ _
  | cons x n =>
    obtain ⟨hx, hn⟩ := List.pairwise_cons.1 hsorted
    obtain ⟨hhead, hcmp⟩ := List.forall_mem_cons.1 hcmp
    obtain ⟨hne, hnot'⟩ : key elt ≠ key x ∧ key elt ∉ n.map key := by simpa using hnot
    simp only [hhead.lt_iff] at hcmp
    simp only [CSet.insertB, hhead.lt_iff]
    split_ifs at hcmp ⊢ with hlt
    · refine List.pairwise_cons.2 ⟨fun y hy => ?_, hsorted⟩
      rcases List.mem_cons.1 hy with rfl | hy
      · exact hlt
      · exact hlt.trans (hx y hy)
    · refine List.pairwise_cons.2 ⟨fun y hy => ?_, insertLoop_sorted hn hnot' hcmp⟩
      rcases List.mem_cons.1 ((insertLoop_perm cmp elt n).mem_iff.1 hy) with rfl | hy
      · exact lt_of_le_of_ne (not_lt.1 hlt) hne.symm
      · exact hx y hy

end

/-- What `member` finds is there, in any order. -/
theorem exists_of_memberB (h : CSet.memberB cmp elt n = true) : ∃ x ∈ n, cmp elt x = 0 := by
  induction n with
  | nil => cases h
  | cons x n ih =>
    simp only [CSet.memberB] at h
    split_ifs at h with heq
    · exact ⟨x, List.mem_cons_self .., heq⟩
    · obtain ⟨y, hy, hcmp⟩ := ih h
      exact ⟨y, .tail _ hy, hcmp⟩

/-- `insert` puts in what `member` does not find, in any order. -/
theorem CSet.insert_perm (hnot : s.member cmp elt = false) :
    (s.insert cmp elt).nodes.Perm (elt :: s.nodes) := by
  rw [CSet.insert, hnot]
  exact insertB_perm cmp elt s.nodes

/-- `insert` keeps the order. -/
theorem CSet.Sorted.insert_new (hs : s.Sorted key dom)
    (hmember : ∀ q ∈ CSet.memberCmps cmp elt s.nodes, Compares cmp key q.1 q.2)
    (hinsert : ∀ q ∈ CSet.insertCmps cmp elt s.nodes, Compares cmp key q.1 q.2)
    (helt : dom elt) (hnot : s.member cmp elt = false) : (s.insert cmp elt).Sorted key dom := by
  have hkey : key elt ∉ s.nodes.map key := by
    rw [← hs.member_iff hmember, hnot]
    exact Bool.false_ne_true
  rw [CSet.insert, hnot]
  have hperm := insertB_perm cmp elt s.nodes
  refine ⟨insertB_sorted hs.sorted hkey hinsert, ?_, fun x hx => ?_⟩
  · exact (congrArg (· + 1) hs.card).trans hperm.length_eq.symm
  · rcases List.mem_cons.1 (hperm.mem_iff.1 hx) with rfl | hx
    · exact helt
    · exact hs.dom x hx

theorem CSet.mem_memberCmps {q : α × α} (h : q ∈ CSet.memberCmps cmp elt n) :
    q.1 = elt ∧ q.2 ∈ n := by
  induction n with
  | nil => cases h
  | cons x n ih =>
    rcases List.mem_cons.1 h with rfl | h
    · exact ⟨rfl, .head _⟩
    · split_ifs at h
      · cases h
      · exact (ih h).imp_right (.tail _)

theorem CSet.mem_insertCmps {q : α × α} (h : q ∈ CSet.insertCmps cmp elt n) :
    q.1 ∈ elt :: n ∧ q.2 ∈ elt :: n := by
  have hloop : ∀ {n : List α}, q ∈ CSet.loopCmps cmp elt n → q.1 ∈ n ∧ q.2 = elt := by
    intro n h
    induction n with
    | nil => cases h
    | cons x n ih =>
      rcases List.mem_cons.1 h with rfl | h
      · exact ⟨.head _, rfl⟩
      · split_ifs at h
        · exact (ih h).imp_left (.tail _)
        · cases h
  cases n with
  | nil => cases h
  | cons x n =>
    rcases List.mem_cons.1 h with rfl | h
    · exact ⟨.head _, .tail _ (.head _)⟩
    · split_ifs at h
      · cases h
      · obtain ⟨hmem, heq⟩ := hloop h
        exact ⟨.tail _ (.tail _ hmem), heq ▸ .head _⟩

theorem Orders.compares {x y : α} (h : Orders cmp key dom) (hx : dom x) (hy : dom y) :
    Compares cmp key x y :=
  ⟨h.lt_iff hx hy, h.eq_iff hx hy⟩

theorem Orders.memberCmps (h : Orders cmp key dom) (hs : s.Sorted key dom) (helt : dom elt) :
    ∀ q ∈ CSet.memberCmps cmp elt s.nodes, Compares cmp key q.1 q.2 := by
  intro q hq
  obtain ⟨heq, hmem⟩ := CSet.mem_memberCmps hq
  exact h.compares (heq ▸ helt) (hs.dom _ hmem)

theorem Orders.insertCmps (h : Orders cmp key dom) (hs : s.Sorted key dom) (helt : dom elt) :
    ∀ q ∈ CSet.insertCmps cmp elt s.nodes, Compares cmp key q.1 q.2 := by
  have hdom := List.forall_mem_cons.2 ⟨helt, hs.dom⟩
  intro q hq
  obtain ⟨hx, hy⟩ := CSet.mem_insertCmps hq
  exact h.compares (hdom _ hx) (hdom _ hy)

end Sorted

end ConcurrentCyclone.Lib
