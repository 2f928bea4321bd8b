import Mathlib.Data.List.Nodup
import Mathlib.Logic.Function.Basic

/-!
# Linked lists in memory

The nodes of a linked list are linked by a field `next : α → Option α`; `none` is the null pointer.
`Chain next p l` says that the nodes from `p` on are those of `l`, in this order, and that the last
one has no successor. `Chains next heads buckets` is a table of disjoint lists. Writing the field of
one node changes the lists the node is on and no other (`Chain.write`); the changes that programs
make are a push to the front (`Chain.push`, `Chains.push`) and the removal of a node
(`Chain.tail`, `Chain.unlink`, `Chains.replace`).

`seek` is the search loop with a trailing pointer. Loops over a list in memory may not end, so they
have a bound on their steps; a bound above the length of the list is never met.
-/

set_option autoImplicit false

namespace ConcurrentCyclone.Memory

open Function

universe u v

variable {α : Type u} {ι : Type v} {next next' : α → Option α} {p : Option α} {l l1 l2 : List α}

/-- The list of the nodes from a pointer on. -/
def Chain (next : α → Option α) : Option α → List α → Prop
  | p, [] => p = none
  | p, a :: l => p = some a ∧ Chain next (next a) l

/-- The node that is `n` links behind the pointer. -/
def nodeAt (next : α → Option α) : Option α → Nat → Option α
  | none, _ => none
  | some a, 0 => some a
  | some a, n + 1 => nodeAt next (next a) n

theorem Chain.nodeAt_eq (h : Chain next p l) (n : Nat) : nodeAt next p n = l[n]? := by
  induction l generalizing p n with
  | nil =>
    cases (show p = none from h)
    simp [nodeAt]
  | cons a l ih =>
    obtain ⟨rfl, h⟩ := h
    cases n with
    | zero => rfl
    | succ n => simpa [nodeAt] using ih h n

/-- A pointer is the head of one list only. -/
theorem Chain.unique (h1 : Chain next p l1) (h2 : Chain next p l2) : l1 = l2 := by
  refine List.ext_getElem? fun n => ?_
  rw [← h1.nodeAt_eq n, h2.nodeAt_eq n]

variable {a : α} {n : Nat}

theorem Chain.head_mem (h : Chain next (some a) l) : a ∈ l := by
  cases l with
  | nil => exact absurd h (Option.some_ne_none a)
  | cons b l => exact Option.some.inj h.1 ▸ (.head _)

/-- The part of a list from one of its nodes on. -/
theorem Chain.suffix (h : Chain next p (l1 ++ a :: l2)) : Chain next (some a) (a :: l2) := by
  induction l1 generalizing p with
  | nil =>
    obtain ⟨rfl, h⟩ := h
    exact ⟨rfl, h⟩
  | cons b l1 ih => exact ih h.2

/-- A list that ends has no node twice: the second occurrence would have the successors of the
first one. -/
theorem Chain.nodup (h : Chain next p l) : l.Nodup := by
  induction l generalizing p with
  | nil => exact List.nodup_nil
  | cons a l ih =>
    obtain ⟨rfl, h⟩ := h
    refine List.nodup_cons.2 ⟨fun ha => ?_, ih h⟩
    obtain ⟨l1, l2, rfl⟩ := List.append_of_mem ha
    have hsame : Chain next (some a) (a :: (l1 ++ a :: l2)) := ⟨rfl, h⟩
    have hlen := congrArg List.length (hsame.unique h.suffix)
    rw [List.length_cons, List.length_append] at hlen
    omega

/-- A list only depends on the fields of its nodes. -/
theorem Chain.congr (h : Chain next p l) (hnext : ∀ a ∈ l, next' a = next a) : Chain next' p l := by
  induction l generalizing p with
  | nil => exact h
  | cons a l ih =>
    obtain ⟨rfl, h⟩ := h
    obtain ⟨ha, hl⟩ := List.forall_mem_cons.1 hnext
    exact ⟨rfl, ha ▸ ih h hl⟩

/-- The list without its first node. -/
theorem Chain.tail (h : Chain next p (a :: l)) : Chain next (next a) l := h.2

section Write

variable [DecidableEq α]

variable {a : α}

/-- Writing the field of a node that is not on the list. -/
theorem Chain.write {q : Option α} (h : Chain next p l) (ha : a ∉ l) :
    Chain (update next a q) p l := by
  exact h.congr fun b hb => update_of_ne (ne_of_mem_of_not_mem hb ha) _ _

/-- A new node in front of the list. -/
theorem Chain.push (h : Chain next p l) (ha : a ∉ l) : Chain (update next a p) (some a) (a :: l) :=
  ⟨rfl, by rw [update_self]; exact h.write ha⟩

/-- The node `b` links to the successor of its successor `a`. -/
theorem Chain.unlink {b : α} (h : Chain next p (l1 ++ b :: a :: l2)) :
    Chain (update next b (next a)) p (l1 ++ b :: l2) := by
  have hnodup := h.nodup
  induction l1 generalizing p with
  | nil =>
    obtain ⟨rfl, -, h⟩ := h
    have hb : b ∉ l2 := fun hb => (List.nodup_cons.1 hnodup).1 (.tail a hb)
    exact ⟨rfl, by rw [update_self]; exact h.write hb⟩
  | cons c l1 ih =>
    obtain ⟨rfl, h⟩ := h
    obtain ⟨hc, hnodup⟩ := List.nodup_cons.1 hnodup
    have hcb : c ≠ b := by
      rintro rfl
      exact hc (List.mem_append_right l1 (.head _))
    exact ⟨rfl, by rw [update_of_ne hcb]; exact ih h hnodup⟩

end Write

/-! ## The search loop -/

/-- `for (e = p, pv = q; e != NULL && !found(e); pv = e, e = e->next);` with at most so many steps.
The results are `pv` and `e`. -/
def seek (next : α → Option α) (found : α → Bool) :
    Nat → Option α → Option α → Option (Option α × Option α)
  | 0, _, _ => none
  | _ + 1, pv, none => some (pv, none)
  | n + 1, pv, some e => if found e then some (pv, some e) else seek next found n (some e) (next e)

/-- The loop stops at the first node that is looked for; the trailing pointer is at the node before
it. -/
theorem Chain.seek_eq {found : α → Bool} (h : Chain next p (l1 ++ a :: l2))
    (hbefore : ∀ b ∈ l1, found b = false) (ha : found a = true) (hn : l1.length < n)
    (q : Option α) : seek next found n q p = some (l1.getLast?.or q, some a) := by
  induction l1 generalizing p q n with
  | nil =>
    obtain ⟨rfl, -⟩ := h
    obtain ⟨n, rfl⟩ := Nat.exists_eq_add_of_lt hn
    simp [seek, ha]
  | cons b l1 ih =>
    obtain ⟨rfl, h⟩ := h
    obtain ⟨hb, hbefore⟩ := List.forall_mem_cons.1 hbefore
    obtain ⟨n, rfl⟩ := Nat.exists_eq_add_of_lt (Nat.zero_lt_of_lt hn)
    have hn' : l1.length < 0 + n := by
      rw [List.length_cons] at hn
      omega
    rw [seek, hb, ih h hbefore hn' (some b), List.getLast?_cons]
    cases l1.getLast? <;> rfl

/-! ## A table of lists -/

/-- The lists of a table have no node in common. -/
structure Chains (next : α → Option α) (heads : ι → Option α) (buckets : ι → List α) : Prop where
  chain : ∀ i, Chain next (heads i) (buckets i)
  disjoint : ∀ i j a, a ∈ buckets i → a ∈ buckets j → i = j

variable {heads : ι → Option α} {buckets : ι → List α}

theorem chains_empty (next : α → Option α) : Chains next (fun _ : ι => none) (fun _ => []) where
  chain _ := rfl
  disjoint _ _ _ h := absurd h List.not_mem_nil

/-- A node is at one position of one list. -/
theorem Chains.position_unique (h : Chains next heads buckets) {i j : ι} {m : Nat}
    (hi : nodeAt next (heads i) m = some a) (hj : nodeAt next (heads j) n = some a) :
    i = j ∧ m = n := by
  rw [(h.chain i).nodeAt_eq] at hi
  rw [(h.chain j).nodeAt_eq] at hj
  obtain rfl := h.disjoint i j a (List.mem_of_getElem? hi) (List.mem_of_getElem? hj)
  refine ⟨rfl, ?_⟩
  obtain ⟨hm, -⟩ := List.getElem?_eq_some_iff.1 hi
  exact (List.getElem?_inj hm (h.chain i).nodup).1 (hi.trans hj.symm)

section Replace

variable [DecidableEq ι]

/-- One list of the table is changed by fields of its own nodes, or of nodes that were on no
list. -/
theorem Chains.replace (h : Chains next heads buckets) {i : ι} {q : Option α} {l : List α}
    (hchain : Chain next' q l) (hframe : ∀ j ≠ i, ∀ a ∈ buckets j, next' a = next a)
    (hnew : ∀ a ∈ l, ∀ j ≠ i, a ∉ buckets j) :
    Chains next' (update heads i q) (update buckets i l) where
  chain j := by
    by_cases hj : j = i
    · subst hj
      rw [update_self, update_self]
      exact hchain
    · rw [update_of_ne hj, update_of_ne hj]
      exact (h.chain j).congr (hframe j hj)
  disjoint j k a hj hk := by
    by_cases hji : j = i <;> by_cases hki : k = i
    · rw [hji, hki]
    · rw [hji, update_self] at hj
      rw [update_of_ne hki] at hk
      exact absurd hk (hnew a hj k hki)
    · rw [hki, update_self] at hk
      rw [update_of_ne hji] at hj
      exact absurd hj (hnew a hk j hji)
    · rw [update_of_ne hji] at hj
      rw [update_of_ne hki] at hk
      exact h.disjoint j k a hj hk

/-- A new node in front of one of the lists. -/
theorem Chains.push [DecidableEq α] (h : Chains next heads buckets) (i : ι) {a : α}
    (ha : ∀ j, a ∉ buckets j) :
    Chains (update next a (heads i)) (update heads i (some a))
      (update buckets i (a :: buckets i)) := by
  refine h.replace ((h.chain i).push (ha i)) (fun j _ b hb => ?_) (fun b hb j hj => ?_)
  · exact update_of_ne (ne_of_mem_of_not_mem hb (ha j)) _ _
  · rcases List.mem_cons.1 hb with rfl | hb
    · exact ha j
    · exact fun hbj => hj (h.disjoint j i b hbj hb)

end Replace

end ConcurrentCyclone.Memory
