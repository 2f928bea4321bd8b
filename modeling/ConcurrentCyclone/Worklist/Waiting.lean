import Mathlib.Data.List.Basic
import Mathlib.Data.List.Nodup
import Mathlib.Logic.Function.Iterate
import Mathlib.Logic.Relation
import Mathlib.Order.WellFounded

/-!
# Work lists whose nodes wait for others

A work list takes the first node of a queue. A node that was processed before is dropped; a node
that waits for one that was not processed is put back at the end; any other node is processed, and
the nodes that it leads to are queued (`step`).

`Fires` are the nodes that get processed at all: those that get queued and wait only for nodes that
fire. Nodes are processed once each and after all nodes that they wait for (`run_ordered`). The work
list ends if every node that gets queued fires (`run_ends`), and then exactly the nodes that fire
were processed (`done_iff_fires`).

An implementation may count, for each node, the nodes that it waited for and that were processed,
instead of looking at them (`Counts`). The counts stay right if a node that is processed is counted
for the nodes that wait for it (`Counts.raise`).
-/

set_option autoImplicit false

namespace ConcurrentCyclone.Worklist

open List (mem_singleton mem_append_left not_mem_nil mem_cons mem_append length_cons)

variable {N : Type}

/-- The nodes that a node waits for, and those that are queued after it. -/
structure System (N : Type) where
  needs : N → List N
  next : N → List N

/-- The queue, and the nodes that were processed, in this order. -/
@[ext]
structure State (N : Type) where
  queue : List N
  done : List N

/-- The nodes that get processed, for a queue that starts with `start`. -/
inductive Fires (sys : System N) (start : List N) : N → Prop
  | start {n : N} (h : n ∈ start) (hneeds : ∀ m ∈ sys.needs n, Fires sys start m) :
      Fires sys start n
  | next {m n : N} (hm : Fires sys start m) (h : n ∈ sys.next m)
      (hneeds : ∀ m ∈ sys.needs n, Fires sys start m) : Fires sys start n

/-- The nodes that get queued. -/
def Queued (sys : System N) (start : List N) (n : N) : Prop :=
  n ∈ start ∨ ∃ m, Fires sys start m ∧ n ∈ sys.next m

theorem Queued.fires {sys : System N} {start : List N} {n : N} (h : Queued sys start n)
    (hneeds : ∀ m ∈ sys.needs n, Fires sys start m) : Fires sys start n := by
  rcases h with h | ⟨m, hm, h⟩
  · exact .start h hneeds
  · exact .next hm h hneeds

section Steps

variable [DecidableEq N] (sys : System N)

/-- The node was not processed, and waits for no node that was not. -/
def Ready (done : List N) (n : N) : Prop :=
  n ∉ done ∧ ∀ m ∈ sys.needs n, m ∈ done

instance (done : List N) (n : N) : Decidable (Ready sys done n) :=
  inferInstanceAs (Decidable (_ ∧ _))

/-- The first node of the queue is taken. -/
def step (s : State N) : State N :=
  match s.queue with
  | [] => s
  | n :: queue =>
    if n ∈ s.done then ⟨queue, s.done⟩
    else if ∀ m ∈ sys.needs n, m ∈ s.done then ⟨queue ++ sys.next n, s.done ++ [n]⟩
    else ⟨queue ++ [n], s.done⟩

def run (k : Nat) (s : State N) : State N :=
  (step sys)^[k] s

/-- What a step can do. -/
theorem step_cases (s : State N) : (s.queue = [] ∧ step sys s = s) ∨
    ∃ n queue, s.queue = n :: queue ∧
      ((n ∈ s.done ∧ step sys s = ⟨queue, s.done⟩) ∨
        (Ready sys s.done n ∧ step sys s = ⟨queue ++ sys.next n, s.done ++ [n]⟩) ∨
        (n ∉ s.done ∧ ¬ Ready sys s.done n ∧ step sys s = ⟨queue ++ [n], s.done⟩)) := by
  unfold step
  split
  · rename_i h
    exact .inl ⟨h, rfl⟩
  · rename_i n queue h
    refine .inr ⟨n, queue, h, ?_⟩
    split_ifs with hdone hneeds
    · exact .inl ⟨hdone, rfl⟩
    · exact .inr (.inl ⟨⟨hdone, hneeds⟩, rfl⟩)
    · exact .inr (.inr ⟨hdone, fun hready => hneeds hready.2, rfl⟩)

variable {sys}

theorem run_succ (k : Nat) (s : State N) : run sys (k + 1) s = step sys (run sys k s) :=
  Function.iterate_succ_apply' _ _ _

theorem run_succ' (k : Nat) (s : State N) : run sys (k + 1) s = run sys k (step sys s) :=
  Function.iterate_succ_apply _ _ _

variable {s : State N} {done start nodes : List N} {n : N}

/-- A property of the first state that every step keeps holds in every state of a run. -/
theorem run_invariant {I : State N → Prop} (hstep : ∀ s, I s → I (step sys s))
    (h : I s) (k : Nat) : I (run sys k s) := by
  induction k with
  | zero => exact h
  | succ k ih =>
    rw [run_succ]
    exact hstep _ ih

/-! ## Order -/

/-- Each node comes once, and after the nodes that it waits for. -/
def Ordered (sys : System N) (done : List N) : Prop :=
  done.Nodup ∧ ∀ l₁ n l₂, done = l₁ ++ n :: l₂ → ∀ m ∈ sys.needs n, m ∈ l₁

omit [DecidableEq N] in
theorem Ordered.snoc (h : Ordered sys done) (hn : Ready sys done n) :
    Ordered sys (done ++ [n]) := by
  refine ⟨List.nodup_append.2 ⟨h.1, List.nodup_singleton n, ?_⟩, fun l1 n' l2 heq m hm => ?_⟩
  · intro a ha b hb hab
    rw [mem_singleton.1 hb] at hab
    exact hn.1 (hab ▸ ha)
  · rcases List.eq_nil_or_concat l2 with rfl | ⟨l3, b, rfl⟩
    · obtain ⟨hdone, hlast⟩ := List.append_inj' heq rfl
      rw [← hdone]
      rw [← (List.cons.inj hlast).1] at hm
      exact hn.2 m hm
    · rw [List.concat_eq_append, ← List.cons_append, ← List.append_assoc] at heq
      exact h.2 l1 n' l3 (List.append_inj' heq rfl).1 m hm

theorem step_ordered (h : Ordered sys s.done) : Ordered sys (step sys s).done := by
  rcases step_cases sys s with ⟨-, hs⟩ | ⟨n, queue, -, ⟨-, hs⟩ | ⟨hn, hs⟩ | ⟨-, -, hs⟩⟩
  · rw [hs]
    exact h
  · rw [hs]
    exact h
  · rw [hs]
    exact h.snoc hn
  · rw [hs]
    exact h

variable (sys) in
/-- Nodes are processed once each and after the nodes that they wait for. -/
theorem run_ordered (start : List N) (k : Nat) : Ordered sys (run sys k ⟨start, []⟩).done :=
  run_invariant (I := fun s => Ordered sys s.done) (fun _ => step_ordered)
    ⟨List.nodup_nil, fun l1 n l2 h => by simp at h⟩ k

/-- Processed nodes do not wait for each other in a circle. -/
theorem Ordered.acyclic (h : Ordered sys done) (hn : n ∈ done) :
    ¬ Relation.TransGen (fun a b => b ∈ sys.needs a) n n := by
  have earlier : ∀ a ∈ done, ∀ b ∈ sys.needs a, b ∈ done ∧ done.idxOf b < done.idxOf a := by
    intro a ha b hb
    obtain ⟨l1, l2, hsplit⟩ := List.append_of_mem ha
    have hmem := h.2 l1 a l2 hsplit b hb
    have hnot : a ∉ l1 := by
      have hnodup := h.1
      rw [hsplit] at hnodup
      exact fun hmem => (List.nodup_append.1 hnodup).2.2 a hmem a (.head _) rfl
    rw [hsplit]
    refine ⟨mem_append_left _ hmem, ?_⟩
    rw [List.idxOf_append_of_mem hmem, List.idxOf_append_of_notMem hnot, List.idxOf_cons_self]
    exact List.idxOf_lt_length_of_mem hmem
  have chain : ∀ b, Relation.TransGen (fun a b => b ∈ sys.needs a) n b →
      b ∈ done ∧ done.idxOf b < done.idxOf n := by
    intro b hb
    induction hb with
    | single hb => exact earlier n hn _ hb
    | tail _ hb ih =>
      obtain ⟨hmem, hlt⟩ := earlier _ ih.1 _ hb
      exact ⟨hmem, hlt.trans ih.2⟩
  exact fun hcycle => Nat.lt_irrefl _ (chain n hcycle).2

/-! ## The nodes that are processed -/

/-- Nodes in the queue get queued, processed nodes fire, and a node that was queued is in the queue
or was processed. -/
structure Inv (sys : System N) (start : List N) (s : State N) : Prop where
  queued : ∀ n ∈ s.queue, Queued sys start n
  fires : ∀ n ∈ s.done, Fires sys start n
  kept : ∀ n, (n ∈ start ∨ ∃ m ∈ s.done, n ∈ sys.next m) → n ∈ s.queue ∨ n ∈ s.done

omit [DecidableEq N] in
theorem Inv.initial (start : List N) : Inv sys start ⟨start, []⟩ where
  queued n hn := .inl hn
  fires n hn := absurd hn not_mem_nil
  kept n hn := by
    rcases hn with hn | ⟨m, hm, -⟩
    · exact .inl hn
    · exact absurd hm not_mem_nil

theorem Inv.step {start : List N} {s : State N} (h : Inv sys start s) :
    Inv sys start (step sys s) := by
  rcases step_cases sys s with ⟨-, hs⟩ | ⟨n, queue, hq, hcases⟩
  · exact hs.symm ▸ h
  have hn := h.queued n (hq ▸ .head _)
  have hqueue : ∀ m ∈ queue, Queued sys start m := fun m hm => h.queued m (hq ▸ .tail n hm)
  have kept : ∀ m, (m ∈ start ∨ ∃ m' ∈ s.done, m ∈ sys.next m') →
      m = n ∨ m ∈ queue ∨ m ∈ s.done := by
    intro m hm
    rw [← or_assoc, ← mem_cons, ← hq]
    exact h.kept m hm
  rcases hcases with ⟨hdone, hs⟩ | ⟨hready, hs⟩ | ⟨-, -, hs⟩
  · rw [hs]
    refine ⟨hqueue, h.fires, fun m hm => ?_⟩
    rcases kept m hm with rfl | hmem
    · exact .inr hdone
    · exact hmem
  · rw [hs]
    have hfires : Fires sys start n := hn.fires fun m hm => h.fires m (hready.2 m hm)
    refine ⟨fun m hm => ?_, fun m hm => ?_, fun m hm => ?_⟩
    · exact (mem_append.1 hm).elim (hqueue m) fun hm => .inr ⟨n, hfires, hm⟩
    · rcases mem_append.1 hm with hm | hm
      · exact h.fires m hm
      · rwa [mem_singleton.1 hm]
    · simp only [mem_append, mem_singleton] at hm ⊢
      rcases hm with hm | ⟨m', hm' | rfl, hm⟩
      · have := kept m (.inl hm)
        tauto
      · have := kept m (.inr ⟨m', hm', hm⟩)
        tauto
      · exact .inl (.inr hm)
  · rw [hs]
    refine ⟨fun m hm => ?_, h.fires, fun m hm => ?_⟩
    · rcases mem_append.1 hm with hm | hm
      · exact hqueue m hm
      · rwa [mem_singleton.1 hm]
    · have := kept m hm
      simp only [mem_append, mem_singleton]
      tauto

variable (sys) in
theorem run_inv (start : List N) (k : Nat) : Inv sys start (run sys k ⟨start, []⟩) :=
  run_invariant (I := Inv sys start) (fun _ h => h.step) (Inv.initial start) k

/-- When the queue is empty, the nodes that fire were processed. -/
theorem done_iff_fires {k : Nat} (h : (run sys k ⟨start, []⟩).queue = [])
    (n : N) : n ∈ (run sys k ⟨start, []⟩).done ↔ Fires sys start n := by
  have inv := run_inv sys start k
  have kept : ∀ m, (m ∈ start ∨ ∃ m' ∈ (run sys k ⟨start, []⟩).done, m ∈ sys.next m') →
      m ∈ (run sys k ⟨start, []⟩).done := by
    intro m hm
    rcases inv.kept m hm with hq | hd
    · rw [h] at hq
      exact absurd hq not_mem_nil
    · exact hd
  refine ⟨inv.fires n, fun hn => ?_⟩
  induction hn with
  | start hstart _ _ => exact kept _ (.inl hstart)
  | next _ hnext _ hm _ => exact kept _ (.inr ⟨_, hm, hnext⟩)

/-! ## The end -/

/-- If a node that fires was not processed, some node in the queue is ready. -/
theorem Inv.exists_ready (inv : Inv sys start s)
    (hn : Fires sys start n) : n ∉ s.done → ∃ r ∈ s.queue, Ready sys s.done r := by
  -- a node that is queued and waits for nothing is ready; otherwise go to a node it waits for
  have ready : ∀ n, (n ∈ start ∨ ∃ m ∈ s.done, n ∈ sys.next m) → n ∉ s.done →
      (∀ m ∈ sys.needs n, m ∉ s.done → ∃ r ∈ s.queue, Ready sys s.done r) →
      ∃ r ∈ s.queue, Ready sys s.done r := by
    intro n hqueued hdone hneeds
    by_cases hall : ∀ m ∈ sys.needs n, m ∈ s.done
    · refine ⟨n, ?_, hdone, hall⟩
      rcases inv.kept n hqueued with hq | hd
      · exact hq
      · exact absurd hd hdone
    · push Not at hall
      obtain ⟨m, hm, hmdone⟩ := hall
      exact hneeds m hm hmdone
  induction hn with
  | start h _ ih => exact fun hdone => ready _ (.inl h) hdone ih
  | @next m n _ h _ ihm ih =>
    intro hdone
    by_cases hm : m ∈ s.done
    · exact ready _ (.inr ⟨m, hm, h⟩) hdone ih
    · exact ihm hm

/-- How many nodes of the list were not processed. -/
def left (nodes : List N) (s : State N) : Nat :=
  (nodes.filter fun n => n ∉ s.done).length

/-- How many nodes stand before the first one that is ready. -/
def distance (sys : System N) (s : State N) : Nat :=
  s.queue.findIdx fun n => decide (Ready sys s.done n)

/-- Processing a node of the list. -/
theorem left_snoc_lt {queue queue' : List N} (hmem : n ∈ nodes) (hn : n ∉ done) :
    left nodes ⟨queue', done ++ [n]⟩ < left nodes ⟨queue, done⟩ := by
  unfold left
  have hfilter : (nodes.filter fun m => m ∉ done ++ [n]) =
      (nodes.filter fun m => m ∉ done).filter fun m => m ≠ n := by
    rw [List.filter_filter]
    refine List.filter_congr fun m _ => ?_
    simp [and_comm]
  simp only [hfilter]
  exact List.length_filter_lt_length_iff_exists.2
    ⟨n, List.mem_filter.2 ⟨hmem, by simpa using hn⟩, by simp⟩

/-- As long as the queue is not empty, a step processes a node or comes nearer to one. -/
theorem step_progress (inv : Inv sys start s) (hall : ∀ n, Queued sys start n → Fires sys start n)
    (hnodes : ∀ n, Fires sys start n → n ∈ nodes) (hq : s.queue ≠ []) :
    left nodes (step sys s) < left nodes s ∨
      (left nodes (step sys s) = left nodes s ∧
        distance sys (step sys s) < distance sys s) := by
  obtain ⟨queue, done⟩ := s
  rcases step_cases sys ⟨queue, done⟩ with
    ⟨hnil, -⟩ | ⟨n, rest, hqueue, ⟨hn, hs⟩ | ⟨hn, hs⟩ | ⟨hn, hready, hs⟩⟩
  · exact absurd hnil hq
  · obtain rfl : queue = n :: rest := hqueue
    rw [hs]
    refine .inr ⟨rfl, ?_⟩
    have hnot : ¬ Ready sys done n := fun h => h.1 hn
    simp [distance, List.findIdx_cons, hnot]
  · obtain rfl : queue = n :: rest := hqueue
    rw [hs]
    have hfires := (inv.queued n (.head _)).fires fun m hm => inv.fires m (hn.2 m hm)
    exact .inl (left_snoc_lt (hnodes n hfires) hn.1)
  · obtain rfl : queue = n :: rest := hqueue
    rw [hs]
    refine .inr ⟨rfl, ?_⟩
    -- some node of the rest is ready, so putting the first one back brings it forward
    obtain ⟨r, hr, hrready⟩ := inv.exists_ready (hall n (inv.queued n (.head _))) hn
    have hrest : r ∈ rest := by
      rcases mem_cons.1 hr with rfl | hr
      · exact absurd hrready hready
      · exact hr
    have hlt : rest.findIdx (fun n => decide (Ready sys done n)) < rest.length :=
      List.findIdx_lt_length_of_exists ⟨r, hrest, by simpa using hrready⟩
    simp only [distance, List.findIdx_cons, hready]
    rw [List.findIdx_append, if_pos hlt]
    exact Nat.lt_succ_self _

/-- If every node that gets queued fires, the queue gets empty. -/
theorem run_ends (hall : ∀ n, Queued sys start n → Fires sys start n)
    (hnodes : ∀ n, Fires sys start n → n ∈ nodes) : ∃ k, (run sys k ⟨start, []⟩).queue = [] := by
  suffices h : ∀ s, Inv sys start s → ∃ k, (run sys k s).queue = [] from h _ (Inv.initial start)
  intro s
  induction s using (invImage (fun s => (left nodes s, distance sys s)) inferInstance).wf.induction
  rename_i s ih
  intro inv
  by_cases hq : s.queue = []
  · exact ⟨0, hq⟩
  · obtain ⟨k, hk⟩ := ih (step sys s) (Prod.lex_def.2 (step_progress inv hall hnodes hq)) inv.step
    exact ⟨k + 1, by rw [run_succ']; exact hk⟩

/-! ## Counting -/

/-- The counter of each node is the number of processed nodes among those that it waits for. -/
def Counts (sys : System N) (count : N → Nat) (done : List N) : Prop :=
  ∀ n, count n = ((sys.needs n).filter fun m => m ∈ done).length

theorem Counts.initial : Counts sys (fun _ => 0) [] := by
  intro n
  simp

/-- A full counter says that the node is not waiting. -/
theorem Counts.full_iff {count : N → Nat} (h : Counts sys count done) (n : N) :
    (sys.needs n).length ≤ count n ↔ ∀ m ∈ sys.needs n, m ∈ done := by
  rw [h n]
  constructor
  · intro hle m hm
    have heq : (sys.needs n).filter (fun m => m ∈ done) = sys.needs n :=
      List.filter_sublist.eq_of_length_le hle
    rw [← heq] at hm
    simpa using (List.mem_filter.1 hm).2
  · intro hall
    rw [List.filter_eq_self.2 fun m hm => by simpa using hall m hm]

/-- A node is processed: it is counted for each node as often as that one waits for it. -/
theorem Counts.raise {count count' : N → Nat} (h : Counts sys count done)
    (hn : n ∉ done) (hraise : ∀ m, count' m = count m + (sys.needs m).count n) :
    Counts sys count' (done ++ [n]) := by
  intro m
  rw [hraise m, h m]
  simp only [← List.countP_eq_length_filter]
  induction sys.needs m with
  | nil => rfl
  | cons a l ih =>
    simp only [List.countP_cons, List.count_cons]
    rw [← ih]
    by_cases ha : a = n
    · subst ha
      simp [hn]
      omega
    · simp [ha]
      omega

end Steps

end ConcurrentCyclone.Worklist
