import Mathlib.Data.Finset.Card
import Mathlib.Data.List.Perm.Subperm
import Mathlib.Logic.Relation

/-!
# Search with a list of seen nodes

A search keeps the nodes that it has seen and, among these, the nodes that it still has to visit. A
visit stops the search with an answer, or leads to more nodes, of which the unseen ones are put in
front of the others (`search`).

The search ends if the nodes that visits lead to are among finitely many (`search_isSome`). If it
ends, the answer is that of a node that can be reached from the nodes seen at the start, or no such
node stops the search (`search_spec`).

A recursive search has the nodes of the open calls on a stack; `stack_induction` is its rule.
-/

set_option autoImplicit false

namespace ConcurrentCyclone.Worklist

open Relation

variable {α β : Type}

/-- The nodes that were seen, and those of them that were not visited yet. -/
structure Seen (α : Type) where
  seen : List α
  todo : List α
  todo_seen : ∀ x ∈ todo, x ∈ seen

/-- Nothing was seen. -/
def Seen.empty : Seen α := ⟨[], [], fun _ hx => hx⟩

/-- Put a node in front. -/
def Seen.push (env : Seen α) (x : α) : Seen α where
  seen := x :: env.seen
  todo := x :: env.todo
  todo_seen := List.cons_subset_cons x env.todo_seen

/-- Take the first node away, to visit it. -/
def Seen.pop (env : Seen α) : Seen α where
  seen := env.seen
  todo := env.todo.tail
  todo_seen x hx := env.todo_seen x (List.mem_of_mem_tail hx)

variable [DecidableEq α]

/-- Add a node, unless it was seen. -/
def Seen.add (env : Seen α) (x : α) : Seen α := if x ∈ env.seen then env else env.push x

/-- Add nodes, one after the other. -/
def Seen.addAll (env : Seen α) (xs : List α) : Seen α := xs.foldl Seen.add env

/-- What a visit of a node does. -/
inductive Visit (α β : Type) where
  | stop (b : β)
  | goOn (xs : List α)

/-- The search with at most `n` visits; `none` if they do not suffice. -/
def search (visit : α → Visit α β) (exhausted : β) : Nat → Seen α → Option β
  | 0, _ => none
  | n + 1, env =>
    match env.todo with
    | [] => some exhausted
    | x :: _ =>
      match visit x with
      | .stop b => some b
      | .goOn xs => search visit exhausted n (env.pop.addAll xs)

/-- The visit of `x` leads to `y`. -/
def LeadsTo (visit : α → Visit α β) (x y : α) : Prop := ∃ xs, visit x = .goOn xs ∧ y ∈ xs

section Add

variable {env : Seen α} {x y : α}

theorem Seen.mem_seen_add : y ∈ (env.add x).seen ↔ y = x ∨ y ∈ env.seen := by
  unfold Seen.add
  split_ifs with hx
  · exact (or_iff_right_of_imp fun hy => hy ▸ hx).symm
  · exact List.mem_cons

variable {xs : List α}

theorem Seen.mem_seen_addAll : y ∈ (env.addAll xs).seen ↔ y ∈ xs ∨ y ∈ env.seen := by
  induction xs generalizing env with
  | nil => simp [Seen.addAll]
  | cons x xs ih =>
    rw [Seen.addAll, List.foldl_cons, ← Seen.addAll, ih, Seen.mem_seen_add, List.mem_cons]
    tauto

/-- Nodes that are added are still to be visited, or were seen before. -/
theorem Seen.mem_todo_add (hy : y ∈ (env.add x).seen) : y ∈ (env.add x).todo ∨ y ∈ env.seen := by
  unfold Seen.add at hy ⊢
  split_ifs at hy ⊢ with hx
  · exact .inr hy
  · rcases List.mem_cons.1 hy with rfl | hy
    · exact .inl (.head _)
    · exact .inr hy

theorem Seen.todo_add (hy : y ∈ env.todo) : y ∈ (env.add x).todo := by
  unfold Seen.add
  split_ifs
  · exact hy
  · exact .tail _ hy

theorem Seen.todo_addAll (hy : y ∈ env.todo) : y ∈ (env.addAll xs).todo := by
  induction xs generalizing env with
  | nil => exact hy
  | cons x xs ih => exact ih (Seen.todo_add hy)

theorem Seen.mem_todo_addAll (hy : y ∈ (env.addAll xs).seen) :
    y ∈ (env.addAll xs).todo ∨ y ∈ env.seen := by
  induction xs generalizing env with
  | nil => exact .inr hy
  | cons x xs ih =>
    rcases ih hy with htodo | hseen
    · exact .inl htodo
    · exact (Seen.mem_todo_add hseen).imp_left
        (Seen.todo_addAll : _ → y ∈ ((env.add x).addAll xs).todo)

/-- No node was visited. -/
def Seen.Fresh (env : Seen α) : Prop := ∀ x ∈ env.seen, x ∈ env.todo

omit [DecidableEq α] in
theorem Seen.fresh_empty : (Seen.empty : Seen α).Fresh := fun _ hx => hx

omit [DecidableEq α] in
theorem Seen.Fresh.push (h : env.Fresh) (x : α) : (env.push x).Fresh := List.cons_subset_cons x h

theorem Seen.Fresh.addAll (h : env.Fresh) (xs : List α) : (env.addAll xs).Fresh := by
  intro y hy
  rcases Seen.mem_todo_addAll hy with hy | hy
  · exact hy
  · exact Seen.todo_addAll (h y hy)

end Add

/-! ## The search ends -/

section Ends

variable (U : Finset α)

/-- The nodes to be visited, and those of `U` that were not seen. -/
def Seen.weight (env : Seen α) : Nat := env.todo.length + (U.filter (· ∉ env.seen)).card

variable {U}

variable {env : Seen α}

theorem Seen.weight_add {x : α} (hx : x ∈ U) : (env.add x).weight U = env.weight U := by
  unfold Seen.add
  split_ifs with hseen
  · rfl
  · have hfilter : U.filter (· ∉ (env.push x).seen) = (U.filter (· ∉ env.seen)).erase x := by
      ext y
      simp only [Seen.push, Finset.mem_filter, List.mem_cons, not_or, Finset.mem_erase]
      tauto
    have hmem : x ∈ U.filter (· ∉ env.seen) := Finset.mem_filter.2 ⟨hx, hseen⟩
    have hpos := Finset.card_pos.2 ⟨x, hmem⟩
    have hlength : (env.push x).todo.length = env.todo.length + 1 := rfl
    unfold Seen.weight
    rw [hfilter, Finset.card_erase_of_mem hmem, hlength]
    omega

theorem Seen.weight_addAll {xs : List α} (hxs : ∀ x ∈ xs, x ∈ U) :
    (env.addAll xs).weight U = env.weight U := by
  induction xs generalizing env with
  | nil => rfl
  | cons x xs ih =>
    obtain ⟨hx, hxs⟩ := List.forall_mem_cons.1 hxs
    exact (ih hxs).trans (Seen.weight_add hx)

/-- As many visits suffice as there are nodes to be visited and nodes that were not seen. -/
theorem search_isSome {visit : α → Visit α β} (exhausted : β)
    (hU : ∀ x y, LeadsTo visit x y → y ∈ U) {n : Nat} (hn : env.weight U < n) :
    (search visit exhausted n env).isSome := by
  induction n generalizing env with
  | zero => exact absurd hn (Nat.not_lt_zero _)
  | succ n ih =>
    unfold search
    split
    · rfl
    · next x todo htodo =>
        split
        · rfl
        · next xs hxs =>
            apply ih
            rw [Seen.weight_addAll fun y hy => hU x y ⟨xs, hxs, hy⟩]
            simp only [Seen.weight, Seen.pop, htodo, List.length_cons, List.tail_cons] at hn ⊢
            omega

end Ends

/-! ## The answer -/

section Answer

/-- The nodes that were seen are to be visited, or lead to nodes that were seen. -/
def Closed (visit : α → Visit α β) (env : Seen α) : Prop :=
  ∀ x ∈ env.seen, x ∈ env.todo ∨ ∃ xs, visit x = .goOn xs ∧ ∀ y ∈ xs, y ∈ env.seen

variable {visit : α → Visit α β} {env : Seen α}

omit [DecidableEq α] in
/-- At the start nothing was visited. -/
theorem closed_of_fresh (h : env.Fresh) : Closed visit env := fun x hx => .inl (h x hx)

theorem Closed.goOn {x : α} {todo xs : List α} (h : Closed visit env)
    (htodo : env.todo = x :: todo) (hxs : visit x = .goOn xs) :
    Closed visit (env.pop.addAll xs) := by
  intro y hy
  rcases Seen.mem_todo_addAll hy with hy | hy
  · exact .inl hy
  · rcases h y hy with hytodo | ⟨ys, hys, hseen⟩
    · rw [htodo, List.mem_cons] at hytodo
      rcases hytodo with rfl | hytodo
      · exact .inr ⟨xs, hxs, fun z hz => Seen.mem_seen_addAll.2 (.inl hz)⟩
      · exact .inl (Seen.todo_addAll (by simpa only [Seen.pop, htodo, List.tail_cons]))
    · exact .inr ⟨ys, hys, fun z hz => Seen.mem_seen_addAll.2 (.inr (hseen z hz))⟩

omit [DecidableEq α] in
/-- At the end every node that can be reached was seen, and none stopped the search. -/
theorem Closed.goOn_of_reaches (h : Closed visit env) (htodo : env.todo = []) {s x : α}
    (hs : s ∈ env.seen) (hreach : ReflTransGen (LeadsTo visit) s x) :
    ∃ xs, visit x = .goOn xs := by
  have hgo : ∀ {z}, z ∈ env.seen → ∃ zs, visit z = .goOn zs ∧ ∀ y ∈ zs, y ∈ env.seen := by
    intro z hz
    rcases h z hz with hz | hz
    · rw [htodo] at hz
      cases hz
    · exact hz
  have hseen : x ∈ env.seen := by
    induction hreach with
    | refl => exact hs
    | tail _ hstep ih =>
      obtain ⟨ys, hys, hy⟩ := hstep
      obtain ⟨zs, hzs, hsub⟩ := hgo ih
      rw [hys] at hzs
      cases hzs
      exact hsub _ hy
  obtain ⟨xs, hxs, -⟩ := hgo hseen
  exact ⟨xs, hxs⟩

/-- The answer is that of a node that can be reached from one of the seen nodes, or no node that can
be reached stops the search. -/
theorem search_spec {exhausted b : β} {n : Nat} (hclosed : Closed visit env)
    (h : search visit exhausted n env = some b) :
    (∃ s ∈ env.seen, ∃ x, ReflTransGen (LeadsTo visit) s x ∧ visit x = .stop b) ∨
      (b = exhausted ∧ ∀ s ∈ env.seen, ∀ x, ReflTransGen (LeadsTo visit) s x →
        ∃ xs, visit x = .goOn xs) := by
  induction n generalizing env with
  | zero => cases h
  | succ n ih =>
    unfold search at h
    split at h
    · next hnil =>
        cases h
        exact .inr ⟨rfl, fun s hs x hreach => hclosed.goOn_of_reaches hnil hs hreach⟩
    · next x todo hcons =>
        have hx : x ∈ env.seen := env.todo_seen x (hcons ▸ (.head _))
        split at h
        · next b' hstop =>
            cases h
            exact .inl ⟨x, hx, x, .refl, hstop⟩
        · next xs hxs =>
            rcases ih (hclosed.goOn hcons hxs) h with ⟨s, hs, y, hreach, hstop⟩ | hend
            · -- a node that was added is one step away from `x`
              rcases Seen.mem_seen_addAll.1 hs with hs | hs
              · exact .inl ⟨x, hx, y, .head ⟨xs, hxs, hs⟩ hreach, hstop⟩
              · exact .inl ⟨s, hs, y, hreach, hstop⟩
            · exact .inr ⟨hend.1, fun s hs => hend.2 s (Seen.mem_seen_addAll.2 (.inr hs))⟩

end Answer

/-- A call for a node on the stack ends at once, and another one calls itself with the node on the
stack. There cannot be more open calls than nodes. -/
theorem stack_induction {U : List α} {motive : Nat → List α → α → Prop}
    (seen : ∀ fuel stack x, x ∈ stack → motive fuel stack x)
    (visit : ∀ fuel stack, ∀ x ∈ U, x ∉ stack → (∀ y ∈ U, motive fuel (x :: stack) y) →
      motive (fuel + 1) stack x) {fuel : Nat} (hfuel : U.length ≤ fuel) :
    ∀ x ∈ U, motive fuel [] x := by
  suffices h : ∀ (fuel : Nat) (stack : List α), stack.Nodup → stack ⊆ U →
      U.length ≤ fuel + stack.length → ∀ x ∈ U, motive fuel stack x from
    h fuel [] List.nodup_nil (List.nil_subset U) hfuel
  intro fuel
  induction fuel with
  | zero =>
    intro stack hnodup hstack hfuel x hx
    apply seen
    by_contra hnot
    have hlen := ((List.nodup_cons.2 ⟨hnot, hnodup⟩).subperm
      (List.cons_subset.2 ⟨hx, hstack⟩)).length_le
    rw [List.length_cons] at hlen
    omega
  | succ fuel ih =>
    intro stack hnodup hstack hfuel x hx
    by_cases hmem : x ∈ stack
    · exact seen _ _ _ hmem
    · apply visit fuel stack x hx hmem
      apply ih _ (List.nodup_cons.2 ⟨hmem, hnodup⟩) (List.cons_subset.2 ⟨hx, hstack⟩)
      rw [List.length_cons]
      omega

omit [DecidableEq α] in
/-- A loop whose steps mark their nodes marks the nodes of its list. -/
theorem foldlM_marks {P : β → Prop} (D : β → α → Prop) {step : β → α → Option β} {l : List α}
    {s : β} (hstep : ∀ y ∈ l, ∀ s, P s → ∃ s', step s y = some s' ∧ P s' ∧ D s' y ∧
      ∀ z, D s z → D s' z) (h : P s) :
    ∃ s', l.foldlM step s = some s' ∧ P s' ∧ (∀ y ∈ l, D s' y) ∧ ∀ z, D s z → D s' z := by
  induction l generalizing s with
  | nil => exact ⟨s, rfl, h, by simp, fun _ => id⟩
  | cons y l ih =>
    obtain ⟨hy, hl⟩ := List.forall_mem_cons.1 hstep
    obtain ⟨s', hs', h', hy, hkeeps⟩ := hy s h
    obtain ⟨s'', hs'', h'', hl, hkeeps'⟩ := ih hl h'
    exact ⟨s'', by simp [hs', hs''], h'', List.forall_mem_cons.2 ⟨hkeeps' y hy, hl⟩,
      fun z hz => hkeeps' z (hkeeps z hz)⟩

end ConcurrentCyclone.Worklist
