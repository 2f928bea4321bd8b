import Mathlib.Logic.Relation
import Mathlib.Data.Set.Basic

/-!
# Traces followed through quiet vertices of a graph

A graph `E` approximates the order in which a run visits its vertices. Only some vertices matter;
the others are quiet. The graph follows a run when every vertex that matters is entered, through
quiet vertices only, from the successors of the one that mattered before it.

`Flow E q S tr T` says this of a trace `tr` that starts at the entry set `S` and leaves to the exit
set `T`. Flows compose (`Flow.append`), so a proof can follow the shape of the run, and a flow gives
the path between two consecutive vertices that matter (`Flow.leads`).
-/

set_option autoImplicit false

namespace ConcurrentCyclone.Transition

universe u

variable {V : Type u} {E : V → V → Prop} {q : V → Prop}

/-- There is a path from `a` to `b` all of whose vertices before `b` are quiet. -/
def Enters (E : V → V → Prop) (q : V → Prop) : V → V → Prop :=
  Relation.ReflTransGen fun x y => q x ∧ E x y

/-- There is a path of at least one edge from `a` to `b` with only quiet vertices between them. -/
def Leads (E : V → V → Prop) (q : V → Prop) (a b : V) : Prop :=
  ∃ x, E a x ∧ Enters E q x b

/-- Every vertex of `T` is entered from a vertex of `S`. -/
def Feeds (E : V → V → Prop) (q : V → Prop) (S T : Set V) : Prop :=
  ∀ t ∈ T, ∃ s ∈ S, Enters E q s t

/-- `E` follows the trace from the entry set `S` to the exit set `T`: a quiet vertex of the trace
may be passed by, any other one is entered from the current set and its successors are the next
current set. -/
def Flow (E : V → V → Prop) (q : V → Prop) : Set V → List V → Set V → Prop
  | S, [], T => Feeds E q S T
  | S, n :: tr, T =>
    (q n → Flow E q S tr T) ∧
    (¬ q n → (∃ s ∈ S, Enters E q s n) ∧ Flow E q {x | E n x} tr T)

variable {a b : V} {S T U : Set V} {tr tr1 tr2 : List V}

theorem Enters.step (hq : q a) (h : E a b) : Enters E q a b :=
  Relation.ReflTransGen.single ⟨hq, h⟩

/-- The last edge of a path. -/
theorem Leads.exists_edge (h : Leads E q a b) : ∃ x, E x b := by
  obtain ⟨x, hax, hxb⟩ := h
  cases hxb with
  | refl => exact ⟨a, hax⟩
  | tail _ hstep => exact ⟨_, hstep.2⟩

/-! ## Feeding one set from another -/

theorem feeds_of_subset (h : T ⊆ S) : Feeds E q S T :=
  fun t ht => ⟨t, h ht, .refl⟩

theorem Feeds.refl (S : Set V) : Feeds E q S S := feeds_of_subset fun _ => id

theorem feeds_left (S T : Set V) : Feeds E q (S ∪ T) S := feeds_of_subset fun _ => .inl

theorem feeds_right (S T : Set V) : Feeds E q (S ∪ T) T := feeds_of_subset fun _ => .inr

theorem feeds_empty (S : Set V) : Feeds E q S ∅ :=
  fun _ ht => ht.elim

theorem feeds_of_edges {n : V} (hq : q n) (h : ∀ t ∈ T, E n t) : Feeds E q {n} T :=
  fun t ht => ⟨n, rfl, .step hq (h t ht)⟩

theorem Feeds.trans (h1 : Feeds E q S T) (h2 : Feeds E q T U) : Feeds E q S U := by
  intro u hu
  obtain ⟨t, ht, htu⟩ := h2 u hu
  obtain ⟨s, hs, hst⟩ := h1 t ht
  exact ⟨s, hs, hst.trans htu⟩

theorem Feeds.union (h1 : Feeds E q S T) (h2 : Feeds E q S U) : Feeds E q S (T ∪ U) := by
  rintro x (hx | hx)
  · exact h1 x hx
  · exact h2 x hx

/-! ## Composing flows -/

/-- A flow can start earlier: from any set that feeds its entry set. -/
theorem Flow.feed {S' : Set V} (h : Flow E q S' tr T) (hS : Feeds E q S S') : Flow E q S tr T := by
  induction tr with
  | nil => exact hS.trans h
  | cons n tr ih =>
    refine ⟨fun hq => ih (h.1 hq), fun hq => ?_⟩
    -- the first vertex that is not quiet is entered from further back
    obtain ⟨⟨s', hs', hn⟩, hrest⟩ := h.2 hq
    obtain ⟨s, hs, hss'⟩ := hS s' hs'
    exact ⟨⟨s, hs, hss'.trans hn⟩, hrest⟩

theorem Flow.append (h1 : Flow E q S tr1 T)
    (h2 : Flow E q T tr2 U) : Flow E q S (tr1 ++ tr2) U := by
  induction tr1 generalizing S with
  | nil => exact h2.feed h1
  | cons n tr ih =>
    refine ⟨fun hq => ih (h1.1 hq), fun hq => ?_⟩
    obtain ⟨hn, hrest⟩ := h1.2 hq
    exact ⟨hn, ih hrest⟩

/-- A flow can end later: at any set that its exit set feeds. -/
theorem Flow.feed_right (h : Flow E q S tr T) (hT : Feeds E q T U) : Flow E q S tr U := by
  have hend : Flow E q T [] U := hT
  have happ : Flow E q S (tr ++ []) U := h.append hend
  rwa [List.append_nil] at happ

/-- What is left of a flow when nothing is asked of its exit. -/
theorem Flow.forget (h : Flow E q S tr T) : Flow E q S tr ∅ :=
  h.feed_right (feeds_empty T)

/-- A trace of quiet vertices asks for nothing but the way from entry to exit. -/
theorem flow_of_quiet (hq : ∀ n ∈ tr, q n) (h : Feeds E q S T) : Flow E q S tr T := by
  induction tr with
  | nil => exact h
  | cons n tr ih =>
    have hn : q n := hq n (.head _)
    exact ⟨fun _ => ih fun m hm => hq m (.tail n hm), fun h => absurd hn h⟩

/-- Visiting one vertex, quiet or not, and leaving along its edges. -/
theorem flow_single {n : V} (h : ∀ t ∈ T, E n t) : Flow E q {n} [n] T := by
  refine ⟨fun hq => feeds_of_edges hq h, fun _ => ⟨⟨n, rfl, .refl⟩, ?_⟩⟩
  exact feeds_of_subset fun t ht => h t ht

/-! ## Reading a flow -/

/-- The rest of a trace is followed from some entry set. -/
theorem Flow.drop (h : Flow E q S (tr1 ++ tr2) T) : ∃ S', Flow E q S' tr2 T := by
  induction tr1 generalizing S with
  | nil => exact ⟨S, h⟩
  | cons n tr ih =>
    by_cases hq : q n
    · exact ih (h.1 hq)
    · exact ih (h.2 hq).2

/-- A quiet beginning of the trace does not move the entry set. -/
theorem Flow.drop_quiet (h : Flow E q S (tr1 ++ tr2) T)
    (hq : ∀ n ∈ tr1, q n) : Flow E q S tr2 T := by
  induction tr1 with
  | nil => exact h
  | cons n tr ih =>
    exact ih (h.1 (hq n (.head _))) fun m hm => hq m (.tail n hm)

/-- Over a quiet trace, a flow is the way from its entry to its exit. -/
theorem Flow.feeds (h : Flow E q S tr T) (hq : ∀ n ∈ tr, q n) : Feeds E q S T := by
  rw [← List.append_nil tr] at h
  exact h.drop_quiet hq

/-- Where a graph follows a trace, each vertex that is not quiet leads to the next one. -/
theorem Flow.leads {pre mid post : List V}
    (h : Flow E q S (pre ++ a :: (mid ++ b :: post)) T) (ha : ¬ q a) (hmid : ∀ m ∈ mid, q m)
    (hb : ¬ q b) : Leads E q a b := by
  -- what comes before `a` does not matter: its successors are the next current set
  obtain ⟨S', h'⟩ := h.drop
  obtain ⟨⟨x, hx, hxb⟩, -⟩ := ((h'.2 ha).2.drop_quiet hmid).2 hb
  exact ⟨x, hx, hxb⟩

end ConcurrentCyclone.Transition
