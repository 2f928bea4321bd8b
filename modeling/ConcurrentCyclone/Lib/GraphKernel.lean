import ConcurrentCyclone.Worklist.Search

/-!
# Transitive kernels

`tkernel` of `lib/graph.cyc` keeps the edges that do not follow from those before them. It knows
which ones do from a second graph, the transitive closure of what was kept, to which `add_edgeTc`
adds one edge at a time. The closure is exact after each edge, with or without cycles.

A node comes into the result with its first edge, so nodes without targets are lost.
-/

set_option autoImplicit false

namespace ConcurrentCyclone.Lib

open Function Relation

/-- One more edge in a relation whose closure is known. -/
theorem transGen_insert_iff {α : Type} {r : α → α → Prop} {s t x y : α} :
    TransGen (fun a b => r a b ∨ a = s ∧ b = t) x y ↔
      TransGen r x y ∨ ReflTransGen r x s ∧ ReflTransGen r t y := by
  have hmono : ∀ a b, ReflTransGen r a b → ReflTransGen (fun a b => r a b ∨ a = s ∧ b = t) a b :=
    ReflTransGen.mono fun _ _ => .inl
  constructor
  · intro h
    induction h with
    | single h =>
      rcases h with h | ⟨rfl, rfl⟩
      · exact .inl (.single h)
      · exact .inr ⟨.refl, .refl⟩
    | tail _ h ih =>
      rcases h with h | ⟨rfl, rfl⟩
      · exact ih.imp (·.tail h) (And.imp_right (·.tail h))
      · exact .inr ⟨ih.elim TransGen.to_reflTransGen (·.1), .refl⟩
  · rintro (h | ⟨hs, ht⟩)
    · exact TransGen.mono (fun _ _ => .inl) _ _ h
    · exact .trans_right (hmono x s hs) (.trans_left (.single (.inr ⟨rfl, rfl⟩)) (hmono t y ht))

/-- `graph_t`: the nodes and their targets, which are read in the order of `Dict::to_list` (from the
last key to the first) and in the order of their set. -/
structure Graph (α : Type) where
  nodes : List α
  targets : α → List α

namespace Graph

variable {α : Type} [DecidableEq α]

/-- `add_edges`. -/
def addEdges (g : Graph α) (source : α) (targets : List α) : Graph α :=
  ⟨g.nodes.insert source, update g.targets source (g.targets source ∪ targets)⟩

/-- `is_edge`. -/
def isEdge (g : Graph α) (source target : α) : Bool :=
  source ∈ g.nodes && target ∈ g.targets source

/-- `get_targets`. -/
def getTargets (g : Graph α) (source : α) : List α :=
  if source ∈ g.nodes then g.targets source else []

/-- `Dict::insert`. -/
def setTargets (g : Graph α) (source : α) (targets : List α) : Graph α :=
  ⟨g.nodes.insert source, update g.targets source targets⟩

/-- `add_edge`. -/
def addEdge (g : Graph α) (source target : α) : Graph α :=
  g.setTargets source ((g.getTargets source).insert target)

/-- `sourcesOf`. -/
def sourcesOf (g : Graph α) (node : α) : List α :=
  (g.nodes.filter fun s => node ∈ g.targets s).reverse

/-- `divideGraph`. -/
def divideGraph (g : Graph α) (source : α) : List α × Graph α :=
  if source ∈ g.nodes then (g.targets source, { g with nodes := g.nodes.filter (· ≠ source) })
  else ([], g)

/-- `add_edgeTc`. -/
def addEdgeTc (g : Graph α) (source target : α) : Graph α :=
  let targetTargets := g.getTargets target
  let (sourceTargets, graphWithoutSource) := g.divideGraph source
  let newSourceTargets := (sourceTargets ∪ targetTargets).insert target
  (graphWithoutSource.sourcesOf source).foldl (fun result s => result.addEdges s newSourceTargets)
    (graphWithoutSource.setTargets source newSourceTargets)

/-- The edges of the graph. -/
def Edge (g : Graph α) (x y : α) : Prop := g.isEdge x y = true

/-- The loop body of `tkernel`, on the closure and the result. -/
def kernelStep (source : α) (st : Graph α × Graph α) (target : α) : Graph α × Graph α :=
  if st.1.isEdge source target then st
  else (st.1.addEdgeTc source target, st.2.addEdge source target)

/-- `tkernel`. -/
def tkernel (g : Graph α) : Graph α :=
  (g.nodes.foldl (fun st source => (g.targets source).foldl (kernelStep source) st)
    (⟨[], fun _ => []⟩, ⟨[], fun _ => []⟩)).2

/-- A graph with the same nodes and some of the edges, and with the same closure. -/
structure IsKernel (g kernel : Graph α) : Prop where
  nodes : ∀ x, x ∈ kernel.nodes ↔ x ∈ g.nodes
  edges : ∀ x y, kernel.Edge x y → g.Edge x y
  closure : ∀ x y, TransGen kernel.Edge x y ↔ TransGen g.Edge x y

variable {g : Graph α} {s t x y : α} {ts : List α}

theorem edge_iff : g.Edge x y ↔ x ∈ g.nodes ∧ y ∈ g.targets x := by
  simp [Edge, isEdge]

theorem mem_getTargets : y ∈ g.getTargets x ↔ g.Edge x y := by
  by_cases hx : x ∈ g.nodes <;> simp [getTargets, edge_iff]

theorem edge_setTargets : (g.setTargets s ts).Edge x y ↔ if x = s then y ∈ ts else g.Edge x y := by
  by_cases hx : x = s <;> simp [setTargets, edge_iff, hx]

theorem edge_addEdge : (g.addEdge s t).Edge x y ↔ g.Edge x y ∨ x = s ∧ y = t := by
  rw [addEdge, edge_setTargets]
  split_ifs with hx
  · simp [hx, mem_getTargets, or_comm]
  · simp [hx]

theorem edge_addEdges (hs : s ∈ g.nodes) :
    (g.addEdges s ts).Edge x y ↔ g.Edge x y ∨ x = s ∧ y ∈ ts := by
  by_cases hx : x = s <;> simp [edge_iff, addEdges, hs, hx]

theorem edge_addEdges_foldl : ∀ (l : List α) (g : Graph α), (∀ s ∈ l, s ∈ g.nodes) →
    ((l.foldl (fun result s => result.addEdges s ts) g).Edge x y ↔ g.Edge x y ∨ x ∈ l ∧ y ∈ ts)
  | [], _, _ => by simp
  | s :: l, g, hl => by
    obtain ⟨hs, hl⟩ := List.forall_mem_cons.1 hl
    rw [List.foldl_cons, edge_addEdges_foldl l _ fun u hu => by simp [addEdges, hl u hu],
      edge_addEdges hs]
    grind

/-- A path over the new edge leads to its source and goes on from its target. -/
theorem edge_addEdgeTc : (g.addEdgeTc s t).Edge x y ↔
    g.Edge x y ∨ (x = s ∨ g.Edge x s) ∧ (y = t ∨ g.Edge s y ∨ g.Edge t y) := by
  obtain ⟨ts, g', hdiv, hts, hg'⟩ : ∃ ts g', g.divideGraph s = (ts, g') ∧
      (∀ y, y ∈ ts ↔ g.Edge s y) ∧ ∀ x y, g'.Edge x y ↔ x ≠ s ∧ g.Edge x y := by
    unfold divideGraph
    split_ifs with hs
    · exact ⟨_, _, rfl, fun y => by simp [edge_iff, hs], fun x y => by simp [edge_iff]; tauto⟩
    · exact ⟨_, _, rfl, fun y => by simp [edge_iff, hs], fun x y => by
        simp only [edge_iff]; grind⟩
  have hsources : ∀ x, x ∈ g'.sourcesOf s ↔ x ≠ s ∧ g.Edge x s := by
    intro x
    rw [← hg' x s, edge_iff]
    simp [sourcesOf]
  simp only [addEdgeTc, hdiv]
  rw [edge_addEdges_foldl, edge_setTargets]
  · simp only [List.mem_insert_iff, List.mem_union_iff, mem_getTargets]
    grind
  · intro x hx
    have := ((hg' x s).2 ((hsources x).1 hx))
    simp [setTargets, (edge_iff.1 this).1]

/-- After the edges of the list: `closure` is the closure of `result`, which has only edges of the
list, and they all follow from it. -/
structure Kernels (l : List (α × α)) (closure result : Graph α) : Prop where
  closed : ∀ x y, closure.Edge x y ↔ TransGen result.Edge x y
  edges : ∀ x y, result.Edge x y → (x, y) ∈ l
  follow : ∀ x y, (x, y) ∈ l → closure.Edge x y
  nodes : ∀ x ∈ result.nodes, ∃ y, result.Edge x y

theorem Kernels.step {l : List (α × α)} {closure result : Graph α}
    (h : Kernels l closure result) (s t : α) :
    Kernels (l ++ [(s, t)]) (kernelStep s (closure, result) t).1
      (kernelStep s (closure, result) t).2 := by
  have hl : ∀ x y, (x, y) ∈ l ++ [(s, t)] ↔ (x, y) ∈ l ∨ x = s ∧ y = t := by simp
  rw [kernelStep]
  split_ifs with hedge
  · refine ⟨h.closed, fun x y hxy => (hl x y).2 (.inl (h.edges x y hxy)), fun x y hxy => ?_,
      h.nodes⟩
    rcases (hl x y).1 hxy with hxy | ⟨rfl, rfl⟩
    · exact h.follow x y hxy
    · exact hedge
  · have hadd : (result.addEdge s t).Edge = fun x y => result.Edge x y ∨ x = s ∧ y = t := by
      funext x y
      exact propext edge_addEdge
    refine ⟨fun x y => ?_, fun x y hxy => ?_, fun x y hxy => ?_, fun x hx => ?_⟩
    · rw [hadd, transGen_insert_iff, edge_addEdgeTc]
      simp only [h.closed]
      -- what follows `s` already followed the sources of `s`
      have htrans : TransGen result.Edge x s → TransGen result.Edge s y →
        TransGen result.Edge x y := TransGen.trans
      grind
    · exact (hl x y).2 ((edge_addEdge.1 hxy).imp_left (h.edges x y))
    · exact edge_addEdgeTc.2 (((hl x y).1 hxy).imp (h.follow x y) fun h => ⟨.inl h.1, .inl h.2⟩)
    · rw [hadd]
      rcases List.mem_insert_iff.1 hx with rfl | hx
      · exact ⟨t, .inr ⟨rfl, rfl⟩⟩
      · exact (h.nodes x hx).imp fun y hxy => .inl hxy

theorem kernels_foldl (l : List (α × α)) :
    let st := l.foldl (fun st e => kernelStep e.1 st e.2) (⟨[], fun _ => []⟩, ⟨[], fun _ => []⟩)
    Kernels l st.1 st.2 := by
  induction l using List.reverseRecOn with
  | nil =>
    have hempty : ∀ x y : α, ¬Edge ⟨[], fun _ => []⟩ x y := fun x y => by simp [edge_iff]
    refine ⟨fun x y => ?_, fun x y hxy => (hempty x y hxy).elim, by simp, by simp⟩
    refine ⟨fun hxy => (hempty x y hxy).elim, fun hxy => ?_⟩
    obtain ⟨z, hxz, -⟩ := TransGen.head'_iff.1 hxy
    exact (hempty x z hxz).elim
  | append_singleton l e ih =>
    rw [List.foldl_concat]
    exact ih.step e.1 e.2

/-- `tkernel` is a kernel exactly if all nodes have targets. -/
theorem tkernel_isKernel_iff (g : Graph α) :
    g.IsKernel g.tkernel ↔ ∀ x ∈ g.nodes, ∃ y, g.Edge x y := by
  have hk := kernels_foldl (g.nodes.flatMap fun x => (g.targets x).map fun y => (x, y))
  simp only [List.foldl_flatMap, List.foldl_map] at hk
  have hmem : ∀ x y, (x, y) ∈ (g.nodes.flatMap fun x => (g.targets x).map fun y => (x, y)) ↔
      g.Edge x y := by
    intro x y
    simp [edge_iff]
  have hedges : ∀ x y, g.tkernel.Edge x y → g.Edge x y :=
    fun x y hxy => (hmem x y).1 (hk.edges x y hxy)
  have hfollow : ∀ x y, g.Edge x y → TransGen g.tkernel.Edge x y :=
    fun x y hxy => (hk.closed x y).1 (hk.follow x y ((hmem x y).2 hxy))
  constructor
  · intro h x hx
    exact (hk.nodes x ((h.nodes x).2 hx)).imp (hedges x)
  · intro h
    refine ⟨fun x => ⟨fun hx => ?_, fun hx => ?_⟩, hedges,
      fun x y => ⟨fun hxy => ?_, fun hxy => ?_⟩⟩
    · obtain ⟨y, hxy⟩ := hk.nodes x hx
      exact (edge_iff.1 (hedges x y hxy)).1
    · obtain ⟨y, hxy⟩ := h x hx
      obtain ⟨z, hxz, -⟩ := TransGen.head'_iff.1 (hfollow x y hxy)
      exact (edge_iff.1 hxz).1
    · exact TransGen.mono hedges _ _ hxy
    · exact TransGen.closed hfollow _ _ hxy

/-- A node without edges is not a node of the kernel. -/
theorem not_isKernel_tkernel : ¬IsKernel ⟨[0], fun _ : Nat => []⟩ (tkernel ⟨[0], fun _ => []⟩) :=
  fun h => absurd ((h.nodes 0).2 List.mem_cons_self) List.not_mem_nil

end Graph

end ConcurrentCyclone.Lib
