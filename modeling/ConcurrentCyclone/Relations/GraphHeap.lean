import ConcurrentCyclone.Relations.Pratt
import Mathlib.Data.List.Find
import Mathlib.Logic.Function.Basic

/-!
# Constraint graphs in memory

The graphs of `src/pratt-ap.cyc` are changed in place: a graph is a record that points to edges, and
`add_edge` writes new distances into the edges and puts new edges into the record. `copy_graph`
makes new edges, so that the copy can be changed without changing the graph. The distance of a node
from itself is a pointer to the variable `AP_zero`.

`Rep h g G` says that the graph at `g` is `G`, and `Keeps g h h'` that other graphs were left alone.
The operations in memory do what those on values do (`answers_addEdge`), in particular they never
write to `AP_zero`, and the copy of a graph shares nothing with it (`rep_copyGraph`).
-/

set_option autoImplicit false

namespace ConcurrentCyclone.Relations.InPlace

open Function Difference

/-- `struct Graph`, with pointers to the edges. -/
structure GraphCell (N : Type) where
  nodes : List N
  edges : List Nat

/-- The memory: the edges and the graphs, how many of each are allocated, and `AP_zero`. -/
structure Heap (N : Type) where
  edge : Nat → Edge N
  edges : Nat
  graph : Nat → GraphCell N
  graphs : Nat
  apZero : Int

/-- A pointer to a distance. -/
inductive Dist where
  | apZero
  | value (e : Nat)

section Operations

variable {N : Type}

/-- Read through a pointer to a distance. -/
def Heap.read (h : Heap N) : Dist → Int
  | .apZero => h.apZero
  | .value e => (h.edge e).value

/-- Write through a pointer to a distance. -/
def Heap.write (h : Heap N) (d : Int) : Dist → Heap N
  | .apZero => { h with apZero := d }
  | .value e => { h with edge := update h.edge e { h.edge e with value := d } }

/-- Change the record of a graph. -/
def Heap.setGraph (h : Heap N) (g : Nat) (c : GraphCell N) : Heap N :=
  { h with graph := update h.graph g c }

/-- `new Edge`. -/
def Heap.newEdge (h : Heap N) (e : Edge N) : Heap N :=
  { h with edge := update h.edge h.edges e, edges := h.edges + 1 }

/-- `new Graph`. -/
def Heap.newGraph (h : Heap N) (c : GraphCell N) : Heap N :=
  { h with graph := update h.graph h.graphs c, graphs := h.graphs + 1 }

/-- `G->edges = new List(new Edge(..), G->edges)`. -/
def Heap.pushEdge (h : Heap N) (g : Nat) (e : Edge N) : Heap N :=
  (h.newEdge e).setGraph g { h.graph g with edges := h.edges :: (h.graph g).edges }

/-- `empty_graph`; the graph is the last one of the new heap. -/
def emptyGraph (h : Heap N) (zeroNode : N) : Heap N := h.newGraph ⟨[zeroNode], []⟩

/-- `copy_edges`. -/
def copyEdges (h : Heap N) : List Nat → Heap N × List Nat
  | [] => (h, [])
  | e :: es =>
    let r := copyEdges (h.newEdge (h.edge e)) es
    (r.1, h.edges :: r.2)

/-- `copy_graph`; the list of nodes is shared. -/
def copyGraph (h : Heap N) (g : Nat) : Heap N × Nat :=
  let r := copyEdges h (h.graph g).edges
  (r.1.newGraph ⟨(h.graph g).nodes, r.2⟩, r.1.graphs)

variable [DecidableEq N]

/-- `lookup_distance`. -/
def lookupDistance (h : Heap N) (g : Nat) (x y : N) : Option Dist :=
  if x = y then some .apZero
  else ((h.graph g).edges.find? fun e => (h.edge e).x = x ∧ (h.edge e).y = y).map .value

/-- `add_node`. -/
def addNode (g : Nat) (h : Heap N) (x : N) : Heap N :=
  if x ∈ (h.graph g).nodes then h
  else h.setGraph g { h.graph g with nodes := x :: (h.graph g).nodes }

/-- The body of the double loop of `add_edge`; `dki` points to the distance from `k` to `i`. -/
def updateEntry (g : Nat) (j : N) (a : Int) (k : N) (dki : Dist) (h : Heap N) (l : N) : Heap N :=
  match lookupDistance h g j l with
  | none => h
  | some djl =>
    let d := h.read dki + (a + h.read djl)
    match lookupDistance h g k l with
    | none => h.pushEdge g ⟨k, l, d⟩
    | some dkl => if d < h.read dkl then h.write d dkl else h

/-- The inner loop of `add_edge`. -/
def updateRow (g : Nat) (i j : N) (a : Int) (h : Heap N) (k : N) : Heap N :=
  match lookupDistance h g k i with
  | none => h
  | some dki => (h.graph g).nodes.foldl (updateEntry g j a k dki) h

/-- `add_edge`; the answer `false` is `NULL`. -/
def addEdge (g : Nat) (h : Heap N) (i j : N) (a : Int) : Heap N × Bool :=
  let h := addNode g (addNode g h i) j
  if (lookupDistance h g i j).any fun d => h.read d ≤ a then (h, true)
  else if (lookupDistance h g j i).any fun d => h.read d + a < h.apZero then (h, false)
  else ((h.graph g).nodes.foldl (updateRow g i j a) h, true)

end Operations

/-! ## Graphs in memory -/

section Representation

variable {N : Type}

/-- The graph at `g` is `G`. Its edges are allocated, and no edge is there twice. -/
structure Rep (h : Heap N) (g : Nat) (G : Graph N) : Prop where
  nodes : (h.graph g).nodes = G.nodes
  edges : (h.graph g).edges.map h.edge = G.edges
  nodup : (h.graph g).edges.Nodup
  allocated : ∀ e ∈ (h.graph g).edges, e < h.edges
  graph : g < h.graphs
  zero : h.apZero = 0

/-- Graphs other than `g` and edges that do not belong to `g` are as before, and the edges that `g`
has got are new. -/
structure Keeps (g : Nat) (h h' : Heap N) : Prop where
  graph : ∀ g', g' ≠ g → g' < h.graphs → h'.graph g' = h.graph g'
  edge : ∀ e, e < h.edges → e ∉ (h.graph g).edges → h'.edge e = h.edge e
  own : ∀ e ∈ (h'.graph g).edges, e ∈ (h.graph g).edges ∨ h.edges ≤ e
  edges : h.edges ≤ h'.edges
  graphs : h.graphs ≤ h'.graphs
  zero : h'.apZero = h.apZero

variable {h h' h'' : Heap N} {g g2 : Nat} {G : Graph N}

theorem Keeps.refl (g : Nat) (h : Heap N) : Keeps g h h :=
  ⟨fun _ _ _ => rfl, fun _ _ _ => rfl, fun _ he => .inl he, le_rfl, le_rfl, rfl⟩

/-- Changes of another graph do not count if the graph and its edges belong to `g` or are new. -/
theorem Keeps.trans_of (h1 : Keeps g h h') (h2 : Keeps g2 h' h'')
    (hgraph : ∀ g', g' ≠ g → g' < h.graphs → g' ≠ g2)
    (hold : ∀ e ∈ (h'.graph g2).edges, e ∈ (h.graph g).edges ∨ h.edges ≤ e)
    (hown : ∀ e ∈ (h''.graph g).edges, e ∈ (h'.graph g).edges ∨ h'.edges ≤ e) : Keeps g h h'' := by
  refine ⟨fun g' hne hlt => ?_, fun e hlt hnot => ?_, fun e he => ?_, h1.edges.trans h2.edges,
    h1.graphs.trans h2.graphs, h2.zero.trans h1.zero⟩
  · rw [h2.graph g' (hgraph g' hne hlt) (hlt.trans_le h1.graphs), h1.graph g' hne hlt]
  · have hnot' : e ∉ (h'.graph g2).edges := fun he => (hold e he).elim hnot hlt.not_ge
    rw [h2.edge e (hlt.trans_le h1.edges) hnot', h1.edge e hlt hnot]
  · rcases hown e he with he | he
    · exact h1.own e he
    · exact .inr (h1.edges.trans he)

theorem Keeps.trans (h1 : Keeps g h h') (h2 : Keeps g h' h'') : Keeps g h h'' :=
  h1.trans_of h2 (fun _ hne _ => hne) h1.own h2.own

/-- The graph at `g₂` and its edges are new in `h'`. -/
structure Fresh (h h' : Heap N) (g₂ : Nat) : Prop where
  graph : h.graphs ≤ g₂
  edges : ∀ e ∈ (h'.graph g₂).edges, h.edges ≤ e

/-- Changes of a new graph do not count. -/
theorem Keeps.trans_fresh (h1 : Keeps g h h') (hg : g < h.graphs) (hnew : Fresh h h' g2)
    (h2 : Keeps g2 h' h'') : Keeps g h h'' := by
  have hne : ∀ {g'}, g' < h.graphs → g' ≠ g2 := fun hlt => (hlt.trans_le hnew.graph).ne
  refine h1.trans_of h2 (fun g' _ => hne) (fun e he => .inr (hnew.edges e he)) fun e he => ?_
  rw [h2.graph g (hne hg) (hg.trans_le h1.graphs)] at he
  exact .inl he

theorem Rep.congr (hrep : Rep h g G) (hcell : h'.graph g = h.graph g)
    (hedge : ∀ e ∈ (h.graph g).edges, h'.edge e = h.edge e) (hedges : h.edges ≤ h'.edges)
    (hgraphs : h.graphs ≤ h'.graphs) (hzero : h'.apZero = h.apZero) : Rep h' g G := by
  refine ⟨?_, ?_, ?_, ?_, hrep.graph.trans_le hgraphs, hzero.trans hrep.zero⟩
  · rw [hcell, hrep.nodes]
  · rw [hcell, ← hrep.edges]
    exact List.map_congr_left hedge
  · rw [hcell]
    exact hrep.nodup
  · rw [hcell]
    exact fun e he => (hrep.allocated e he).trans_le hedges

/-- A graph that shares no edge with `g` is as before. -/
theorem Rep.keeps (hrep : Rep h g2 G) (hkeeps : Keeps g h h') (hne : g2 ≠ g)
    (hdisjoint : ∀ e ∈ (h.graph g2).edges, e ∉ (h.graph g).edges) : Rep h' g2 G := by
  apply hrep.congr
  · exact hkeeps.graph g2 hne hrep.graph
  · exact fun e he => hkeeps.edge e (hrep.allocated e he) (hdisjoint e he)
  · exact hkeeps.edges
  · exact hkeeps.graphs
  · exact hkeeps.zero

/-! ## Single changes -/

theorem keeps_setGraph (h : Heap N) (g : Nat) {c : GraphCell N}
    (hedges : c.edges = (h.graph g).edges) : Keeps g h (h.setGraph g c) := by
  refine ⟨fun g' hne _ => ?_, fun _ _ _ => rfl, fun e he => ?_, le_rfl, le_rfl, rfl⟩
  · exact update_of_ne hne _ _
  · left
    simpa [Heap.setGraph, hedges] using he

theorem keeps_pushEdge (h : Heap N) (g : Nat) (e : Edge N) : Keeps g h (h.pushEdge g e) := by
  refine ⟨fun g' hne _ => ?_, fun e' hlt _ => ?_, fun e' he' => ?_, Nat.le_succ _, le_rfl, rfl⟩
  · exact update_of_ne hne _ _
  · exact update_of_ne hlt.ne _ _
  · simp only [Heap.pushEdge, Heap.setGraph, update_self, List.mem_cons] at he'
    rcases he' with rfl | he'
    · exact .inr le_rfl
    · exact .inl he'

variable {e : Nat} {es : List Nat} {x y : N}

theorem keeps_write (h : Heap N) {g : Nat} (he : e ∈ (h.graph g).edges) (d : Int) :
    Keeps g h (h.write d (.value e)) := by
  refine ⟨fun _ _ _ => rfl, fun e' _ hown => ?_, fun _ he' => .inl he', le_rfl, le_rfl, rfl⟩
  exact update_of_ne (ne_of_mem_of_not_mem he hown).symm _ _

theorem Rep.pushEdge (hrep : Rep h g G) (e : Edge N) :
    Rep (h.pushEdge g e) g { G with edges := e :: G.edges } := by
  have hnot : h.edges ∉ (h.graph g).edges := fun hmem => (hrep.allocated _ hmem).false
  refine ⟨?_, ?_, ?_, ?_, hrep.graph, hrep.zero⟩
  · simp [Heap.pushEdge, Heap.setGraph, hrep.nodes]
  · simp only [Heap.pushEdge, Heap.setGraph, Heap.newEdge, update_self, List.map_cons]
    rw [hrep.nodup.map_update, if_neg hnot, hrep.edges]
  · simp [Heap.pushEdge, Heap.setGraph, hnot, hrep.nodup]
  · intro e' he'
    simp only [Heap.pushEdge, Heap.setGraph, update_self, List.mem_cons] at he'
    rcases he' with rfl | he'
    · exact Nat.lt_succ_self _
    · exact (hrep.allocated e' he').trans (Nat.lt_succ_self _)

variable [DecidableEq N]

theorem Rep.addNode (hrep : Rep h g G) (x : N) :
    Rep (addNode g h x) g (Relations.addNode G x) ∧ Keeps g h (addNode g h x) := by
  unfold InPlace.addNode Relations.addNode
  rw [hrep.nodes]
  split_ifs
  · exact ⟨hrep, .refl g h⟩
  · refine ⟨⟨?_, ?_, ?_, ?_, hrep.graph, hrep.zero⟩, keeps_setGraph h g rfl⟩
    · simp [Heap.setGraph]
    · simpa [Heap.setGraph] using hrep.edges
    · simpa [Heap.setGraph] using hrep.nodup
    · simpa [Heap.setGraph] using hrep.allocated

/-- A pointer to a distance leads to the distance. -/
theorem Rep.map_read (hrep : Rep h g G) (x y : N) :
    (lookupDistance h g x y).map h.read = Relations.lookupDistance G x y := by
  unfold InPlace.lookupDistance Relations.lookupDistance
  split_ifs with hxy
  · simp [Heap.read, hrep.zero]
  · rw [← hrep.edges, List.find?_map, Option.map_map, Option.map_map]
    rfl

/-- The distance is written into the first edge between the nodes. -/
theorem map_update_of_find (hnodup : es.Nodup) {f : Nat → Edge N}
    (hfind : es.find? (fun e => (f e).x = x ∧ (f e).y = y) = some e) (d : Int) :
    es.map (update f e { f e with value := d }) = storeDistance x y d (es.map f) := by
  induction es with
  | nil => cases hfind
  | cons e' es ih =>
    obtain ⟨hnot, hnodup⟩ := List.nodup_cons.1 hnodup
    rw [List.find?_cons] at hfind
    rw [List.map_cons, List.map_cons, storeDistance]
    by_cases hhit : (f e').x = x ∧ (f e').y = y
    · simp only [hhit, and_self, decide_true, Option.some.injEq] at hfind
      subst hfind
      rw [if_pos hhit, update_self, hnodup.map_update, if_neg hnot]
    · simp only [hhit] at hfind
      have hne : e' ≠ e := fun heq => hnot (heq ▸ List.mem_of_find?_eq_some hfind)
      rw [if_neg hhit, update_of_ne hne, ih hnodup hfind]

theorem Rep.write (hrep : Rep h g G) (hlook : lookupDistance h g x y = some (.value e)) (d : Int) :
    Rep (h.write d (.value e)) g { G with edges := storeDistance x y d G.edges } ∧
      Keeps g h (h.write d (.value e)) := by
  unfold InPlace.lookupDistance at hlook
  split_ifs at hlook with hxy
  · cases hlook
  · obtain ⟨e', hfind, he'⟩ := Option.map_eq_some_iff.1 hlook
    cases he'
    refine ⟨⟨hrep.nodes, ?_, hrep.nodup, hrep.allocated, hrep.graph, hrep.zero⟩,
      keeps_write h (List.mem_of_find?_eq_some hfind) d⟩
    rw [← hrep.edges]
    exact map_update_of_find hrep.nodup hfind d

/-- Writing a distance moves no pointer. -/
theorem lookupDistance_write (h : Heap N) (g : Nat) (d : Int) (p : Dist) :
    lookupDistance (h.write d p) g = lookupDistance h g := by
  funext x y
  cases p with
  | apZero => rfl
  | value e =>
    have hends : ∀ e', ((h.write d (.value e)).edge e').x = (h.edge e').x ∧
        ((h.write d (.value e)).edge e').y = (h.edge e').y := by
      intro e'
      by_cases he : e' = e
      · subst he
        simp [Heap.write]
      · simp [Heap.write, he]
    simp only [InPlace.lookupDistance, hends]
    rfl

/-- A new edge does not hide the others. -/
theorem Rep.lookupDistance_pushEdge (hrep : Rep h g G) {e : Edge N} (hne : ¬(e.x = x ∧ e.y = y)) :
    lookupDistance (h.pushEdge g e) g x y = lookupDistance h g x y := by
  have hedge : (h.pushEdge g e).edge = update h.edge h.edges e := rfl
  have hcell : ((h.pushEdge g e).graph g).edges = h.edges :: (h.graph g).edges := by
    simp [Heap.pushEdge, Heap.setGraph]
  have htail : ((h.graph g).edges.find? fun e' =>
        (update h.edge h.edges e e').x = x ∧ (update h.edge h.edges e e').y = y) =
      (h.graph g).edges.find? fun e' => (h.edge e').x = x ∧ (h.edge e').y = y := by
    apply List.find?_congr
    intro e' he'
    rw [update_of_ne (hrep.allocated e' he').ne]
  simp only [InPlace.lookupDistance, hcell, hedge, List.find?_cons, update_self, hne,
    decide_false, htail]

end Representation

/-! ## Adding an edge -/

section AddEdge

variable {N : Type} [DecidableEq N] {h : Heap N} {g : Nat} {G : Graph N}

/-- The loop body does in memory what it does on values. The pointer to the distance from `k` to `i`
stays valid. -/
theorem rep_updateEntry (hrep : Rep h g G) {i j k : N} {a : Int} {dki : Dist}
    (hki : lookupDistance h g k i = some dki)
    (hself : ∀ d e, Relations.lookupDistance G k i = some d →
      Relations.lookupDistance G j k = some e → 0 ≤ d + (a + e)) (l : N) :
    Rep (updateEntry g j a k dki h l) g (Relations.updateEntry i j a k G l) ∧
      Keeps g h (updateEntry g j a k dki h l) ∧
      lookupDistance (updateEntry g j a k dki h l) g k i = some dki := by
  have hdki : Relations.lookupDistance G k i = some (h.read dki) := by
    rw [← hrep.map_read, hki]
    rfl
  have hjl := hrep.map_read j l
  have hkl := hrep.map_read k l
  unfold InPlace.updateEntry Relations.updateEntry
  rw [hdki, ← hjl, ← hkl]
  cases hlookjl : lookupDistance h g j l with
  | none => exact ⟨hrep, .refl g h, hki⟩
  | some djl =>
    dsimp only [Option.map_some]
    cases hlookkl : lookupDistance h g k l with
    | none =>
      refine ⟨hrep.pushEdge _, keeps_pushEdge h g _, ?_⟩
      rw [hrep.lookupDistance_pushEdge, hki]
      -- there is an edge to `i` already
      rintro ⟨-, rfl⟩
      rw [hki] at hlookkl
      cases hlookkl
    | some dkl =>
      dsimp only [Option.map_some]
      split_ifs with hshort
      · cases dkl with
        | apZero =>
          -- the way from a node to itself is not negative
          have hkk : k = l := by
            unfold InPlace.lookupDistance at hlookkl
            split_ifs at hlookkl with hkk
            · exact hkk
            · simp at hlookkl
          subst hkk
          rw [hlookjl] at hjl
          have hnonneg := hself _ _ hdki hjl.symm
          rw [Heap.read, hrep.zero] at hshort
          omega
        | value e =>
          obtain ⟨hrep', hkeeps⟩ := hrep.write hlookkl (h.read dki + (a + h.read djl))
          exact ⟨hrep', hkeeps, by rw [lookupDistance_write, hki]⟩
      · exact ⟨hrep, .refl g h, hki⟩

section Loop

variable {D : Table N Int} {C : Set (Bound N Int)} {i j : N} {a : Int}
  (hcycle : ∀ d, D j i = some d → 0 ≤ d + a) (hD : Exact D C)

include hcycle hD

section

variable (hrep : Rep h g G) (hG : Between D i j a G)

include hrep hG

/-- The inner loop. -/
theorem rep_foldl_updateEntry {k : N} {dki : Dist}
    (hki : lookupDistance h g k i = some dki) (ls : List N) :
    Rep (ls.foldl (updateEntry g j a k dki) h) g
        (ls.foldl (Relations.updateEntry i j a k) G) ∧
      Keeps g h (ls.foldl (updateEntry g j a k dki) h) := by
  induction ls generalizing h G with
  | nil => exact ⟨hrep, .refl g h⟩
  | cons l ls ih =>
    have hself : ∀ d e, Relations.lookupDistance G k i = some d →
        Relations.lookupDistance G j k = some e → 0 ≤ d + (a + e) := by
      intro d e hd he
      rw [hG.to_i hcycle] at hd
      rw [hG.from_j hcycle] at he
      exact hD.detour_nonneg hcycle hd he
    obtain ⟨hrep', hkeeps, hki'⟩ := rep_updateEntry hrep hki hself l
    obtain ⟨hrep'', hkeeps'⟩ := ih hrep' (hG.updateEntry hcycle hD k l) hki'
    exact ⟨hrep'', hkeeps.trans hkeeps'⟩

theorem rep_updateRow (k : N) :
    Rep (updateRow g i j a h k) g (Relations.updateRow i j a G k) ∧
      Keeps g h (updateRow g i j a h k) := by
  unfold InPlace.updateRow Relations.updateRow
  rw [← hrep.map_read]
  cases hki : lookupDistance h g k i with
  | none => exact ⟨hrep, .refl g h⟩
  | some dki =>
    rw [hrep.nodes]
    exact rep_foldl_updateEntry hcycle hD hrep hG hki G.nodes

/-- The outer loop. -/
theorem rep_foldl_updateRow
    (hends : ∀ y, D j y ≠ none → y ∈ G.nodes) (ks : List N) :
    Rep (ks.foldl (updateRow g i j a) h) g (ks.foldl (Relations.updateRow i j a) G) ∧
      Keeps g h (ks.foldl (updateRow g i j a) h) := by
  induction ks generalizing h G with
  | nil => exact ⟨hrep, .refl g h⟩
  | cons k ks ih =>
    obtain ⟨hrep', hkeeps⟩ := rep_updateRow hcycle hD hrep hG k
    have hnodes := updateRow_nodes hcycle hD hG k
    obtain ⟨hrep'', hkeeps'⟩ := ih hrep' (hG.updateRow hcycle hD hends k) (by rwa [hnodes])
    exact ⟨hrep'', hkeeps.trans hkeeps'⟩

end

end Loop

/-- The answer of an operation on the graph at `g` is that of the operation on values. -/
structure Answers (g : Nat) (h : Heap N) (r : Heap N × Bool) (o : Option (Graph N)) : Prop where
  keeps : Keeps g h r.1
  isSome : r.2 = o.isSome
  rep : ∀ G, o = some G → Rep r.1 g G

theorem answers_addEdge {C : Set (Bound N Int)} (hrep : Rep h g G) (hsolved : Solved G C) (i j : N)
    (a : Int) : Answers g h (addEdge g h i j a) (Relations.addEdge G i j a) := by
  obtain ⟨hrep1, hkeeps1⟩ := hrep.addNode i
  obtain ⟨hrep2, hkeeps2⟩ := hrep1.addNode j
  have hsolved2 := (hsolved.addNode i).addNode j
  have hkeeps := hkeeps1.trans hkeeps2
  have hj : j ∈ (Relations.addNode (Relations.addNode G i) j).nodes := mem_addNode.2 (.inl rfl)
  unfold InPlace.addEdge Relations.addEdge
  generalize Relations.addNode (Relations.addNode G i) j = G2 at hrep2 hsolved2 hj ⊢
  generalize InPlace.addNode g (InPlace.addNode g h i) j = h2 at hrep2 hkeeps ⊢
  dsimp only
  -- both look at the same distances
  have hold : ((lookupDistance h2 g i j).any fun d => h2.read d ≤ a) =
      (Relations.lookupDistance G2 i j).any fun d => d ≤ a := by
    rw [← hrep2.map_read, Option.any_map]
  have hneg : ((lookupDistance h2 g j i).any fun d => h2.read d + a < h2.apZero) =
      (Relations.lookupDistance G2 j i).any fun d => d + a < 0 := by
    rw [← hrep2.map_read, Option.any_map, hrep2.zero]
  rw [hold, hneg]
  split_ifs with hle hlt
  · refine ⟨hkeeps, rfl, fun G' hG' => ?_⟩
    cases hG'
    exact hrep2
  · exact ⟨hkeeps, rfl, by rintro _ ⟨⟩⟩
  · have hcycle : ∀ d, Relations.lookupDistance G2 j i = some d → 0 ≤ d + a := by
      intro d hd
      by_contra hlt'
      exact hlt (by simpa [hd] using hlt')
    obtain ⟨hrep', hkeeps'⟩ := rep_foldl_updateRow hcycle hsolved2.exact hrep2
      (fun x y => .inl rfl : Between (Relations.lookupDistance G2) i j a G2)
      (fun y hy => (hsolved2.mem_nodes_iff hy).1 hj) G2.nodes
    rw [hrep2.nodes]
    refine ⟨hkeeps.trans hkeeps', rfl, fun G' hG' => ?_⟩
    cases hG'
    exact hrep'

end AddEdge

/-! ## New graphs -/

section NewGraph

variable {N : Type} {h : Heap N} {g : Nat} {G : Graph N}

/-- The edges `es'` are new copies of `es`, and everything else is as before. -/
structure Copied (h h' : Heap N) (es es' : List Nat) : Prop where
  edge : ∀ e, e < h.edges → h'.edge e = h.edge e
  edges : h.edges ≤ h'.edges
  graph : h'.graph = h.graph
  graphs : h'.graphs = h.graphs
  zero : h'.apZero = h.apZero
  new : ∀ e ∈ es', h.edges ≤ e ∧ e < h'.edges
  nodup : es'.Nodup
  map : es'.map h'.edge = es.map h.edge

theorem copied_copyEdges {es : List Nat} (hes : ∀ e ∈ es, e < h.edges) :
    Copied h (copyEdges h es).1 es (copyEdges h es).2 := by
  induction es generalizing h with
  | nil =>
    exact ⟨fun _ _ => rfl, le_rfl, rfl, rfl, rfl, fun _ he => absurd he List.not_mem_nil, .nil,
      rfl⟩
  | cons e es ih =>
    obtain ⟨-, hes⟩ := List.forall_mem_cons.1 hes
    have hnew : (h.newEdge (h.edge e)).edges = h.edges + 1 := rfl
    have hcopied := ih (h := h.newEdge (h.edge e)) fun e' he' => (hes e' he').trans (by omega)
    have hold : ∀ e', e' < h.edges → (h.newEdge (h.edge e)).edge e' = h.edge e' := fun e' hlt =>
      update_of_ne hlt.ne _ _
    have hfirst : (h.newEdge (h.edge e)).edge h.edges = h.edge e := update_self ..
    have hge := hcopied.edges
    refine ⟨fun e' hlt => ?_, (Nat.le_succ _).trans hge, hcopied.graph, hcopied.graphs,
      hcopied.zero, ?_, ?_, ?_⟩
    · rw [copyEdges, hcopied.edge e' (by omega), hold e' hlt]
    · intro e' he'
      rcases List.mem_cons.1 he' with rfl | he'
      · exact ⟨le_rfl, hge⟩
      · have hbounds := hcopied.new e' he'
        exact ⟨by omega, hbounds.2⟩
    · refine List.nodup_cons.2 ⟨fun hmem => ?_, hcopied.nodup⟩
      have hbounds := hcopied.new _ hmem
      omega
    · rw [copyEdges, List.map_cons, hcopied.map, hcopied.edge _ (by omega)]
      congr 1
      exact List.map_congr_left fun e' he' => hold e' (hes e' he')

theorem Rep.emptyGraph (h : Heap N) (hzero : h.apZero = 0) (zeroNode : N) :
    Rep (emptyGraph h zeroNode) h.graphs (Relations.emptyGraph zeroNode) := by
  refine ⟨?_, ?_, ?_, ?_, Nat.lt_succ_self _, hzero⟩
  all_goals simp [InPlace.emptyGraph, Heap.newGraph, Relations.emptyGraph]

/-- The copy of a graph is the graph, and shares no edge with it. -/
theorem rep_copyGraph (hrep : Rep h g G) :
    Rep (copyGraph h g).1 g G ∧ Rep (copyGraph h g).1 (copyGraph h g).2 G ∧
      Fresh h (copyGraph h g).1 (copyGraph h g).2 ∧ Keeps g h (copyGraph h g).1 ∧
      ((copyGraph h g).1.graph g).edges = (h.graph g).edges := by
  have hcopied := copied_copyEdges hrep.allocated
  have hgraphs : (copyGraph h g).2 = h.graphs := hcopied.graphs
  have hold : ∀ g', g' < h.graphs → (copyGraph h g).1.graph g' = h.graph g' := by
    intro g' hlt
    have hne : g' ≠ (copyEdges h (h.graph g).edges).1.graphs := by
      rw [hcopied.graphs]
      exact hlt.ne
    rw [← hcopied.graph]
    exact update_of_ne hne _ _
  have hcell : (copyGraph h g).1.graph (copyGraph h g).2 =
      ⟨(h.graph g).nodes, (copyEdges h (h.graph g).edges).2⟩ := update_self ..
  have hnum : (copyGraph h g).1.graphs = h.graphs + 1 := congrArg (· + 1) hcopied.graphs
  have hkeeps : Keeps g h (copyGraph h g).1 := by
    refine ⟨fun g' _ hlt => hold g' hlt, fun e hlt _ => hcopied.edge e hlt, fun e he => ?_,
      hcopied.edges, by omega, hcopied.zero⟩
    rw [hold g hrep.graph] at he
    exact .inl he
  refine ⟨?_, ⟨?_, ?_, ?_, ?_, ?_, hcopied.zero.trans hrep.zero⟩, ⟨hgraphs.ge, ?_⟩, hkeeps, ?_⟩
  · apply hrep.congr (hold g hrep.graph)
    · exact fun e he => hcopied.edge e (hrep.allocated e he)
    · exact hcopied.edges
    · exact hkeeps.graphs
    · exact hcopied.zero
  · rw [hcell, hrep.nodes]
  · rw [hcell, ← hrep.edges]
    exact hcopied.map
  · rw [hcell]
    exact hcopied.nodup
  · rw [hcell]
    exact fun e he => (hcopied.new e he).2
  · omega
  · rw [hcell]
    exact fun e he => (hcopied.new e he).1
  · rw [hold g hrep.graph]

end NewGraph

end ConcurrentCyclone.Relations.InPlace
