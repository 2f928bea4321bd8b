import ConcurrentCyclone.Difference.Walks
import Mathlib.Algebra.Order.Group.Int

/-!
# The constraint graph

`src/pratt-ap.cyc` keeps difference constraints `i - j <= a` in a graph whose edges are the
distances found so far. `add_edge` looks whether the new edge is implied or closes a negative cycle,
and otherwise goes through all pairs of nodes and shortens, in place, the distances that the new
edge improves.

Nodes are an arbitrary type with decidable equality (`cmp_node(x, y) == 0`), and the arithmetic of
`AP_T` is exact. `INFINITE` is `none`.
-/

set_option autoImplicit false

namespace ConcurrentCyclone.Relations

open Difference

/-- `struct Edge`. -/
structure Edge (N : Type) where
  x : N
  y : N
  value : Int
  deriving DecidableEq

/-- `struct Graph`. -/
structure Graph (N : Type) where
  nodes : List N
  edges : List (Edge N)
  deriving DecidableEq

/-- `empty_graph`, with the node for zero. -/
def emptyGraph {N : Type} (zeroNode : N) : Graph N := ⟨[zeroNode], []⟩

section Graph

variable {N : Type} [DecidableEq N]

/-- `lookup_distance`. -/
def lookupDistance (G : Graph N) (x y : N) : Option Int :=
  if x = y then some 0
  else (G.edges.find? fun e => e.x = x ∧ e.y = y).map Edge.value

/-- Write through the pointer that `lookup_distance` found: the first edge from `x` to `y`. -/
def storeDistance (x y : N) (d : Int) : List (Edge N) → List (Edge N)
  | [] => []
  | e :: es =>
    if e.x = x ∧ e.y = y then { e with value := d } :: es else e :: storeDistance x y d es

/-- `add_node`. -/
def addNode (G : Graph N) (x : N) : Graph N :=
  if x ∈ G.nodes then G else { G with nodes := x :: G.nodes }

/-- The body of the double loop of `add_edge`. The pointer to the distance from `k` to `i` is read
anew for each `l`. The distance of a node from itself is the shared constant zero, which is never
written (`Exact.detour_nonneg`). -/
def updateEntry (i j : N) (a : Int) (k : N) (G : Graph N) (l : N) : Graph N :=
  match lookupDistance G k i, lookupDistance G j l with
  | some dki, some djl =>
    let d := dki + (a + djl)
    match lookupDistance G k l with
    | none => { G with edges := ⟨k, l, d⟩ :: G.edges }
    | some dkl => if d < dkl then { G with edges := storeDistance k l d G.edges } else G
  | _, _ => G

/-- The inner loop of `add_edge`. -/
def updateRow (i j : N) (a : Int) (G : Graph N) (k : N) : Graph N :=
  match lookupDistance G k i with
  | none => G
  | some _ => G.nodes.foldl (updateEntry i j a k) G

/-- `add_edge`. -/
def addEdge (G : Graph N) (i j : N) (a : Int) : Option (Graph N) :=
  let G := addNode (addNode G i) j
  -- the old distance is not longer
  if (lookupDistance G i j).any fun d => d ≤ a then some G
  -- a negative cycle
  else if (lookupDistance G j i).any fun d => d + a < 0 then none
  else some (G.nodes.foldl (updateRow i j a) G)

/-- Add constraints to the empty graph, one after the other. -/
def addEdges (zeroNode : N) (cs : List (Bound N Int)) : Option (Graph N) :=
  cs.foldlM (fun G c => addEdge G c.x c.y c.weight) (emptyGraph zeroNode)

/-! ## Nodes and single entries -/

@[simp] theorem lookupDistance_self (G : Graph N) (x : N) : lookupDistance G x x = some 0 := by
  simp [lookupDistance]

variable {x y : N}

theorem mem_addNode {G : Graph N} : y ∈ (addNode G x).nodes ↔ y = x ∨ y ∈ G.nodes := by
  unfold addNode
  split_ifs with h
  · exact ⟨.inr, fun hy => hy.elim (fun hyx => hyx ▸ h) id⟩
  · simp

@[simp] theorem lookupDistance_addNode (G : Graph N) (x : N) :
    lookupDistance (addNode G x) = lookupDistance G := by
  unfold addNode
  split_ifs <;> rfl

/-- A new edge in front of the others. -/
theorem lookupDistance_cons (G : Graph N) (hxy : x ≠ y) (d : Int) (x' y' : N) :
    lookupDistance { G with edges := ⟨x, y, d⟩ :: G.edges } x' y' =
      if x' = x ∧ y' = y then some d else lookupDistance G x' y' := by
  unfold lookupDistance
  by_cases hpair : x' = x ∧ y' = y
  · obtain ⟨rfl, rfl⟩ := hpair
    simp [hxy]
  · have hmiss : ¬(x = x' ∧ y = y') := fun h => hpair ⟨h.1.symm, h.2.symm⟩
    simp [hpair, hmiss]

theorem find_storeDistance (x y : N) (d : Int) (es : List (Edge N)) (x' y' : N) :
    ((storeDistance x y d es).find? fun e => e.x = x' ∧ e.y = y').map Edge.value =
      if x' = x ∧ y' = y then (es.find? fun e => e.x = x' ∧ e.y = y').map fun _ => d
      else (es.find? fun e => e.x = x' ∧ e.y = y').map Edge.value := by
  induction es with
  | nil => simp [storeDistance]
  | cons e es ih =>
    simp only [storeDistance]
    by_cases hhit : e.x = x ∧ e.y = y
    · -- the edge that is written
      obtain ⟨rfl, rfl⟩ := hhit
      by_cases hpair : x' = e.x ∧ y' = e.y
      · obtain ⟨rfl, rfl⟩ := hpair
        simp
      · have hmiss : ¬(e.x = x' ∧ e.y = y') := fun h => hpair ⟨h.1.symm, h.2.symm⟩
        simp [hpair, hmiss]
    · rw [if_neg hhit]
      by_cases hmatch : e.x = x' ∧ e.y = y'
      · obtain ⟨rfl, rfl⟩ := hmatch
        simp [hhit]
      · simp only [List.find?_cons, hmatch]
        exact ih

/-- Writing a distance that is there. -/
theorem lookupDistance_store (G : Graph N) (hxy : x ≠ y) {d0 : Int}
    (hd0 : lookupDistance G x y = some d0) (d : Int) (x' y' : N) :
    lookupDistance { G with edges := storeDistance x y d G.edges } x' y' =
      if x' = x ∧ y' = y then some d else lookupDistance G x' y' := by
  by_cases hself : x' = y'
  · subst hself
    have hne : ¬(x' = x ∧ x' = y) := fun h => hxy (h.1.symm.trans h.2)
    simp [hne]
  · simp only [lookupDistance, find_storeDistance]
    split_ifs with hpair
    · obtain ⟨rfl, rfl⟩ := hpair
      simp only [lookupDistance, if_neg hxy, Option.map_eq_some_iff] at hd0
      obtain ⟨e, he, _⟩ := hd0
      rw [he]
      rfl
    · rfl

/-! ## The double loop

`D` is the table before the loop. While the loop runs, each entry is the old one or the final one
(`Between`). The loop only reads entries to `i` and from `j`, and these do not change. -/

section Loop

variable {D : Table N Int} {C : Set (Bound N Int)} {i j : N} {a : Int}

/-- Each entry is the old or the final one. -/
def Between (D : Table N Int) (i j : N) (a : Int) (G : Graph N) : Prop :=
  ∀ x y, lookupDistance G x y = D x y ∨ lookupDistance G x y = relax D i j a x y

variable {k l : N}

variable {G : Graph N}

/-- An entry that no detour improves is final from the start. -/
theorem Between.final (hG : Between D i j a G)
    (hold : relax D i j a k l = D k l) : lookupDistance G k l = relax D i j a k l := by
  rcases hG k l with h | h
  · rw [h, hold]
  · exact h

theorem updateEntry_nodes : (updateEntry i j a k G l).nodes = G.nodes := by
  unfold updateEntry
  split
  · dsimp only
    split
    · rfl
    · split_ifs <;> rfl
  · rfl

variable (hcycle : ∀ d, D j i = some d → 0 ≤ d + a)

include hcycle

/-- The entries that the loop reads do not change. -/
theorem Between.to_i (hG : Between D i j a G) (k : N) : lookupDistance G k i = D k i := by
  rw [hG.final (relax_to hcycle k), relax_to hcycle]

theorem Between.from_j (hG : Between D i j a G) (l : N) : lookupDistance G j l = D j l := by
  rw [hG.final (relax_from hcycle l), relax_from hcycle]

variable (hD : Exact D C)

include hD

section

variable (hG : Between D i j a G)

include hG

/-- One pass of the loop body makes one entry final. -/
theorem lookupDistance_updateEntry (k l x y : N) :
    lookupDistance (updateEntry i j a k G l) x y =
      if x = k ∧ y = l then relax D i j a k l else lookupDistance G x y := by
  -- an entry that is final already
  have hdone : lookupDistance G k l = relax D i j a k l → lookupDistance G x y =
      if x = k ∧ y = l then relax D i j a k l else lookupDistance G x y := by
    intro hfinal
    split_ifs with hpair
    · rw [hpair.1, hpair.2, hfinal]
    · rfl
  unfold updateEntry
  rw [hG.to_i hcycle, hG.from_j hcycle]
  cases hki : D k i with
  | none => exact hdone (hG.final (relax_of_none (.inl hki)))
  | some dki =>
    cases hjl : D j l with
    | none => exact hdone (hG.final (relax_of_none (.inr hjl)))
    | some djl =>
      have hrelax := relax_of_some (a := a) hki hjl
      cases hkl : lookupDistance G k l with
      | none =>
        -- a new entry
        have hne : k ≠ l := by
          rintro rfl
          simp at hkl
        have hold : D k l = none := by
          rcases hG k l with h | h
          · rw [← h, hkl]
          · rw [hkl, hrelax] at h
            cases h
        rw [lookupDistance_cons G hne, hrelax, hold]
        rfl
      | some dkl =>
        dsimp only
        by_cases hshort : dki + (a + djl) < dkl
        · -- a shorter distance
          have hne : k ≠ l := by
            rintro rfl
            rw [lookupDistance_self, Option.some.injEq] at hkl
            have hnonneg := hD.detour_nonneg hcycle hki hjl
            omega
          have hold : D k l = some dkl := by
            rcases hG k l with h | h
            · rw [← h, hkl]
            · rw [hkl, hrelax, Option.some.injEq] at h
              have hle := shorter_le_right (D k l) (dki + (a + djl))
              omega
          rw [if_pos hshort, lookupDistance_store G hne hkl, hrelax, hold]
          simp [shorter, min_eq_right hshort.le]
        · -- the old distance is not longer
          rw [if_neg hshort]
          apply hdone
          rcases hG k l with h | h
          · rw [hrelax, ← h, hkl]
            simp [shorter, min_eq_left (not_lt.1 hshort)]
          · exact h

theorem Between.updateEntry (k l : N) : Between D i j a (updateEntry i j a k G l) := by
  intro x y
  rw [lookupDistance_updateEntry hcycle hD hG]
  split_ifs with hpair
  · rw [hpair.1, hpair.2]
    exact .inr rfl
  · exact hG x y

/-- The inner loop makes the entries of a row final and leaves the other rows alone. -/
theorem foldl_updateEntry (k : N) (ls : List N) :
    (ls.foldl (Relations.updateEntry i j a k) G).nodes = G.nodes ∧
      ∀ x y, lookupDistance (ls.foldl (Relations.updateEntry i j a k) G) x y =
        if x = k ∧ y ∈ ls then relax D i j a k y else lookupDistance G x y := by
  induction ls generalizing G with
  | nil => simp
  | cons l ls ih =>
    obtain ⟨hnodes, hlook⟩ := ih (hG.updateEntry hcycle hD k l)
    refine ⟨by rw [List.foldl_cons, hnodes, updateEntry_nodes], fun x y => ?_⟩
    rw [List.foldl_cons, hlook, lookupDistance_updateEntry hcycle hD hG]
    by_cases hx : x = k
    · by_cases hy : y ∈ ls
      · simp [hx, hy]
      · by_cases hyl : y = l
        · simp [hx, hyl]
        · simp [hyl]
    · simp [hx]

/-- The body of the outer loop. -/
theorem lookupDistance_updateRow
    (hends : ∀ y, D j y ≠ none → y ∈ G.nodes) (k x y : N) :
    lookupDistance (updateRow i j a G k) x y =
      if x = k then relax D i j a k y else lookupDistance G x y := by
  have hskip : ∀ {y}, D k i = none ∨ D j y = none → lookupDistance G k y = relax D i j a k y :=
    fun hnone => hG.final (relax_of_none hnone)
  unfold updateRow
  rw [hG.to_i hcycle]
  cases hki : D k i with
  | none =>
    split_ifs with hx
    · rw [hx, hskip (.inl hki)]
    · rfl
  | some d =>
    rw [(foldl_updateEntry hcycle hD hG k G.nodes).2]
    by_cases hx : x = k
    · by_cases hy : y ∈ G.nodes
      · simp [hy]
      · have hnone : D j y = none := by
          by_contra hsome
          exact hy (hends y hsome)
        simp [hx, hskip (.inr hnone)]
    · simp [hx]

theorem updateRow_nodes (k : N) : (updateRow i j a G k).nodes = G.nodes := by
  unfold updateRow
  split
  · rfl
  · exact (foldl_updateEntry hcycle hD hG k G.nodes).1

theorem Between.updateRow
    (hends : ∀ y, D j y ≠ none → y ∈ G.nodes) (k : N) : Between D i j a (updateRow i j a G k) := by
  intro x y
  rw [lookupDistance_updateRow hcycle hD hG hends]
  split_ifs with hx
  · rw [hx]
    exact .inr rfl
  · exact hG x y

theorem foldl_updateRow
    (hends : ∀ y, D j y ≠ none → y ∈ G.nodes) (ks : List N) :
    (ks.foldl (Relations.updateRow i j a) G).nodes = G.nodes ∧
      ∀ x y, lookupDistance (ks.foldl (Relations.updateRow i j a) G) x y =
        if x ∈ ks then relax D i j a x y else lookupDistance G x y := by
  induction ks generalizing G with
  | nil => simp
  | cons k ks ih =>
    have hrow := lookupDistance_updateRow hcycle hD hG hends k
    have hnodes := updateRow_nodes hcycle hD hG k
    obtain ⟨hnodes', hlook⟩ := ih (hG.updateRow hcycle hD hends k) (by rwa [hnodes])
    refine ⟨by rw [List.foldl_cons, hnodes', hnodes], fun x y => ?_⟩
    rw [List.foldl_cons, hlook, hrow]
    by_cases hx : x ∈ ks
    · simp [hx]
    · by_cases hxk : x = k
      · simp [hxk]
      · simp [hxk]

end

end Loop

/-! ## Sequences of constraints -/

/-- The graph holds the shortest paths of the constraints. -/
structure Solved (G : Graph N) (C : Set (Bound N Int)) : Prop where
  exact : Exact (lookupDistance G) C
  ends : ∀ c ∈ C, c.x ∈ G.nodes ∧ c.y ∈ G.nodes

theorem solved_empty (zeroNode : N) : Solved (emptyGraph zeroNode) (∅ : Set (Bound N Int)) := by
  have hwalk : ∀ {x y w}, Walk (∅ : Set (Bound N Int)) x y w → x = y ∧ w = 0 := by
    intro x y w hw
    cases hw with
    | nil x => exact ⟨rfl, rfl⟩
    | cons hc _ => exact absurd hc (Set.notMem_empty _)
  refine ⟨⟨?_, ?_⟩, fun c hc => absurd hc (Set.notMem_empty c)⟩
  · intro x y d hd
    simp only [lookupDistance, emptyGraph, List.find?_nil, Option.map_none] at hd
    split_ifs at hd with hxy
    cases hd
    subst hxy
    exact ⟨.nil x, fun w hw => (hwalk hw).2.ge⟩
  · intro x y w hw
    obtain ⟨rfl, _⟩ := hwalk hw
    exact ⟨0, lookupDistance_self _ _⟩

variable {G G' : Graph N} {C : Set (Bound N Int)} {i j : N} {a : Int}

section

variable (h : Solved G C)

include h

theorem Solved.feasible : Feasible C :=
  h.exact.feasible G.nodes.toFinset fun c hc => by simpa using h.ends c hc

theorem Solved.addNode (x : N) : Solved (addNode G x) C := by
  refine ⟨by simpa using h.exact, fun c hc => ?_⟩
  exact ⟨mem_addNode.2 (.inr (h.ends c hc).1), mem_addNode.2 (.inr (h.ends c hc).2)⟩

/-- Nodes at a finite distance are both in the graph, or the same. -/
theorem Solved.mem_nodes_iff (hxy : lookupDistance G x y ≠ none) : x ∈ G.nodes ↔ y ∈ G.nodes := by
  obtain ⟨d, hd⟩ := Option.ne_none_iff_exists'.1 hxy
  rcases (h.exact.walk hd).mem_ends h.ends with rfl | ⟨hx, hy⟩
  · exact Iff.rfl
  · exact iff_of_true hx hy

/-- `add_edge` answers `NULL` exactly if the constraint closes a negative cycle, and otherwise the
graph is that of all constraints. -/
theorem addEdge_spec (i j : N) (a : Int) :
    (∀ G', addEdge G i j a = some G' → Solved G' (insert ⟨i, j, a⟩ C)) ∧
      (addEdge G i j a = none → ¬Feasible (insert ⟨i, j, a⟩ C)) := by
  -- the graph with both nodes
  have h1 := (h.addNode i).addNode j
  have hi : i ∈ (Relations.addNode (Relations.addNode G i) j).nodes :=
    mem_addNode.2 (.inr (mem_addNode.2 (.inl rfl)))
  have hj : j ∈ (Relations.addNode (Relations.addNode G i) j).nodes := mem_addNode.2 (.inl rfl)
  unfold addEdge
  generalize Relations.addNode (Relations.addNode G i) j = G1 at h1 hi hj ⊢
  have hends : ∀ c ∈ insert ⟨i, j, a⟩ C, c.x ∈ G1.nodes ∧ c.y ∈ G1.nodes := by
    rintro c (rfl | hc)
    · exact ⟨hi, hj⟩
    · exact h1.ends c hc
  dsimp only
  split_ifs with hold hneg
  · obtain ⟨d, hd, hle⟩ := Option.any_eq_true _ _ |>.1 hold
    refine ⟨fun G' hG' => ?_, nofun⟩
    cases hG'
    exact ⟨h1.exact.insert_of_le hd (by simpa using hle), hends⟩
  · obtain ⟨d, hd, hlt⟩ := Option.any_eq_true _ _ |>.1 hneg
    refine ⟨fun G' hG' => (by cases hG'), fun _ => ?_⟩
    exact h1.exact.not_feasible_insert hd (by simpa using hlt)
  · have hcycle : ∀ d, lookupDistance G1 j i = some d → 0 ≤ d + a := by
      intro d hd
      by_contra hlt
      exact hneg (by simpa [hd] using hlt)
    refine ⟨fun G' hG' => ?_, nofun⟩
    cases hG'
    obtain ⟨hnodes, hlook⟩ := foldl_updateRow hcycle h1.exact
      (fun x y => .inl rfl : Between (lookupDistance G1) i j a G1)
      (fun y hy => (h1.mem_nodes_iff hy).1 hj) G1.nodes
    -- outside the nodes nothing changes
    have htable : lookupDistance (G1.nodes.foldl (updateRow i j a) G1) =
        relax (lookupDistance G1) i j a := by
      funext x y
      rw [hlook]
      split_ifs with hx
      · rfl
      · rw [relax_of_none]
        by_contra hsome
        exact hx ((h1.mem_nodes_iff fun hnone => hsome (.inl hnone)).2 hi)
    refine ⟨?_, by rwa [hnodes]⟩
    rw [htable]
    exact h1.exact.relax hcycle

end

/-- The graph after a sequence of constraints. -/
theorem addEdges_solved {zeroNode : N} {cs : List (Bound N Int)}
    (h : addEdges zeroNode cs = some G) : Solved G {c | c ∈ cs} := by
  -- the constraints seen so far are a prefix
  have hrun : ∀ (cs : List (Bound N Int)) (G0 : Graph N) (C : Set (Bound N Int)),
      Solved G0 C → cs.foldlM (fun G c => addEdge G c.x c.y c.weight) G0 = some G →
        Solved G (C ∪ {c | c ∈ cs}) := by
    intro cs
    induction cs with
    | nil =>
      intro G0 C hC hG
      cases hG
      simpa using hC
    | cons c cs ih =>
      intro G0 C hC hG
      obtain ⟨G1, hG1, hG⟩ := Option.bind_eq_some_iff.1 hG
      have hstep := (addEdge_spec hC c.x c.y c.weight).1 G1 hG1
      have hset : insert c C ∪ {d | d ∈ cs} = C ∪ {d | d ∈ c :: cs} := by
        ext d
        simp only [Set.mem_union, Set.mem_insert_iff, Set.mem_ofPred_eq, List.mem_cons]
        tauto
      rw [← hset]
      exact ih G1 _ hstep hG
  simpa using hrun cs _ ∅ (solved_empty zeroNode) h

/-- What the graph and the next call of `add_edge` say about the constraints added so far. -/
structure ShortestPaths (G : Graph N) (cs : List (Bound N Int)) : Prop where
  distance : ∀ x y d, lookupDistance G x y = some d ↔ IsLeast {w | Walk {c | c ∈ cs} x y w} d
  infinite : ∀ x y, lookupDistance G x y = none ↔ ∀ w, ¬Walk {c | c ∈ cs} x y w
  closed : ∀ x y z d e, lookupDistance G x y = some d → lookupDistance G y z = some e →
    ∃ f, lookupDistance G x z = some f ∧ f ≤ d + e
  contradiction : ∀ c : Bound N Int,
    addEdge G c.x c.y c.weight = none ↔ ¬Feasible {c' | c' ∈ cs ++ [c]}

/-- While no constraint is refused, the graph holds the shortest paths, and `add_edge` refuses the
next constraint exactly if all of them together have no integer solution. -/
theorem addEdges_shortestPaths (zeroNode : N) (cs : List (Bound N Int)) (G : Graph N)
    (h : addEdges zeroNode cs = some G) : ShortestPaths G cs := by
  have hsolved := addEdges_solved h
  refine ⟨fun x y d => hsolved.exact.eq_some_iff, fun x y => hsolved.exact.eq_none_iff,
    fun x y z d e hd he => hsolved.exact.triangle hd he, fun c => ?_⟩
  have hset : {c' | c' ∈ cs ++ [c]} = insert c {c' | c' ∈ cs} := by
    ext d
    simp [or_comm]
  rw [hset]
  obtain ⟨hsome, hnone⟩ := addEdge_spec hsolved c.x c.y c.weight
  constructor
  · exact hnone
  · intro hno
    cases hG : addEdge G c.x c.y c.weight with
    | none => rfl
    | some G' => exact absurd (hsome G' hG).feasible hno

end Graph

/-- `1 - 2 <= 3` and `2 - 0 <= -1` are accepted, and the distance from 1 to 0 is 2. -/
theorem addEdges_shortestPaths_three : ShortestPaths ⟨[2, 1, 0], [⟨1, 0, 2⟩, ⟨2, 0, -1⟩, ⟨1, 2, 3⟩]⟩
      [⟨1, 2, 3⟩, (⟨2, 0, -1⟩ : Bound Nat Int)] :=
  addEdges_shortestPaths 0 _ _ (by decide)

end ConcurrentCyclone.Relations
