import ConcurrentCyclone.Relations.GraphHeap
import ConcurrentCyclone.Relations.Operands

/-!
# Consistency in memory

`consist_relations` as it runs: it changes one graph in place, copies it where a relation `!=`
splits the search, and reduces the operands of the relations in the relations themselves. The answer
is that of the search on graphs as values (`consistRelations_eq`): what the first half of a split
does to its graph does not reach the copy.

What the first half does to the relations does reach the second half. This makes no difference as
long as operands of the relations after a `!=` are not reduced further when they are reduced once;
then the answer says whether some integers satisfy the relations (`consistentRelations_exact`). An
operand can also be reduced twice, as the size of an array whose bound is the size of another one.
Then the two halves of a split read different relations, and the second half may even read one
operand in two ways.
-/

set_option autoImplicit false

namespace ConcurrentCyclone.Relations.InPlace

open Function Absyn Difference

variable {V T : Type}

/-- The memory of the graphs, and the relations. -/
structure State (V T : Type) where
  heap : Heap (Node V T)
  reln : Nat → Reln V T

section Search

variable [DecidableEq V] [DecidableEq T]

/-- A second edge, if the graph is not `NULL` and the condition holds. -/
def addEdgeIf (g : Nat) (r : Heap (Node V T) × Bool) (p : Prop) [Decidable p] (i j : Node V T)
    (a : Int) : Heap (Node V T) × Bool :=
  if r.2 = true ∧ p then addEdge g r.1 i j a else r

/-- `x <= i`, `x < i` and `x == i` for a node and a constant. -/
def addBelow (g : Nat) (h : Heap (Node V T)) (n : Node V T) (rel : Relation) (i : BitVec 32) :
    Heap (Node V T) × Bool :=
  let i := if rel = .lt then i - 1 else i
  addEdgeIf g (addEdge g h n .zero (apFromint i)) (rel = .eq) .zero n (-apFromint i)

/-- `i <= x`, `i < x` and `i == x` for a constant and a node. -/
def addAbove (g : Nat) (h : Heap (Node V T)) (i : BitVec 32) (rel : Relation) (n : Node V T) :
    Heap (Node V T) × Bool :=
  let i := if rel = .lt then i + 1 else i
  addEdgeIf g (addEdge g h .zero n (-apFromint i)) (rel = .eq) n .zero (apFromint i)

/-- `x <= y`, `x < y` and `x == y` for two nodes. -/
def addBetween (g : Nat) (h : Heap (Node V T)) (n₁ : Node V T) (rel : Relation) (n₂ : Node V T) :
    Heap (Node V T) × Bool :=
  let i : Int := if rel = .lt then -1 else 0
  addEdgeIf g (addEdge g h n₁ n₂ i) (rel = .eq) n₂ n₁ i

/-- The graphs with which the search goes on, first `G` and then `G2`. -/
structure Branches (V T : Type) where
  heap : Heap (Node V T)
  first : Option Nat
  second : Option Nat

/-- Go on with the graph at `g`, unless it is `NULL`. -/
def single (g : Nat) (r : Heap (Node V T) × Bool) : Branches V T :=
  ⟨r.1, if r.2 then some g else none, none⟩

/-- Split the search: one edge is added to the graph, the other one to a copy. -/
def split (g : Nat) (h : Heap (Node V T)) (b₁ b₂ : Bound (Node V T) Int) : Branches V T :=
  let c := copyGraph h g
  let r₂ := addEdge c.2 c.1 b₂.x b₂.y b₂.weight
  let r₁ := addEdge g r₂.1 b₁.x b₁.y b₁.weight
  ⟨r₁.1, if r₁.2 then some g else none, if r₂.2 then some c.2 else none⟩

/-- The switch of `consist_relations` over a reduced relation. -/
def addReln (g : Nat) (h : Heap (Node V T)) (r : Reln V T) : Branches V T :=
  match rop2node r.rop1, r.relation, rop2node r.rop2 with
  | .inl i, rel, .inl j => single g (h, rel.test i.toNat j.toNat)
  | .inr n, .neq, .inl i | .inl i, .neq, .inr n =>
    split g h ⟨.zero, n, -(apFromint i + 1)⟩ ⟨n, .zero, apFromint i - 1⟩
  | .inr n₁, .neq, .inr n₂ => split g h ⟨n₂, n₁, -1⟩ ⟨n₁, n₂, -1⟩
  | .inr n, rel, .inl i => single g (addBelow g h n rel i)
  | .inl i, rel, .inr n => single g (addAbove g h i rel n)
  | .inr n₁, rel, .inr n₂ => single g (addBetween g h n₁ rel n₂)

/-- `consist_relations` on a list of pointers to relations. -/
def consistRelations (reduce : RelnOp V T → RelnOp V T) :
    List Nat → Nat → State V T → Bool × State V T
  | [], _, s => (true, s)
  | p :: rlns, g, s =>
    let r := reduceReln reduce (s.reln p)
    let b := addReln g s.heap r
    let s : State V T := ⟨b.heap, update s.reln p r⟩
    match b.first, b.second with
    | none, none => (false, s)
    | some g, none | none, some g => consistRelations reduce rlns g s
    | some g, some g₂ =>
      let answer := consistRelations reduce rlns g s
      if answer.1 then answer else consistRelations reduce rlns g₂ answer.2

/-- `consistent_relations`. -/
def consistentRelations (reduce : RelnOp V T → RelnOp V T) (rlns : List Nat) (s : State V T) :
    Bool × State V T :=
  consistRelations reduce rlns s.heap.graphs ⟨emptyGraph s.heap .zero, s.reln⟩

end Search

/-! ## One relation -/

section OneRelation

variable [DecidableEq V] [DecidableEq T] {g : Nat} {h : Heap (Node V T)} {G : Graph (Node V T)}
  {C : Set (Bound (Node V T) Int)}

variable {r : Heap (Node V T) × Bool} {o : Option (Graph (Node V T))}

theorem solved_addEdge (hsolved : Solved G C) {i j : Node V T} {a : Int} {G' : Graph (Node V T)}
    (hG' : Relations.addEdge G i j a = some G') : ∃ C', Solved G' C' :=
  ⟨_, (addEdge_spec hsolved i j a).1 G' hG'⟩

/-- An edge, and a second one if the condition holds. -/
theorem answers_addEdgeIf (hrep : Rep h g G) (hsolved : Solved G C) (i j : Node V T) (a : Int)
    (p : Prop) [Decidable p] (i' j' : Node V T) (a' : Int) :
    Answers g h (addEdgeIf g (addEdge g h i j a) p i' j' a') ((Relations.addEdge G i j a).bind
      fun G => if p then Relations.addEdge G i' j' a' else some G) := by
  have hfirst := answers_addEdge hrep hsolved i j a
  cases ho : Relations.addEdge G i j a with
  | none =>
    rw [ho] at hfirst
    have hnull : (addEdge g h i j a).2 = false := hfirst.isSome
    rw [addEdgeIf, if_neg (by simp [hnull])]
    exact hfirst
  | some G' =>
    rw [ho] at hfirst
    have hsome : (addEdge g h i j a).2 = true := hfirst.isSome
    rw [Option.bind_some]
    by_cases hp : p
    · obtain ⟨C', hsolved'⟩ := solved_addEdge hsolved ho
      rw [addEdgeIf, if_pos ⟨hsome, hp⟩, if_pos hp]
      have hsecond := answers_addEdge (hfirst.rep G' rfl) hsolved' i' j' a'
      exact ⟨hfirst.keeps.trans hsecond.keeps, hsecond.isSome, hsecond.rep⟩
    · rw [addEdgeIf, if_neg (fun h => hp h.2), if_neg hp]
      exact hfirst

/-- The graphs in memory are those of the search on values. -/
inductive Offers (g : Nat) (h : Heap (Node V T)) :
    Branches V T → List (Graph (Node V T)) → Prop where
  | none {h'} : Keeps g h h' → Offers g h ⟨h', none, none⟩ []
  | first {h' G} : Keeps g h h' → Rep h' g G → Offers g h ⟨h', some g, none⟩ [G]
  | second {h' g₂ G} : Keeps g h h' → Fresh h h' g₂ → Rep h' g₂ G →
      Offers g h ⟨h', none, some g₂⟩ [G]
  | both {h' g₂ G G₂} : Keeps g h h' → Rep h' g G → Fresh h h' g₂ → Rep h' g₂ G₂ →
      (∀ e ∈ (h'.graph g₂).edges, e ∉ (h'.graph g).edges) →
      Offers g h ⟨h', some g, some g₂⟩ [G, G₂]

omit [DecidableEq V] [DecidableEq T] in
theorem offers_single (hanswers : Answers g h r o) : Offers g h (single g r) o.toList := by
  rw [single, hanswers.isSome]
  cases o with
  | none => exact .none hanswers.keeps
  | some G => exact .first hanswers.keeps (hanswers.rep G rfl)

/-- The two halves of a split have graphs that share nothing. -/
theorem offers_split (hrep : Rep h g G) (hsolved : Solved G C) (b1 b2 : Bound (Node V T) Int) :
    Offers g h (split g h b1 b2)
      ((Relations.addEdge G b1.x b1.y b1.weight).toList ++
        (Relations.addEdge G b2.x b2.y b2.weight).toList) := by
  obtain ⟨hrepg, hrepc, hfresh, hkeepsc, hedges⟩ := rep_copyGraph hrep
  have hans2 := answers_addEdge hrepc hsolved b2.x b2.y b2.weight
  unfold split
  generalize copyGraph h g = c at hrepg hrepc hfresh hkeepsc hedges hans2 ⊢
  obtain ⟨h1, g2⟩ := c
  dsimp only at hrepg hrepc hfresh hkeepsc hedges hans2 ⊢
  generalize InPlace.addEdge g2 h1 b2.x b2.y b2.weight = r2 at hans2 ⊢
  obtain ⟨h2, ok2⟩ := r2
  have hne : g ≠ g2 := (hrep.graph.trans_le hfresh.graph).ne
  -- the edges of the graph are older than those of the copy
  have hold : ∀ e ∈ (h1.graph g).edges, e < h.edges := by
    rw [hedges]
    exact hrep.allocated
  have hnew : ∀ e ∈ (h2.graph g2).edges, h.edges ≤ e := by
    intro e he
    rcases hans2.keeps.own e he with he | he
    · exact hfresh.edges e he
    · exact hkeepsc.edges.trans he
  have hcell : h2.graph g = h1.graph g := hans2.keeps.graph g hne hrepg.graph
  have hrep2 : Rep h2 g G := hrepg.keeps hans2.keeps hne fun e he he2 =>
    absurd (hold e he) (not_lt.2 (hfresh.edges e he2))
  have hkeeps2 : Keeps g h h2 := hkeepsc.trans_fresh hrep.graph hfresh hans2.keeps
  have hans1 := answers_addEdge hrep2 hsolved b1.x b1.y b1.weight
  generalize InPlace.addEdge g h2 b1.x b1.y b1.weight = r1 at hans1 ⊢
  obtain ⟨h3, ok1⟩ := r1
  have hkeeps : Keeps g h h3 := hkeeps2.trans hans1.keeps
  -- the copy after the change of the graph
  have hcopy : ∀ G2, Relations.addEdge G b2.x b2.y b2.weight = some G2 →
      Rep h3 g2 G2 ∧ Fresh h h3 g2 ∧ ∀ e ∈ (h3.graph g2).edges, e ∉ (h3.graph g).edges := by
    intro G2 hG2
    have hrepG2 := hans2.rep G2 hG2
    have hsame : h3.graph g2 = h2.graph g2 := hans1.keeps.graph g2 hne.symm hrepG2.graph
    have hdisjoint : ∀ e ∈ (h2.graph g2).edges, e ∉ (h2.graph g).edges := by
      intro e he hown
      rw [hcell] at hown
      exact absurd (hold e hown) (not_lt.2 (hnew e he))
    refine ⟨hrepG2.keeps hans1.keeps hne.symm hdisjoint, ⟨hfresh.graph, ?_⟩, ?_⟩
    · rw [hsame]
      exact hnew
    · rw [hsame]
      intro e he hown
      rcases hans1.keeps.own e hown with hown | hown
      · exact hdisjoint e he hown
      · exact absurd (hrepG2.allocated e he) (not_lt.2 hown)
  obtain rfl : ok1 = (Relations.addEdge G b1.x b1.y b1.weight).isSome := hans1.isSome
  obtain rfl : ok2 = (Relations.addEdge G b2.x b2.y b2.weight).isSome := hans2.isSome
  cases ho1 : Relations.addEdge G b1.x b1.y b1.weight with
  | none =>
    cases ho2 : Relations.addEdge G b2.x b2.y b2.weight with
    | none => exact .none hkeeps
    | some G2 =>
      obtain ⟨hrepG2, hfreshG2, -⟩ := hcopy G2 ho2
      exact .second hkeeps hfreshG2 hrepG2
  | some G1 =>
    have hrepG1 := hans1.rep G1 ho1
    cases ho2 : Relations.addEdge G b2.x b2.y b2.weight with
    | none => exact .first hkeeps hrepG1
    | some G2 =>
      obtain ⟨hrepG2, hfreshG2, hdisjoint⟩ := hcopy G2 ho2
      exact .both hkeeps hrepG1 hfreshG2 hrepG2 hdisjoint

/-- A reduced relation leaves the graphs that it leaves on values. -/
theorem offers_addReln (hrep : Rep h g G) (hsolved : Solved G C) (r : Reln V T) :
    Offers g h (addReln g h r) (branches G r) := by
  obtain ⟨o1, rel, o2⟩ := r
  unfold addReln branches
  dsimp only
  cases rop2node o1 with
  | inl i =>
    cases rop2node o2 with
    | inl j =>
      have hconst : Answers g h (h, rel.test i.toNat j.toNat)
          (if rel.test i.toNat j.toNat then some G else none) := by
        refine ⟨.refl g h, ?_, fun G' hG' => ?_⟩
        · split_ifs with htest <;> simp [htest]
        · split_ifs at hG'
          cases hG'
          exact hrep
      have hoffers := offers_single hconst
      dsimp only
      split_ifs at hoffers ⊢ with htest
      · exact hoffers
      · exact hoffers
    | inr n =>
      cases rel with
      | neq => exact offers_split hrep hsolved ⟨.zero, n, _⟩ ⟨n, .zero, _⟩
      | _ => exact offers_single (answers_addEdgeIf hrep hsolved _ _ _ _ _ _ _)
  | inr n =>
    cases rop2node o2 with
    | inl i =>
      cases rel with
      | neq => exact offers_split hrep hsolved ⟨.zero, n, _⟩ ⟨n, .zero, _⟩
      | _ => exact offers_single (answers_addEdgeIf hrep hsolved _ _ _ _ _ _ _)
    | inr n' =>
      cases rel with
      | neq => exact offers_split hrep hsolved ⟨n', n, -1⟩ ⟨n, n', -1⟩
      | _ => exact offers_single (answers_addEdgeIf hrep hsolved _ _ _ _ _ _ _)

end OneRelation

/-! ## The search -/

section Run

variable [DecidableEq V] [DecidableEq T] (reduce : RelnOp V T → RelnOp V T)

/-- The search in memory has the answer of the search on values, and changes the relations in the
same way. It leaves other graphs alone. -/
theorem consistRelations_eq {g : Nat} {s : State V T} {G : Graph (Node V T)}
    {C : Set (Bound (Node V T) Int)} (hrep : Rep s.heap g G) (hsolved : Solved G C)
    (rlns : List Nat) :
    (consistRelations reduce rlns g s).1 = (Relations.consistRelations reduce rlns G s.reln).1 ∧
      (consistRelations reduce rlns g s).2.reln =
        (Relations.consistRelations reduce rlns G s.reln).2 ∧
      Keeps g s.heap (consistRelations reduce rlns g s).2.heap := by
  induction rlns generalizing g s G C with
  | nil => exact ⟨rfl, rfl, .refl g s.heap⟩
  | cons p rlns ih =>
    have hoffers := offers_addReln hrep hsolved (reduceReln reduce (s.reln p))
    have hsound := (tries_branches hsolved (reduceReln reduce (s.reln p))).sound
    simp only [Relations.consistRelations, consistRelations]
    generalize addReln g s.heap (reduceReln reduce (s.reln p)) = b at hoffers ⊢
    generalize branches G (reduceReln reduce (s.reln p)) = Gs at hoffers hsound ⊢
    generalize update s.reln p (reduceReln reduce (s.reln p)) = reln
    cases hoffers with
    | none hkeeps => exact ⟨rfl, rfl, hkeeps⟩
    | @first h' G' hkeeps hrep' =>
      obtain ⟨C', hsolved', -⟩ := hsound G' (.head _)
      obtain ⟨hanswer, hrelns, hkeeps'⟩ := ih (s := ⟨h', reln⟩) hrep' hsolved'
      rw [firstAccepted_singleton]
      exact ⟨hanswer, hrelns, hkeeps.trans hkeeps'⟩
    | @second h' g2 G' hkeeps hfresh hrep' =>
      obtain ⟨C', hsolved', -⟩ := hsound G' (.head _)
      obtain ⟨hanswer, hrelns, hkeeps'⟩ := ih (s := ⟨h', reln⟩) hrep' hsolved'
      rw [firstAccepted_singleton]
      exact ⟨hanswer, hrelns, hkeeps.trans_fresh hrep.graph hfresh hkeeps'⟩
    | @both h' g2 G1 G2 hkeeps hrep1 hfresh hrep2 hdisjoint =>
      obtain ⟨C1, hsolved1, -⟩ := hsound G1 (.head _)
      obtain ⟨hanswer1, hrelns1, hkeeps1⟩ := ih (s := ⟨h', reln⟩) hrep1 hsolved1
      have hne : g2 ≠ g := (hrep.graph.trans_le hfresh.graph).ne'
      rw [firstAccepted, firstAccepted_singleton]
      simp only
      rw [← hrelns1, ← hanswer1]
      generalize consistRelations reduce rlns g ⟨h', reln⟩ = answer at hanswer1 hkeeps1 hrelns1 ⊢
      obtain ⟨found, s1⟩ := answer
      cases found with
      | true => exact ⟨hanswer1, hrelns1, hkeeps.trans hkeeps1⟩
      | false =>
        -- the copy is as it was before the first half ran
        have hrep2' : Rep s1.heap g2 G2 := hrep2.keeps hkeeps1 hne hdisjoint
        have hcell : s1.heap.graph g2 = h'.graph g2 := hkeeps1.graph g2 hne hrep2.graph
        have hfresh' : Fresh s.heap s1.heap g2 := by
          refine ⟨hfresh.graph, ?_⟩
          rw [hcell]
          exact hfresh.edges
        obtain ⟨C2, hsolved2, -⟩ := hsound G2 (.tail _ (.head _))
        obtain ⟨hanswer2, hrelns2, hkeeps2⟩ := ih hrep2' hsolved2
        exact ⟨hanswer2, hrelns2,
          (hkeeps.trans hkeeps1).trans_fresh hrep.graph hfresh' hkeeps2⟩

/-- The answer to a list of relations, and what is left of the relations. -/
theorem consistentRelations_eq {s : State V T} (hzero : s.heap.apZero = 0) (rlns : List Nat) :
    (consistentRelations reduce rlns s).1 = (Relations.consistentRelations reduce rlns s.reln).1 ∧
      (consistentRelations reduce rlns s).2.reln =
        (Relations.consistentRelations reduce rlns s.reln).2 ∧
      (consistentRelations reduce rlns s).2.heap.apZero = 0 := by
  have hempty : Rep (emptyGraph s.heap .zero) s.heap.graphs (Relations.emptyGraph .zero) :=
    .emptyGraph s.heap hzero .zero
  obtain ⟨hanswer, hrelns, hkeeps⟩ := consistRelations_eq reduce
    (s := ⟨emptyGraph s.heap .zero, s.reln⟩) hempty (solved_empty Node.zero) rlns
  exact ⟨hanswer, hrelns, hkeeps.zero.trans hempty.zero⟩

end Run

/-! ## Integers that satisfy the relations -/

/-- A relation between two integers. -/
def holdsInt (x y : Int) : Relation → Prop
  | .eq => x = y
  | .neq => x ≠ y
  | .lt => x < y
  | .lte => x ≤ y

/-- The integers `f` of the operands satisfy the relations. A constant has its own number, and an
operand that is reduced has the number of the reduced one. -/
structure Satisfies (reduce : RelnOp V T → RelnOp V T) (rs : List (Reln V T))
    (f : RelnOp V T → Int) : Prop where
  const : ∀ i, f (.const i) = i.toNat
  reduced : ∀ r ∈ rs, f (reduce r.rop1) = f r.rop1 ∧ f (reduce r.rop2) = f r.rop2
  holds : ∀ r ∈ rs, holdsInt (f r.rop1) (f r.rop2) r.relation

/-- The number of an operand as the solver sees it, with `z` the value of the node for zero. -/
def number (z : Int) : BitVec 32 ⊕ Int → Int
  | .inl i => i.toNat
  | .inr x => x - z

section Small

variable {i : BitVec 32}

theorem apFromint_small (hi : i.toNat < 2 ^ 31) : apFromint i = i.toNat := by
  rw [apFromint, BitVec.toInt_eq_toNat_cond]
  omega

theorem apFromint_sub_one (hi : i.toNat < 2 ^ 31) : apFromint (i - 1) = i.toNat - 1 := by
  rw [apFromint, BitVec.toInt_eq_toNat_cond]
  simp
  omega

theorem apFromint_add_one (hi : i.toNat < 2 ^ 31 - 1) : apFromint (i + 1) = i.toNat + 1 := by
  rw [apFromint, BitVec.toInt_eq_toNat_cond]
  simp
  omega

/-- For small constants the edges of a relation say what the relation says. The nodes are integers,
so a strict inequality is one between neighbours, and `!=` is `<` or `>`. -/
theorem signed_iff {a b : BitVec 32 ⊕ Int} (ha : ∀ i, a = .inl i → i.toNat < 2 ^ 31 - 1)
    (hb : ∀ i, b = .inl i → i.toNat < 2 ^ 31 - 1) (z : Int) (rel : Relation) :
    rel.Signed a b z ↔ holdsInt (number z a) (number z b) rel := by
  cases a with
  | inl i =>
    have hi := ha i rfl
    cases b with
    | inl j => cases rel <;> simp [Relation.Signed, Relation.test, holdsInt, number]
    | inr y =>
      have hread := apFromint_small (i := i) (by omega)
      have hnext := apFromint_add_one hi
      cases rel <;> simp only [Relation.Signed, holdsInt, number] <;> omega
  | inr x =>
    cases b with
    | inl j =>
      have hj := hb j rfl
      have hread := apFromint_small (i := j) (by omega)
      have hprev := apFromint_sub_one (i := j) (by omega)
      cases rel <;> simp only [Relation.Signed, holdsInt, number] <;> omega
    | inr y => cases rel <;> simp only [Relation.Signed, holdsInt, number] <;> omega

end Small

section Assignments

variable {reduce : RelnOp V T → RelnOp V T}

/-- The integers that numbers for the operands give to the nodes. -/
def nodeValue (f : RelnOp V T → Int) : Node V T → Int
  | .zero => 0
  | .var x => f (.var x)
  | .numelts x => f (.numelts x)
  | .type t => f (.type t)
  | .param i => f (.param i)
  | .paramNumelts i => f (.paramNumelts i)
  | .ret => f .ret

theorem number_nodeValue {f : RelnOp V T → Int} (hconst : ∀ i, f (.const i) = i.toNat)
    (o : RelnOp V T) : number 0 ((rop2node o).map id (nodeValue f)) = f o := by
  cases o with
  | const i => exact (hconst i).symm
  | _ => exact Int.sub_zero _

/-- The operands of relations. -/
def operands (rs : List (Reln V T)) : List (RelnOp V T) := rs.flatMap fun r => [r.rop1, r.rop2]

theorem mem_operands {rs : List (Reln V T)} {r : Reln V T} (hr : r ∈ rs) :
    r.rop1 ∈ operands rs ∧ r.rop2 ∈ operands rs :=
  ⟨List.mem_flatMap.2 ⟨r, hr, by simp⟩, List.mem_flatMap.2 ⟨r, hr, by simp⟩⟩

/-- No operand is reduced to another one of the relations that is reduced in its turn. -/
def Unchained (reduce : RelnOp V T → RelnOp V T) (rs : List (Reln V T)) : Prop :=
  ∀ o ∈ operands rs, reduce o ∈ operands rs → reduce (reduce o) = reduce o

/-- Relations with small constants: the solver's integers and those of the operands. -/
theorem exists_satisfies_iff {rs : List (Reln V T)} (hfixed : ∀ i, reduce (.const i) = .const i)
    (hsmall : ∀ r ∈ rs, ∀ i, (reduceReln reduce r).Uses i → i.toNat < 2 ^ 31 - 1)
    (hunchained : Unchained reduce rs) :
    (∃ f, ∀ r ∈ rs, (reduceReln reduce r).HoldsSigned f) ↔ ∃ f, Satisfies reduce rs f := by
  classical
  -- a constant that the solver sees is an operand of the reduced relation
  have hinl : ∀ {o : RelnOp V T} {f : Node V T → Int} {i},
      (rop2node o).map id f = .inl i → o = .const i := by
    intro o f i h
    cases o <;> cases h
    rfl
  have hiff : ∀ (f : Node V T → Int), ∀ r ∈ rs, (reduceReln reduce r).HoldsSigned f ↔
      holdsInt (number (f .zero) ((rop2node (reduce r.rop1)).map id f))
        (number (f .zero) ((rop2node (reduce r.rop2)).map id f)) r.relation := by
    intro f r hr
    apply signed_iff
    · exact fun i hi => hsmall r hr i (.inl (hinl hi))
    · exact fun i hi => hsmall r hr i (.inr (hinl hi))
  constructor
  · rintro ⟨f, hf⟩
    -- an operand of the relations has the number of the reduced one
    let read (o : RelnOp V T) : Int := number (f .zero) ((rop2node o).map id f)
    have hnumber : ∀ o ∈ operands rs, read (if reduce o ∈ operands rs then reduce (reduce o)
        else reduce o) = read (if o ∈ operands rs then reduce o else o) := by
      intro o ho
      rw [if_pos ho]
      split_ifs with hred
      · rw [hunchained o ho hred]
      · rfl
    refine ⟨fun o => read (if o ∈ operands rs then reduce o else o), ?_, fun r hr => ?_,
      fun r hr => ?_⟩
    · intro i
      rw [hfixed, ite_self]
      rfl
    · exact ⟨hnumber _ (mem_operands hr).1, hnumber _ (mem_operands hr).2⟩
    · rw [if_pos (mem_operands hr).1, if_pos (mem_operands hr).2]
      exact (hiff f r hr).1 (hf r hr)
  · rintro ⟨f, hf⟩
    refine ⟨nodeValue f, fun r hr => (hiff _ r hr).2 ?_⟩
    have hholds := hf.holds r hr
    rw [← (hf.reduced r hr).1, ← (hf.reduced r hr).2] at hholds
    rw [nodeValue, number_nodeValue hf.const, number_nodeValue hf.const]
    exact hholds

end Assignments

/-! ## The answer -/

section Answer

variable [DecidableEq V] [DecidableEq T]

/-- Relations with constants below `2^31 - 1`: the solver finds them to be consistent exactly if
some integers satisfy them, if no relation after a `!=` and no operand that others are reduced to
is reduced twice. -/
theorem consistentRelations_exact (types : TypeExps V T) (s : State V T) (hzero : s.heap.apZero = 0)
    (rlns : List Nat)
    (hsmall : ∀ p ∈ rlns, ∀ i, (reduceReln (reduceRelnop types) (s.reln p)).Uses i →
      i.toNat < 2 ^ 31 - 1)
    (hsteady : Steady (reduceRelnop types) s.reln rlns)
    (hunchained : Unchained (reduceRelnop types) (rlns.map s.reln)) :
    (consistentRelations (reduceRelnop types) rlns s).1 = true ↔
      ∃ f, Satisfies (reduceRelnop types) (rlns.map s.reln) f := by
  rw [(consistentRelations_eq (reduceRelnop types) hzero rlns).1,
    Relations.consistentRelations_iff (reduceRelnop types) hsteady,
    ← exists_satisfies_iff (fun _ => rfl) (List.forall_mem_map.2 hsmall) hunchained]
  simp only [List.forall_mem_map]

end Answer

/-- The relations of a list, and memory that has not been used. -/
def listState (rs : List (Reln V T)) : State V T where
  heap := ⟨fun _ => ⟨.zero, .zero, 0⟩, 0, fun _ => ⟨[], []⟩, 0, 0⟩
  reln := relnsAt rs

/-- The array `0` has as many elements as the array `1`, which has five. -/
def chainedBounds : TypeExps Nat Nat where
  valueof _ := none
  bound
    | 0 => some (.primop₁ .numelts (.var (.vardecl 1 false false) (.other 0)) (.int .unsigned .int))
    | 1 => some (.const (.int .unsigned 5) (.int .unsigned .int))
    | _ => none

/-- What the operands are reduced to. -/
def chainedStep : RelnOp Nat Nat → RelnOp Nat Nat
  | .numelts 0 => .numelts 1
  | .numelts 1 => .const 5
  | o => o

theorem reduceRelnop_chainedBounds : reduceRelnop chainedBounds = chainedStep := by
  funext o
  cases o with
  | numelts x =>
    match x with
    | 0 => simp [reduceRelnop, chainedBounds, chainedStep, exp2relnop, rawRelnop, Exp.topt,
        nonescVardecl]
    | 1 => simp [reduceRelnop, chainedBounds, chainedStep, exp2relnop, rawRelnop, Exp.topt]
    | n + 2 => rfl
  | _ => rfl

/-- `numelts(v) == 5`, `x != 3`, `3 <= x` and `x <= 4`. -/
def exceptThree : List (Reln Nat Nat) :=
  [⟨.numelts 0, .eq, .const 5⟩, ⟨.var 2, .neq, .const 3⟩, ⟨.const 3, .lte, .var 2⟩,
    ⟨.var 2, .lte, .const 4⟩]

/-- The operand that could be reduced twice stands before the `!=`. -/
theorem steady_exceptThree : Steady chainedStep (relnsAt exceptThree) [0, 1, 2, 3] := by
  intro l₁ p l₂ heq hp
  cases l₁ with
  | nil => simp at hp
  | cons q l₁ =>
    have hmem : p ∈ [1, 2, 3] := by
      rw [(List.cons.inj heq).2]
      simp
    simp only [List.mem_cons, List.not_mem_nil, or_false] at hmem
    rcases hmem with rfl | rfl | rfl <;> rfl

theorem consistentRelations_exact_exceptThree :
    (consistentRelations (reduceRelnop chainedBounds) [0, 1, 2, 3]
        (listState exceptThree)).1 = true ∧
      ∃ f, Satisfies (reduceRelnop chainedBounds)
        ([0, 1, 2, 3].map (listState exceptThree).reln) f := by
  have hexact := consistentRelations_exact chainedBounds (listState exceptThree) rfl [0, 1, 2, 3]
  rw [reduceRelnop_chainedBounds] at hexact ⊢
  have hanswer :
      (consistentRelations chainedStep [0, 1, 2, 3] (listState exceptThree)).1 = true := by
    decide
  refine ⟨hanswer, (hexact ?_ steady_exceptThree ?_).1 hanswer⟩
  · intro p hp i huses
    simp only [List.mem_cons, List.not_mem_nil, or_false] at hp
    rcases hp with rfl | rfl | rfl | rfl <;> rcases huses with huses | huses <;> cases huses <;>
      decide
  · unfold Unchained
    decide

/-- `x != y`, `numelts(v) == 5`, `x <= y` and `numelts(v) == 6`. -/
def fiveAndSix : List (Reln Nat Nat) :=
  [⟨.var 2, .neq, .var 3⟩, ⟨.numelts 0, .eq, .const 5⟩, ⟨.var 2, .lte, .var 3⟩,
    ⟨.numelts 0, .eq, .const 6⟩]

/-- The half with `x > y` reduces the second relation and ends at the third. In the half with
`x < y` the second relation is reduced once more and the fourth for the first time: the solver finds
that the relations are consistent, although they say that `numelts(v)` is `5` and `6`. -/
theorem not_consistentRelations_exact :
    (consistentRelations (reduceRelnop chainedBounds) [0, 1, 2, 3]
        (listState fiveAndSix)).1 = true ∧
      (∀ r ∈ fiveAndSix, ∀ i, (reduceReln (reduceRelnop chainedBounds) r).Uses i →
        i.toNat < 2 ^ 31 - 1) ∧
      ¬∃ f : RelnOp Nat Nat → Int, (∀ i, f (.const i) = i.toNat) ∧
        ∀ r ∈ fiveAndSix, holdsInt (f r.rop1) (f r.rop2) r.relation := by
  rw [reduceRelnop_chainedBounds]
  refine ⟨by decide, ?_, ?_⟩
  · intro r hr i huses
    simp only [fiveAndSix, List.mem_cons, List.not_mem_nil, or_false] at hr
    rcases hr with rfl | rfl | rfl | rfl <;> rcases huses with huses | huses <;> cases huses <;>
      decide
  · rintro ⟨f, hconst, hf⟩
    have hfive : f (.numelts 0) = f (.const 5) := hf ⟨.numelts 0, .eq, .const 5⟩ (by decide)
    have hsix : f (.numelts 0) = f (.const 6) := hf ⟨.numelts 0, .eq, .const 6⟩ (by decide)
    rw [hfive, hconst, hconst] at hsix
    exact absurd hsix (by decide)

end ConcurrentCyclone.Relations.InPlace
