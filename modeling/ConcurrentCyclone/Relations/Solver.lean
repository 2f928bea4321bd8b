import ConcurrentCyclone.Relations.Pratt
import Mathlib.Data.BitVec
import Mathlib.Logic.Function.Basic

/-!
# Consistency of relations

`src/relations-ap.cyc` keeps relations between variables, numbers of elements, types, parameters and
unsigned constants, and asks whether they are consistent: each relation becomes edges of the
constraint graph, and `!=` splits the search. The operands of a relation are reduced when it is
added, and the reduced ones are stored in the relation: the second half of a split, and a relation
that stands twice in the list, find operands that were reduced before. The constants are
`unsigned int`, and the solver hands them to `AP_fromint`, which takes a `long`: on the 32-bit
targets a constant from `2^31` on becomes negative.

`reads` has the relations as the search reads them. If integers, without bound, meet all of them
with the constants read as signed (`Reln.HoldsSigned`), the answer is yes
(`consistRelations_of_reads`). If no relation is read in two ways (`Steady`), the answer is yes
exactly if there are such integers (`consistRelations_iff`).
-/

set_option autoImplicit false

namespace ConcurrentCyclone.Relations

open Difference Function

/-- `union Node`; variables and types are arbitrary, types that unify count as one. -/
inductive Node (V T : Type) where
  | zero
  | var (x : V)
  | numelts (x : V)
  | type (t : T)
  | param (i : Nat)
  | paramNumelts (i : Nat)
  | ret
  deriving DecidableEq

/-- `union RelnOp`. -/
inductive RelnOp (V T : Type) where
  | const (i : BitVec 32)
  | var (x : V)
  | numelts (x : V)
  | type (t : T)
  | param (i : Nat)
  | paramNumelts (i : Nat)
  | ret
  deriving DecidableEq

/-- `enum Relation`; the comparisons are unsigned. -/
inductive Relation where
  | eq
  | neq
  | lte
  | lt
  deriving DecidableEq

/-- `struct Reln`. -/
structure Reln (V T : Type) where
  rop1 : RelnOp V T
  relation : Relation
  rop2 : RelnOp V T
  deriving DecidableEq

instance {V T : Type} [DecidableEq V] [DecidableEq T] : LawfulBEq (Reln V T) where
  eq_of_beq h := of_decide_eq_true h
  rfl := decide_eq_true rfl

/-- `rop2node`; a constant has no node. -/
def rop2node {V T : Type} : RelnOp V T → BitVec 32 ⊕ Node V T
  | .const i => .inl i
  | .var x => .inr (.var x)
  | .numelts x => .inr (.numelts x)
  | .type t => .inr (.type t)
  | .param i => .inr (.param i)
  | .paramNumelts i => .inr (.paramNumelts i)
  | .ret => .inr .ret

/-- `AP_fromint` of an `unsigned int`: the conversion to `long` keeps the 32 bits. -/
def apFromint (i : BitVec 32) : Int := i.toInt

/-- A relation between two unsigned numbers. -/
def Relation.test (i j : Nat) : Relation → Bool
  | .eq => i = j
  | .neq => i ≠ j
  | .lt => i < j
  | .lte => i ≤ j

/-- `flip_relation`. -/
def flipRelation : Relation → Relation
  | .eq => .neq
  | .neq => .eq
  | .lt => .lte
  | .lte => .lt

/-- `negate`. -/
def negate {V T : Type} (r : Reln V T) : Reln V T := ⟨r.rop2, flipRelation r.relation, r.rop1⟩

/-! ## A search that changes a state -/

section Trying

variable {A R L : Type}

/-- Try the alternatives until the search accepts one; the search changes a state. -/
def firstAccepted (search : A → R → Bool × R) : List A → R → Bool × R
  | [], s => (false, s)
  | a :: as, s =>
    let answer := search a s
    if answer.1 then answer else firstAccepted search as answer.2

/-- What is read while the alternatives are tried. -/
def readsAccepted (search : A → R → Bool × R) (reads : A → R → List L) : List A → R → List L
  | [], _ => []
  | a :: as, s =>
    let answer := search a s
    reads a s ++ if answer.1 then [] else readsAccepted search reads as answer.2

variable {search : A → R → Bool × R} {P : R → Prop} {as : List A} {a : A} {s : R}

/-- What the search keeps of the state is kept while alternatives are tried. -/
theorem firstAccepted_keeps (hsearch : ∀ a s, P s → P (search a s).2) (as : List A) (hs : P s) :
    P (firstAccepted search as s).2 := by
  induction as generalizing s with
  | nil => exact hs
  | cons a as ih =>
    simp only [firstAccepted]
    split_ifs
    · exact hsearch a s hs
    · exact ih (hsearch a s hs)

/-- What is read while alternatives are tried is read in states with what the search keeps. -/
theorem readsAccepted_of_keeps {reads : A → R → List L} {Q : L → Prop}
    (hsearch : ∀ a s, P s → P (search a s).2) (hreads : ∀ a s, P s → ∀ l ∈ reads a s, Q l)
    (as : List A) (hs : P s) : ∀ l ∈ readsAccepted search reads as s, Q l := by
  induction as generalizing s with
  | nil => simp [readsAccepted]
  | cons a as ih =>
    simp only [readsAccepted, List.forall_mem_append]
    refine ⟨hreads a s hs, ?_⟩
    split_ifs
    · simp
    · exact ih (hsearch a s hs)

/-- One is accepted if some alternative is accepted whenever it is tried. -/
theorem firstAccepted_of_mem {reads : A → R → List L} {Q : L → Prop} (ha : a ∈ as)
    (haccepts : ∀ s, (∀ l ∈ reads a s, Q l) → (search a s).1 = true)
    (hreads : ∀ l ∈ readsAccepted search reads as s, Q l) :
    (firstAccepted search as s).1 = true := by
  induction as generalizing s with
  | nil => cases ha
  | cons a' as ih =>
    simp only [readsAccepted, List.forall_mem_append] at hreads
    simp only [firstAccepted]
    split_ifs at hreads ⊢ with hanswer
    · exact hanswer
    · rcases List.mem_cons.1 ha with rfl | ha
      · exact absurd (haccepts s hreads.1) hanswer
      · exact ih ha hreads.2

/-- The search answers in the same way in all states with what it keeps: the order does not
matter. -/
theorem firstAccepted_iff {accepts : A → Prop} (hsearch : ∀ a s, P s → P (search a s).2)
    (haccepts : ∀ a ∈ as, ∀ s, P s → ((search a s).1 = true ↔ accepts a)) (hs : P s) :
    (firstAccepted search as s).1 = true ↔ ∃ a ∈ as, accepts a := by
  induction as generalizing s with
  | nil => simp [firstAccepted]
  | cons a as ih =>
    obtain ⟨ha, has⟩ := List.forall_mem_cons.1 haccepts
    simp only [firstAccepted, List.exists_mem_cons_iff, ← ha s hs]
    split_ifs with hanswer
    · simp [hanswer]
    · simp [hanswer, ih has (hsearch a s hs)]

theorem firstAccepted_singleton (a : A) (s : R) : firstAccepted search [a] s = search a s := by
  simp only [firstAccepted]
  split_ifs with hanswer
  · rfl
  · rw [← Bool.eq_false_of_not_eq_true hanswer]

theorem firstAccepted_toList (o : Option A) :
    (firstAccepted search o.toList s).1 = true ↔ ∃ a ∈ o.toList, (search a s).1 = true := by
  cases o with
  | none => simp [firstAccepted]
  | some a => simp [firstAccepted_singleton]

end Trying

/-! ## The solver -/

section Solver

variable {V T : Type} [DecidableEq V] [DecidableEq T]

/-- `x <= i`, `x < i` and `x == i` for a node and a constant. -/
def addBelow (G : Graph (Node V T)) (n : Node V T) (rel : Relation) (i : BitVec 32) :
    Option (Graph (Node V T)) :=
  -- the constant is decremented before it is converted
  let i := if rel = .lt then i - 1 else i
  (addEdge G n .zero (apFromint i)).bind fun G =>
    if rel = .eq then addEdge G .zero n (-apFromint i) else some G

/-- `i <= x`, `i < x` and `i == x` for a constant and a node. -/
def addAbove (G : Graph (Node V T)) (i : BitVec 32) (rel : Relation) (n : Node V T) :
    Option (Graph (Node V T)) :=
  let i := if rel = .lt then i + 1 else i
  (addEdge G .zero n (-apFromint i)).bind fun G =>
    if rel = .eq then addEdge G n .zero (apFromint i) else some G

/-- `x <= y`, `x < y` and `x == y` for two nodes. -/
def addBetween (G : Graph (Node V T)) (n₁ : Node V T) (rel : Relation) (n₂ : Node V T) :
    Option (Graph (Node V T)) :=
  let i : Int := if rel = .lt then -1 else 0
  (addEdge G n₁ n₂ i).bind fun G => if rel = .eq then addEdge G n₂ n₁ i else some G

/-- A relation with both operands reduced. -/
def reduceReln (reduce : RelnOp V T → RelnOp V T) (r : Reln V T) : Reln V T :=
  ⟨reduce r.rop1, r.relation, reduce r.rop2⟩

/-- The graphs that a reduced relation leaves to be tried, in this order. -/
def branches (G : Graph (Node V T)) (r : Reln V T) : List (Graph (Node V T)) :=
  match rop2node r.rop1, r.relation, rop2node r.rop2 with
  | .inl i, rel, .inl j => if rel.test i.toNat j.toNat then [G] else []
  -- the second graph is the one in which the node is smaller
  | .inr n, .neq, .inl i | .inl i, .neq, .inr n =>
    (addEdge G .zero n (-(apFromint i + 1))).toList ++
      (addEdge G n .zero (apFromint i - 1)).toList
  | .inr n₁, .neq, .inr n₂ => (addEdge G n₂ n₁ (-1)).toList ++ (addEdge G n₁ n₂ (-1)).toList
  | .inr n, rel, .inl i => (addBelow G n rel i).toList
  | .inl i, rel, .inr n => (addAbove G i rel n).toList
  | .inr n₁, rel, .inr n₂ => (addBetween G n₁ rel n₂).toList

/-- `consist_relations` on a list of pointers to relations; `reduce` is `reduce_relnop`. -/
def consistRelations (reduce : RelnOp V T → RelnOp V T) :
    List Nat → Graph (Node V T) → (Nat → Reln V T) → Bool × (Nat → Reln V T)
  | [], _, reln => (true, reln)
  | p :: rlns, G, reln =>
    let r := reduceReln reduce (reln p)
    firstAccepted (consistRelations reduce rlns) (branches G r) (update reln p r)

/-- `consistent_relations`. -/
def consistentRelations (reduce : RelnOp V T → RelnOp V T) (rlns : List Nat)
    (reln : Nat → Reln V T) : Bool × (Nat → Reln V T) :=
  consistRelations reduce rlns (emptyGraph .zero) reln

/-- The relations of a list at the addresses from `0` on. -/
def relnsAt (rs : List (Reln V T)) (p : Nat) : Reln V T := rs.getD p ⟨.const 0, .eq, .const 0⟩

/-- The relations that the search reads, reduced as it finds them. -/
def reads (reduce : RelnOp V T → RelnOp V T) :
    List Nat → Graph (Node V T) → (Nat → Reln V T) → List (Reln V T)
  | [], _, _ => []
  | p :: rlns, G, reln =>
    let r := reduceReln reduce (reln p)
    r :: readsAccepted (consistRelations reduce rlns) (reads reduce rlns) (branches G r)
      (update reln p r)

end Solver

/-! ## What the relations mean -/

section Meaning

variable {V T : Type}

/-- The value of an operand. -/
def RelnOp.value (σ : Node V T → BitVec 32) (o : RelnOp V T) : BitVec 32 :=
  match rop2node o with
  | .inl i => i
  | .inr n => σ n

/-- The assignment meets the relation. -/
def Reln.Holds (σ : Node V T → BitVec 32) (r : Reln V T) : Prop :=
  r.relation.test (r.rop1.value σ).toNat (r.rop2.value σ).toNat = true

variable {σ : Node V T → BitVec 32} {o1 o2 : RelnOp V T}

theorem holds_lte : (⟨o1, .lte, o2⟩ : Reln V T).Holds σ ↔ (o1.value σ).toNat ≤ (o2.value σ).toNat :=
  decide_eq_true_iff

theorem holds_lt : (⟨o1, .lt, o2⟩ : Reln V T).Holds σ ↔ (o1.value σ).toNat < (o2.value σ).toNat :=
  decide_eq_true_iff

theorem test_flip (i j : Nat) (rel : Relation) : (flipRelation rel).test j i = !rel.test i j := by
  rw [Bool.eq_iff_iff]
  cases rel <;>
    simp only [flipRelation, Relation.test, Bool.not_eq_true', decide_eq_true_eq,
      decide_eq_false_iff_not] <;>
    omega

/-- What the edges of a relation say about integers, with `x` and `y` the values of the nodes and
`z` the value of zero. -/
def Relation.Signed : BitVec 32 ⊕ Int → BitVec 32 ⊕ Int → Int → Relation → Prop
  | .inl i, .inl j, _, rel => rel.test i.toNat j.toNat = true
  | .inr x, .inl i, z, .neq | .inl i, .inr x, z, .neq =>
    z - x ≤ -(apFromint i + 1) ∨ x - z ≤ apFromint i - 1
  | .inr x, .inl i, z, .eq | .inl i, .inr x, z, .eq => x - z = apFromint i
  | .inr x, .inl i, z, .lte => x - z ≤ apFromint i
  | .inr x, .inl i, z, .lt => x - z ≤ apFromint (i - 1)
  | .inl i, .inr x, z, .lte => z - x ≤ -apFromint i
  | .inl i, .inr x, z, .lt => z - x ≤ -apFromint (i + 1)
  | .inr x, .inr y, _, .neq => x ≠ y
  | .inr x, .inr y, _, .eq => x = y
  | .inr x, .inr y, _, .lte => x ≤ y
  | .inr x, .inr y, _, .lt => x < y

/-- The reduced relation holds for integers, with the constants read as signed. -/
def Reln.HoldsSigned (f : Node V T → Int) (r : Reln V T) : Prop :=
  r.relation.Signed ((rop2node r.rop1).map id f) ((rop2node r.rop2).map id f) (f .zero)

end Meaning

/-! ## What the graphs say

`Tries Gs C P`: together the graphs `Gs` say what the constraints `C` and the condition `P` say. -/

section Graphs

variable {N : Type}

/-- All constraints hold for the integers `f`. -/
def Models (f : N → Int) (C : Set (Bound N Int)) : Prop := ∀ c ∈ C, c.Holds f

theorem models_insert {f : N → Int} {c : Bound N Int} {C : Set (Bound N Int)} :
    Models f (insert c C) ↔ c.Holds f ∧ Models f C := by
  simp [Models]

variable [DecidableEq N]

/-- The integers of a graph among `Gs` are those of `C` that meet `P`. -/
structure Tries (Gs : List (Graph N)) (C : Set (Bound N Int)) (P : (N → Int) → Prop) : Prop where
  sound : ∀ G ∈ Gs, ∃ C', Solved G C' ∧ ∀ f, Models f C' → Models f C ∧ P f
  complete : ∀ f, Models f C → P f → ∃ G ∈ Gs, ∃ C', Solved G C' ∧ Models f C'

variable {G : Graph N} {Gs Gs' : List (Graph N)} {C : Set (Bound N Int)}
  {P Q : (N → Int) → Prop}

theorem Tries.congr (h : Tries Gs C P) (hiff : ∀ f, Q f ↔ P f) : Tries Gs C Q := by
  refine ⟨fun G hG => ?_, fun f hf hQ => h.complete f hf ((hiff f).1 hQ)⟩
  obtain ⟨C', hsolved, hf⟩ := h.sound G hG
  exact ⟨C', hsolved, fun f hC' => ⟨(hf f hC').1, (hiff f).2 (hf f hC').2⟩⟩

theorem Tries.append (h : Tries Gs C P) (h' : Tries Gs' C Q) :
    Tries (Gs ++ Gs') C fun f => P f ∨ Q f := by
  constructor
  · intro G hG
    rcases List.mem_append.1 hG with hG | hG
    · obtain ⟨C', hsolved, hf⟩ := h.sound G hG
      exact ⟨C', hsolved, fun f hC' => ⟨(hf f hC').1, .inl (hf f hC').2⟩⟩
    · obtain ⟨C', hsolved, hf⟩ := h'.sound G hG
      exact ⟨C', hsolved, fun f hC' => ⟨(hf f hC').1, .inr (hf f hC').2⟩⟩
  · rintro f hf (hP | hQ)
    · obtain ⟨G, hG, hC'⟩ := h.complete f hf hP
      exact ⟨G, List.mem_append_left _ hG, hC'⟩
    · obtain ⟨G, hG, hC'⟩ := h'.complete f hf hQ
      exact ⟨G, List.mem_append_right _ hG, hC'⟩

/-- A graph that is kept. -/
theorem tries_same (h : Solved G C) : Tries [G] C fun _ => True := by
  constructor
  · intro G' hG'
    rw [List.mem_singleton.1 hG']
    exact ⟨C, h, fun f hf => ⟨hf, trivial⟩⟩
  · intro f hf _
    exact ⟨G, List.mem_singleton_self G, C, h, hf⟩

theorem tries_nil : Tries [] C fun _ : N → Int => False :=
  ⟨fun _ hG => absurd hG List.not_mem_nil, fun _ _ hF => hF.elim⟩

/-- One edge. -/
theorem tries_addEdge (h : Solved G C) (i j : N) (a : Int) :
    Tries (addEdge G i j a).toList C fun f => f i - f j ≤ a := by
  obtain ⟨hsome, hnone⟩ := addEdge_spec h i j a
  constructor
  · intro G' hG'
    refine ⟨_, hsome G' (Option.mem_toList.1 hG'), fun f hf => ?_⟩
    exact ⟨(models_insert.1 hf).2, (models_insert.1 hf).1⟩
  · intro f hf hle
    have hmodel : Models f (insert ⟨i, j, a⟩ C) := models_insert.2 ⟨hle, hf⟩
    cases hG' : addEdge G i j a with
    | none => exact absurd ⟨f, hmodel⟩ (hnone hG')
    | some G' => exact ⟨G', by simp, _, hsome G' hG', hmodel⟩

/-- A second step on what the first one leaves. -/
theorem Tries.bind {o : Option (Graph N)} (h : Tries o.toList C P)
    {next : Graph N → Option (Graph N)} (hnext : ∀ {G C}, Solved G C → Tries (next G).toList C Q) :
    Tries (o.bind next).toList C fun f => P f ∧ Q f := by
  constructor
  · intro G' hG'
    obtain ⟨G, hG, hG'⟩ := Option.bind_eq_some_iff.1 (Option.mem_toList.1 hG')
    obtain ⟨C1, hsolved, hf1⟩ := h.sound G (Option.mem_toList.2 hG)
    obtain ⟨C', hsolved', hf'⟩ := (hnext hsolved).sound G' (Option.mem_toList.2 hG')
    refine ⟨C', hsolved', fun f hf => ?_⟩
    obtain ⟨hC1, hQ⟩ := hf' f hf
    exact ⟨(hf1 f hC1).1, (hf1 f hC1).2, hQ⟩
  · rintro f hf ⟨hP, hQ⟩
    obtain ⟨G, hG, C1, hsolved, hC1⟩ := h.complete f hf hP
    obtain ⟨G', hG', hC'⟩ := (hnext hsolved).complete f hC1 hQ
    refine ⟨G', ?_, hC'⟩
    rw [Option.mem_toList] at hG hG' ⊢
    exact Option.bind_eq_some_iff.2 ⟨G, hG, hG'⟩

/-- An edge that is added on a condition. -/
theorem tries_addEdge_if (h : Solved G C) (p : Prop) [Decidable p] (i j : N) (a : Int) :
    Tries (if p then addEdge G i j a else some G).toList C fun f => p → f i - f j ≤ a := by
  split_ifs with hp
  · exact (tries_addEdge h i j a).congr fun f => by simp [hp]
  · exact (tries_same h).congr fun f => by simp [hp]

end Graphs

/-! ## What the answer means -/

section Answer

variable {V T : Type} [DecidableEq V] [DecidableEq T] {G : Graph (Node V T)}
  {C : Set (Bound (Node V T) Int)} (reduce : RelnOp V T → RelnOp V T)

variable {rel : Relation}

section

variable (h : Solved G C)

include h

/-- The edges for a relation that is not `≠`, between a node and a constant or between two nodes. -/
theorem tries_edges (hrel : rel ≠ .neq) :
    (∀ n i, Tries (addBelow G n rel i).toList C fun f =>
      rel.Signed (.inr (f n)) (.inl i) (f .zero)) ∧
    (∀ i n, Tries (addAbove G i rel n).toList C fun f =>
      rel.Signed (.inl i) (.inr (f n)) (f .zero)) ∧
    ∀ n1 n2, Tries (addBetween G n1 rel n2).toList C fun f =>
      rel.Signed (.inr (f n1)) (.inr (f n2)) (f .zero) := by
  refine ⟨fun n i => ?_, fun i n => ?_, fun n1 n2 => ?_⟩
  all_goals
    refine ((tries_addEdge h _ _ _).bind fun hG => tries_addEdge_if hG _ _ _ _).congr fun f => ?_
    cases rel with
    | neq => exact absurd rfl hrel
    | eq =>
      simp only [Relation.Signed, reduceCtorEq, if_false, forall_const]
      omega
    | lte | lt => simp [Relation.Signed] <;> omega

/-- The graphs for one relation say what the relation says. -/
theorem tries_branches (r : Reln V T) : Tries (branches G r) C r.HoldsSigned := by
  obtain ⟨o1, rel, o2⟩ := r
  unfold branches Reln.HoldsSigned
  dsimp only
  cases rop2node o1 with
  | inl i =>
    cases rop2node o2 with
    | inl j =>
      simp only [Sum.map_inl, Relation.Signed]
      split_ifs with htest
      · exact (tries_same h).congr fun f => by simp [htest]
      · exact tries_nil.congr fun f => by simp [htest]
    | inr n =>
      cases rel with
      | neq => exact (tries_addEdge h _ _ _).append (tries_addEdge h _ _ _)
      | eq | lte | lt => exact (tries_edges h (by decide)).2.1 i n
  | inr n =>
    cases rop2node o2 with
    | inl i =>
      cases rel with
      | neq => exact (tries_addEdge h _ _ _).append (tries_addEdge h _ _ _)
      | eq | lte | lt => exact (tries_edges h (by decide)).1 n i
    | inr n' =>
      cases rel with
      | neq =>
        refine ((tries_addEdge h _ _ _).append (tries_addEdge h _ _ _)).congr fun f => ?_
        simp only [Sum.map_inr, Relation.Signed]
        omega
      | eq | lte | lt => exact (tries_edges h (by decide)).2.2 n n'

end

/-- Only a relation `!=` splits the search. -/
theorem branches_length {r : Reln V T} (hr : r.relation ≠ .neq) :
    ∃ o : Option (Graph (Node V T)), branches G r = o.toList := by
  obtain ⟨o1, rel, o2⟩ := r
  unfold branches
  dsimp only at hr ⊢
  cases rop2node o1 with
  | inl i =>
    cases rop2node o2 with
    | inl j =>
      dsimp only
      split_ifs
      · exact ⟨some G, rfl⟩
      · exact ⟨none, rfl⟩
    | inr n =>
      cases rel with
      | neq => exact absurd rfl hr
      | eq | lte | lt => exact ⟨_, rfl⟩
  | inr n =>
    cases rop2node o2 with
    | inl i =>
      cases rel with
      | neq => exact absurd rfl hr
      | eq | lte | lt => exact ⟨_, rfl⟩
    | inr n' =>
      cases rel with
      | neq => exact absurd rfl hr
      | eq | lte | lt => exact ⟨_, rfl⟩

/-! ### The relations that are read -/

variable {K : Reln V T → Prop} {f : Node V T → Int} {rlns : List Nat} {reln : Nat → Reln V T}

/-- The search changes a relation only by reducing it. -/
theorem consistRelations_keeps (hK : ∀ r, K r → K (reduceReln reduce r)) (G : Graph (Node V T))
    {q : Nat} (hq : K (reln q)) : K ((consistRelations reduce rlns G reln).2 q) := by
  induction rlns generalizing G reln with
  | nil => exact hq
  | cons p rlns ih =>
    refine firstAccepted_keeps (P := fun reln : Nat → Reln V T => K (reln q))
      (fun G' _ => ih G') _ ?_
    by_cases hp : q = p
    · subst hp
      rw [update_self]
      exact hK _ hq
    · rwa [update_of_ne hp]

/-- The relations are read as they are, or reduced. -/
theorem reads_keeps (hK : ∀ r, K r → K (reduceReln reduce r)) (G : Graph (Node V T))
    (hrlns : ∀ p ∈ rlns, K (reln p)) : ∀ r ∈ reads reduce rlns G reln, K r := by
  induction rlns generalizing G reln with
  | nil => simp [reads]
  | cons p rlns ih =>
    obtain ⟨hp, hrlns⟩ := List.forall_mem_cons.1 hrlns
    refine List.forall_mem_cons.2 ⟨hK _ hp, ?_⟩
    refine readsAccepted_of_keeps (P := fun reln : Nat → Reln V T => ∀ q ∈ rlns, K (reln q))
      (fun G' _ hkeeps q hq => consistRelations_keeps reduce hK G' (hkeeps q hq))
      (fun G' _ => ih G') _ fun q hq => ?_
    by_cases hqp : q = p
    · subst hqp
      rw [update_self]
      exact hK _ hp
    · rw [update_of_ne hqp]
      exact hrlns q hq

/-- If integers meet the constraints and the relations as they are read, the answer is yes. -/
theorem consistRelations_of_reads (h : Solved G C) (hf : Models f C)
    (hreads : ∀ r ∈ reads reduce rlns G reln, r.HoldsSigned f) :
    (consistRelations reduce rlns G reln).1 = true := by
  induction rlns generalizing G C reln with
  | nil => rfl
  | cons p rlns ih =>
    obtain ⟨hp, hreads⟩ := List.forall_mem_cons.1 hreads
    obtain ⟨G', hG', C', hsolved, hC'⟩ := (tries_branches h _).complete f hf hp
    exact firstAccepted_of_mem hG' (fun _ => ih hsolved hC') hreads

/-- The operands of the relation are not reduced further when they are reduced once. -/
def Stable (reduce : RelnOp V T → RelnOp V T) (r : Reln V T) : Prop :=
  reduceReln reduce (reduceReln reduce r) = reduceReln reduce r

/-- No relation is read in two ways: one that stands after a `!=` or for the second time is not
reduced further. -/
def Steady (reduce : RelnOp V T → RelnOp V T) (reln : Nat → Reln V T) (rlns : List Nat) : Prop :=
  ∀ l₁ p l₂, rlns = l₁ ++ p :: l₂ → (p ∈ l₁ ∨ ∃ q ∈ l₁, (reln q).relation = .neq) →
    Stable reduce (reln p)

/-- The search finds a graph exactly if there are integers that meet the constraints and the reduced
relations. The relations that are left may have been reduced before, if they are not reduced
further. -/
theorem consistRelations_iff {reln₀ : Nat → Reln V T} (h : Solved G C)
    (hsame : ∀ p ∈ rlns, reduceReln reduce (reln p) = reduceReln reduce (reln₀ p))
    (hsteady : Steady reduce reln₀ rlns) :
    (consistRelations reduce rlns G reln).1 = true ↔
      ∃ f, Models f C ∧ ∀ p ∈ rlns, (reduceReln reduce (reln₀ p)).HoldsSigned f := by
  induction rlns generalizing G C reln with
  | nil =>
    obtain ⟨f, hf⟩ := h.feasible
    exact ⟨fun _ => ⟨f, hf, by simp⟩, fun _ => rfl⟩
  | cons p rlns ih =>
    obtain ⟨hp, hrlns⟩ := List.forall_mem_cons.1 hsame
    have hrest : Steady reduce reln₀ rlns := by
      intro l₁ q l₂ heq hq
      exact hsteady (p :: l₁) q l₂ (by rw [heq, List.cons_append])
        (hq.imp (.tail p) fun ⟨q', hq', hneq⟩ => ⟨q', .tail p hq', hneq⟩)
    -- the relations that are left, after `p` was reduced
    have hsame' : ∀ q ∈ rlns,
        reduceReln reduce (update reln p (reduceReln reduce (reln p)) q) =
          reduceReln reduce (reln₀ q) := by
      intro q hq
      by_cases hqp : q = p
      · subst hqp
        obtain ⟨l₁, l₂, heq⟩ := List.append_of_mem hq
        rw [update_self, hp]
        exact hsteady (q :: l₁) q l₂ (by rw [heq, List.cons_append]) (.inl (.head _))
      · rw [update_of_ne hqp]
        exact hrlns q hq
    have htries := tries_branches h (reduceReln reduce (reln₀ p))
    have htry : (consistRelations reduce (p :: rlns) G reln).1 = true ↔
        ∃ G' ∈ branches G (reduceReln reduce (reln₀ p)),
          (consistRelations reduce rlns G'
            (update reln p (reduceReln reduce (reln p)))).1 = true := by
      rw [consistRelations, ← hp]
      by_cases hneq : (reln₀ p).relation = .neq
      · -- both halves find the relations as they are before the split, up to reduction
        refine firstAccepted_iff (P := fun reln => ∀ q ∈ rlns,
          reduceReln reduce (reln q) = reduceReln reduce (reln₀ q)) ?_ ?_ hsame'
        · intro G' reln' hreln' q hq
          obtain ⟨l₁, l₂, heq⟩ := List.append_of_mem hq
          have hstable := hsteady (p :: l₁) q l₂ (by rw [heq, List.cons_append])
            (.inr ⟨p, .head _, hneq⟩)
          refine consistRelations_keeps reduce (K := fun r => reduceReln reduce r =
            reduceReln reduce (reln₀ q)) (fun r hr => ?_) G' (hreln' q hq)
          rw [hr]
          exact hstable
        · intro G' hG' reln' hreln'
          rw [hp] at hG'
          obtain ⟨C', hsolved, -⟩ := htries.sound G' hG'
          rw [ih hsolved hreln' hrest, ih hsolved hsame' hrest]
      · obtain ⟨o, ho⟩ := branches_length (G := G) (r := reduceReln reduce (reln p)) (by
          rw [hp]
          exact hneq)
        rw [ho]
        exact firstAccepted_toList o
    rw [htry]
    constructor
    · rintro ⟨G', hG', hanswer⟩
      obtain ⟨C', hsolved, hmodels⟩ := htries.sound G' hG'
      obtain ⟨f, hf, hrs⟩ := (ih hsolved hsame' hrest).1 hanswer
      obtain ⟨hC, hr⟩ := hmodels f hf
      exact ⟨f, hC, List.forall_mem_cons.2 ⟨hr, hrs⟩⟩
    · rintro ⟨f, hf, hrs⟩
      obtain ⟨hr, hrs⟩ := List.forall_mem_cons.1 hrs
      obtain ⟨G', hG', C', hsolved, hC'⟩ := htries.complete f hf hr
      exact ⟨G', hG', (ih hsolved hsame' hrest).2 ⟨f, hC', hrs⟩⟩

/-- The answer of the solver: there are integers that meet the reduced relations, with the constants
read as signed. -/
theorem consistentRelations_iff (hsteady : Steady reduce reln rlns) :
    (consistentRelations reduce rlns reln).1 = true ↔
      ∃ f, ∀ p ∈ rlns, (reduceReln reduce (reln p)).HoldsSigned f := by
  rw [consistentRelations,
    consistRelations_iff reduce (solved_empty .zero) (fun _ _ => rfl) hsteady]
  simp [Models]

end Answer

/-! ## Unsigned values

An assignment of unsigned values gives integers that meet the relations as the solver reads them, if
the constants are all read with the same offset: all are below `2^31`, or none is. The value of the
node for zero is the offset. -/

section Unsigned

variable {V T : Type} {reduce : RelnOp V T → RelnOp V T} {σ : Node V T → BitVec 32} {z : Int}

/-- The assignment gives an operand the value of its reduced form. -/
def Respects (reduce : RelnOp V T → RelnOp V T) (σ : Node V T → BitVec 32) : Prop :=
  ∀ o : RelnOp V T, (reduce o).value σ = o.value σ

/-- The constant is an operand of the relation. -/
def Reln.Uses (r : Reln V T) (i : BitVec 32) : Prop := r.rop1 = .const i ∨ r.rop2 = .const i

/-- The constant is read with the offset `z`. -/
def ReadWith (z : Int) (i : BitVec 32) : Prop := apFromint i = i.toNat - z

/-- The integers of an assignment, with the offset as the value of zero. -/
def offset (z : Int) (σ : Node V T → BitVec 32) : Node V T → Int
  | .zero => z
  | n => (σ n).toNat

variable {i : BitVec 32} {rel : Relation} {r : Reln V T}

theorem readWith_low (hi : i.toNat < 2 ^ 31) : ReadWith 0 i := by
  rw [ReadWith, apFromint, BitVec.toInt_eq_toNat_cond]
  omega

theorem readWith_high (hi : 2 ^ 31 ≤ i.toNat) : ReadWith (2 ^ 32) i := by
  rw [ReadWith, apFromint, BitVec.toInt_eq_toNat_cond]
  omega

section

variable (h : ReadWith z i)

include h

/-- A decremented constant is read as at least what it stands for. -/
theorem ReadWith.le_sub_one (hpos : 0 < i.toNat) : i.toNat - 1 - z ≤ apFromint (i - 1) := by
  have hsub : (i - 1).toNat = i.toNat - 1 := by
    simp
    omega
  rw [ReadWith, apFromint, BitVec.toInt_eq_toNat_cond] at h
  rw [apFromint, BitVec.toInt_eq_toNat_cond]
  split_ifs at h ⊢ <;> omega

/-- An incremented constant is read as at most what it stands for. -/
theorem ReadWith.add_one_le (hlt : i.toNat + 1 < 2 ^ 32) : apFromint (i + 1) ≤ i.toNat + 1 - z := by
  have hadd : (i + 1).toNat = i.toNat + 1 := by
    simp
    omega
  rw [ReadWith, apFromint, BitVec.toInt_eq_toNat_cond] at h
  rw [apFromint, BitVec.toInt_eq_toNat_cond, hadd]
  split_ifs at h ⊢ <;> omega

theorem Relation.signed_below {x : BitVec 32}
    (htest : rel.test x.toNat i.toNat = true) : rel.Signed (.inr x.toNat) (.inl i) z := by
  have hread : apFromint i = i.toNat - z := h
  cases rel <;> simp only [test, decide_eq_true_eq] at htest <;> simp only [Signed]
  case eq | neq | lte => omega
  case lt =>
    have hle := h.le_sub_one (by omega)
    omega

theorem Relation.signed_above {x : BitVec 32}
    (htest : rel.test i.toNat x.toNat = true) : rel.Signed (.inl i) (.inr x.toNat) z := by
  have hread : apFromint i = i.toNat - z := h
  cases rel <;> simp only [test, decide_eq_true_eq] at htest <;> simp only [Signed]
  case eq | neq | lte => omega
  case lt =>
    have hle := h.add_one_le (by omega)
    omega

end

theorem Relation.signed_between {x y : Nat} (htest : rel.test x y = true) :
    rel.Signed (.inr x) (.inr y) z := by
  cases rel <;> simp only [test, decide_eq_true_eq] at htest <;> simp only [Signed] <;> omega

/-- An operand, as the solver sees it and as it is evaluated. -/
theorem operand_cases (o : RelnOp V T) : (∃ i, o = .const i ∧ rop2node o = .inl i ∧ o.value σ = i) ∨
      ∃ n, rop2node o = .inr n ∧ offset z σ n = (o.value σ).toNat := by
  cases o with
  | const i => exact .inl ⟨i, rfl, rfl, rfl⟩
  | _ => exact .inr ⟨_, rfl, rfl⟩

/-- A relation that an assignment meets holds as the solver reads it. -/
theorem Reln.Holds.signed (hr : r.Holds σ) (hread : ∀ i, r.Uses i → ReadWith z i) :
    r.HoldsSigned (offset z σ) := by
  obtain ⟨o1, rel, o2⟩ := r
  unfold Reln.Holds at hr
  unfold Reln.HoldsSigned
  dsimp only at hr ⊢
  rcases operand_cases (z := z) (σ := σ) o1 with ⟨i, ho1, hn1, hv1⟩ | ⟨n1, hn1, hv1⟩
  · rcases operand_cases (z := z) (σ := σ) o2 with ⟨j, ho2, hn2, hv2⟩ | ⟨n2, hn2, hv2⟩
    · rw [hv1, hv2] at hr
      rw [hn1, hn2]
      exact hr
    · rw [hv1] at hr
      rw [hn1, hn2, Sum.map_inr, hv2]
      exact Relation.signed_above (hread i (.inl ho1)) hr
  · rcases operand_cases (z := z) (σ := σ) o2 with ⟨j, ho2, hn2, hv2⟩ | ⟨n2, hn2, hv2⟩
    · rw [hv2] at hr
      rw [hn1, hn2, Sum.map_inr, hv1]
      exact Relation.signed_below (hread j (.inr ho2)) hr
    · rw [hn1, hn2, Sum.map_inr, Sum.map_inr, hv1, hv2]
      exact Relation.signed_between hr

theorem Respects.holds (hσ : Respects reduce σ) : (reduceReln reduce r).Holds σ ↔ r.Holds σ := by
  rw [Reln.Holds, Reln.Holds, reduceReln, hσ, hσ]

theorem not_holds_negate (h : ¬r.Holds σ) : (negate r).Holds σ := by
  rw [Reln.Holds, Bool.not_eq_true] at h
  rw [Reln.Holds, negate, test_flip, h]
  rfl

variable [DecidableEq V] [DecidableEq T]

/-- Constants that are all read with one offset: relations that an assignment meets are found to be
consistent. -/
theorem consistentRelations_of_holds {rlns : List Nat} {reln : Nat → Reln V T}
    (hσ : Respects reduce σ)
    (hread : ∀ r ∈ reads reduce rlns (emptyGraph .zero) reln, ∀ i, r.Uses i → ReadWith z i)
    (hrlns : ∀ p ∈ rlns, (reln p).Holds σ) : (consistentRelations reduce rlns reln).1 = true := by
  have hmodels : Models (offset z σ) ∅ := by simp [Models]
  refine consistRelations_of_reads reduce (solved_empty Node.zero) hmodels fun r hr => ?_
  have hholds := reads_keeps reduce (K := fun r => r.Holds σ) (fun _ => hσ.holds.2) _ hrlns r hr
  exact hholds.signed (hread r hr)

end Unsigned

end ConcurrentCyclone.Relations
