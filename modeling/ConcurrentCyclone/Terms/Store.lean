import Mathlib.Algebra.Order.BigOperators.Group.List
import Mathlib.Data.Set.Card
import Mathlib.Logic.Function.Basic
import Mathlib.Logic.Relation

/-!
# Terms with holes, and the stores that fill them

A term is a hole or a labelled node with arguments. A store gives some of the holes a term, which
may have holes of its own. A store that is acyclic and fills finitely many holes has a ranking, and
a store with a ranking has exactly one solution: the substitution that replaces every filled hole
by its term, to the end.

The lemmas about changes of a store say what becomes of its ranking and its solution when one more
hole is filled (`Solved.fill`), and when the term of a filled hole is replaced by one with the same
solution (`Solved.refill`).
-/

set_option autoImplicit false

namespace ConcurrentCyclone.Terms

open Function Relation

universe u v

/-- Terms over the labels `L` with holes from `E`. -/
inductive Term (L : Type u) (E : Type v) : Type (max u v)
  | hole (e : E)
  | node (l : L) (args : List (Term L E))

namespace Term

variable {L : Type u} {E : Type v}

/-- Induction with the hypothesis for every argument of a node. -/
@[elab_as_elim]
theorem rec' {motive : Term L E → Prop} (hhole : ∀ e, motive (.hole e))
    (hnode : ∀ l args, (∀ t ∈ args, motive t) → motive (.node l args)) (t : Term L E) : motive t :=
  @Term.rec L E motive (fun ts => ∀ t ∈ ts, motive t) hhole hnode
    (fun _ h => absurd h List.not_mem_nil) (fun _ _ h hs => List.forall_mem_cons.2 ⟨h, hs⟩) t

/-! ## Substitution -/

mutual
/-- Replace every hole by what `m` gives for it. -/
def subst (m : E → Term L E) : Term L E → Term L E
  | .hole e => m e
  | .node l args => .node l (substList m args)
/-- `subst` on every term of a list. -/
def substList (m : E → Term L E) : List (Term L E) → List (Term L E)
  | [] => []
  | t :: ts => t.subst m :: substList m ts
end

@[simp] theorem substList_eq_map (m : E → Term L E) (ts : List (Term L E)) :
    substList m ts = ts.map (subst m) := by
  induction ts with
  | nil => rfl
  | cons t ts ih => rw [substList, ih, List.map_cons]

@[simp] theorem subst_hole (m : E → Term L E) (e : E) : (hole e).subst m = m e := by
  rw [subst]

@[simp] theorem subst_node (m : E → Term L E) (l : L) (args : List (Term L E)) :
    (node l args).subst m = node l (args.map (subst m)) := by
  rw [subst, substList_eq_map]

theorem subst_subst (m m' : E → Term L E) (t : Term L E) :
    (t.subst m).subst m' = t.subst fun e => (m e).subst m' := by
  induction t using rec' with
  | hhole e => simp
  | hnode l args ih =>
    simp only [subst_node, List.map_map, node.injEq, true_and]
    exact List.map_congr_left ih

/-! ## Where holes and labels occur -/

/-- The hole `e` occurs in a term. -/
@[mk_iff]
inductive HasHole (e : E) : Term L E → Prop
  | here : HasHole e (.hole e)
  | arg {l : L} {args : List (Term L E)} {t : Term L E} :
      t ∈ args → HasHole e t → HasHole e (.node l args)

/-- The label `l` occurs in a term. -/
@[mk_iff]
inductive HasLabel (l : L) : Term L E → Prop
  | here {args : List (Term L E)} : HasLabel l (.node l args)
  | arg {k : L} {args : List (Term L E)} {t : Term L E} :
      t ∈ args → HasLabel l t → HasLabel l (.node k args)

/-- Every node of a term satisfies `P`. -/
@[mk_iff]
inductive Everywhere (P : L → List (Term L E) → Prop) : Term L E → Prop
  | hole (e : E) : Everywhere P (.hole e)
  | node {l : L} {args : List (Term L E)} :
      P l args → (∀ t ∈ args, Everywhere P t) → Everywhere P (.node l args)

variable {e : E} {l : L} {args : List (Term L E)} {t : Term L E}

@[simp] theorem hasHole_hole {e' : E} : HasHole e (hole e' : Term L E) ↔ e = e' := by
  rw [hasHole_iff]
  simp [eq_comm]

@[simp] theorem hasHole_node : HasHole e (node l args) ↔ ∃ t ∈ args, HasHole e t := by
  rw [hasHole_iff]
  simp

@[simp] theorem not_hasLabel_hole : ¬HasLabel l (hole e : Term L E) := by
  rintro ⟨⟩

@[simp] theorem hasLabel_node {k : L} :
    HasLabel l (node k args) ↔ l = k ∨ ∃ t ∈ args, HasLabel l t := by
  rw [hasLabel_iff]
  simp [eq_comm]

variable {P : L → List (Term L E) → Prop}

@[simp] theorem everywhere_node :
    Everywhere P (node l args) ↔ P l args ∧ ∀ t ∈ args, Everywhere P t := by
  rw [everywhere_iff]
  simp

variable {m : E → Term L E}

theorem hasHole_subst : HasHole e (t.subst m) ↔ ∃ e', HasHole e' t ∧ HasHole e (m e') := by
  induction t using rec' with
  | hhole e' => simp
  | hnode l args ih =>
    simp only [subst_node, hasHole_node, List.mem_map, exists_exists_and_eq_and]
    rw [exists_congr fun t => and_congr_right (ih t)]
    simp only [← exists_and_left, ← exists_and_right, and_assoc]
    exact exists_comm

theorem hasLabel_subst :
    HasLabel l (t.subst m) ↔ HasLabel l t ∨ ∃ e, HasHole e t ∧ HasLabel l (m e) := by
  induction t using rec' with
  | hhole e' => simp
  | hnode k args ih =>
    simp only [subst_node, hasLabel_node, hasHole_node, List.mem_map,
      exists_exists_and_eq_and]
    rw [exists_congr fun t => and_congr_right (ih t)]
    simp only [and_or_left, exists_or, ← or_assoc, ← exists_and_left, ← exists_and_right,
      and_assoc]
    exact or_congr_right exists_comm

/-- Only the holes that occur in a term matter to a substitution. -/
theorem subst_congr {m' : E → Term L E}
    (h : ∀ e, HasHole e t → m e = m' e) : t.subst m = t.subst m' := by
  induction t using rec' with
  | hhole e => simpa using h e .here
  | hnode l args ih =>
    simp only [subst_node, node.injEq, true_and]
    exact List.map_congr_left fun t ht => ih t ht fun e he => h e (.arg ht he)

theorem subst_eq_self (h : ∀ e, HasHole e t → m e = hole e) : t.subst m = t := by
  induction t using rec' with
  | hhole e => simpa using h e .here
  | hnode l args ih =>
    simp only [subst_node, node.injEq, true_and]
    conv_rhs => rw [← List.map_id args]
    exact List.map_congr_left fun t ht => ih t ht fun e he => h e (.arg ht he)

/-- A property of nodes that a substitution cannot establish holds of a term when it holds of the
term with its holes replaced. -/
theorem Everywhere.of_subst
    (hP : ∀ l args, P l (args.map (subst m)) → P l args) (h : Everywhere P (t.subst m)) :
    Everywhere P t := by
  induction t using rec' with
  | hhole e => exact .hole e
  | hnode l args ih =>
    rw [subst_node, everywhere_node] at h
    refine .node (hP l args h.1) fun t ht => ih t ht (h.2 _ (List.mem_map_of_mem ht))

/-- The holes of a term are finitely many: their values of a measure have a bound. -/
theorem exists_lt (r : E → ℕ) (t : Term L E) : ∃ K, ∀ e, t.HasHole e → r e < K := by
  induction t using rec' with
  | hhole e =>
    refine ⟨r e + 1, fun x hx => ?_⟩
    rw [hasHole_hole.1 hx]
    exact Nat.lt_succ_self _
  | hnode l args ih =>
    choose! K hK using ih
    refine ⟨(args.map K).sum, fun x hx => ?_⟩
    obtain ⟨s, hs, hx⟩ := hasHole_node.1 hx
    exact (hK s hs x hx).trans_le (List.le_sum_of_mem (List.mem_map_of_mem hs))

/-- The substitution of one hole. -/
def single [DecidableEq E] (e : E) (u : Term L E) (x : E) : Term L E :=
  if x = e then u else .hole x

@[simp] theorem single_self [DecidableEq E] (e : E) (u : Term L E) : single e u e = u :=
  if_pos rfl

theorem single_of_ne [DecidableEq E] {x : E} (u : Term L E) (hx : x ≠ e) : single e u x = .hole x :=
  if_neg hx

end Term

/-! ## Stores -/

section Store

variable {L : Type u} {E : Type v} {σ : E → Option (Term L E)} {m m' : E → Term L E}
  {r : E → ℕ} {e : E} {t : Term L E}

/-- The term of the hole `e` has the hole `e'`. -/
def Mentions (σ : E → Option (Term L E)) (e e' : E) : Prop :=
  ∃ t, σ e = some t ∧ t.HasHole e'

/-- No hole is reached from itself through the store. -/
def Acyclic (σ : E → Option (Term L E)) : Prop :=
  ∀ e, ¬TransGen (Mentions σ) e e

/-- The rank goes down from a hole to the holes in its term. -/
def Ranked (σ : E → Option (Term L E)) (r : E → ℕ) : Prop :=
  ∀ ⦃e e'⦄, Mentions σ e e' → r e' < r e

/-- The substitution replaces every filled hole by its term, to the end. -/
def Solves (σ : E → Option (Term L E)) (m : E → Term L E) : Prop :=
  ∀ e, m e = match σ e with
    | none => .hole e
    | some t => t.subst m

/-- A store with a ranking and its solution. -/
structure Solved (σ : E → Option (Term L E)) (r : E → ℕ) (m : E → Term L E) : Prop where
  ranked : Ranked σ r
  solves : Solves σ m

theorem Ranked.acyclic (h : Ranked σ r) : Acyclic σ := by
  intro e hcycle
  have hlt : TransGen (· > ·) (r e) (r e) := TransGen.lift r @h e e hcycle
  rw [transGen_eq_self] at hlt
  exact lt_irrefl _ hlt

/-- A store that is acyclic and fills finitely many holes can be ranked, by the number of filled
holes that a hole reaches. -/
theorem Acyclic.exists_ranked (h : Acyclic σ) (hfin : {e | σ e ≠ none}.Finite) :
    ∃ r, Ranked σ r ∧ ∃ R, ∀ e, r e ≤ R := by
  let below (e : E) : Set E := {e' | TransGen (Mentions σ) e e' ∧ σ e' ≠ none}
  have hsub : ∀ e, below e ⊆ {e | σ e ≠ none} := fun e e' he' => he'.2
  refine ⟨fun e => if σ e = none then 0 else (below e).ncard + 1, ?_,
    {e | σ e ≠ none}.ncard + 1, ?_⟩
  · rintro e e' ⟨t, ht, he'⟩
    have hbound : σ e ≠ none := by
      rw [ht]
      exact Option.some_ne_none t
    by_cases hnone : σ e' = none
    · simp [hnone, hbound]
    · simp only [hnone, hbound, if_false, Nat.add_lt_add_iff_right]
      have hstep : TransGen (Mentions σ) e e' := .single ⟨t, ht, he'⟩
      -- `e'` is below `e` and, as there is no cycle, not below itself
      refine Set.ncard_lt_ncard ⟨fun x hx => ⟨hstep.trans hx.1, hx.2⟩, fun hback => ?_⟩
        (hfin.subset (hsub e))
      exact h e' (hback ⟨hstep, hnone⟩).1
  · intro e
    by_cases hnone : σ e = none
    · simp [hnone]
    · simp only [hnone, if_false, Nat.add_le_add_iff_right]
      exact Set.ncard_le_ncard (hsub e) hfin

/-- The substitution after `n` rounds of replacing. -/
def rounds (σ : E → Option (Term L E)) : ℕ → E → Term L E
  | 0, e => .hole e
  | n + 1, e => match σ e with
      | none => .hole e
      | some t => t.subst (rounds σ n)

theorem Ranked.rounds_stable (h : Ranked σ r) (n k : ℕ) (hn : r e < n) (hk : r e < k) :
    rounds σ n e = rounds σ k e := by
  induction n generalizing e k with
  | zero => omega
  | succ n ih =>
    cases k with
    | zero => omega
    | succ k =>
      rw [rounds, rounds]
      cases ht : σ e with
      | none => rfl
      | some t =>
        refine Term.subst_congr fun e' he' => ?_
        have hlt : r e' < r e := h ⟨t, ht, he'⟩
        exact ih k (by omega) (by omega)

/-- A store with a ranking has a solution. -/
theorem Ranked.exists_solves (h : Ranked σ r) : ∃ m, Solves σ m := by
  refine ⟨fun e => rounds σ (r e + 1) e, fun e => ?_⟩
  show rounds σ (r e + 1) e = _
  rw [rounds]
  cases ht : σ e with
  | none => rfl
  | some t =>
    refine Term.subst_congr fun e' he' => ?_
    have hlt : r e' < r e := h ⟨t, ht, he'⟩
    exact h.rounds_stable _ _ hlt (by omega)

theorem Solves.eq_hole (h : Solves σ m) (he : σ e = none) : m e = .hole e := by
  rw [h e, he]

theorem Solves.eq_subst (h : Solves σ m) (he : σ e = some t) : m e = t.subst m := by
  rw [h e, he]

namespace Solved

/-- A store with a ranking has one solution only. -/
theorem unique (h : Solved σ r m) (h' : Solves σ m') : m = m' := by
  funext e
  induction hn : r e using Nat.strong_induction_on generalizing e with
  | _ n ih =>
    cases ht : σ e with
    | none => rw [h.solves.eq_hole ht, h'.eq_hole ht]
    | some t =>
      rw [h.solves.eq_subst ht, h'.eq_subst ht]
      refine Term.subst_congr fun e' he' => ?_
      exact ih _ (hn ▸ h.ranked ⟨t, ht, he'⟩) e' rfl

/-- The holes that are left in a solution are those the store does not fill. -/
theorem eq_none_of_hasHole (h : Solved σ r m) {e x : E} (he : (m x).HasHole e) : σ e = none := by
  induction hn : r x using Nat.strong_induction_on generalizing x with
  | _ n ih =>
    cases ht : σ x with
    | none =>
      rw [h.solves.eq_hole ht, Term.hasHole_hole] at he
      rw [he, ht]
    | some t =>
      rw [h.solves.eq_subst ht, Term.hasHole_subst] at he
      obtain ⟨e', he', he⟩ := he
      exact ih _ (hn ▸ h.ranked ⟨t, ht, he'⟩) he rfl

theorem solution_idem (h : Solved σ r m) (x : E) : (m x).subst m = m x :=
  Term.subst_eq_self fun _ he => h.solves.eq_hole (h.eq_none_of_hasHole he)

variable [DecidableEq E]

/-- Replacing the term of a filled hole by one of the same solution, with holes of a smaller rank,
keeps the solution. -/
theorem refill (h : Solved σ r m) (hsame : t.subst m = m e)
    (hrank : ∀ e', t.HasHole e' → r e' < r e) : Solved (update σ e (some t)) r m := by
  constructor
  · rintro x y ⟨s, hs, hy⟩
    by_cases hx : x = e
    · subst hx
      rw [update_self, Option.some.injEq] at hs
      exact hrank y (hs ▸ hy)
    · rw [update_of_ne hx] at hs
      exact h.ranked ⟨s, hs, hy⟩
  · intro x
    by_cases hx : x = e
    · subst hx
      rw [update_self]
      exact hsame.symm
    · rw [update_of_ne hx]
      exact h.solves x

/-- Filling a hole that does not occur in the solution of its new term: the new solution is the old
one with this hole replaced. -/
theorem fill (h : Solved σ r m) (he : σ e = none) (hocc : ¬(t.subst m).HasHole e) :
    ∃ r', Solved (update σ e (some t)) r'
      fun x => (m x).subst (Term.single e (t.subst m)) := by
  classical
  obtain ⟨K, hK⟩ := t.exists_lt r
  -- what reaches `e` is lifted above the holes of its new term, none of which reaches `e`
  refine ⟨fun x => if (m x).HasHole e then r x + K else r x, ?_, ?_⟩
  · rintro x y ⟨s, hs, hy⟩
    by_cases hx : x = e
    · subst hx
      rw [update_self, Option.some.injEq] at hs
      subst hs
      have hyocc : ¬(m y).HasHole x := fun h' => hocc (Term.hasHole_subst.2 ⟨y, hy, h'⟩)
      have hself : (m x).HasHole x := by
        rw [h.solves.eq_hole he]
        exact .here
      have hlt := hK y hy
      simp only [hyocc, hself, if_true, if_false]
      omega
    · rw [update_of_ne hx] at hs
      have hlt : r y < r x := h.ranked ⟨s, hs, hy⟩
      have hup : (m y).HasHole e → (m x).HasHole e := by
        intro h'
        rw [h.solves.eq_subst hs]
        exact Term.hasHole_subst.2 ⟨y, hy, h'⟩
      by_cases hy' : (m y).HasHole e
      · simp only [hy', hup hy', if_true]
        omega
      · simp only [hy', if_false]
        split
        · omega
        · exact hlt
  · intro x
    by_cases hx : x = e
    · subst hx
      rw [update_self]
      show (m x).subst _ = t.subst fun y => (m y).subst _
      rw [h.solves.eq_hole he, Term.subst_hole, Term.single_self, ← Term.subst_subst]
      refine (Term.subst_eq_self fun y hy => Term.single_of_ne _ ?_).symm
      rintro rfl
      exact hocc hy
    · rw [update_of_ne hx]
      cases hs : σ x with
      | none =>
        show (m x).subst _ = _
        rw [h.solves.eq_hole hs, Term.subst_hole, Term.single_of_ne _ hx]
      | some s =>
        show (m x).subst _ = s.subst fun y => (m y).subst _
        rw [h.solves.eq_subst hs, Term.subst_subst]

end Solved

end Store

end ConcurrentCyclone.Terms
