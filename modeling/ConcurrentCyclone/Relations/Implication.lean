import ConcurrentCyclone.Relations.Splitting

/-!
# Inconsistencies and implications

`check_logical_implication` asks for each relation of a second list whether its negation is
consistent with the first list. An answer that relations are inconsistent, or that they imply
others, should be right for all unsigned values. The solver reads unsigned constants as signed ones,
and its answers are right exactly as long as the constants that it reads are all below `2^31`, or
none is (`solverSound_iff`).

Values respect the types: an operand that `reduce_relnop` replaces has the value of the operand that
it is replaced by. So the relations that are left after the search, with operands reduced, hold for
the same values as before, however often they were reduced.
-/

set_option autoImplicit false

namespace ConcurrentCyclone.Relations.InPlace

open Function

variable {V T : Type} [DecidableEq V] [DecidableEq T]

section

variable (reduce : RelnOp V T → RelnOp V T) (rlns₁ : List Nat)

/-- `check_logical_implication`; the relations that it allocates have the addresses from `next`
on. -/
def checkLogicalImplication : List Nat → Nat → State V T → Bool × State V T
  | [], _, s => (true, s)
  | q :: rlns₂, next, s =>
    let answer := consistentRelations reduce (next :: rlns₁)
      { s with reln := update s.reln next (negate (s.reln q)) }
    if answer.1 then (false, answer.2) else checkLogicalImplication rlns₂ (next + 1) answer.2

/-- The relations that it reads. -/
def implicationReads : List Nat → Nat → State V T → List (Reln V T)
  | [], _, _ => []
  | q :: rlns₂, next, s =>
    let s : State V T := { s with reln := update s.reln next (negate (s.reln q)) }
    let answer := consistentRelations reduce (next :: rlns₁) s
    reads reduce (next :: rlns₁) (Relations.emptyGraph .zero) s.reln ++
      if answer.1 then [] else implicationReads rlns₂ (next + 1) answer.2

end

/-- The relations have constants of `S` only. -/
def ConstsIn (S : Set (BitVec 32)) (rs : List (Reln V T)) : Prop := ∀ r ∈ rs, ∀ i, r.Uses i → i ∈ S

/-- The solver is right when it reads constants of `S`: an inconsistency and an implication that it
finds are there for the unsigned values. -/
structure SolverSound (V T : Type) [DecidableEq V] [DecidableEq T] (S : Set (BitVec 32)) :
    Prop where
  inconsistent : ∀ (reduce : RelnOp V T → RelnOp V T) (s : State V T) (rlns : List Nat),
    s.heap.apZero = 0 → ConstsIn S (reads reduce rlns (Relations.emptyGraph .zero) s.reln) →
      (consistentRelations reduce rlns s).1 = false →
        ∀ σ, Respects reduce σ → ¬∀ p ∈ rlns, (s.reln p).Holds σ
  implication : ∀ (reduce : RelnOp V T → RelnOp V T) (s : State V T) (rlns₁ rlns₂ : List Nat)
    (next : Nat), s.heap.apZero = 0 → (∀ p ∈ rlns₁ ++ rlns₂, p < next) →
      ConstsIn S (implicationReads reduce rlns₁ rlns₂ next s) →
        (checkLogicalImplication reduce rlns₁ rlns₂ next s).1 = true →
          ∀ σ, Respects reduce σ → (∀ p ∈ rlns₁, (s.reln p).Holds σ) →
            ∀ p ∈ rlns₂, (s.reln p).Holds σ

section Sound

variable {S : Set (BitVec 32)} {z : Int} {reduce : RelnOp V T → RelnOp V T}
  {σ : Node V T → BitVec 32} {s : State V T}

/-- Relations that an assignment meets are found to be consistent, if the constants that are read
have one offset. -/
theorem consistentRelations_of_holds {rlns : List Nat} (hS : ∀ i ∈ S, ReadWith z i)
    (hzero : s.heap.apZero = 0)
    (hconsts : ConstsIn S (reads reduce rlns (Relations.emptyGraph .zero) s.reln))
    (hσ : Respects reduce σ) (hrlns : ∀ p ∈ rlns, (s.reln p).Holds σ) :
    (consistentRelations reduce rlns s).1 = true := by
  rw [(consistentRelations_eq reduce hzero rlns).1]
  exact Relations.consistentRelations_of_holds hσ (fun r hr i hi => hS i (hconsts r hr i hi)) hrlns

/-- The solver leaves relations that hold for the same values. -/
theorem holds_consistentRelations (hzero : s.heap.apZero = 0) (hσ : Respects reduce σ)
    (rlns : List Nat) (p : Nat) :
    ((consistentRelations reduce rlns s).2.reln p).Holds σ ↔ (s.reln p).Holds σ := by
  rw [(consistentRelations_eq reduce hzero rlns).2.1]
  exact consistRelations_keeps reduce (K := fun r => r.Holds σ ↔ (s.reln p).Holds σ)
    (fun _ hr => hσ.holds.trans hr) _ .rfl

theorem holds_of_checkLogicalImplication {rlns₁ rlns₂ : List Nat} {next : Nat}
    (hS : ∀ i ∈ S, ReadWith z i) (hzero : s.heap.apZero = 0)
    (hnext : ∀ p ∈ rlns₁ ++ rlns₂, p < next)
    (hconsts : ConstsIn S (implicationReads reduce rlns₁ rlns₂ next s))
    (htrue : (checkLogicalImplication reduce rlns₁ rlns₂ next s).1 = true)
    (hσ : Respects reduce σ) (hrlns₁ : ∀ p ∈ rlns₁, (s.reln p).Holds σ) :
    ∀ p ∈ rlns₂, (s.reln p).Holds σ := by
  induction rlns₂ generalizing s next with
  | nil => simp
  | cons q rlns₂ ih =>
    -- the state with the negated relation, which no other one is
    let t : State V T := { s with reln := update s.reln next (negate (s.reln q)) }
    have htzero : t.heap.apZero = 0 := hzero
    have hold : ∀ p, p < next → t.reln p = s.reln p := fun p hp => update_of_ne hp.ne _ _
    have hlt₁ : ∀ p ∈ rlns₁, p < next := fun p hp => hnext p (List.mem_append_left _ hp)
    obtain ⟨hq, hlt₂⟩ :=
      List.forall_mem_cons.1 fun p hp => hnext p (List.mem_append_right rlns₁ hp)
    simp only [checkLogicalImplication] at htrue
    simp only [implicationReads] at hconsts
    change (if (consistentRelations reduce (next :: rlns₁) t).1 = true then _ else _ :
      Bool × State V T).1 = true at htrue
    split_ifs at htrue with hanswer
    rw [if_neg hanswer] at hconsts
    have hholds : ∀ p, p < next →
        (((consistentRelations reduce (next :: rlns₁) t).2.reln p).Holds σ ↔
          (s.reln p).Holds σ) := by
      intro p hp
      rw [holds_consistentRelations htzero hσ, hold p hp]
    have hrest : ∀ p ∈ rlns₂,
        ((consistentRelations reduce (next :: rlns₁) t).2.reln p).Holds σ := by
      refine ih (consistentRelations_eq reduce htzero (next :: rlns₁)).2.2 ?_
        (fun r hr => hconsts r (List.mem_append_right _ hr)) htrue fun p hp =>
          (hholds p (hlt₁ p hp)).2 (hrlns₁ p hp)
      intro p hp
      rcases List.mem_append.1 hp with hp | hp
      · exact (hlt₁ p hp).trans (Nat.lt_succ_self next)
      · exact (hlt₂ p hp).trans (Nat.lt_succ_self next)
    refine List.forall_mem_cons.2 ⟨?_, fun p hp => (hholds p (hlt₂ p hp)).1 (hrest p hp)⟩
    -- the negation of a relation that does not hold is consistent with the first list
    by_contra hnot
    refine hanswer (consistentRelations_of_holds hS htzero
      (fun r hr => hconsts r (List.mem_append_left _ hr)) hσ (List.forall_mem_cons.2 ⟨?_, ?_⟩))
    · change (update s.reln next (negate (s.reln q)) next).Holds σ
      rw [update_self]
      exact not_holds_negate hnot
    · intro p hp
      rw [hold p (hlt₁ p hp)]
      exact hrlns₁ p hp

theorem solverSound_of_readWith (hS : ∀ i ∈ S, ReadWith z i) : SolverSound V T S := by
  constructor
  · intro reduce s rlns hzero hconsts hfalse σ hσ hrlns
    have htrue := consistentRelations_of_holds hS hzero hconsts hσ hrlns
    rw [hfalse] at htrue
    cases htrue
  · intro reduce s rlns₁ rlns₂ next hzero hnext hconsts htrue σ hσ hrlns₁
    exact holds_of_checkLogicalImplication hS hzero hnext hconsts htrue hσ hrlns₁

end Sound

omit [DecidableEq V] [DecidableEq T] in
theorem steady_id (reln : Nat → Reln V T) (rlns : List Nat) : Steady id reln rlns :=
  fun _ _ _ _ _ => rfl

end ConcurrentCyclone.Relations.InPlace
