import ConcurrentCyclone.Relations.Solver

/-!
# Killing a variable

When a variable changes, `reln_kill_var` puts a fresh type variable in its place in the relations:
what was known about the old value stays known about the type variable. A variable can be an operand
in two roles, by its value and by its number of elements, and both are replaced by the same type
variable.

`holds_relnKillVar` says what the new relations mean: the old relations hold if value and number of
elements are both the number of the type variable. If the variable occurs in one role only, every
state that meets the old relations meets the new ones after any change
(`relnKillVar_satisfiable`); in both roles the new relations can be unsatisfiable.
-/

set_option autoImplicit false

namespace ConcurrentCyclone.Relations

variable {V T : Type} [DecidableEq V]

/-- `rop_contains_var`. -/
def ropContainsVar (r : RelnOp V T) (v : V) : Bool :=
  match r with
  | .var v₂ => v = v₂
  | .numelts v₂ => v = v₂
  | .type _ | .param _ | .paramNumelts _ | .ret | .const _ => false

/-- `subst_rop_var`. -/
def substRopVar (r : RelnOp V T) (v : V) (newRop : RelnOp V T) : RelnOp V T :=
  match r with
  | .var v₂ => if v = v₂ then newRop else r
  | .numelts v₂ => if v = v₂ then newRop else r
  | .type _ | .param _ | .paramNumelts _ | .ret | .const _ => r

/-- `substitute_rop_var`. -/
def substituteRopVar (reln : Reln V T) (v : V) (newRop : RelnOp V T) : Reln V T :=
  ⟨substRopVar reln.rop1 v newRop, reln.relation, substRopVar reln.rop2 v newRop⟩

/-- An operand of the relation contains the variable. -/
def relnContainsVar (v : V) (r : Reln V T) : Bool :=
  ropContainsVar r.rop1 v || ropContainsVar r.rop2 v

/-- `reln_kill_var`, with the fresh type variable `tv`. The new list is built back to front. -/
def relnKillVar (tv : T) (rs : List (Reln V T)) (v : V) : List (Reln V T) :=
  if rs.any (relnContainsVar v) then
    rs.foldl (fun newRs r =>
      (if relnContainsVar v r then substituteRopVar r v (.type tv) else r) :: newRs) []
  else rs

/-! ## States -/

/-- The state in which `v` has the value `w` and `n` elements, and `tv` stands for `u`. -/
def changed [DecidableEq T] (σ : Node V T → BitVec 32) (v : V) (w n : BitVec 32) (tv : T)
    (u : BitVec 32) : Node V T → BitVec 32
  | .var x => if v = x then w else σ (.var x)
  | .numelts x => if v = x then n else σ (.numelts x)
  | .type t => if t = tv then u else σ (.type t)
  | m => σ m

/-- The state in which the value and the number of elements of `v` are both `u`. -/
def inBothRoles (σ : Node V T → BitVec 32) (v : V) (u : BitVec 32) : Node V T → BitVec 32
  | .var x => if v = x then u else σ (.var x)
  | .numelts x => if v = x then u else σ (.numelts x)
  | m => σ m

/-- The operand does not occur in the relation. -/
def Reln.Avoids (r : Reln V T) (o : RelnOp V T) : Prop := r.rop1 ≠ o ∧ r.rop2 ≠ o

/-! ## What the new relations mean -/

section Meaning

variable {σ : Node V T → BitVec 32} {v : V} {w n u : BitVec 32} {tv : T}

variable {o : RelnOp V T} {r : Reln V T} {rs : List (Reln V T)}

theorem substRopVar_of_not_contains (h : ropContainsVar o v = false)
    (newRop : RelnOp V T) : substRopVar o v newRop = o := by
  cases o with
  | var x | numelts x =>
    have hne : v ≠ x := of_decide_eq_false h
    exact if_neg hne
  | _ => rfl

theorem substituteRopVar_of_not_contains (h : relnContainsVar v r = false)
    (newRop : RelnOp V T) : substituteRopVar r v newRop = r := by
  obtain ⟨h1, h2⟩ := Bool.or_eq_false_iff.1 h
  rw [substituteRopVar, substRopVar_of_not_contains h1, substRopVar_of_not_contains h2]

/-- The new relations are the old ones with the operands replaced. -/
theorem mem_relnKillVar {r' : Reln V T} :
    r' ∈ relnKillVar tv rs v ↔ ∃ r ∈ rs, substituteRopVar r v (.type tv) = r' := by
  have hsame : ∀ r : Reln V T,
      (if relnContainsVar v r then substituteRopVar r v (.type tv) else r) =
        substituteRopVar r v (.type tv) := by
    intro r
    split_ifs with hcontains
    · rfl
    · exact (substituteRopVar_of_not_contains (Bool.eq_false_iff.2 hcontains) _).symm
  unfold relnKillVar
  split_ifs with hfound
  · simp only [hsame, List.foldl_flip_cons_eq_append, List.append_nil, List.mem_reverse,
      List.mem_map]
  · -- no relation contains the variable
    have hnone : ∀ r ∈ rs, substituteRopVar r v (.type tv) = r := by
      intro r hr
      apply substituteRopVar_of_not_contains
      rw [Bool.eq_false_iff]
      exact fun hcontains => hfound (List.any_eq_true.2 ⟨r, hr, hcontains⟩)
    rw [← List.mem_map, List.map_congr_left hnone, List.map_id']

variable [DecidableEq T]

/-- A replaced operand has the value that the operand has when both roles have the number of the
type variable. -/
theorem value_substRopVar (hfresh : o ≠ .type tv) :
    (substRopVar o v (.type tv)).value (changed σ v w n tv u) = o.value (inBothRoles σ v u) := by
  cases o with
  | var x | numelts x =>
    by_cases hx : v = x
    · simp [substRopVar, RelnOp.value, rop2node, changed, inBothRoles, hx]
    · simp [substRopVar, RelnOp.value, rop2node, changed, inBothRoles, hx]
  | type t =>
    have ht : t ≠ tv := fun ht => hfresh (congrArg _ ht)
    simp [substRopVar, RelnOp.value, rop2node, changed, inBothRoles, ht]
  | _ => rfl

/-- The new relations hold after the change exactly if the old ones hold with the number of the type
variable in both roles. -/
theorem holds_relnKillVar (hfresh : ∀ r ∈ rs, r.Avoids (.type tv)) :
    (∀ r ∈ relnKillVar tv rs v, r.Holds (changed σ v w n tv u)) ↔
      ∀ r ∈ rs, r.Holds (inBothRoles σ v u) := by
  have hiff : ∀ r ∈ rs, (substituteRopVar r v (.type tv)).Holds (changed σ v w n tv u) ↔
      r.Holds (inBothRoles σ v u) := by
    intro r hr
    obtain ⟨h1, h2⟩ := hfresh r hr
    rw [Reln.Holds, Reln.Holds, substituteRopVar, value_substRopVar h1, value_substRopVar h2]
  simp only [mem_relnKillVar, forall_exists_index, and_imp, forall_apply_eq_imp_iff₂]
  exact forall₂_congr hiff

omit [DecidableEq T] in
/-- A relation does not see a role in which the variable does not occur. -/
theorem holds_inBothRoles (hr : r.Holds σ) (hvar : r.Avoids (.var v) ∨ σ (.var v) = u)
    (hnumelts : r.Avoids (.numelts v) ∨ σ (.numelts v) = u) : r.Holds (inBothRoles σ v u) := by
  have hvalue : ∀ o, o = r.rop1 ∨ o = r.rop2 → o.value (inBothRoles σ v u) = o.value σ := by
    intro o ho
    have havoid : ∀ {o'}, r.Avoids o' → o ≠ o' := by
      rintro o' ⟨h1, h2⟩
      rcases ho with rfl | rfl
      · exact h1
      · exact h2
    cases o with
    | var x =>
      simp only [RelnOp.value, rop2node, inBothRoles]
      split_ifs with hx
      · subst hx
        exact (hvar.resolve_left fun h => havoid h rfl).symm
      · rfl
    | numelts x =>
      simp only [RelnOp.value, rop2node, inBothRoles]
      split_ifs with hx
      · subst hx
        exact (hnumelts.resolve_left fun h => havoid h rfl).symm
      · rfl
    | _ => rfl
  rw [Reln.Holds, hvalue _ (.inl rfl), hvalue _ (.inr rfl)]
  exact hr

end Meaning

/-! ## Satisfiable relations -/

section Satisfiable

variable [DecidableEq T]

/-- A state that meets the relations meets those without the variable after any change of the
variable, for some number of the type variable, if the variable occurs by its value only or by its
number of elements only, or the two are equal. -/
theorem relnKillVar_satisfiable (rs : List (Reln V T)) (v : V) (tv : T)
    (hfresh : ∀ r ∈ rs, r.Avoids (.type tv)) (σ : Node V T → BitVec 32) (hσ : ∀ r ∈ rs, r.Holds σ)
    (hrole : (∀ r ∈ rs, r.Avoids (.var v)) ∨ (∀ r ∈ rs, r.Avoids (.numelts v)) ∨
      σ (.var v) = σ (.numelts v)) (w n : BitVec 32) :
    ∃ u, ∀ r ∈ relnKillVar tv rs v, r.Holds (changed σ v w n tv u) := by
  rcases hrole with hrole | hrole | hrole
  · refine ⟨σ (.numelts v), (holds_relnKillVar hfresh).2 fun r hr => ?_⟩
    exact holds_inBothRoles (hσ r hr) (.inl (hrole r hr)) (.inr rfl)
  · refine ⟨σ (.var v), (holds_relnKillVar hfresh).2 fun r hr => ?_⟩
    exact holds_inBothRoles (hσ r hr) (.inr rfl) (.inl (hrole r hr))
  · refine ⟨σ (.var v), (holds_relnKillVar hfresh).2 fun r hr => ?_⟩
    exact holds_inBothRoles (hσ r hr) (.inr rfl) (.inr hrole.symm)

end Satisfiable

/-- `i < numelts(p)`, `numelts(p) <= n` and `n == m`, with `p`, `i`, `n`, `m` the variables `0` to
`3`. -/
def indexFits : List (Reln Nat Nat) :=
  [⟨.var 1, .lt, .numelts 0⟩, ⟨.numelts 0, .lte, .var 2⟩, ⟨.var 2, .eq, .var 3⟩]

/-- A state in which `p` has ten elements, and `p` and all other variables are `4096`. -/
def tenElements (i : BitVec 32) : Node Nat Nat → BitVec 32
  | .numelts _ => 10
  | .var 1 => i
  | _ => 4096

/-- After `p` has got two elements, `i` is smaller than the old number of elements, which is at most
`n`. -/
theorem relnKillVar_satisfiable_numelts : (∀ r ∈ indexFits, r.Holds (tenElements 3)) ∧
      relnKillVar 0 indexFits 0 =
        [⟨.var 2, .eq, .var 3⟩, ⟨.type 0, .lte, .var 2⟩, ⟨.var 1, .lt, .type 0⟩] ∧
      ∃ u, ∀ r ∈ relnKillVar 0 indexFits 0, r.Holds (changed (tenElements 3) 0 8192 2 0 u) := by
  have hσ : ∀ r ∈ indexFits, r.Holds (tenElements 3) := by
    simp only [indexFits, List.forall_mem_cons, List.not_mem_nil, false_implies, implies_true]
    exact ⟨rfl, rfl, rfl, trivial⟩
  refine ⟨hσ, rfl, relnKillVar_satisfiable indexFits 0 0 ?_ (tenElements 3) hσ (.inl ?_) 8192 2⟩
  all_goals simp [indexFits, Reln.Avoids]

/-- `p == q` and `numelts(p) < q`, with `p` the variable `0` and `q` the variable `1`. -/
def bothRoles : List (Reln Nat Nat) := [⟨.var 0, .eq, .var 1⟩, ⟨.numelts 0, .lt, .var 1⟩]

/-- The relations hold for ten elements at the address `4096`. After `p` has changed they say that
the type variable is equal to `q` and smaller than `q`: no state meets them, and the solver finds
them to be inconsistent. -/
theorem not_relnKillVar_satisfiable : (∀ r ∈ bothRoles, r.Holds (tenElements 4096)) ∧
      (∀ r ∈ bothRoles, r.Avoids (.type 0)) ∧
      relnKillVar 0 bothRoles 0 = [⟨.type 0, .lt, .var 1⟩, ⟨.type 0, .eq, .var 1⟩] ∧
      (∀ σ, ¬∀ r ∈ relnKillVar 0 bothRoles 0, r.Holds σ) ∧
      (consistentRelations id [0, 1] (relnsAt bothRoles)).1 = true ∧
      (consistentRelations id [0, 1] (relnsAt (relnKillVar 0 bothRoles 0))).1 = false := by
  refine ⟨?_, ?_, rfl, ?_, by decide, by decide⟩
  · exact List.forall_mem_cons.2 ⟨rfl, List.forall_mem_singleton.2 rfl⟩
  · exact List.forall_mem_cons.2
      ⟨⟨by simp, by simp⟩, List.forall_mem_singleton.2 ⟨by simp, by simp⟩⟩
  · intro σ h
    have hlt := holds_lt.1 (h ⟨.type 0, .lt, .var 1⟩ (by decide))
    have heq := h ⟨.type 0, .eq, .var 1⟩ (by decide)
    have heq : ((RelnOp.type 0).value σ).toNat = ((RelnOp.var 1).value σ).toNat :=
      of_decide_eq_true heq
    omega

end ConcurrentCyclone.Relations
