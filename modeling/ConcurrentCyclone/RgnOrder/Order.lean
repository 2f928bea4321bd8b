import ConcurrentCyclone.Tcutil.Effects

/-!
# Region orders

The type checker keeps which regions outlive which ones in a `RgnPO` (`src/rgnorder.cyc`): for each
region variable in scope an effect, whose regions outlive the variable, and the effects whose
regions outlive the heap and the unique region. An order starts with the variables of a function
(`initial_fn_po`); blocks and patterns add regions and constraints.

The regions of an effect may be unification variables (`Evar`), which the checker binds at any time,
also after the effect was recorded. `compress` finds what they are bound to. A bound effect variable
or type variable of unification is the effect or the type that it is bound to, as the functions here
compress effects and types before they look at them. A call of `impos` ends the compiler: the
functions return `none`.

`records_step` says what an operation records, and `records_run` what was recorded after any number
of them.
-/

set_option autoImplicit false

namespace ConcurrentCyclone.RgnOrder

open Tcutil (KindQual AliasQual Kind kindLeq Member rejoin exists_mem_rejoin)

/-- Region types. `V` has the type variables, with the equality that `tvar_cmp` decides. -/
inductive Rgn (V : Type) where
  | heap
  | unique
  | refcnt
  | var (tv : V)
  | evar (i : Nat)
  deriving DecidableEq

/-- Effects. -/
inductive Eff (V : Type) where
  /-- `AccessCon`: an access to a region. -/
  | access (r : Rgn V)
  /-- `CAccessCon`. -/
  | caccess
  /-- An effect variable. -/
  | var (tv : V)
  /-- A unification variable that is not bound. -/
  | evar
  /-- `RgnsCon`: the regions of a type variable. -/
  | rgnsVar (tv : V)
  /-- `RgnsCon` of a unification variable that is not bound, with the qualifier of its kind. -/
  | rgnsEvar (a : AliasQual)
  /-- `RgnsCon` of another type, with the qualifier of its kind and what `rgns_of` returns. -/
  | rgnsType (a : AliasQual) (rgnsOf : Eff V)
  /-- `JoinCon`. -/
  | join (es : List (Eff V))

variable {V : Type}

/-- `empty_effect`. -/
def emptyEffect : Eff V := .join []

/-- The kinds of type variables and unification variables. -/
structure Kinds (V : Type) where
  tvar : V → Kind
  evar : Nat → Kind

/-- What the unification variables for regions are bound to, all the way; a variable that is not
bound stands for itself. -/
structure Evars (V : Type) where
  root : Nat → Rgn V
  root_root : ∀ {i j}, root i = .evar j → root j = .evar j

/-- No variable is bound. -/
def Evars.unbound : Evars V where
  root := .evar
  root_root _ := rfl

/-- `compress`. -/
def Evars.compress (σ : Evars V) : Rgn V → Rgn V
  | .evar i => σ.root i
  | r => r

theorem Evars.root_of_compress {σ : Evars V} {r : Rgn V} {j : Nat} (h : σ.compress r = .evar j) :
    σ.root j = .evar j := by
  cases r with
  | evar i => exact σ.root_root h
  | _ => cases h

/-- Bind a variable that is not bound. -/
def Evars.bind [DecidableEq V] (σ : Evars V) (i : Nat) (r : Rgn V) : Evars V where
  root j := if σ.root j = .evar i then σ.compress r else σ.root j
  root_root {j k} h := by
    split_ifs at h with hj
    · rw [σ.root_of_compress h, h, ite_self]
    · rw [σ.root_root h, if_neg]
      rwa [← h]

/-- `type_kind` of a region. -/
def typeKind (K : Kinds V) (σ : Evars V) (r : Rgn V) : Kind :=
  match σ.compress r with
  | .heap => ⟨.rgnKind, .aliasable⟩
  | .unique => ⟨.rgnKind, .unique⟩
  | .refcnt => ⟨.rgnKind, .top⟩
  | .var tv => K.tvar tv
  | .evar i => K.evar i

/-- The regions that `normalize_effect` drops from joins. -/
def Rgn.special : Rgn V → Bool
  | .heap | .unique | .refcnt => true
  | _ => false

/-- An effect as a member of a join. -/
def Eff.member : Eff V → Member (Eff V)
  | .join es => .join es
  | .access r => if r.special then .special else .other
  | _ => .other

mutual

/-- `normalize_effect`. -/
def normalizeEffect : Eff V → Eff V
  | .join es => .join (rejoin Eff.member (normalizeEffects es))
  | .rgnsType _ e => e
  | e => e

/-- The members of a join are normalized. -/
def normalizeEffects : List (Eff V) → List (Eff V)
  | [] => []
  | e :: es => normalizeEffect e :: normalizeEffects es

end

mutual

/-- `valid_constraint` for a region with the qualifier `a`. -/
def validEffect (K : Kinds V) (σ : Evars V) (a : AliasQual) : Eff V → Bool
  | .join es => validEffects K σ a es
  | .evar | .var _ | .caccess => true
  | .rgnsVar tv => a = .aliasable || (K.tvar tv).aliasqual = a
  | .rgnsEvar ta | .rgnsType ta _ => a = .aliasable || ta = a
  | .access r => a = .aliasable || (typeKind K σ r).aliasqual = a

/-- The loop over the members of a join. -/
def validEffects (K : Kinds V) (σ : Evars V) (a : AliasQual) : List (Eff V) → Bool
  | [] => true
  | e :: es => validEffect K σ a e && validEffects K σ a es

end

/-- `valid_constraint`. -/
def validConstraint (K : Kinds V) (σ : Evars V) (eff : Eff V) (rgn : Rgn V) : Option Bool :=
  match typeKind K σ rgn with
  | ⟨.rgnKind, a⟩ => some (validEffect K σ a eff)
  | ⟨.xRgnKind, _⟩ => some false
  | _ => none

/-- `struct RgnPO`. The first entry of a variable in the list `d` is its entry in the dictionary. -/
structure RgnPO (V : Type) where
  d : List (V × Eff V)
  theseOutliveHeap : Eff V
  theseOutliveUnique : Eff V
  youngest : V
  openedRegions : Eff V

/-- An order, the bindings of the unification variables, and the constraints for which a kind
mismatch was reported. -/
structure State (V : Type) where
  po : RgnPO V
  evars : Evars V
  mismatches : List (Eff V × Rgn V)

section Operations

variable [DecidableEq V]

/-- The entry of a variable for which a constraint is added. -/
def constrain (d : List (V × Eff V)) (tv : V) (eff : Eff V) : List (V × Eff V) :=
  match d.lookup tv with
  | some old => (tv, .join [eff, old]) :: d
  | none => (tv, eff) :: d

/-- `add_outlives_constraint`. -/
def addOutlivesConstraint (K : Kinds V) (s : State V) (eff : Eff V) (rgn : Rgn V) :
    Option (State V) :=
  let eff := normalizeEffect eff
  match validConstraint K s.evars eff rgn with
  | none => none
  | some false => some { s with mismatches := (eff, rgn) :: s.mismatches }
  | some true =>
    let po := s.po
    match s.evars.compress rgn with
    | .var tv => some { s with po := { po with d := constrain po.d tv eff } }
    -- `Unify::unify(rgn,heap_rgn_type); fallthru;`, also if the kinds do not allow the binding
    | .evar i =>
      some { s with
        po := { po with theseOutliveHeap := .join [eff, po.theseOutliveHeap] }
        evars := if kindLeq ⟨.rgnKind, .aliasable⟩ (K.evar i) then s.evars.bind i .heap
          else s.evars }
    | .heap =>
      some { s with po := { po with theseOutliveHeap := .join [eff, po.theseOutliveHeap] } }
    | .unique =>
      some { s with po := { po with theseOutliveUnique := .join [eff, po.theseOutliveUnique] } }
    | .refcnt => none

/-- `add_youngest`. -/
def addYoungest (s : State V) (rgn : V) (opened : Bool) : Option (State V) :=
  let po := s.po
  if !opened && (po.d.lookup rgn).isSome then none
  else if opened then
    some { s with
      po := { po with
        d := (rgn, emptyEffect) :: po.d
        openedRegions := .join [.access (.var rgn), po.openedRegions] } }
  else
    let eff := .join [.access (.var po.youngest), po.openedRegions]
    some { s with po := { po with d := (rgn, eff) :: po.d, youngest := rgn } }

/-- `add_unordered`. -/
def addUnordered (s : State V) (rgn : V) : Option (State V) :=
  if (s.po.d.lookup rgn).isSome then none
  else some { s with po := { s.po with d := (rgn, emptyEffect) :: s.po.d } }

/-- The order that `initial_fn_po` has before it adds the constraints, and whether it adds them. -/
def firstPo (K : Kinds V) (σ : Evars V) (tvs : List V) (effect : Eff V) (fstRgn : V) :
    Option (RgnPO V × Bool) :=
  let d := (tvs.filter fun tv => (K.tvar tv).kind = .rgnKind).map fun tv => (tv, emptyEffect)
  match validConstraint K σ effect (.var fstRgn) with
  | none => none
  | some false => some (⟨d, emptyEffect, emptyEffect, fstRgn, emptyEffect⟩, false)
  | some true =>
    some (⟨(fstRgn, effect) :: d, emptyEffect, emptyEffect, fstRgn, emptyEffect⟩, true)

/-- `initial_fn_po`. -/
def initialFnPo (K : Kinds V) (σ : Evars V) (tvs : List V) (po : List (Eff V × Rgn V))
    (effect : Eff V) (fstRgn : V) : Option (State V) := do
  let (first, valid) ← firstPo K σ tvs effect fstRgn
  if valid then
    po.foldlM (fun s p => addOutlivesConstraint K s p.1 p.2) ⟨first, σ, []⟩
  else
    some ⟨first, σ, []⟩

/-- What happens to an order; unification may bind a variable in between. -/
inductive Op (V : Type) where
  | constraint (eff : Eff V) (rgn : Rgn V)
  | youngest (rgn : V) (opened : Bool)
  | unordered (rgn : V)
  | unify (i : Nat) (r : Rgn V)

def Op.step (K : Kinds V) (s : State V) : Op V → Option (State V)
  | .constraint eff rgn => addOutlivesConstraint K s eff rgn
  | .youngest rgn opened => addYoungest s rgn opened
  | .unordered rgn => addUnordered s rgn
  | .unify i r => some { s with evars := s.evars.bind i r }

/-- A sequence of operations. -/
def run (K : Kinds V) : List (Op V) → State V → Option (State V)
  | [], s => some s
  | op :: ops, s => (op.step K s).bind (run K ops)

end Operations

/-! ## What is recorded -/

mutual

/-- The regions of an effect, without those that every effect allows. -/
def Eff.regions : Eff V → List (Rgn V)
  | .access r => if r.special then [] else [r]
  | .rgnsType _ e => e.regions
  | .join es => Eff.regionsList es
  | _ => []

/-- The regions of some effects. -/
def Eff.regionsList : List (Eff V) → List (Rgn V)
  | [] => []
  | e :: es => e.regions ++ Eff.regionsList es

end

theorem mem_regions_join {es : List (Eff V)} {r : Rgn V} :
    r ∈ (Eff.join es).regions ↔ ∃ e ∈ es, r ∈ e.regions := by
  rw [Eff.regions]
  induction es with
  | nil => simp [Eff.regionsList]
  | cons e es ih => simp [Eff.regionsList, ih]

theorem mem_regions_rejoin {es : List (Eff V)} {r : Rgn V} :
    (∃ e ∈ rejoin Eff.member es, r ∈ e.regions) ↔ ∃ e ∈ es, r ∈ e.regions := by
  refine exists_mem_rejoin (fun e es he => ?_) fun e he => ?_
  · cases e with
    | join => cases he; exact mem_regions_join
    | access r' => rw [Eff.member] at he; split_ifs at he
    | _ => cases he
  · cases e with
    | access r' =>
      rw [Eff.member] at he
      split_ifs at he with hr
      simp [Eff.regions, hr]
    | _ => cases he

mutual

/-- An effect has the same regions once it is normalized. -/
theorem mem_regions_normalizeEffect {r : Rgn V} :
    ∀ e : Eff V, r ∈ (normalizeEffect e).regions ↔ r ∈ e.regions
  | .join es => by
    rw [normalizeEffect, mem_regions_join, mem_regions_rejoin, mem_regions_normalizeEffects es,
      mem_regions_join]
  | .rgnsType a e => by rw [normalizeEffect, Eff.regions]
  | .access _ | .caccess | .var _ | .evar | .rgnsVar _ | .rgnsEvar _ => by
    simp [normalizeEffect]

theorem mem_regions_normalizeEffects {r : Rgn V} : ∀ es : List (Eff V),
    (∃ e ∈ normalizeEffects es, r ∈ e.regions) ↔ ∃ e ∈ es, r ∈ e.regions
  | [] => Iff.rfl
  | e :: es => by
    rw [normalizeEffects, List.exists_mem_cons_iff, List.exists_mem_cons_iff,
      mem_regions_normalizeEffect e, mem_regions_normalizeEffects es]

end

theorem regions_join_pair (e e' : Eff V) :
    (Eff.join [e, e']).regions = e.regions ++ e'.regions := by
  simp [Eff.regions, Eff.regionsList]

theorem regions_emptyEffect : (emptyEffect : Eff V).regions = [] := by
  rw [emptyEffect, Eff.regions, Eff.regionsList]

/-- What a constraint says to be outlived. -/
inductive Target (V : Type) where
  | var (tv : V)
  | heap
  | unique
  deriving DecidableEq

section Recorded

variable [DecidableEq V]

/-- The effect that is recorded to outlive the target. -/
def RgnPO.above (po : RgnPO V) : Target V → Eff V
  | .var tv => (po.d.lookup tv).getD emptyEffect
  | .heap => po.theseOutliveHeap
  | .unique => po.theseOutliveUnique

/-- The region is recorded to outlive the target. -/
def RgnPO.Records (po : RgnPO V) (t : Target V) (r : Rgn V) : Prop := r ∈ (po.above t).regions

/-- The target of a constraint; a variable that is not bound is taken for the heap. -/
def Rgn.target : Rgn V → Option (Target V)
  | .var tv => some (.var tv)
  | .heap | .evar _ => some .heap
  | .unique => some .unique
  | .refcnt => none

/-- The operation records that the region outlives the target. -/
def Op.Adds (K : Kinds V) (s : State V) : Op V → Target V → Rgn V → Prop
  | .constraint eff rgn, t, r =>
    validConstraint K s.evars (normalizeEffect eff) rgn = some true ∧
      (s.evars.compress rgn).target = some t ∧ r ∈ eff.regions
  | .youngest rgn false, t, r =>
    t = .var rgn ∧ (r = .var s.po.youngest ∨ r ∈ s.po.openedRegions.regions)
  | _, _, _ => False

/-- The operation forgets what was recorded to outlive the target: a region that is opened has an
empty effect. -/
def Op.Forgets : Op V → Target V → Prop
  | .youngest rgn true, t => t = .var rgn
  | _, _ => False

section Insert

variable {po : RgnPO V} {tv : V} {eff : Eff V} {t : Target V} {r : Rgn V}

variable (po) in
/-- An entry that is inserted is found instead of the one that the variable had. -/
theorem records_insert :
    ({ po with d := (tv, eff) :: po.d } : RgnPO V).Records t r ↔
      (t = .var tv ∧ r ∈ eff.regions) ∨ (t ≠ .var tv ∧ po.Records t r) := by
  cases t with
  | var w =>
    by_cases hw : w = tv
    · simp [RgnPO.Records, RgnPO.above, hw]
    · have hlookup : ((tv, eff) :: po.d).lookup w = po.d.lookup w := by
        rw [List.lookup_cons, beq_false_of_ne hw]
      simp [RgnPO.Records, RgnPO.above, hlookup, hw]
  | heap | unique => simp [RgnPO.Records, RgnPO.above]

theorem records_insert_of_lookup (h : po.d.lookup tv = none) :
    ({ po with d := (tv, eff) :: po.d } : RgnPO V).Records t r ↔
      (t = .var tv ∧ r ∈ eff.regions) ∨ po.Records t r := by
  rw [records_insert]
  by_cases ht : t = .var tv
  · subst ht
    simp [RgnPO.Records, RgnPO.above, h, regions_emptyEffect]
  · simp [ht]

theorem records_constrain :
    ({ po with d := constrain po.d tv eff } : RgnPO V).Records t r ↔
      (t = .var tv ∧ r ∈ eff.regions) ∨ po.Records t r := by
  unfold constrain
  split
  · next old hold =>
      rw [records_insert, regions_join_pair]
      by_cases ht : t = .var tv
      · subst ht
        simp [RgnPO.Records, RgnPO.above, hold]
      · simp [ht]
  · next hnone => exact records_insert_of_lookup hnone

end Insert

section Step

variable {K : Kinds V} {s s' : State V} {t : Target V} {r : Rgn V}

theorem records_addOutlivesConstraint {eff : Eff V} {rgn : Rgn V}
    (h : addOutlivesConstraint K s eff rgn = some s') :
    s'.po.Records t r ↔ (Op.constraint eff rgn).Adds K s t r ∨ s.po.Records t r := by
  rw [Op.Adds, ← mem_regions_normalizeEffect eff]
  simp only [addOutlivesConstraint] at h
  generalize normalizeEffect eff = eff at h ⊢
  split at h
  · cases h
  · next hvalid =>
      cases h
      simp [hvalid]
  · next hvalid =>
      simp only [hvalid, true_and]
      split at h <;> cases h
      all_goals
        rename_i hrgn
        rw [hrgn, Rgn.target, Option.some_inj, @eq_comm _ _ t]
      · exact records_constrain
      all_goals cases t <;> simp [RgnPO.Records, RgnPO.above, regions_join_pair]

theorem records_addYoungest {rgn : V} {opened : Bool} (h : addYoungest s rgn opened = some s') :
    s'.po.Records t r ↔ (Op.youngest rgn opened).Adds K s t r ∨
      ¬ (Op.youngest rgn opened).Forgets t ∧ s.po.Records t r := by
  cases opened with
  | true =>
    cases h
    apply (records_insert s.po).trans
    simp [Op.Adds, Op.Forgets, regions_emptyEffect]
  | false =>
    simp only [addYoungest, Bool.not_false, Bool.true_and, Bool.false_eq_true, if_false] at h
    split_ifs at h with hmem
    cases h
    rw [Option.not_isSome_iff_eq_none] at hmem
    apply (records_insert_of_lookup hmem).trans
    simp [Op.Adds, Op.Forgets, Eff.regions, Eff.regionsList, Rgn.special]

theorem records_addUnordered {rgn : V} (h : addUnordered s rgn = some s') :
    s'.po.Records t r ↔ s.po.Records t r := by
  unfold addUnordered at h
  split_ifs at h with hmem
  cases h
  rw [Option.not_isSome_iff_eq_none] at hmem
  apply (records_insert_of_lookup hmem).trans
  simp [regions_emptyEffect]

/-- What an operation records. -/
theorem records_step {op : Op V} (h : op.step K s = some s') :
    s'.po.Records t r ↔ op.Adds K s t r ∨ (¬ op.Forgets t ∧ s.po.Records t r) := by
  cases op with
  | constraint eff rgn => simpa [Op.Forgets] using records_addOutlivesConstraint h
  | youngest rgn opened => exact records_addYoungest h
  | unordered rgn => simpa [Op.Adds, Op.Forgets] using records_addUnordered h
  | unify i r' =>
    cases h
    simp [Op.Adds, Op.Forgets]

/-- What was recorded after a sequence of operations: what one of them recorded, or what was
recorded before, if no later one forgot it. -/
theorem records_run {ops : List (Op V)} (h : run K ops s = some s') :
    s'.po.Records t r ↔
      (∃ ops1 op ops2 s1, ops = ops1 ++ op :: ops2 ∧ run K ops1 s = some s1 ∧
        op.Adds K s1 t r ∧ ∀ op' ∈ ops2, ¬ op'.Forgets t) ∨
      (s.po.Records t r ∧ ∀ op ∈ ops, ¬ op.Forgets t) := by
  induction ops generalizing s with
  | nil =>
    cases h
    simp
  | cons op ops ih =>
    obtain ⟨s1, hstep, hrun⟩ := Option.bind_eq_some_iff.1 h
    rw [ih hrun, records_step hstep]
    constructor
    · rintro (⟨ops1, op', ops2, s2, rfl, hrun1, hadds, hkeeps⟩ | ⟨hadds | hbefore, hkeeps⟩)
      · refine .inl ⟨op :: ops1, op', ops2, s2, rfl, ?_, hadds, hkeeps⟩
        rw [run, hstep]
        exact hrun1
      · exact .inl ⟨[], op, ops, s, rfl, rfl, hadds, hkeeps⟩
      · exact .inr ⟨hbefore.2, List.forall_mem_cons.2 ⟨hbefore.1, hkeeps⟩⟩
    · rintro (⟨ops1, op', ops2, s2, heq, hrun1, hadds, hkeeps⟩ | ⟨hrecords, hkeeps⟩)
      · cases ops1 with
        | nil =>
          cases heq
          cases hrun1
          exact .inr ⟨.inl hadds, hkeeps⟩
        | cons op1 ops1 =>
          cases heq
          rw [run, hstep] at hrun1
          exact .inl ⟨ops1, op', ops2, s2, rfl, hrun1, hadds, hkeeps⟩
      · obtain ⟨hop, hops⟩ := List.forall_mem_cons.1 hkeeps
        exact .inr ⟨.inr ⟨hop, hrecords⟩, hops⟩

/-- The order of some variables that no constraint is recorded for. -/
def unorderedPo (tvs : List V) (youngest : V) : RgnPO V :=
  ⟨tvs.map fun tv => (tv, emptyEffect), emptyEffect, emptyEffect, youngest, emptyEffect⟩

theorem not_records_unorderedPo (tvs : List V) (youngest : V) :
    ¬ (unorderedPo tvs youngest).Records t r := by
  induction tvs with
  | nil => cases t <;> simp [unorderedPo, RgnPO.Records, RgnPO.above, regions_emptyEffect]
  | cons tv tvs ih =>
    intro h
    rcases (records_insert (unorderedPo tvs youngest)).1 h with ⟨-, hr⟩ | ⟨-, hrecords⟩
    · rw [regions_emptyEffect] at hr
      cases hr
    · exact ih hrecords

/-- A block's region is outlived by the one around the block, also once another one is opened. -/
theorem records_run_block :
    ∃ s : State Nat, run ⟨fun _ => ⟨.rgnKind, .aliasable⟩, fun _ => ⟨.rgnKind, .aliasable⟩⟩
      [.youngest 1 false, .youngest 2 true] ⟨unorderedPo [0] 0, .unbound, []⟩ = some s ∧
      s.po.Records (.var 1) (.var 0) := by
  refine Exists.imp (fun s hs => ⟨hs, (records_run hs).2 (.inl ?_)⟩) ⟨_, rfl⟩
  exact ⟨[], _, _, _, rfl, rfl, ⟨rfl, .inl rfl⟩, by simp [Op.Forgets]⟩

end Step

end Recorded

end ConcurrentCyclone.RgnOrder
