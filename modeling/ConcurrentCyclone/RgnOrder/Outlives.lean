import Mathlib.Data.Finset.Basic
import ConcurrentCyclone.RgnOrder.Order
import ConcurrentCyclone.Worklist.Search

/-!
# Which regions outlive which ones

`rgn_outlives_rgn` (`src/rgnorder.cyc`) asks whether a region outlives another one, by a search of
the recorded effects: it starts with the second region, and with the regions that outlive the heap
or the unique region if the kind of the second region says that these outlive it, and goes on with
the variables of the effects that are recorded for the variables it has found.

The search ends, also if the constraints are cyclic, and what it finds follows from the recorded
constraints. It finds all that follows from them if the effects that it visits have region variables
where they are meant (`rgnOutlivesRgn_exact`). A unification variable that was bound to a region
variable is not looked through: `add_to_search` does not compress the region of an access, and the
constraint is recorded but not followed (`not_rgnOutlivesRgn_exact`).
-/

set_option autoImplicit false

namespace ConcurrentCyclone.RgnOrder

open Worklist Relation
open Tcutil (KindQual AliasQual Kind)

variable {V : Type}

/-! ## The search -/

/-- The answer of a question to an order. -/
inductive Answer where
  | yes
  | no
  /-- A call of `impos`. -/
  | impossible
  deriving DecidableEq

def Answer.ofBool : Bool → Answer
  | true => .yes
  | false => .no

mutual

/-- The variables that `add_to_search` adds, in order. -/
def Eff.toSearch : Eff V → List V
  | .access (.var tv) => [tv]
  | .join es => Eff.toSearchList es
  | _ => []

/-- The loop over the members of a join. -/
def Eff.toSearchList : List (Eff V) → List V
  | [] => []
  | e :: es => e.toSearch ++ Eff.toSearchList es

end

section Questions

variable [DecidableEq V]

/-- `add_to_search`. -/
def addToSearch (env : Seen V) (eff : Eff V) : Seen V := env.addAll eff.toSearch

/-- The part of `initial_env` that depends on the alias qualifier of the region. -/
def outliveKind (po : RgnPO V) : AliasQual → Seen V
  | .aliasable => addToSearch (addToSearch .empty po.theseOutliveUnique) po.theseOutliveHeap
  | .unique => addToSearch .empty po.theseOutliveUnique
  | .top => .empty

/-- `initial_env`. -/
def initialEnv (K : Kinds V) (σ : Evars V) (po : RgnPO V) (rgn : Rgn V) : Option (Seen V) :=
  match typeKind K σ rgn with
  | ⟨.rgnKind, a⟩ =>
    match σ.compress rgn with
    | .var tv => some ((outliveKind po a).push tv)
    | _ => some (outliveKind po a)
  | ⟨.xRgnKind, _⟩ => some .empty
  | _ => none

mutual

/-- The search of `contains_rgnseff`, in a normalized effect. -/
def Eff.hasRgns (tv : V) : Eff V → Bool
  | .rgnsVar tv' => tv' = tv
  | .rgnsType _ e => e.hasRgns tv
  | .join es => Eff.hasRgnsList tv es
  | _ => false

/-- The loop over the members of a join. -/
def Eff.hasRgnsList (tv : V) : List (Eff V) → Bool
  | [] => false
  | e :: es => e.hasRgns tv || Eff.hasRgnsList tv es

end

/-- `contains_rgnseff`. -/
def containsRgnseff (tv : V) (eff : Eff V) : Bool := (normalizeEffect eff).hasRgns tv

/-- A round of the search for a region variable. -/
def visitVar (po : RgnPO V) (tv next : V) : Visit V Answer :=
  if next = tv then .stop .yes
  else
    match po.d.lookup next with
    | some eff => .goOn eff.toSearch
    -- "just returning false here to avoid a cascading error"
    | none => .stop .no

/-- A round of the search for the regions of a type variable. -/
def visitRgns (po : RgnPO V) (tv next : V) : Visit V Answer :=
  match po.d.lookup next with
  | some eff => if containsRgnseff tv eff then .stop .yes else .goOn eff.toSearch
  | none => .stop .impossible

/-- The heap outlives all regions with an aliasable kind. -/
def heapOutlives (k : Kind) : Bool := k.kind = .rgnKind && k.aliasqual = .aliasable

/-- What outlives the heap or the unique region has the regions of the type variable. -/
def rgnsAbove (po : RgnPO V) (tv : V) (k : Kind) : Bool :=
  match k with
  | ⟨.rgnKind, .aliasable⟩ =>
    containsRgnseff tv po.theseOutliveHeap || containsRgnseff tv po.theseOutliveUnique
  | ⟨.rgnKind, .unique⟩ => containsRgnseff tv po.theseOutliveUnique
  | _ => false

/-- A search, with at most `n` rounds, from what `initial_env` gives. -/
def searchFrom (visit : V → Visit V Answer) (n : Nat) : Option (Seen V) → Option Answer
  | some env => search visit .no n env
  | none => some .impossible

/-- `atomic_effect_outlives`. -/
def atomicEffectOutlives (K : Kinds V) (σ : Evars V) (n : Nat) (po : Option (RgnPO V))
    (eff : Eff V) (rgn : Rgn V) : Option Answer :=
  let k := typeKind K σ rgn
  match eff with
  | .access vt =>
    match σ.compress vt with
    -- the unique region outlives all regions with an aliasable or a unique kind
    | .unique => some (.ofBool (k.kind = .rgnKind && k.aliasqual ≠ .top))
    | .refcnt => some (.ofBool (σ.compress rgn = .refcnt || heapOutlives k))
    | .heap => some (.ofBool (heapOutlives k))
    | .var tv =>
      match po with
      | some po => searchFrom (visitVar po tv) n (initialEnv K σ po rgn)
      | none => some .impossible
    | .evar _ => some .no
  | .rgnsVar tv =>
    match po with
    | some po =>
      match initialEnv K σ po rgn with
      | some env =>
        if rgnsAbove po tv k then some .yes else search (visitRgns po tv) .no n env
      | none => some .impossible
    | none => some .impossible
  | _ => some .no

mutual

/-- `effect_outlives`, on a normalized effect. -/
def eachOutlives (K : Kinds V) (σ : Evars V) (n : Nat) (po : Option (RgnPO V)) (rgn : Rgn V) :
    Eff V → Option Answer
  | .join es => allOutlive K σ n po rgn es
  | .rgnsType _ e => eachOutlives K σ n po rgn e
  | e => atomicEffectOutlives K σ n po e rgn

/-- The loop over the members of a join. -/
def allOutlive (K : Kinds V) (σ : Evars V) (n : Nat) (po : Option (RgnPO V)) (rgn : Rgn V) :
    List (Eff V) → Option Answer
  | [] => some .yes
  | e :: es =>
    match eachOutlives K σ n po rgn e with
    | some .yes => allOutlive K σ n po rgn es
    | answer => answer

end

/-- `effect_outlives`; `none` if the searches take more than `n` rounds. -/
def effectOutlives (K : Kinds V) (σ : Evars V) (n : Nat) (po : Option (RgnPO V)) (eff : Eff V)
    (rgn : Rgn V) : Option Answer :=
  eachOutlives K σ n po rgn (normalizeEffect eff)

/-- `rgn_outlives_rgn`. -/
def rgnOutlivesRgn (K : Kinds V) (σ : Evars V) (n : Nat) (po : Option (RgnPO V))
    (rgn₁ rgn₂ : Rgn V) : Option Answer :=
  effectOutlives K σ n po (.access rgn₁) rgn₂

end Questions

/-! ## Chains of recorded constraints -/

mutual

theorem mem_regions_of_toSearch {w : V} : ∀ e : Eff V, w ∈ e.toSearch → .var w ∈ e.regions
  | .access (.var tv), h => by
    rw [Eff.toSearch, List.mem_singleton] at h
    simp [Eff.regions, Rgn.special, h]
  | .join es, h => by
    rw [Eff.toSearch] at h
    rw [Eff.regions]
    exact mem_regionsList_of_toSearchList es h
  | .access .heap, h | .access .unique, h | .access .refcnt, h | .access (.evar _), h
  | .caccess, h | .var _, h | .evar, h | .rgnsVar _, h | .rgnsEvar _, h | .rgnsType _ _, h => by
    simp [Eff.toSearch] at h

theorem mem_regionsList_of_toSearchList {w : V} :
    ∀ es : List (Eff V), w ∈ Eff.toSearchList es → .var w ∈ Eff.regionsList es
  | [], h => by cases h
  | e :: es, h => by
    rw [Eff.regionsList, List.mem_append]
    rw [Eff.toSearchList, List.mem_append] at h
    exact h.imp (mem_regions_of_toSearch e) (mem_regionsList_of_toSearchList es)

end

section Chains

variable [DecidableEq V]

/-- The region variable is recorded to outlive the target, as a variable or as a unification
variable that is bound to it. -/
def State.Outlived (s : State V) (t : Target V) (w : V) : Prop :=
  ∃ r, s.po.Records t r ∧ s.evars.compress r = .var w

/-- A region whose kind has this qualifier is outlived by what outlives the target. -/
def Allows : AliasQual → Target V → Prop
  | .aliasable, .heap | .aliasable, .unique | .unique, .unique => True
  | _, _ => False

/-- A chain of recorded constraints leads from `r₂`, or from a region that outlives the heap or the
unique region, to `r₁`. -/
def State.Reaches (K : Kinds V) (s : State V) (r₂ r₁ : V) : Prop :=
  ∃ v, (v = r₂ ∨ ∃ t, Allows (K.tvar r₂).aliasqual t ∧ s.Outlived t v) ∧
    ReflTransGen (fun v w => s.Outlived (.var v) w) v r₁

/-- The variables of all chains are in the dictionary. -/
def State.InDict (K : Kinds V) (s : State V) (r₂ : V) : Prop :=
  ∀ w, s.Reaches K r₂ w → (s.po.d.lookup w).isSome

/-- A chain of accesses to region variables leads from `r₂`, or from an effect that outlives the
heap or the unique region, to `r₁`. -/
def State.Finds (K : Kinds V) (s : State V) (r₂ r₁ : V) : Prop :=
  ∃ v, (v = r₂ ∨ ∃ t, Allows (K.tvar r₂).aliasqual t ∧ v ∈ (s.po.above t).toSearch) ∧
    ReflTransGen (fun v w => w ∈ (s.po.above (.var v)).toSearch) v r₁

/-- The targets whose effects the search from `r₂` visits. -/
def State.Visits (K : Kinds V) (s : State V) (r₂ : V) : Target V → Prop
  | .var v => s.Finds K r₂ v
  | t => Allows (K.tvar r₂).aliasqual t

/-- A chain of accesses leads to `r₁`, or the effects that the search visits have accesses to all
the region variables that they stand for. -/
def State.Direct (K : Kinds V) (s : State V) (r₂ r₁ : V) : Prop :=
  s.Finds K r₂ r₁ ∨
    ∀ t, s.Visits K r₂ t → ∀ w, s.Outlived t w → w ∈ (s.po.above t).toSearch

variable {K : Kinds V} {s : State V}

variable {w : V}

theorem outlived_of_toSearch {t : Target V} (h : w ∈ (s.po.above t).toSearch) : s.Outlived t w :=
  ⟨.var w, mem_regions_of_toSearch _ h, rfl⟩

theorem State.Reaches.step {r2 v : V} (h : s.Reaches K r2 v) (hw : s.Outlived (.var v) w) :
    s.Reaches K r2 w := by
  obtain ⟨u, hu, hpath⟩ := h
  exact ⟨u, hu, hpath.tail hw⟩

/-- What a chain of accesses leads to is at the end of a chain of recorded constraints. -/
theorem State.Finds.reaches {r2 : V} (h : s.Finds K r2 w) : s.Reaches K r2 w := by
  obtain ⟨v, hv, hpath⟩ := h
  exact ⟨v, hv.imp_right fun ⟨t, ht, hmem⟩ => ⟨t, ht, outlived_of_toSearch hmem⟩,
    ReflTransGen.mono (fun _ _ => outlived_of_toSearch) _ _ hpath⟩

/-! ## The search follows the chains -/

omit [DecidableEq V] in
theorem exists_allows {a : AliasQual} {P : Target V → Prop} : (∃ t, Allows a t ∧ P t) ↔
    a = .aliasable ∧ (P .heap ∨ P .unique) ∨ a = .unique ∧ P .unique := by
  constructor
  · rintro ⟨_ | _ | _, ht, h⟩ <;> cases a <;> simp_all [Allows]
  · rintro (⟨rfl, h | h⟩ | ⟨rfl, h⟩)
    exacts [⟨.heap, trivial, h⟩, ⟨.unique, trivial, h⟩, ⟨.unique, trivial, h⟩]

theorem mem_seen_outliveKind (po : RgnPO V) (a : AliasQual) (w : V) :
    w ∈ (outliveKind po a).seen ↔ ∃ t, Allows a t ∧ w ∈ (po.above t).toSearch := by
  rw [exists_allows]
  cases a <;> simp [outliveKind, addToSearch, Seen.mem_seen_addAll, Seen.empty, RgnPO.above]

theorem fresh_outliveKind (po : RgnPO V) (a : AliasQual) : (outliveKind po a).Fresh := by
  cases a with
  | aliasable => exact (Seen.fresh_empty.addAll _).addAll _
  | unique => exact Seen.fresh_empty.addAll _
  | top => exact Seen.fresh_empty

theorem rgnOutlivesRgn_var {r1 r2 : V} (h2 : (K.tvar r2).kind = .rgnKind) (n : Nat) :
    rgnOutlivesRgn K s.evars n (some s.po) (.var r1) (.var r2) =
      search (visitVar s.po r1) .no n ((outliveKind s.po (K.tvar r2).aliasqual).push r2) := by
  have henv : initialEnv K s.evars s.po (.var r2) =
      some ((outliveKind s.po (K.tvar r2).aliasqual).push r2) := by
    have hkind : typeKind K s.evars (.var r2) = ⟨.rgnKind, (K.tvar r2).aliasqual⟩ := by
      rw [← h2]
      rfl
    simp only [initialEnv, hkind, Evars.compress]
  simp only [rgnOutlivesRgn, effectOutlives, normalizeEffect, eachOutlives, atomicEffectOutlives,
    Evars.compress, henv, searchFrom]

section Search

variable {r1 r2 : V}

variable {x w : V} {b : Answer}

theorem visitVar_goOn {xs : List V} (h : visitVar s.po r1 x = .goOn xs) :
    x ≠ r1 ∧ (∃ eff, s.po.d.lookup x = some eff) ∧ xs = (s.po.above (.var x)).toSearch := by
  unfold visitVar at h
  split_ifs at h with hx
  split at h
  · next eff heff =>
      cases h
      refine ⟨hx, ⟨eff, heff⟩, ?_⟩
      rw [RgnPO.above, heff, Option.getD_some]
  · cases h

theorem visitVar_stop (h : visitVar s.po r1 x = .stop b) :
    (b = .yes ∧ x = r1) ∨ (b = .no ∧ s.po.d.lookup x = none) := by
  unfold visitVar at h
  split_ifs at h with hx
  · cases h
    exact .inl ⟨rfl, hx⟩
  · split at h
    · cases h
    · next hnone =>
        cases h
        exact .inr ⟨rfl, hnone⟩

/-- What the search sees is at the end of a chain of accesses. -/
theorem finds_of_leadsTo {v : V}
    (hv : v ∈ ((outliveKind s.po (K.tvar r2).aliasqual).push r2).seen)
    (hpath : ReflTransGen (LeadsTo (visitVar s.po r1)) v w) : s.Finds K r2 w := by
  refine ⟨v, ?_, ReflTransGen.mono (fun x y hstep => ?_) _ _ hpath⟩
  · exact (List.mem_cons.1 hv).imp_right (mem_seen_outliveKind _ _ _).1
  · obtain ⟨xs, hxs, hmem⟩ := hstep
    obtain ⟨-, -, rfl⟩ := visitVar_goOn hxs
    exact hmem

/-- If no node stops the search, it sees the ends of all chains of accesses. -/
theorem leadsTo_of_finds
    (hgo : ∀ v ∈ ((outliveKind s.po (K.tvar r2).aliasqual).push r2).seen, ∀ x,
      ReflTransGen (LeadsTo (visitVar s.po r1)) v x →
        ∃ xs, visitVar s.po r1 x = .goOn xs) (h : s.Finds K r2 w) :
    ∃ v ∈ ((outliveKind s.po (K.tvar r2).aliasqual).push r2).seen,
      ReflTransGen (LeadsTo (visitVar s.po r1)) v w := by
  obtain ⟨v, hv, hpath⟩ := h
  have hseen : v ∈ ((outliveKind s.po (K.tvar r2).aliasqual).push r2).seen := by
    rcases hv with rfl | hv
    · exact .head _
    · exact .tail _ ((mem_seen_outliveKind _ _ _).2 hv)
  refine ⟨v, hseen, ?_⟩
  induction hpath with
  | refl => exact .refl
  | @tail x y _ hxy ih =>
    obtain ⟨xs, hxs⟩ := hgo v hseen x ih
    obtain ⟨-, -, rfl⟩ := visitVar_goOn hxs
    exact ih.tail ⟨_, hxs, hxy⟩

/-- A chain of recorded constraints is one of accesses, if the effects on the way are direct. -/
theorem State.Direct.finds (hdirect : s.Direct K r2 r1) (h : s.Reaches K r2 r1) :
    s.Finds K r2 r1 := by
  rcases hdirect with hfinds | hdirect
  · exact hfinds
  obtain ⟨v, hv, hpath⟩ := h
  induction hpath with
  | refl =>
    refine ⟨v, hv.imp_right fun ⟨t, ht, hout⟩ => ⟨t, ht, hdirect t ?_ v hout⟩, .refl⟩
    cases t with
    | var => cases ha : (K.tvar r2).aliasqual <;> rw [ha] at ht <;> cases ht
    | heap | unique => exact ht
  | @tail x y _ hxy ih =>
    obtain ⟨u, hu, hpath⟩ := ih
    exact ⟨u, hu, hpath.tail (hdirect (.var x) ⟨u, hu, hpath⟩ y hxy)⟩

/-- The variables that the search may find. -/
def RgnPO.searched (po : RgnPO V) : Finset V := (po.d.flatMap fun p => p.2.toSearch).toFinset

theorem leadsTo_mem_searched {y : V} (h : LeadsTo (visitVar s.po r1) x y) : y ∈ s.po.searched := by
  obtain ⟨xs, hxs, hy⟩ := h
  obtain ⟨-, ⟨eff, heff⟩, rfl⟩ := visitVar_goOn hxs
  rw [RgnPO.above, heff] at hy
  obtain ⟨d1, d2, hd, -⟩ := List.lookup_eq_some_iff.1 heff
  rw [RgnPO.searched, List.mem_toFinset, List.mem_flatMap]
  refine ⟨(x, eff), ?_, hy⟩
  rw [hd]
  exact List.mem_append_right d1 (.head _)

/-- The answer of the search. -/
theorem search_visitVar {n : Nat} (h : search (visitVar s.po r1) .no n
      ((outliveKind s.po (K.tvar r2).aliasqual).push r2) = some b) :
    (b = .yes ∧ s.Finds K r2 r1) ∨
      (b = .no ∧ (s.InDict K r2 → ¬ s.Finds K r2 r1)) := by
  rcases search_spec (closed_of_fresh ((fresh_outliveKind _ _).push r2)) h with
    ⟨v, hv, x, hpath, hstop⟩ | ⟨rfl, hgo⟩
  · have hx := finds_of_leadsTo hv hpath
    rcases visitVar_stop hstop with ⟨rfl, rfl⟩ | ⟨rfl, hnone⟩
    · exact .inl ⟨rfl, hx⟩
    · refine .inr ⟨rfl, fun hdict _ => ?_⟩
      have hsome := hdict x hx.reaches
      rw [hnone] at hsome
      cases hsome
  · refine .inr ⟨rfl, fun _ hfinds => ?_⟩
    obtain ⟨v, hv, hpath⟩ := leadsTo_of_finds hgo hfinds
    obtain ⟨xs, hxs⟩ := hgo v hv r1 hpath
    exact (visitVar_goOn hxs).1 rfl

end Search

/-- The search for a region variable ends. If its answer is yes, a chain of recorded constraints
leads to the variable. If all variables of chains are in the dictionary, the answer is yes exactly
if there is a chain and the effects have region variables where they are meant. -/
theorem rgnOutlivesRgn_exact (K : Kinds V) (s : State V) (r₁ r₂ : V)
    (h₂ : (K.tvar r₂).kind = .rgnKind) : ∃ N, ∀ n ≥ N, ∃ b : Bool,
      rgnOutlivesRgn K s.evars n (some s.po) (.var r₁) (.var r₂) = some (.ofBool b) ∧
        (b = true → s.Reaches K r₂ r₁) ∧
        (s.InDict K r₂ → (b = true ↔ s.Reaches K r₂ r₁ ∧ s.Direct K r₂ r₁)) := by
  refine ⟨((outliveKind s.po (K.tvar r₂).aliasqual).push r₂).weight s.po.searched + 1, ?_⟩
  intro n hn
  rw [rgnOutlivesRgn_var h₂]
  have hfound : ∀ x y, LeadsTo (visitVar s.po r₁) x y → y ∈ s.po.searched :=
    fun _ _ => leadsTo_mem_searched
  have hsome := search_isSome Answer.no hfound hn
  obtain ⟨b, hb⟩ := Option.isSome_iff_exists.1 hsome
  rcases search_visitVar hb with ⟨rfl, hfinds⟩ | ⟨rfl, hcomplete⟩
  · have hreaches := hfinds.reaches
    exact ⟨true, hb, fun _ => hreaches, fun _ => iff_of_true rfl ⟨hreaches, .inl hfinds⟩⟩
  · refine ⟨false, hb, Bool.noConfusion, fun hdict => iff_of_false Bool.false_ne_true ?_⟩
    rintro ⟨hreaches, hdirect⟩
    exact hcomplete hdict (hdirect.finds hreaches)

end Chains

/-- All variables are region variables with aliasable kinds. -/
def allAliasable : Kinds Nat := ⟨fun _ => ⟨.rgnKind, .aliasable⟩, fun _ => ⟨.rgnKind, .aliasable⟩⟩

/-- The order of a function with the region variables 1, 2 and 3 after two constraints, that `r`
outlives 2 and a unification variable 3, and a unification, that binds this variable to 1. -/
def threeRegions (r : Rgn Nat) : State Nat where
  po := { unorderedPo [0, 1, 2, 3] 0 with
    d := (3, .join [.access (.evar 0), emptyEffect]) :: (2, .join [.access r, emptyEffect]) ::
      (unorderedPo [0, 1, 2, 3] 0).d }
  evars := Evars.unbound.bind 0 (.var 1)
  mismatches := []

theorem threeRegions_built (r : Rgn Nat) :
    (initialFnPo allAliasable .unbound [1, 2, 3] [] emptyEffect 0).bind
      (run allAliasable [.constraint (.access r) (.var 2),
        .constraint (.access (.evar 0)) (.var 3), .unify 0 (.var 1)]) =
      some (threeRegions r) := rfl

section ThreeRegions

variable {r : Rgn Nat} (hr : (threeRegions r).evars.compress r = .var 1)

include hr

variable {w : Nat}

/-- The two constraints are that 1 outlives 2 and 3. -/
theorem outlived_threeRegions {t : Target Nat} :
    (threeRegions r).Outlived t w ↔ (t = .var 3 ∨ t = .var 2) ∧ w = 1 := by
  have hspecial : r.special = false := by
    cases r <;> first | rfl | cases hr
  have hrecords : ∀ r', (threeRegions r).po.Records t r' ↔
      t = .var 3 ∧ r' = .evar 0 ∨ t = .var 2 ∧ r' = r := by
    intro r'
    apply (records_insert { unorderedPo [0, 1, 2, 3] 0 with
      d := (2, .join [.access r, emptyEffect]) :: (unorderedPo [0, 1, 2, 3] 0).d }).trans
    rw [records_insert, regions_join_pair, regions_join_pair, regions_emptyEffect]
    have hevar : (Rgn.evar 0 : Rgn Nat).special = false := rfl
    have hother : t ≠ .var 3 ∧ t = .var 2 ↔ t = .var 2 :=
      and_iff_right_of_imp fun ht => by simp [ht]
    simp [not_records_unorderedPo, Eff.regions, hspecial, hevar, ← and_assoc, hother]
  constructor
  · rintro ⟨r', hr', hw⟩
    rcases (hrecords r').1 hr' with ⟨rfl, rfl⟩ | ⟨rfl, rfl⟩
    · cases hw
      exact ⟨.inl rfl, rfl⟩
    · rw [hr] at hw
      cases hw
      exact ⟨.inr rfl, rfl⟩
  · rintro ⟨rfl | rfl, rfl⟩
    · exact ⟨.evar 0, (hrecords _).2 (.inl ⟨rfl, rfl⟩), rfl⟩
    · exact ⟨r, (hrecords r).2 (.inr ⟨rfl, rfl⟩), hr⟩

theorem reaches_threeRegions : (threeRegions r).Reaches allAliasable 2 w ↔ w = 2 ∨ w = 1 := by
  constructor
  · rintro ⟨v, hv, hpath⟩
    have hv2 : v = 2 := by
      rcases hv with rfl | ⟨t, ht, hout⟩
      · rfl
      · obtain ⟨rfl | rfl, -⟩ := (outlived_threeRegions hr).1 hout
        · cases ht
        · cases ht
    subst hv2
    rcases hpath.cases_tail with rfl | ⟨u, -, hw⟩
    · exact .inl rfl
    · exact .inr ((outlived_threeRegions hr).1 hw).2
  · have hstart : (threeRegions r).Reaches allAliasable 2 2 := ⟨2, .inl rfl, .refl⟩
    rintro (rfl | rfl)
    · exact hstart
    · exact hstart.step ((outlived_threeRegions hr).2 ⟨.inr rfl, rfl⟩)

theorem inDict_threeRegions : (threeRegions r).InDict allAliasable 2 := by
  intro w hw
  rcases (reaches_threeRegions hr).1 hw with rfl | rfl
  · rfl
  · rfl

end ThreeRegions

/-- The constraint for 2 is followed, whatever was recorded for 3, which the search does not
visit. -/
theorem rgnOutlivesRgn_exact_threeRegions : ∃ N, ∀ n ≥ N,
      rgnOutlivesRgn allAliasable (threeRegions (.var 1)).evars n (some (threeRegions (.var 1)).po)
        (.var 1) (.var 2) = some .yes ∧
      rgnOutlivesRgn allAliasable (threeRegions (.var 1)).evars n (some (threeRegions (.var 1)).po)
        (.var 3) (.var 2) = some .no := by
  have hdirect : (threeRegions (.var 1)).Direct allAliasable 2 1 := by
    refine .inr fun t ht w hw => ?_
    obtain ⟨rfl | rfl, rfl⟩ := (outlived_threeRegions rfl).1 hw
    · -- 3 is not visited
      rcases (reaches_threeRegions rfl).1 (State.Finds.reaches ht) with h | h <;> cases h
    · decide
  have hreaches := (reaches_threeRegions (r := .var 1) (w := 1) rfl).2 (.inr rfl)
  obtain ⟨N, hN⟩ := rgnOutlivesRgn_exact allAliasable (threeRegions (.var 1)) 1 2 rfl
  obtain ⟨N', hN'⟩ := rgnOutlivesRgn_exact allAliasable (threeRegions (.var 1)) 3 2 rfl
  refine ⟨max N N', fun n hn => ⟨?_, ?_⟩⟩
  · obtain ⟨b, hb, -, hcomplete⟩ := hN n (le_of_max_le_left hn)
    rw [hb, (hcomplete (inDict_threeRegions rfl)).2 ⟨hreaches, hdirect⟩]
    rfl
  · obtain ⟨b, hb, hsound, -⟩ := hN' n (le_of_max_le_right hn)
    cases b with
    | true => rcases (reaches_threeRegions rfl).1 (hsound rfl) with h | h <;> cases h
    | false => exact hb

/-- A constraint whose region is a unification variable that is bound to 1 is not followed. -/
theorem not_rgnOutlivesRgn_exact : ∃ s : State Nat,
      (initialFnPo allAliasable .unbound [1, 2, 3] [] emptyEffect 0).bind
        (run allAliasable [.constraint (.access (.evar 0)) (.var 2),
          .constraint (.access (.evar 0)) (.var 3), .unify 0 (.var 1)]) = some s ∧
      s.InDict allAliasable 2 ∧ s.Reaches allAliasable 2 1 ∧
      rgnOutlivesRgn allAliasable s.evars 2 (some s.po) (.var 1) (.var 2) = some .no := by
  refine ⟨threeRegions (.evar 0), threeRegions_built _, inDict_threeRegions rfl, ?_, ?_⟩
  · exact (reaches_threeRegions rfl).2 (.inr rfl)
  · decide

end ConcurrentCyclone.RgnOrder
