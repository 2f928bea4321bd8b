import ConcurrentCyclone.CfFlowInfo.Less

/-!
# What a join of flows claims

A join may claim of a place only what both flows claim of it: that it is initialised, that it is not
zero, that it is usable at an iteration of an expression. This holds of the places of both flows
under conditions on the flows that `joinFlow` does not establish itself (`FlowInfo.Ok`, `FlowsFit`),
for the slow path through `Joined` and for the fast path through `Less`. Without them the join
claims more; the flows of `joinFlow_claims_more` fail one condition each.
-/

set_option autoImplicit false

namespace ConcurrentCyclone.CfFlowInfo

open Option (bind_eq_some_iff map_eq_some_iff isSome_iff_exists)

section Flows

variable {V T : Type}

/-! ## Claims -/

/-- The flow has a value for the place, with the property. A flow that is not reached says
everything of every place. -/
def FlowInfo.Says (Q : FlowDict → AbsRVal → Prop) (p : Place) : FlowInfo V T → Prop
  | .bottomFL => True
  | .reachableFL d _ => ∃ w, lookupPlace d p = some w ∧ Q d w

def FlowInfo.HasPlace (f : FlowInfo V T) (p : Place) : Prop :=
  f.Says (fun _ _ => True) p

def FlowInfo.Initialised (f : FlowInfo V T) (p : Place) : Prop :=
  f.Says (fun d w => initlevel d w = some .allIL) p

def FlowInfo.NonNull (f : FlowInfo V T) (p : Place) : Prop :=
  f.Says (fun _ w => w.nonNull = true) p

/-- Initialised, and not reported consumed by `isUniqueConsumed`. -/
def FlowInfo.Usable (f : FlowInfo V T) (e : ExpId) (k : Int) (p : Place) : Prop :=
  f.Says (fun d w => initlevel d w = some .allIL ∧
    ∃ needs, isUniqueConsumed e k w false = some (false, needs)) p

/-- What the first flow claims of the place the second one claims too. -/
structure FlowInfo.ClaimsNoMore (f f' : FlowInfo V T) (p : Place) : Prop where
  usable : ∀ e k, f.Usable e k p → f'.Usable e k p
  nonNull : f.NonNull p → f'.NonNull p
  initialised : f.Initialised p → f'.Initialised p

theorem FlowInfo.ClaimsNoMore.refl (f : FlowInfo V T) (p : Place) : f.ClaimsNoMore f p :=
  ⟨fun _ _ => id, id, id⟩

theorem FlowInfo.ClaimsNoMore.bottom (f : FlowInfo V T) (p : Place) : f.ClaimsNoMore .bottomFL p :=
  ⟨fun _ _ _ => trivial, fun _ => trivial, fun _ => trivial⟩

/-- Pointers are to places of the flow, and the last fields of unions are fields of theirs. -/
def FlowInfo.Ok : FlowInfo V T → Prop
  | .bottomFL => True
  | .reachableFL d _ => FlowValid d

variable {p : Place} {s1 s2 : List (Relations.Reln V T)} {sh : FlowSharing V T} {f : FlowInfo V T}

/-- A dictionary below another one claims no more, of the places of the latter. -/
theorem FlowBelow.claimsNoMore {d' d : FlowDict} (h : FlowBelow d' d) (hd : FlowValid d)
    {relns' relns : List (Relations.Reln V T)} (hp : (FlowInfo.reachableFL d relns).HasPlace p) :
    (FlowInfo.reachableFL d' relns').ClaimsNoMore (.reachableFL d relns) p := by
  obtain ⟨w, hw, -⟩ := hp
  have hok : w.Valid d := hd.lookupPlace hw
  have init : ∀ {w' : AbsRVal}, CfFlowInfo.lookupPlace d' p = some w' →
      initlevel d' w' = some .allIL → Init d w :=
    fun hw' hinit => h.init (h.lookupPlace hw' hw) (init_of_initlevel hinit)
  refine ⟨?_, ?_, ?_⟩
  · rintro e k ⟨w', hw', hinit, needs, hnot⟩
    have hnot' : NotConsumed e k w :=
      (h.lookupPlace hw' hw).notConsumed (init_of_initlevel hinit) ⟨false, needs, hnot⟩
    exact ⟨w, hw, (init hw' hinit).initlevel hd hok, steadfast e k w hnot' false⟩
  · rintro ⟨w', hw', hnn⟩
    exact ⟨w, hw, (h.lookupPlace hw' hw).nonNull hnn⟩
  · rintro ⟨w', hw', hinit⟩
    exact ⟨w, hw, (init hw' hinit).initlevel hd hok⟩

/-! ## Flows that fit together -/

variable [DecidableEq V] [DecidableEq T]

/-- One flow is found to be less than the other, so that the other is the join. -/
def FastPath (sh : FlowSharing V T) (f₁ f₂ : FlowInfo V T) : Prop :=
  flowLessthanApprox sh f₁ f₂ = some true ∨ flowLessthanApprox sh.symm f₂ f₁ = some true

/-- The values of each root fit together, and where the slow join changes a value to let a place
escape, its place can escape in both flows. -/
def FlowsFit (sh : FlowSharing V T) : FlowInfo V T → FlowInfo V T → Prop
  | .reachableFL d₁ s₁, .reachableFL d₂ s₂ =>
    (∀ k v₁ v₂, d₁.lookup k = some v₁ → d₂.lookup k = some v₂ →
      Fits (FastPath sh (.reachableFL d₁ s₁) (.reachableFL d₂ s₂)) d₁ d₂ (sh.entry k) v₁ v₂) ∧
    (¬ FastPath sh (.reachableFL d₁ s₁) (.reachableFL d₂ s₂) →
      ∀ out pile, intersectJoin sh.entry d₁ d₂ d₂ [] = some (out, pile) →
        ∀ p, Escaping sh.escape pile out p →
          (∀ v, d₁.lookup p.root = some v → EscapesAt d₁ p.path v) ∧
          ∀ v, d₂.lookup p.root = some v → EscapesAt d₂ p.path v)
  | _, _ => True

variable {entry : Root → Sharing} {d2 : FlowDict} {k : Root}

omit [DecidableEq V] [DecidableEq T] in
theorem lookup_forallIntersect {d1 : FlowDict} {v1 v2 : AbsRVal} (h2 : d2.lookup k = some v2)
    (h : forallIntersect entry d1 d2 = some true) (h1 : d1.lookup k = some v1) :
    absRvalLessthanApprox (entry k) v1 v2 = some true := by
  induction d1 with
  | nil => simp at h1
  | cons a d1 ih =>
    obtain ⟨k', v'⟩ := a
    rw [forallIntersect] at h
    by_cases hk : k = k'
    · subst hk
      rw [List.lookup_cons_self, Option.some.injEq] at h1
      subst h1
      rw [h2] at h
      obtain ⟨b, hb, h⟩ := bind_eq_some_iff.1 h
      cases b with
      | false => cases h
      | true => exact hb
    · have hne : (k == k') = false := beq_false_of_ne hk
      rw [List.lookup_cons, hne] at h1
      split at h
      · exact ih h h1
      · obtain ⟨b, -, h⟩ := bind_eq_some_iff.1 h
        cases b with
        | false => cases h
        | true => exact ih h h1

variable {d1 : FlowDict}

/-- The values of the common roots are related. -/
def OnRoots (d1 d2 : FlowDict) (R : Root → AbsRVal → AbsRVal → Prop) : Prop :=
  ∀ k v1 v2, d1.lookup k = some v1 → d2.lookup k = some v2 → R k v1 v2

theorem less_of_flowLessthanApprox (sh : FlowSharing V T) {P : Prop} (hP : P)
    (hflows : sh.flows (.reachableFL d1 s1) (.reachableFL d2 s2) = false)
    (hfit : OnRoots d1 d2 fun k => Fits P d1 d2 (sh.entry k))
    (h : flowLessthanApprox sh (.reachableFL d1 s1) (.reachableFL d2 s2) = some true) :
    OnRoots d1 d2 fun k => Less (sh.entry k) := by
  intro k v1 v2 h1 h2
  simp only [flowLessthanApprox, hflows] at h
  obtain ⟨b, hb, h⟩ := map_eq_some_iff.1 h
  obtain ⟨rfl, -⟩ := Bool.and_eq_true_iff.1 h
  exact (hfit k v1 v2 h1 h2).less hP (lookup_forallIntersect h2 hb h1)

/-! ## The slow path -/

omit [DecidableEq V] [DecidableEq T] in
/-- The roots of the joined dictionary are those of both, with the joined values. -/
theorem lookup_intersectJoin {rest : FlowDict} {pile : List Place} {out : FlowDict × List Place}
    (h : intersectJoin entry d1 d2 rest pile = some out) :
    (∀ v, out.1.lookup k = some v → ∃ v1 v2, d1.lookup k = some v1 ∧ rest.lookup k = some v2) ∧
      ∀ v1 v2, d1.lookup k = some v1 → rest.lookup k = some v2 → ∃ pile a,
        joinAbsRval d1 d2 (entry k) v1 v2 pile = some a ∧ out.1.lookup k = some a.1 := by
  induction rest generalizing pile out with
  | nil =>
    cases h
    exact ⟨fun v hv => by simp at hv, fun v1 v2 _ h2 => by simp at h2⟩
  | cons b rest ih =>
    obtain ⟨k', v'⟩ := b
    rw [intersectJoin] at h
    by_cases hk : k = k'
    · subst hk
      simp only [List.lookup_cons_self]
      split at h
      · rename_i hnone
        obtain ⟨hout, -⟩ := ih h
        refine ⟨fun v hv => ?_, fun v1 v2 h1 => ?_⟩
        · obtain ⟨v1, -, h1, -⟩ := hout v hv
          rw [hnone] at h1
          cases h1
        · rw [hnone] at h1
          cases h1
      · rename_i v1 h1
        obtain ⟨a, ha, h⟩ := bind_eq_some_iff.1 h
        obtain ⟨b, -, rfl⟩ := map_eq_some_iff.1 h
        refine ⟨fun v _ => ⟨v1, v', h1, rfl⟩, fun w1 w2 hw1 hw2 => ?_⟩
        rw [h1] at hw1
        cases hw1
        cases hw2
        exact ⟨pile, a, ha, List.lookup_cons_self⟩
    · have hne : (k == k') = false := beq_false_of_ne hk
      simp only [List.lookup_cons, hne]
      split at h
      · exact ih h
      · obtain ⟨a, -, h⟩ := bind_eq_some_iff.1 h
        obtain ⟨b, hb, rfl⟩ := map_eq_some_iff.1 h
        simp only [List.lookup_cons, hne]
        exact ih hb

/-- The third dictionary has the joined values of the common roots of the others. -/
structure FlowJoined (P : Prop) (entry : Root → Sharing) (d₁ d₂ out : FlowDict) : Prop where
  joined : ∀ k v, out.lookup k = some v → ∃ v₁ v₂, d₁.lookup k = some v₁ ∧
    d₂.lookup k = some v₂ ∧ Joined P d₁ d₂ (entry k) v₁ v₂ v
  common : ∀ k v₁ v₂, d₁.lookup k = some v₁ → d₂.lookup k = some v₂ →
    ∃ v, out.lookup k = some v ∧ Joined P d₁ d₂ (entry k) v₁ v₂ v

namespace FlowJoined

variable {P : Prop} {entry : Root → Sharing} {d1 d2 out : FlowDict}

theorem of_intersectJoin {pile : List Place}
    (hfit : OnRoots d1 d2 fun k => Fits P d1 d2 (entry k))
    (h : intersectJoin entry d1 d2 d2 [] = some (out, pile)) : FlowJoined P entry d1 d2 out := by
  have common : ∀ k v1 v2, d1.lookup k = some v1 → d2.lookup k = some v2 →
      ∃ v, out.lookup k = some v ∧ Joined P d1 d2 (entry k) v1 v2 v := by
    intro k v1 v2 hv1 hv2
    obtain ⟨pile, a, ha, hlook⟩ := (lookup_intersectJoin h).2 v1 v2 hv1 hv2
    exact ⟨a.1, hlook, (hfit k v1 v2 hv1 hv2).joined ha⟩
  refine ⟨fun k v hv => ?_, common⟩
  obtain ⟨v1, v2, hv1, hv2⟩ := (lookup_intersectJoin h).1 v hv
  obtain ⟨v', hv', hj⟩ := common k v1 v2 hv1 hv2
  rw [hv] at hv'
  cases hv'
  exact ⟨v1, v2, hv1, hv2, hj⟩

section

variable (h : FlowJoined P entry d1 d2 out)

include h

theorem symm : FlowJoined P (fun k => (entry k).symm) d2 d1 out := by
  refine ⟨fun k v hv => ?_, fun k v2 v1 hv2 hv1 => ?_⟩
  · obtain ⟨v1, v2, hv1, hv2, hj⟩ := h.joined k v hv
    exact ⟨v2, v1, hv2, hv1, hj.symm⟩
  · obtain ⟨v, hv, hj⟩ := h.common k v1 v2 hv1 hv2
    exact ⟨v, hv, hj.symm⟩

theorem below (h1 : FlowValid d1) : FlowBelow out d1 := by
  intro k v w hv hw
  obtain ⟨v1, v2, hv1, -, hj⟩ := h.joined k v hv
  rw [hw] at hv1
  cases hv1
  exact hj.below_left (h1 k w hw)

theorem places (hP : P) (p : Place)
    (hp1 : (lookupPlace d1 p).isSome) (hp2 : (lookupPlace d2 p).isSome) :
    (lookupPlace out p).isSome := by
  obtain ⟨w1, hw1⟩ := isSome_iff_exists.1 hp1
  obtain ⟨w2, hw2⟩ := isSome_iff_exists.1 hp2
  obtain ⟨v1, hv1, hpath1⟩ := bind_eq_some_iff.1 hw1
  obtain ⟨v2, hv2, hpath2⟩ := bind_eq_some_iff.1 hw2
  obtain ⟨v, hv, hj⟩ := h.common p.root v1 v2 hv1 hv2
  obtain ⟨w, hw⟩ := hj.lookupPath hP hpath1 hpath2
  exact isSome_iff_exists.2 ⟨w, bind_eq_some_iff.2 ⟨v, hv, hw⟩⟩

/-- If the first dictionary is less than the second one, the second one is below the join. -/
theorem above (hP : P) (h1 : FlowValid d1) (h2 : FlowValid d2)
    (hless : OnRoots d1 d2 fun k => Less (entry k)) : FlowBelow d2 out := by
  intro k w v hw hv
  obtain ⟨v1, v2, hv1, hv2, hj⟩ := h.joined k v hv
  rw [hw] at hv2
  cases hv2
  exact (hless k v1 w hv1 hw).right_below_joined (h.places hP) hj (h1 k v1 hv1) (h2 k w hw)

theorem valid (hP : P) (h1 : FlowValid d1) (h2 : FlowValid d2) : FlowValid out := by
  intro k v hv
  obtain ⟨v1, v2, hv1, hv2, hj⟩ := h.joined k v hv
  exact hj.valid (h.places hP) (h1 k v1 hv1) (h2 k v2 hv2)

end

end FlowJoined

/-! ## The join -/

section

variable {f1 f2 : FlowInfo V T} (hf1 : f1 = .reachableFL d1 s1) (hf2 : f2 = .reachableFL d2 s2)
  (hf : joinFlow sh f1 f2 = some f)

include hf1 hf2 hf

/-- The four ways in which two reachable flows are joined. -/
theorem joinFlow_cases : (sh.flows f1 f2 = true ∧ f = f1) ∨
    sh.flows f1 f2 = false ∧ ((flowLessthanApprox sh f1 f2 = some true ∧ f = f2) ∨
      (flowLessthanApprox sh.symm f2 f1 = some true ∧ f = f1) ∨
      (¬ FastPath sh f1 f2 ∧ joinSlow sh d1 s1 d2 s2 = some f)) := by
  subst hf1 hf2
  rw [joinFlow] at hf
  split at hf
  · rename_i hflows
    cases hf
    exact .inl ⟨hflows, rfl⟩
  · rename_i hflows
    refine .inr ⟨Bool.eq_false_iff.2 hflows, ?_⟩
    obtain ⟨below, hbelow, hf⟩ := bind_eq_some_iff.1 hf
    cases below with
    | true =>
      cases hf
      exact .inl ⟨hbelow, rfl⟩
    | false =>
      obtain ⟨above, habove, hf⟩ := bind_eq_some_iff.1 hf
      cases above with
      | true =>
        cases hf
        exact .inr (.inl ⟨habove, rfl⟩)
      | false =>
        refine .inr (.inr ⟨?_, hf⟩)
        rintro (hfast | hfast)
        · rw [hbelow] at hfast
          cases hfast
        · rw [habove] at hfast
          cases hfast

/-- If the comparison decides the join and the slow join would let no place escape, the result
claims no more than the slow join. -/
theorem fastPath_claimsNoMore {out : FlowDict} (h1 : FlowValid d1) (h2 : FlowValid d2)
    (hfit : FlowsFit sh f1 f2) (hflows : sh.flows f1 f2 = false) (hfast : FastPath sh f1 f2)
    (hout : intersectJoin sh.entry d1 d2 d2 [] = some (out, [])) (hp1 : f1.HasPlace p)
    (hp2 : f2.HasPlace p) : f.ClaimsNoMore (.reachableFL out (joinRelns s1 s2)) p := by
  have hways := joinFlow_cases hf1 hf2 hf
  subst hf1 hf2
  have hj := FlowJoined.of_intersectJoin hfit.1 hout
  have hvalid := hj.valid hfast h1 h2
  have hp : (FlowInfo.reachableFL out (joinRelns s1 s2)).HasPlace p := by
    obtain ⟨w1, hw1, -⟩ := hp1
    obtain ⟨w2, hw2, -⟩ := hp2
    have := hj.places hfast p (isSome_iff_exists.2 ⟨w1, hw1⟩)
      (isSome_iff_exists.2 ⟨w2, hw2⟩)
    obtain ⟨w, hw⟩ := isSome_iff_exists.1 this
    exact ⟨w, hw, trivial⟩
  rcases hways with ⟨hsame, -⟩ | ⟨-, ⟨hlt, rfl⟩ | ⟨hlt, rfl⟩ | ⟨hslow, -⟩⟩
  · exact absurd (hflows.symm.trans hsame) Bool.false_ne_true
  · have hless := less_of_flowLessthanApprox sh hfast hflows hfit.1 hlt
    exact (hj.above hfast h1 h2 hless).claimsNoMore hvalid hp
  · have hless := less_of_flowLessthanApprox sh.symm hfast hflows
      (fun k v2 v1 hv2 hv1 => (hfit.1 k v1 v2 hv1 hv2).symm) hlt
    exact (hj.symm.above hfast h2 h1 hless).claimsNoMore hvalid hp
  · exact absurd hfast hslow

end

theorem joinSlow_claimsNoMore (h1 : FlowValid d1) (h2 : FlowValid d2)
    (hfit : FlowsFit sh (.reachableFL d1 s1) (.reachableFL d2 s2))
    (hslow : ¬ FastPath sh (.reachableFL d1 s1) (.reachableFL d2 s2))
    (h : joinSlow sh d1 s1 d2 s2 = some f) (hp1 : (FlowInfo.reachableFL d1 s1).HasPlace p)
    (hp2 : (FlowInfo.reachableFL d2 s2).HasPlace p) :
    f.ClaimsNoMore (.reachableFL d1 s1) p ∧ f.ClaimsNoMore (.reachableFL d2 s2) p := by
  obtain ⟨⟨out, pile⟩, hout, h⟩ := bind_eq_some_iff.1 h
  obtain ⟨d, hd, rfl⟩ := map_eq_some_iff.1 h
  have hj := FlowJoined.of_intersectJoin hfit.1 hout
  have hesc := hfit.2 hslow out pile hout
  exact ⟨((hj.below h1).escape hd fun p hp => (hesc p hp).1).claimsNoMore h1 hp1,
    ((hj.symm.below h2).escape hd fun p hp => (hesc p hp).2).claimsNoMore h2 hp2⟩

/-- No two flows or values are at one address. -/
def FlowSharing.none : FlowSharing V T :=
  ⟨fun _ => Sharing.none, Sharing.none, fun _ _ => false, fun _ _ h => absurd h Bool.false_ne_true⟩

end Flows

/-! ## Flows with one variable -/

/-- The flow that knows of one variable that it has the value. -/
def oneVar (r : AbsRVal) : FlowInfo Nat Nat :=
  .reachableFL [(.varRoot 0, r)] []

def theVar : Place := ⟨.varRoot 0, []⟩

/-- What the variable points to. -/
def starVar : Place := ⟨.varRoot 0, [.star]⟩

theorem lookup_oneVar {r v : AbsRVal} {k : Root}
    (h : [(Root.varRoot 0, r)].lookup k = some v) : v = r := by
  by_cases hk : k = .varRoot 0
  · subst hk
    cases h
    rfl
  · simp [List.lookup_cons, beq_false_of_ne hk] at h

theorem flowLessthanApprox_oneVar (r1 r2 : AbsRVal) :
    flowLessthanApprox .none (oneVar r1) (oneVar r2) = absRvalLessthanApprox .none r1 r2 := by
  have hlook : List.lookup (Root.varRoot 0) [(Root.varRoot 0, r2)] = some r2 :=
    List.lookup_cons_self
  simp only [oneVar, flowLessthanApprox, FlowSharing.none, Bool.false_eq_true, if_false,
    forallIntersect, hlook]
  cases absRvalLessthanApprox .none r1 r2 with
  | none => rfl
  | some b => cases b <;> rfl

/-- The join of two flows with one variable. -/
theorem joinFlow_oneVar (r1 r2 : AbsRVal) : joinFlow .none (oneVar r1) (oneVar r2) =
      (absRvalLessthanApprox .none r1 r2).bind fun below =>
        if below then some (oneVar r2)
        else
          (absRvalLessthanApprox .none r2 r1).bind fun above =>
            if above then some (oneVar r1)
            else joinSlow .none [(.varRoot 0, r1)] [] [(.varRoot 0, r2)] [] := by
  rw [← flowLessthanApprox_oneVar, ← flowLessthanApprox_oneVar]
  rfl

section Slow

variable {r1 r2 r : AbsRVal}
  (h : joinAbsRval [(.varRoot 0, r1)] [(.varRoot 0, r2)] .none r1 r2 [] = some (r, []))

include h

theorem intersectJoin_oneVar :
    intersectJoin (fun _ => .none) [(.varRoot 0, r1)] [(.varRoot 0, r2)] [(.varRoot 0, r2)] [] =
      some ([(.varRoot 0, r)], []) := by
  have hlook : List.lookup (Root.varRoot 0) [(Root.varRoot 0, r1)] = some r1 :=
    List.lookup_cons_self
  simp only [intersectJoin, hlook, h, Option.bind_some, Option.map_some]

theorem joinSlow_oneVar :
    joinSlow (V := Nat) (T := Nat) .none [(.varRoot 0, r1)] [] [(.varRoot 0, r2)] [] =
      some (oneVar r) := by
  have hescape : escapeThese .none [] [(.varRoot 0, r)] = some [(.varRoot 0, r)] := by
    unfold escapeThese
    rfl
  simp only [joinSlow, FlowSharing.none, intersectJoin_oneVar h, Option.bind_some, Option.map_some,
    hescape]
  rfl

theorem joinFlow_of_slow (hbelow : absRvalLessthanApprox .none r1 r2 = some false)
    (habove : absRvalLessthanApprox .none r2 r1 = some false) :
    joinFlow .none (oneVar r1) (oneVar r2) = some (oneVar r) := by
  rw [joinFlow_oneVar, hbelow, habove]
  exact joinSlow_oneVar h

end Slow

theorem Sharing.none_sub (i : Nat) : Sharing.none.sub i = Sharing.none :=
  rfl

theorem joinAbsRval_unknownR (d1 d2 : FlowDict) (il1 il2 : InitLevel) (pile : List Place) :
    joinAbsRval d1 d2 .none (.unknownR il1) (.unknownR il2) pile =
      joinLevels d1 d2 (.unknownR il1) (.unknownR il2) pile := by
  unfold joinAbsRval
  rfl

theorem absRvalLessthanApprox_unknownR (il1 il2 : InitLevel) :
    absRvalLessthanApprox .none (.unknownR il1) (.unknownR il2) =
      lessthanLevels (.unknownR il1) (.unknownR il2) := by
  unfold absRvalLessthanApprox
  rfl

/-- A struct with two values and a union that was last written in a field that is not
initialised. -/
def withUnion (il₁ il₂ : InitLevel) : AbsRVal :=
  .aggregate ⟨false, none⟩ [.unknownR il₁, .unknownR il₂,
    .aggregate ⟨true, some 0⟩ [.unknownR .noneIL, .unknownR .allIL]]

theorem settled_unknownR (d : FlowDict) (il : InitLevel) : Settled d (.unknownR il) :=
  fun _ _ _ => ⟨false, false, rfl⟩

theorem fits_withUnion (P : Prop) (d1 d2 : FlowDict) (il1 il2 il1' il2' : InitLevel) :
    Fits P d1 d2 .none (withUnion il1 il2) (withUnion il1' il2') := by
  have leaf : ∀ sh il il', Fits P d1 d2 sh (.unknownR il) (.unknownR il') := fun _ _ _ =>
    .leaf rfl (settled_unknownR _ _) (settled_unknownR _ _)
  refine .aggregate rfl nofun rfl fun i a1 a2 h1 h2 => ?_
  match i with
  | 0 | 1 =>
    cases h1
    cases h2
    exact leaf _ _ _
  | 2 =>
    cases h1
    cases h2
    refine .aggregate rfl (fun _ => .inl ⟨rfl, nofun⟩) rfl fun j b1 b2 h1 h2 => ?_
    match j with
    | 0 | 1 =>
      cases h1
      cases h2
      exact leaf _ _ _
    | j + 2 => cases h1
  | i + 3 => cases h1

theorem joinAbsRval_withUnion (d1 d2 : FlowDict) :
    joinAbsRval d1 d2 .none (withUnion .allIL .noneIL) (withUnion .noneIL .allIL) [] =
      some (withUnion .noneIL .noneIL, []) := by
  have hunion : joinAbsRval d1 d2 .none
      (.aggregate ⟨true, some 0⟩ [.unknownR .noneIL, .unknownR .allIL])
      (.aggregate ⟨true, some 0⟩ [.unknownR .noneIL, .unknownR .allIL]) [] =
        some (.aggregate ⟨true, some 0⟩ [.unknownR .noneIL, .unknownR .allIL], []) := by
    unfold joinAbsRval
    simp only [joinFields, Sharing.none_sub, joinAbsRval_unknownR]
    rfl
  unfold withUnion joinAbsRval
  simp only [joinFields, Sharing.none_sub, joinAbsRval_unknownR]
  have hleft : joinLevels d1 d2 (.unknownR .allIL) (.unknownR .noneIL) [] =
      some (.unknownR .noneIL, []) := rfl
  have hright : joinLevels d1 d2 (.unknownR .noneIL) (.unknownR .allIL) [] =
      some (.unknownR .noneIL, []) := rfl
  simp only [hleft, hright, Option.bind_some, hunion, Option.map_some]
  rfl

end ConcurrentCyclone.CfFlowInfo
