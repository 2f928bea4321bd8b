import ConcurrentCyclone.CfFlowInfo.Fits

/-!
# The approximate comparison of values that fit together

What it means that `absRvalLessthanApprox` finds one of two values that fit together to be less than
the other is a relation, `Less`. The greater value is then below the lesser one
(`Less.right_below`), and it is below the join of both (`Less.right_below_joined`), so a join that
gives the greater value instead of the join claims no more. What is initialised in the join can also
be found to be so (`Joined.valid`).
-/

set_option autoImplicit false

namespace ConcurrentCyclone.CfFlowInfo

/-- The first value is less than the second one by the approximate comparison. -/
inductive Less : Sharing → AbsRVal → AbsRVal → Prop
  | same {sh : Sharing} {r : AbsRVal} (h : sh.here r r = true) : Less sh r r
  | names {sh : Sharing} {n : VarId} {r₁ r₂ : AbsRVal} (h : Less (sh.sub 0) r₁ r₂) :
      Less sh (.namedLocation n r₁) (.namedLocation n r₂)
  | addressOf {sh : Sharing} {p : Place} : Less sh (.addressOf p) (.addressOf p)
  | uniquePtr {sh : Sharing} {r₁ r₂ : AbsRVal} (h : Less (sh.sub 0) r₁ r₂) :
      Less sh (.uniquePtr r₁) (.uniquePtr r₂)
  | aggregate {sh : Sharing} {u₁ u₂ : UnionRInfo} {f₁ f₂ : List AbsRVal}
      (hu : u₁.isUnion = u₂.isUnion)
      (hfield : u₁.isUnion = true → u₁.fieldnum = u₂.fieldnum)
      (hnone : u₁.isUnion = true → u₁.fieldnum = none →
        (∀ r ∈ f₁, Unconsumed r) ∧ ∀ r ∈ f₂, Unconsumed r) (hlen : f₁.length = f₂.length)
      (h : ∀ (i : Nat) r₁ r₂, f₁[i]? = some r₁ → f₂[i]? = some r₂ →
        Less ((sh.sub 0).nth i) r₁ r₂) :
      Less sh (.aggregate u₁ f₁) (.aggregate u₂ f₂)
  -- nothing is known of the values under the mark
  | marked {sh : Sharing} {e : ExpId} {i : Int} {r₁ r₂ : AbsRVal}
      (hparts : r₁.noParts = true ∨ r₂.noParts = true) : Less sh r₁ (.consumed e i r₂)
  | unknownR {sh : Sharing} {il : InitLevel} {r : AbsRVal}
      (h : il = .allIL → initlevelApprox r = some .allIL) : Less sh r (.unknownR il)
  | esc {sh : Sharing} {il : InitLevel} {r : AbsRVal}
      (h : il = .allIL → initlevelApprox r = some .allIL) : Less sh r (.esc il)

/-! ## What `absRvalLessthanApprox` finds -/

section Lessthan

variable {sh : Sharing} {r1 r2 : AbsRVal}

theorem level_of_lessthanLevels {il : InitLevel}
    (hil : initlevelApprox r2 = some il) (h : lessthanLevels r1 r2 = some true) :
    il = .allIL → initlevelApprox r1 = some .allIL := by
  rintro rfl
  obtain ⟨il1, h1, h⟩ := Option.bind_eq_some_iff.1 h
  obtain ⟨il2, h2, h⟩ := Option.map_eq_some_iff.1 h
  rw [hil] at h2
  cases h2
  cases il1 with
  | noneIL => cases h
  | allIL => exact h1

theorem lessthanLevels_ne_of_right (h : initlevelApprox r2 = none) :
    lessthanLevels r1 r2 ≠ some true := by
  unfold lessthanLevels
  rw [h]
  cases initlevelApprox r1 <;> exact nofun

theorem lessthanLevels_ne_of_left (h : initlevelApprox r1 = none) :
    lessthanLevels r1 r2 ≠ some true := by
  unfold lessthanLevels
  rw [h]
  exact nofun

theorem Less.of_different (h : sh.here r1 r2 = false → Less sh r1 r2) : Less sh r1 r2 := by
  cases hs : sh.here r1 r2 with
  | false => exact h hs
  | true =>
    obtain rfl := Sharing.eq_of_here hs
    exact .same hs

/-- The comparison of two values that the join does not take apart. -/
theorem Less.of_apart (hs : sh.here r1 r2 = false)
    (hapart : apart r1 r2 = true) (h : absRvalLessthanApprox sh r1 r2 = some true) :
    Less sh r1 r2 := by
  unfold absRvalLessthanApprox at h
  simp only [hs] at h
  cases r2 with
  | namedLocation | consumed => cases r1 <;> cases hapart
  | zero | notZeroAll =>
    cases r1 with
    | namedLocation | consumed => cases hapart
    | _ => cases h
  | addressOf p2 =>
    cases r1 with
    | addressOf p1 =>
      obtain rfl : p1 = p2 := by simpa using h
      exact .addressOf
    | namedLocation | consumed => cases hapart
    | _ => cases h
  | uniquePtr =>
    cases r1 with
    | namedLocation | consumed | uniquePtr => cases hapart
    | _ => cases h
  | aggregate u f =>
    cases r1 with
    | namedLocation | consumed | aggregate => cases hapart
    | addressOf | uniquePtr | esc => cases h
    | zero | notZeroAll | unknownR => exact absurd h (lessthanLevels_ne_of_right rfl)
  | unknownR il =>
    cases r1 with
    | namedLocation | consumed => cases hapart
    | addressOf | uniquePtr | esc => cases h
    | aggregate => exact absurd h (lessthanLevels_ne_of_left rfl)
    | zero | notZeroAll | unknownR => exact .unknownR (level_of_lessthanLevels rfl h)
  | esc il =>
    cases r1 with
    | namedLocation | consumed => cases hapart
    | addressOf | uniquePtr => cases h
    | aggregate => exact absurd h (lessthanLevels_ne_of_left rfl)
    | zero | notZeroAll | unknownR | esc => exact .esc (level_of_lessthanLevels rfl h)

theorem getElem?_fieldsLessthanApprox {f1 : List AbsRVal} : ∀ {sh : Sharing} {f2 : List AbsRVal},
    fieldsLessthanApprox sh f1 f2 = some true → ∀ (i : Nat) r1 r2, f1[i]? = some r1 →
      f2[i]? = some r2 → absRvalLessthanApprox (sh.nth i) r1 r2 = some true := by
  induction f1 with
  | nil => exact fun _ i r1 r2 h1 => by simp at h1
  | cons a1 f1 ih =>
    intro sh f2 h i r1 r2 h1 h2
    cases f2 with
    | nil => simp at h2
    | cons a2 f2 =>
      rw [fieldsLessthanApprox] at h
      obtain ⟨b, hb, h⟩ := Option.bind_eq_some_iff.1 h
      cases b with
      | false => cases h
      | true =>
        cases i with
        | zero =>
          cases h1
          cases h2
          exact hb
        | succ i => exact ih h i r1 r2 h1 h2

theorem Fits.less {P : Prop} (hP : P) {d1 d2 : FlowDict} {sh : Sharing} {r1 r2 : AbsRVal}
    (hfits : Fits P d1 d2 sh r1 r2)
    (h : absRvalLessthanApprox sh r1 r2 = some true) : Less sh r1 r2 := by
  induction hfits
  all_goals refine .of_different fun hs => ?_
  case same hsame => exact absurd (hs.symm.trans hsame) Bool.false_ne_true
  case leaf hapart _ _ => exact .of_apart hs hapart h
  case marks _ hparts _ => exact .marked (hparts hP)
  -- the other values are taken apart
  all_goals
    unfold absRvalLessthanApprox at h
    simp only [hs, Bool.false_eq_true, if_false] at h
  case names n1 n2 r1 r2 _ ih =>
    split at h
    · rename_i heq
      subst heq
      exact .names (ih h)
    · cases h
  case nameLeft n r1 r2 hr _ _ =>
    cases r2 with
    | namedLocation => cases hr
    | _ => cases h
  case nameRight n r1 r2 hr _ _ =>
    cases r1 with
    | namedLocation => cases hr
    | _ => cases h
  case markLeft e i r1 r2 hr _ _ =>
    cases r2 with
    | namedLocation | consumed => cases hr
    | zero | notZeroAll | addressOf | uniquePtr => cases h
    | aggregate => exact absurd h (lessthanLevels_ne_of_right rfl)
    | unknownR il => exact .unknownR (level_of_lessthanLevels rfl h)
    | esc il => exact .esc (level_of_lessthanLevels rfl h)
  case markRight e i r1 r2 hr _ _ =>
    cases r1 with
    | namedLocation | consumed => cases hr
    | addressOf | uniquePtr | esc => cases h
    | aggregate => exact absurd h (lessthanLevels_ne_of_left rfl)
    | zero | notZeroAll | unknownR => exact .marked (.inl rfl)
  case uniquePtr ih => exact .uniquePtr (ih h)
  case aggregate u1 u2 f1 f2 hu hunion hlen _ ih =>
    split at h
    · cases h
    · rename_i hfield
      have heq : u1.isUnion = true → u1.fieldnum = u2.fieldnum := fun hun => by
        simpa [hun] using hfield
      refine .aggregate hu heq (fun hun hnone => ?_) hlen fun i r1 r2 hr1 hr2 => ?_
      · exact ⟨(hunion hun).unconsumed hun fun _ => hnone,
          (hunion hun).symm.unconsumed (hu ▸ hun) fun h => h.trans hnone⟩
      · exact ih i r1 r2 hr1 hr2 (getElem?_fieldsLessthanApprox h i r1 r2 hr1 hr2)

end Lessthan

/-! ## The greater value claims less -/

variable {d : FlowDict} {r : AbsRVal}

theorem init_of_initlevelApprox (h : initlevelApprox r = some .allIL) : Init d r := by
  cases r with
  | zero | notZeroAll => constructor
  | unknownR | esc => cases h; constructor
  | _ => cases h

theorem initlevel_of_initlevelApprox
    (h : initlevelApprox r = some .allIL) : initlevel d r = some .allIL := by
  cases r with
  | zero | notZeroAll => rfl
  | unknownR | esc => cases h; rfl
  | _ => cases h

theorem ready_of_initlevelApprox (h : initlevelApprox r = some .allIL) : Ready d r := by
  refine ⟨init_of_initlevelApprox h, fun e k => ?_⟩
  cases r with
  | zero | notZeroAll | unknownR | esc => exact ⟨false, false, rfl⟩
  | _ => cases h

/-- Two unions with the same last field, if the fields of the second one are not consumed. -/
theorem unionBelow_of_unconsumed {u' u : UnionRInfo} {f' f : List AbsRVal}
    (hfield : u'.fieldnum = u.fieldnum) (h : u.fieldnum = none → ∀ r ∈ f, Unconsumed r) :
    UnionBelow d u' u f' f :=
  .inl ⟨hfield, fun hnone _ _ r _ hr e k _ => h hnone r (List.mem_of_getElem? hr) e k⟩

theorem Less.right_below {sh : Sharing} {r1 r2 : AbsRVal} (h : Less sh r1 r2)
    (hok : r1.Valid d) : Below d r2 r1 := by
  induction h with
  | same => exact .refl hok.isSome_lookupPlace
  | names _ ih => exact .nameLeft (.nameRight (ih hok))
  | addressOf => exact .addressOf hok
  | uniquePtr _ ih => exact .uniquePtr (ih hok)
  | aggregate hu hfield hnone hlen _ ih =>
    refine .aggregate hu.symm (fun hun => unionBelow_of_unconsumed (hfield hun).symm fun hn =>
      (hnone hun hn).1) hlen.symm ?_
    intro i a b ha hb
    exact ih i b a hb ha (fieldsValid_iff.1 hok.2 b (List.mem_of_getElem? hb))
  | marked hparts => exact .markLeaf hparts.symm
  | unknownR h => exact .unknownR fun hil => ready_of_initlevelApprox (h hil)
  | esc h => exact .esc fun hil => ready_of_initlevelApprox (h hil)

/-! ## The greater value claims less than the join

`out` is a dictionary with all places that both dictionaries have, as their join is. -/

section Join

variable {P : Prop} {d1 d2 out : FlowDict} {sh : Sharing} {r1 r2 r : AbsRVal}

theorem Joined.eq_of_here (hs : sh.here r1 r2 = true) (h : Joined P d1 d2 sh r1 r2 r) : r = r2 := by
  cases h with
  | same => rfl
  | names hs' | sameNames hs' | nameLeft hs' | nameRight hs' | marks hs' | otherMarks hs'
  | markLeft hs' | markRight hs' | uniquePtr hs' | aggregate hs' | addressOf hs'
  | notZeroRight hs' | notZeroLeft hs' | levels hs' =>
    exact absurd (hs'.symm.trans hs) Bool.false_ne_true

/-- The join of a value with a level. -/
theorem Joined.ready_of_levels
    (h : Joined P d1 d2 sh r1 r2 r) (h1 : initlevelApprox r1 = some .allIL)
    (h2 : r2 = .unknownR .allIL ∨ r2 = .esc .allIL) : Ready out r := by
  have hall : Levels d1 d2 r1 r2 r → Ready out r := by
    intro hl
    refine ⟨?_, hl.unconsumed⟩
    refine (hl.init_iff.2 ⟨initlevel_of_initlevelApprox h1, ?_⟩).mono fun p _ hp => hp.elim
    rcases h2 with rfl | rfl <;> rfl
  rcases h2 with rfl | rfl
  all_goals
    cases h with
    | same => exact ready_of_initlevelApprox h1
    | levels _ _ _ _ _ h => exact hall h
    | nameLeft | markLeft => cases h1

theorem Levels.valid (h : Levels d1 d2 r1 r2 r) : r.Valid out := by
  obtain ⟨il, rfl | rfl⟩ := h.leaf
  · exact trivial
  · exact trivial

theorem NotZeroLevel.valid {d : FlowDict} (h : NotZeroLevel d r1 r) : r.Valid out := by
  rcases h with rfl | ⟨rfl, -⟩
  · exact trivial
  · exact trivial

variable (hplaces : ∀ p, (lookupPlace d1 p).isSome → (lookupPlace d2 p).isSome →
  (lookupPlace out p).isSome)

include hplaces

theorem Less.right_below_joined (h : Less sh r1 r2) (hj : Joined P d1 d2 sh r1 r2 r)
    (hok1 : r1.Valid d1) (hok2 : r2.Valid d2) : Below out r2 r := by
  have refl : ∀ {r : AbsRVal}, r.Valid d1 → r.Valid d2 → Below out r r := fun hok1 hok2 =>
    .refl fun p hp => hplaces p (hok1.isSome_lookupPlace p hp) (hok2.isSome_lookupPlace p hp)
  induction h generalizing r with
  | same hs =>
    obtain rfl := hj.eq_of_here hs
    exact refl hok1 hok2
  | names _ ih =>
    cases hj with
    | same => exact refl hok1 hok2
    | names _ hj =>
      exact .nameLeft (ih hj hok1 hok2)
    | sameNames _ hj =>
      exact .nameLeft (.nameRight (ih hj hok1 hok2))
    | nameLeft _ hr | nameRight _ hr => cases hr
    | levels _ hapart => cases hapart
  | addressOf =>
    cases hj with
    | same | addressOf => exact refl hok1 hok2
    | levels _ _ hne => exact absurd rfl (hne _ rfl)
  | uniquePtr _ ih =>
    cases hj with
    | same => exact refl hok1 hok2
    | uniquePtr _ hj =>
      exact .uniquePtr (ih hj hok1 hok2)
    | levels _ hapart => cases hapart
  | @aggregate sh u1 u2 f1 f2 hu hfield hnone hlen _ ih =>
    cases hj with
    | same => exact refl hok1 hok2
    | @aggregate _ _ _ u _ _ f _ hu1 hu2 hfield' _ _ hlen1 hlen2 hj =>
      refine .aggregate hu2.symm (fun hun => ?_) hlen2.symm fun i a2 a ha2 ha => ?_
      · have heq := hfield (hu1 ▸ hun)
        refine unionBelow_of_unconsumed (heq.symm.trans (hfield' hun heq).symm) fun hn a ha => ?_
        obtain ⟨hf1, hf2⟩ := hnone (hu1 ▸ hun) ((hfield' hun heq).symm.trans hn)
        obtain ⟨i, ha⟩ := List.mem_iff_getElem?.1 ha
        obtain ⟨a1, ha1⟩ := exists_getElem?_of_length_eq hlen1 ha
        obtain ⟨a2, ha2⟩ := exists_getElem?_of_length_eq hlen2 ha
        exact (hj i a a1 a2 ha ha1 ha2).unconsumed (hf1 a1 (List.mem_of_getElem? ha1))
          (hf2 a2 (List.mem_of_getElem? ha2))
      · obtain ⟨a1, ha1⟩ := exists_getElem?_of_length_eq hlen1 ha
        exact ih i a1 a2 ha1 ha2 (hj i a a1 a2 ha ha1 ha2)
          (fieldsValid_iff.1 hok1.2 a1 (List.mem_of_getElem? ha1))
          (fieldsValid_iff.1 hok2.2 a2 (List.mem_of_getElem? ha2))
    | levels _ hapart => cases hapart
  | marked hparts => exact .markLeaf (.inr (hj.noParts hparts))
  | unknownR h => exact .unknownR fun hil => hj.ready_of_levels (h hil) (.inl (hil ▸ rfl))
  | esc h => exact .esc fun hil => hj.ready_of_levels (h hil) (.inr (hil ▸ rfl))

/-- The join of two valid values is valid. -/
theorem Joined.valid (h : Joined P d1 d2 sh r1 r2 r) (hok1 : r1.Valid d1) (hok2 : r2.Valid d2) :
    r.Valid out := by
  induction h with
  | same =>
    exact valid_of_addresses hok1 fun p hp =>
      hplaces p (hok1.isSome_lookupPlace p hp) (hok2.isSome_lookupPlace p hp)
  | names _ _ ih | sameNames _ _ ih | nameLeft _ _ _ ih | nameRight _ _ _ ih | marks _ _ ih
  | markLeft _ _ _ ih | markRight _ _ _ ih | uniquePtr _ _ ih => exact ih hok1 hok2
  | addressOf => exact hplaces _ hok1 hok2
  | notZeroRight _ h | notZeroLeft _ h | otherMarks _ _ h | levels _ _ _ _ _ h => exact h.valid
  | @aggregate sh u1 u2 u f1 f2 f _ hu1 _ hfield hlost _ hlen1 hlen2 _ ih =>
    refine ⟨fun i hun hi => ?_, fieldsValid_iff.2 fun a ha => ?_⟩
    · have heq : u1.fieldnum = u2.fieldnum := by
        by_contra hne
        cases hi.symm.trans (hlost hun hne)
      exact hlen1 ▸ hok1.1 i (hu1.symm.trans hun) ((hfield hun heq).symm.trans hi)
    · obtain ⟨i, ha⟩ := List.mem_iff_getElem?.1 ha
      obtain ⟨a1, ha1⟩ := exists_getElem?_of_length_eq hlen1 ha
      obtain ⟨a2, ha2⟩ := exists_getElem?_of_length_eq hlen2 ha
      exact ih i a a1 a2 ha ha1 ha2 (fieldsValid_iff.1 hok1.2 a1 (List.mem_of_getElem? ha1))
        (fieldsValid_iff.1 hok2.2 a2 (List.mem_of_getElem? ha2))

end Join

end ConcurrentCyclone.CfFlowInfo
