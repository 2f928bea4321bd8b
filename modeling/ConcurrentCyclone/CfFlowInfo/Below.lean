import ConcurrentCyclone.CfFlowInfo.Escape
import ConcurrentCyclone.CfFlowInfo.Init

/-!
# Values that claim less

`Below d r' r` says that `r'` claims no more than `r` does in the dictionary `d`: wherever both have
a part, that `r'` is initialised or not zero there is so in `r` (`Below.initGiven`, `Below.nonNull`,
`Below.lookupPath`). Names do not count, and a value that is marked as consumed claims nothing
itself. What `r'` is not reported consumed at, `r` is not either, if `r'` is initialised
(`Below.notConsumed`).

If the values of one dictionary are below those of another (`FlowBelow`), what is initialised in the
first is so in the second; this is a coinduction, because of pointers between places
(`FlowBelow.init`). Making places escape keeps a dictionary below another one if the unions that
lose their last field by it are initialised in all fields (`FlowBelow.escape`).
-/

set_option autoImplicit false

namespace ConcurrentCyclone.CfFlowInfo

open FixedPoint
open Option (bind_eq_some_iff map_eq_some_iff)

/-- The value is known not to be zero. A unique pointer may be. -/
def AbsRVal.nonNull : AbsRVal → Bool
  | .notZeroAll => true
  | .addressOf _ => true
  | .namedLocation _ r => r.nonNull
  | _ => false

/-- The value has no parts that are places. -/
def AbsRVal.noParts (r : AbsRVal) : Bool :=
  match r.unwrap with
  | .aggregate _ _ => false
  | .uniquePtr _ => false
  | _ => true

/-- Where the second value is reported consumed the first one is. -/
def Shows (r' r : AbsRVal) : Prop :=
  ∀ e k, NotConsumed e k r' → NotConsumed e k r

/-- The value is initialised and not reported consumed. -/
def Ready (d : FlowDict) (r : AbsRVal) : Prop :=
  Init d r ∧ Unconsumed r

/-- The first union claims no more: it has the same last field, and shows what is consumed of the
fields if that one is not known, or else the second one is in order. -/
def UnionBelow (d : FlowDict) (u' u : UnionRInfo) (f' f : List AbsRVal) : Prop :=
  (u'.fieldnum = u.fieldnum ∧ (u.fieldnum = none →
    ∀ (i : Nat) r' r, f'[i]? = some r' → f[i]? = some r → Shows r' r)) ∨ Ready d (.aggregate u f)

inductive Below (d : FlowDict) : AbsRVal → AbsRVal → Prop
  | unknownNone (r : AbsRVal) : Below d (.unknownR .noneIL) r
  | escNone (r : AbsRVal) : Below d (.esc .noneIL) r
  | unknownAll {r : AbsRVal} (h : Ready d r) : Below d (.unknownR .allIL) r
  | escAll {r : AbsRVal} (h : Ready d r) : Below d (.esc .allIL) r
  | zero : Below d .zero .zero
  | notZeroAll {r : AbsRVal} (h : Init d r) (hr : r.nonNull = true) : Below d .notZeroAll r
  | addressOf {p : Place} (h : (lookupPlace d p).isSome) : Below d (.addressOf p) (.addressOf p)
  | uniquePtr {r' r : AbsRVal} (h : Below d r' r) : Below d (.uniquePtr r') (.uniquePtr r)
  | struct {u' u : UnionRInfo} {f' f : List AbsRVal} (hu' : u'.isUnion = false)
      (hu : u.isUnion = false) (hlen : f'.length = f.length)
      (h : ∀ (i : Nat) r' r, f'[i]? = some r' → f[i]? = some r → Below d r' r) :
      Below d (.aggregate u' f') (.aggregate u f)
  | union {u' u : UnionRInfo} {f' f : List AbsRVal} (hu' : u'.isUnion = true)
      (hu : u.isUnion = true) (hbelow : UnionBelow d u' u f' f) (hlen : f'.length = f.length)
      (h : ∀ (i : Nat) r' r, f'[i]? = some r' → f[i]? = some r → Below d r' r) :
      Below d (.aggregate u' f') (.aggregate u f)
  | nameLeft {n : VarId} {r' r : AbsRVal} (h : Below d r' r) : Below d (.namedLocation n r') r
  | nameRight {n : VarId} {r' r : AbsRVal} (h : Below d r' r) : Below d r' (.namedLocation n r)
  | markLeft {e : ExpId} {i : Int} {r' r : AbsRVal} (h : Below d r' r) :
      Below d (.consumed e i r') r
  | markBoth {e' e : ExpId} {i' i : Int} {r' r : AbsRVal} (h : Below d r' r) :
      Below d (.consumed e' i' r') (.consumed e i r)
  | markLeaf {e : ExpId} {i : Int} {r' r : AbsRVal}
      (h : r'.noParts = true ∨ r.noParts = true) : Below d (.consumed e i r') r

variable {d : FlowDict}

/-- An aggregate of either kind, with fields below those of another one. -/
theorem Below.aggregate {u' u : UnionRInfo} {f' f : List AbsRVal} (hu : u'.isUnion = u.isUnion)
    (hbelow : u.isUnion = true → UnionBelow d u' u f' f) (hlen : f'.length = f.length)
    (h : ∀ (i : Nat) r' r, f'[i]? = some r' → f[i]? = some r → Below d r' r) :
    Below d (.aggregate u' f') (.aggregate u f) := by
  cases hun : u.isUnion with
  | false => exact .struct (hu.trans hun) hun hlen h
  | true => exact .union (hu.trans hun) hun (hbelow hun) hlen h

variable {r r' : AbsRVal} {d' : FlowDict} {p : Place} {il : InitLevel}

theorem Below.unknownR (h : il = .allIL → Ready d r) : Below d (.unknownR il) r := by
  cases il with
  | noneIL => exact .unknownNone r
  | allIL => exact .unknownAll (h rfl)

theorem Below.esc (h : il = .allIL → Ready d r) : Below d (.esc il) r := by
  cases il with
  | noneIL => exact .escNone r
  | allIL => exact .escAll (h rfl)

theorem Below.refl (h : ∀ p ∈ r.addresses, (lookupPlace d p).isSome) : Below d r r := by
  induction r using AbsRVal.induction with
  | zero => exact .zero
  | notZeroAll => exact .notZeroAll .notZeroAll rfl
  | unknownR il =>
    refine .unknownR ?_
    rintro rfl
    exact ⟨.unknownR, fun e k => ⟨false, false, rfl⟩⟩
  | esc il =>
    refine .esc ?_
    rintro rfl
    exact ⟨.esc, fun e k => ⟨false, false, rfl⟩⟩
  | addressOf p => exact .addressOf (h p (List.mem_singleton_self p))
  | uniquePtr r ih => exact .uniquePtr (ih h)
  | consumed _ _ r ih => exact .markBoth (ih h)
  | namedLocation _ r ih => exact .nameLeft (.nameRight (ih h))
  | aggregate u f ih =>
    refine .aggregate rfl (fun _ => .inl ⟨rfl, fun _ i r' r hr' hr => ?_⟩) rfl
      fun i r' r hr' hr => ?_
    · rw [hr'] at hr
      cases hr
      exact fun _ _ => id
    · rw [hr'] at hr
      cases hr
      have hmem := List.mem_of_getElem? hr'
      exact ih r' hmem fun p hp => h p (mem_fieldAddresses hmem hp)

theorem AbsRVal.Valid.isSome_lookupPlace (h : r.Valid d) :
    ∀ p ∈ r.addresses, (lookupPlace d p).isSome := by
  induction r using AbsRVal.induction with
  | zero | notZeroAll | unknownR | esc => exact fun p hp => absurd hp List.not_mem_nil
  | addressOf => exact fun p hp => List.mem_singleton.1 hp ▸ h
  | uniquePtr _ ih | consumed _ _ _ ih | namedLocation _ _ ih => exact ih h
  | aggregate u f ih =>
    intro p hp
    obtain ⟨r, hr, hp⟩ := exists_of_mem_fieldAddresses hp
    exact ih r hr (fieldsValid_iff.1 h.2 r hr) p hp
where
  exists_of_mem_fieldAddresses {f : List AbsRVal} {p : Place} (hp : p ∈ fieldAddresses f) :
      ∃ r ∈ f, p ∈ r.addresses := by
    induction f with
    | nil => exact absurd hp List.not_mem_nil
    | cons a f ih =>
      rcases List.mem_append.1 hp with hp | hp
      · exact ⟨a, .head _, hp⟩
      · obtain ⟨r, hr, hp⟩ := ih hp
        exact ⟨r, .tail _ hr, hp⟩

/-! ## What a value below another one claims -/

theorem Below.nonNull (h : Below d r' r) (hr' : r'.nonNull = true) : r.nonNull = true := by
  induction h with
  | notZeroAll _ hr => exact hr
  | addressOf => rfl
  | nameLeft _ ih | nameRight _ ih => exact ih hr'
  | _ => exact absurd hr' Bool.false_ne_true

theorem exists_getElem?_of_length_eq {α β : Type} {l : List α} {l' : List β} {i : Nat} {a : α}
    (hlen : l.length = l'.length) (h : l[i]? = some a) : ∃ b, l'[i]? = some b := by
  obtain ⟨hi, -⟩ := List.getElem?_eq_some_iff.1 h
  exact ⟨_, List.getElem?_eq_getElem (hlen ▸ hi)⟩

/-- A value above an initialised one is initialised. -/
theorem Below.initGiven {A B : Place → Prop} (h : Below d r' r)
    (hr' : InitGiven A r') (hAB : ∀ p, A p → (lookupPlace d p).isSome → B p)
    (hB : ∀ r, Init d r → InitGiven B r) : InitGiven B r := by
  induction h with
  | unknownAll h | escAll h => exact hB _ h.1
  | notZeroAll h => exact hB _ h
  | zero => exact .zero
  | unknownNone | escNone | markLeft | markBoth | markLeaf => cases hr'
  | addressOf hp =>
    cases hr' with
    | addressOf h => exact .addressOf (hAB _ h hp)
  | uniquePtr _ ih =>
    cases hr' with
    | uniquePtr h => exact .uniquePtr (ih h)
  | nameLeft _ ih =>
    cases hr' with
    | namedLocation h => exact ih h
  | nameRight _ ih => exact .namedLocation (ih hr')
  | @struct u' u f' f hu' hu hlen _ ih =>
    refine .struct hu fun r hr => ?_
    obtain ⟨i, hi⟩ := List.mem_iff_getElem?.1 hr
    obtain ⟨r', hi'⟩ := exists_getElem?_of_length_eq hlen.symm hi
    exact ih i r' r hi' hi (hr'.field hu' r' (List.mem_of_getElem? hi'))
  | @union u' u f' f hu' hu hbelow hlen _ ih =>
    rcases hbelow with ⟨hfield, -⟩ | hready
    · cases hr' with
      | struct hu'' => rw [hu'] at hu''; cases hu''
      | @unionField _ _ i r' _ hi hi' h =>
        obtain ⟨r, hir⟩ := exists_getElem?_of_length_eq hlen hi'
        exact .unionField hu (hfield ▸ hi) hir (ih i r' r hi' hir h)
      | @unionSome _ _ r' _ hi hr' h =>
        obtain ⟨i, hi'⟩ := List.mem_iff_getElem?.1 hr'
        obtain ⟨r, hir⟩ := exists_getElem?_of_length_eq hlen hi'
        exact .unionSome hu (hfield ▸ hi) (List.mem_of_getElem? hir) (ih i r' r hi' hir h)
    · exact hB _ hready.1

theorem notConsumed_of_nonNull {e : ExpId} {k : Int} (h : r.nonNull = true) :
    NotConsumed e k r := by
  induction r using AbsRVal.induction with
  | notZeroAll | addressOf => exact ⟨false, false, rfl⟩
  | namedLocation _ r ih => exact ih h
  | _ => cases h

/-- A value above an initialised one is consumed only where that one is. -/
theorem Below.notConsumed {A : Place → Prop} {e : ExpId} {k : Int} (h : Below d r' r)
    (hr' : InitGiven A r') (hnot : NotConsumed e k r') : NotConsumed e k r := by
  induction h with
  | unknownAll h | escAll h => exact h.2 e k
  | notZeroAll _ hr => exact notConsumed_of_nonNull hr
  | zero | addressOf | uniquePtr => exact ⟨false, false, rfl⟩
  | unknownNone | escNone | markLeft | markBoth | markLeaf => cases hr'
  | nameLeft _ ih =>
    cases hr' with
    | namedLocation h => exact ih h hnot
  | nameRight _ ih => exact ih hr' hnot
  | @struct u' u f' f hu' hu hlen _ ih =>
    refine (notConsumed_all (.inl hu)).2 fun r hr => ?_
    obtain ⟨i, hi⟩ := List.mem_iff_getElem?.1 hr
    obtain ⟨r', hi'⟩ := exists_getElem?_of_length_eq hlen.symm hi
    have hmem := List.mem_of_getElem? hi'
    exact ih i r' r hi' hi (hr'.field hu' r' hmem) ((notConsumed_all (.inl hu')).1 hnot r' hmem)
  | @union u' u f' f hu' hu hbelow hlen _ ih =>
    rcases hbelow with ⟨hfield, hshows⟩ | hready
    · cases hi : u.fieldnum with
      | none =>
        refine (notConsumed_all (.inr hi)).2 fun r hr => ?_
        obtain ⟨i, hir⟩ := List.mem_iff_getElem?.1 hr
        obtain ⟨r', hir'⟩ := exists_getElem?_of_length_eq hlen.symm hir
        exact hshows hi i r' r hir' hir e k
          ((notConsumed_all (.inr (hfield.trans hi))).1 hnot r' (List.mem_of_getElem? hir'))
      | some i =>
        obtain ⟨r', hir', hnot'⟩ := (notConsumed_known hu' (hfield.trans hi)).1 hnot
        obtain ⟨r, hir⟩ := exists_getElem?_of_length_eq hlen hir'
        refine (notConsumed_known hu hi).2 ⟨r, hir, ih i r' r hir' hir ?_ hnot'⟩
        cases hr' with
        | struct hu'' => rw [hu'] at hu''; cases hu''
        | unionSome _ hi' => rw [hfield.trans hi] at hi'; cases hi'
        | unionField _ hi' hr h =>
          rw [hfield.trans hi, Option.some.injEq] at hi'
          subst hi'
          rw [hir', Option.some.injEq] at hr
          exact hr ▸ h
    · exact hready.2 e k

theorem lookupPath_of_noParts (h : r.noParts = true) (c : PathCon)
    (path : List PathCon) : lookupPath (c :: path) r = none := by
  unfold AbsRVal.noParts at h
  unfold lookupPath
  split <;> simp_all

variable {path : List PathCon}

theorem Below.lookupPath {w' w : AbsRVal} (h : Below d r' r)
    (hw' : lookupPath path r' = some w') (hw : lookupPath path r = some w) : Below d w' w := by
  induction path generalizing r' r with
  | nil =>
    cases hw'
    cases hw
    exact h
  | cons c path ih =>
    induction h with
    | unknownNone | escNone | unknownAll | escAll | zero | notZeroAll | addressOf =>
      cases c <;> cases hw'
    | uniquePtr h =>
      cases c with
      | dot => cases hw
      | star => exact ih h hw' hw
    | struct _ _ _ h | union _ _ _ _ h =>
      cases c with
      | star => cases hw
      | dot i =>
        obtain ⟨a', ha', hw'⟩ := bind_eq_some_iff.1 hw'
        obtain ⟨a, ha, hw⟩ := bind_eq_some_iff.1 hw
        exact ih (h i a' a ha' ha) hw' hw
    | nameLeft _ ih | nameRight _ ih | markLeft _ ih | markBoth _ ih => exact ih hw' hw
    | markLeaf h =>
      rcases h with hno | hno
      · cases (lookupPath_of_noParts hno c path).symm.trans hw'
      · cases (lookupPath_of_noParts hno c path).symm.trans hw

/-! ## Dictionaries -/

/-- The values of the first dictionary are below those of the second, for their common roots. -/
def FlowBelow (d' d : FlowDict) : Prop :=
  ∀ k v' v, d'.lookup k = some v' → d.lookup k = some v → Below d v' v

theorem FlowBelow.lookupPlace (h : FlowBelow d' d) {w' w : AbsRVal}
    (hw' : lookupPlace d' p = some w') (hw : lookupPlace d p = some w) : Below d w' w := by
  obtain ⟨v', hv', hpath'⟩ := bind_eq_some_iff.1 hw'
  obtain ⟨v, hv, hpath⟩ := bind_eq_some_iff.1 hw
  exact (h _ v' v hv' hv).lookupPath hpath' hpath

/-- Places that are initialised in the lower dictionary are so in the upper one, if it has them. -/
theorem FlowBelow.initPlace (h : FlowBelow d' d)
    (hp : InitPlace d' p) (hd : (CfFlowInfo.lookupPlace d p).isSome) : InitPlace d p := by
  refine Assuming.coinduct (InitStep.monotonic d)
    (X := fun q => InitPlace d' q ∧ (CfFlowInfo.lookupPlace d q).isSome) ?_ ⟨hp, hd⟩
  rintro q ⟨hq, hqd⟩
  obtain ⟨w', hw', hinit⟩ := hq.value
  obtain ⟨w, hw⟩ := Option.isSome_iff_exists.1 hqd
  refine ⟨w, hw, (h.lookupPlace hw' hw).initGiven hinit ?_ ?_⟩
  · exact fun p hp hpd => .inl ⟨hp, hpd⟩
  · exact fun r hr => hr.mono fun p _ hp => .inr (.inl hp)

theorem FlowBelow.init (h : FlowBelow d' d) (hr : Below d r' r) (hr' : Init d' r') : Init d r :=
  hr.initGiven hr' (fun _ hp hd => h.initPlace hp hd) fun _ => id

/-! ## Escaping -/

theorem noParts_insertPlaceInner {w : AbsRVal} (hw : w.noParts = true) (r : AbsRVal)
    (hr : r.noParts = true) : (insertPlaceInner w r).noParts = true := by
  induction r using AbsRVal.induction with
  | consumed _ _ _ ih | namedLocation _ _ ih => exact ih hr
  | aggregate => cases hr
  | _ => exact hw

theorem insertFieldsInner_eq_map (w : AbsRVal) (f : List AbsRVal) :
    insertFieldsInner w f = f.map (insertPlaceInner w) := by
  induction f with
  | nil => rfl
  | cons r f ih => rw [insertFieldsInner, ih, List.map_cons]

/-- The union may lose its last field. -/
def MayForget (d : FlowDict) (u : UnionRInfo) (f : List AbsRVal) : Prop :=
  Full d (.aggregate u f) ∨ u.fieldnum = none ∧ ∀ r ∈ f, Unconsumed r

theorem Full.ready {u : UnionRInfo} {f : List AbsRVal} (h : Full d (.aggregate u f))
    (hu : u.isUnion = true) : Ready d (.aggregate u f) :=
  ⟨(h.1 hu).1, h.unconsumed (h.1 hu).1⟩

theorem MayForget.below {u : UnionRInfo} {f f' : List AbsRVal} (h : MayForget d u f)
    (hu : u.isUnion = true) {b : Bool} : UnionBelow d ⟨b, none⟩ u f' f := by
  rcases h with hfull | ⟨hnone, hf⟩
  · exact .inr (hfull.ready hu)
  · exact .inl ⟨hnone.symm, fun _ i r' r _ hr e k _ => hf r (List.mem_of_getElem? hr) e k⟩

/-- The leaves of the value can be given its level: if it is initialised then so are all fields of
its unions, and its unions may lose their last fields. -/
structure Escapes (d : FlowDict) (r : AbsRVal) : Prop where
  full : Init d r → Full d r
  forget : r.Unions (MayForget d)

theorem Below.insertPlaceInner (h : Below d r' r) (hinit : il = .allIL → Init d r ∧ Full d r)
    (hforget : r.Unions (MayForget d)) : Below d (insertPlaceInner (.esc il) r') r := by
  induction h with
  | unknownNone | escNone | unknownAll | escAll | zero | notZeroAll | addressOf | uniquePtr =>
    exact .esc fun hil => ⟨(hinit hil).1, (hinit hil).2.unconsumed (hinit hil).1⟩
  | nameLeft _ ih => exact .nameLeft (ih hinit hforget)
  | nameRight _ ih =>
    refine .nameRight (ih (fun hil => ?_) hforget)
    obtain ⟨hinit, hfull⟩ := hinit hil
    cases hinit with
    | namedLocation h => exact ⟨h, hfull⟩
  | markLeft _ ih => exact .markLeft (ih hinit hforget)
  | markBoth _ ih => exact .markBoth (ih (fun hil => nomatch (hinit hil).1) hforget)
  | markLeaf h => exact .markLeaf (h.imp (noParts_insertPlaceInner rfl _) id)
  | @struct u' u f' f hu' hu hlen _ ih | @union u' u f' f hu' hu _ hlen _ ih =>
    rw [CfFlowInfo.insertPlaceInner, insertFieldsInner_eq_map]
    refine .aggregate (hu'.trans hu.symm) (fun hun => (hforget.1 hun).below hun)
      (by simpa using hlen) ?_
    intro i a' a ha' ha
    rw [List.getElem?_map, map_eq_some_iff] at ha'
    obtain ⟨b, hb, rfl⟩ := ha'
    have hmem := List.mem_of_getElem? ha
    refine ih i b a hb ha (fun hil => ?_) (fieldUnions_iff.1 hforget.2 a hmem)
    obtain ⟨hinit, hfull⟩ := hinit hil
    exact ⟨hfull.init_field hinit hmem, hfull.field hmem⟩

/-- The fields after the insertion into one of them. -/
theorem insertNthOuter_getElem? {w : AbsRVal} :
    ∀ {f : List AbsRVal} {f' : List AbsRVal × Bool} {sh : Sharing} {i : Nat},
      insertNthOuter w f sh i path = some f' → f'.1.length = f.length ∧
        ∃ sh' r r', f[i]? = some r ∧ insertPlaceOuter w r sh' path = some r' ∧
          f'.1[i]? = some r' ∧ ∀ j, j ≠ i → f'.1[j]? = f[j]?
  | [], _, _, _, h => by simp [insertNthOuter] at h
  | r :: f, _, sh, 0, h => by
    simp only [insertNthOuter, map_eq_some_iff] at h
    obtain ⟨r', hr, rfl⟩ := h
    refine ⟨rfl, _, r, r', rfl, hr, rfl, fun j hj => ?_⟩
    obtain ⟨j, rfl⟩ := Nat.exists_eq_succ_of_ne_zero hj
    rfl
  | a :: f, _, sh, i + 1, h => by
    simp only [insertNthOuter, map_eq_some_iff] at h
    obtain ⟨f'', hf, rfl⟩ := h
    obtain ⟨hlen, sh', r, r', hr, hr', hi, hj⟩ := insertNthOuter_getElem? hf
    refine ⟨congrArg (· + 1) hlen, sh', r, r', hr, hr', hi, fun j hji => ?_⟩
    cases j with
    | zero => rfl
    | succ j => exact hj j fun h => hji (congrArg (· + 1) h)

/-- The part of the value at the path can escape: its own leaves can be given its level, and the
unions on the path may lose their last fields. -/
def EscapesAt (d : FlowDict) : List PathCon → AbsRVal → Prop
  | [], r => Escapes d r
  | c :: path, r =>
    match r.unwrap, c with
    | .aggregate u f, .dot fname =>
      (u.isUnion = true → MayForget d u f) ∧ ∀ a ∈ f[fname]?, EscapesAt d path a
    | .uniquePtr a, .star => EscapesAt d path a
    | _, _ => True

theorem Below.insertPlaceOuter {v : AbsRVal} {sh : Sharing} (h : Below d r' r)
    (hesc : EscapesAt d path r) (hv : insertPlaceOuter (.esc il) r' sh path = some v)
    (hinit : ∀ w, CfFlowInfo.lookupPath path r = some w → il = .allIL → Init d w) :
    Below d v r := by
  induction path generalizing r' r v sh with
  | nil =>
    rw [CfFlowInfo.insertPlaceOuter] at hv
    cases hv
    exact h.insertPlaceInner (fun hil => ⟨hinit r rfl hil, hesc.full (hinit r rfl hil)⟩) hesc.forget
  | cons c path ihp =>
    -- names are passed over, all other steps go on along the path
    induction h generalizing v sh with
    | unknownNone | escNone | unknownAll | escAll | zero | notZeroAll | addressOf | markLeft
    | markBoth | markLeaf => simp [CfFlowInfo.insertPlaceOuter] at hv
    | nameLeft _ ih =>
      simp only [CfFlowInfo.insertPlaceOuter, map_eq_some_iff] at hv
      obtain ⟨v', hv', rfl⟩ := hv
      exact .nameLeft (ih hesc hv' hinit)
    | nameRight _ ih => exact .nameRight (ih hesc hv hinit)
    | uniquePtr h =>
      cases c with
      | dot => simp [CfFlowInfo.insertPlaceOuter] at hv
      | star =>
        simp only [CfFlowInfo.insertPlaceOuter, map_eq_some_iff] at hv
        obtain ⟨v', hv', rfl⟩ := hv
        exact .uniquePtr (ihp h hesc hv' hinit)
    | @struct u' u f' f hu' hu hlen h | @union u' u f' f hu' hu hbelow hlen h =>
      cases c with
      | star => simp [CfFlowInfo.insertPlaceOuter] at hv
      | dot i =>
        simp only [CfFlowInfo.insertPlaceOuter, map_eq_some_iff] at hv
        obtain ⟨⟨f'', changed⟩, hf, rfl⟩ := hv
        cases changed with
        | false => first | exact .struct hu' hu hlen h | exact .union hu' hu hbelow hlen h
        | true =>
          obtain ⟨hlen', sh', r', v', hr', hv', hi, hj⟩ := insertNthOuter_getElem? hf
          refine .aggregate (hu'.trans hu.symm) (fun hun => (hesc.1 hun).below hun)
            (hlen'.trans hlen) ?_
          intro j a' a ha' ha
          by_cases hji : j = i
          · subst hji
            rw [hi] at ha'
            cases ha'
            refine ihp (h j r' a hr' ha) (hesc.2 a ha) hv' ?_
            intro w hw hil
            refine hinit w ?_ hil
            change f[j]?.bind _ = _
            rw [ha, Option.bind_some, hw]
          · rw [hj j hji] at ha'
            exact h j a' a ha' ha

theorem lookup_dictInsert (d : FlowDict) (root k : Root) (v : AbsRVal) :
    (dictInsert d root v).lookup k = if k = root then some v else d.lookup k := by
  induction d with
  | nil =>
    by_cases hk : k = root
    · simp [dictInsert, hk]
    · simp [dictInsert, hk]
  | cons e d ih =>
    obtain ⟨k', w⟩ := e
    by_cases hroot : k' = root
    · subst hroot
      by_cases hk : k = k'
      · simp [dictInsert, hk]
      · simp [dictInsert, List.lookup_cons, beq_false_of_ne hk, hk]
    · rw [dictInsert, if_neg hroot, List.lookup_cons, List.lookup_cons, ih]
      by_cases hk : k = k'
      · subst hk
        simp [hroot]
      · simp [beq_false_of_ne hk]

variable {d0 : FlowDict} {sh : Sharing}

/-- One place escapes: its new level is the one the value has, so the value above is initialised if
the level says so. -/
theorem FlowBelow.insert (h : FlowBelow d0 d) {v old v' : AbsRVal} (hv : d0.lookup p.root = some v)
    (hesc : v' ≠ v → ∀ w, d.lookup p.root = some w → EscapesAt d p.path w)
    (hold : CfFlowInfo.lookupPath p.path v = some old) (hil : initlevel d0 old = some il)
    (hv' : CfFlowInfo.insertPlaceOuter (.esc il) v sh p.path = some v') :
    FlowBelow (dictInsert d0 p.root v') d := by
  intro k w' w hw' hw
  rw [lookup_dictInsert] at hw'
  split at hw'
  · rename_i hk
    subst hk
    cases hw'
    by_cases hsame : v' = v
    · rw [hsame]
      exact h _ v w hv hw
    refine (h _ v w hv hw).insertPlaceOuter (hesc hsame w hw) hv' fun a ha hall => ?_
    subst hall
    have hbelow := (h _ v w hv hw).lookupPath hold ha
    exact h.init hbelow (init_of_initlevel hil)
  · exact h k w' w hw' hw

/-- `escapeThese` makes the place escape, with a change to the dictionary. -/
inductive Escaping : Sharing → List Place → FlowDict → Place → Prop
  | other {sh : Sharing} {p q : Place} {pile : List Place} {d : FlowDict}
      (hv : d.lookup p.root = none) (h : Escaping (sh.sub 0) pile d q) : Escaping sh (p :: pile) d q
  | here {sh : Sharing} {p : Place} {pile : List Place} {d : FlowDict} {v v' old : AbsRVal}
      {il : InitLevel} (hv : d.lookup p.root = some v)
      (hold : CfFlowInfo.lookupPath p.path v = some old) (hil : initlevel d old = some il)
      (hv' : insertPlaceOuter (.esc il) v sh p.path = some v') (hne : v' ≠ v) :
      Escaping sh (p :: pile) d p
  | later {sh : Sharing} {p q : Place} {pile : List Place} {d : FlowDict} {v v' old : AbsRVal}
      {il : InitLevel} (hv : d.lookup p.root = some v)
      (hold : CfFlowInfo.lookupPath p.path v = some old) (hil : initlevel d old = some il)
      (hv' : insertPlaceOuter (.esc il) v sh p.path = some v')
      (h : Escaping (sh.sub 1) (addPlaces pile old) (dictInsert d p.root v') q) :
      Escaping sh (p :: pile) d q

/-- Making places escape claims nothing new. -/
theorem FlowBelow.escape {pile : List Place} (hd' : escapeThese sh pile d0 = some d')
    (hesc : ∀ p, Escaping sh pile d0 p → ∀ w, d.lookup p.root = some w → EscapesAt d p.path w)
    (h : FlowBelow d0 d) : FlowBelow d' d := by
  fun_induction escapeThese sh pile d0 with
  | case1 =>
    cases hd'
    exact h
  | case2 _ _ _ _ hv ih => exact ih hd' (fun q hq => hesc q (.other hv hq)) h
  | case3 => cases hd'
  | case4 sh d0 p pile v hv old hold ih =>
    obtain ⟨il, hil, hd'⟩ := bind_eq_some_iff.1 hd'
    split at hd'
    · cases hd'
    · rename_i v' hv'
      exact ih il v' hv' hd' (fun q hq => hesc q (.later hv hold hil hv' hq))
        (h.insert hv (fun hne => hesc p (.here hv hold hil hv' hne)) hold hil hv')

end ConcurrentCyclone.CfFlowInfo
