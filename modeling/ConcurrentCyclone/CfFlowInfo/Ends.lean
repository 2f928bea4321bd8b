import ConcurrentCyclone.CfFlowInfo.Leaves
import Mathlib.Data.List.Chain

/-!
# The searches through a dictionary end

The loop of `escape_these` takes a place from the pile and puts on the pile what the place points
to, but every pointer it follows is gone from the dictionary: the places on the pile and the
pointers of the dictionary together get fewer (`EscapeStep.work_lt`). A unique pointer in the place
is gone as well, so the loop can meet a place that the dictionary does not have any more, which is
an internal error. If the places are `Apart` it does not, and all of them escape
(`escapeThese_escapes`); what an iteration does to the other places is `Fades`. The search of
`initlevel` is as deep as there are pointers; more depth changes nothing (`initlevelDeref_succ`). It
finds whether something that is not initialised can be reached (`Uninit`).
-/

set_option autoImplicit false

namespace ConcurrentCyclone.CfFlowInfo

open FixedPoint Relation

variable {d : FlowDict} {U : List Place} {p : Place} {deref deref' : Place → Option InitLevel}

/-! ## The loop over the pile -/

/-- One iteration of the loop of `escape_these`, on the pile and the dictionary. -/
inductive EscapeStep : List Place × FlowDict → List Place × FlowDict → Prop
  | absent {p : Place} {pile : List Place} {d : FlowDict} (h : d.lookup p.root = none) :
      EscapeStep (p :: pile, d) (pile, d)
  | escape {p : Place} {pile : List Place} {d : FlowDict} {v old v' : AbsRVal} {il : InitLevel}
      (sh : Sharing) (hv : d.lookup p.root = some v) (hold : lookupPath p.path v = some old)
      (hil : initlevel d old = some il) (hins : insertPlaceOuter (.esc il) v sh p.path = some v') :
      EscapeStep (p :: pile, d) (addPlaces pile old, dictInsert d p.root v')

/-- What is left to do: the places on the pile and the pointers that can still be put there. -/
def work (s : List Place × FlowDict) : Nat :=
  s.1.length + (dictAddresses s.2).length

theorem EscapeStep.work_lt {s s' : List Place × FlowDict} (h : EscapeStep s s') :
    work s' < work s := by
  cases h with
  | absent => simp [work]
  | @escape _ pile _ _ old v' _ _ hv hold _ hins =>
    have hpile := length_addPlaces_le old pile
    have hval := length_insertPlaceOuter (by rfl) hins hold
    have hdict := length_dictInsert hv v'
    simp only [work, List.length_cons]
    omega

theorem length_le_work {s : List Place × FlowDict} {ss : List (List Place × FlowDict)}
    (h : (s :: ss).IsChain EscapeStep) : ss.length ≤ work s := by
  induction ss generalizing s with
  | nil => exact Nat.zero_le _
  | cons s' ss ih =>
    obtain ⟨hstep, h⟩ := List.isChain_cons_cons.1 h
    have := hstep.work_lt
    have := ih h
    simp only [List.length_cons]
    omega

/-- The path leads to a part of the value, past names but not under a mark of consumption. -/
inductive PathTo : List PathCon → AbsRVal → AbsRVal → Prop
  | nil {r} : PathTo [] r r
  | namedLocation {c path n r w} (h : PathTo (c :: path) r w) :
      PathTo (c :: path) (.namedLocation n r) w
  | dot {path u} {d : List AbsRVal} {i r w} (hi : d[i]? = some r) (h : PathTo path r w) :
      PathTo (.dot i :: path) (.aggregate u d) w
  | star {path r w} (h : PathTo path r w) : PathTo (.star :: path) (.uniquePtr r) w

variable {path : List PathCon} {r w v v' old : AbsRVal} {il : InitLevel} {sh : Sharing}

theorem PathTo.lookupPath (h : PathTo path r w) : lookupPath path r = some w := by
  induction h with
  | nil => rfl
  | namedLocation _ ih | star _ ih => exact ih
  | dot hi _ ih =>
    change Option.bind _ _ = _
    rw [hi, Option.bind_some, ih]

theorem PathTo.not_underMark (h : PathTo path r w) : ¬ UnderMark path r := by
  intro hmark
  induction h with
  | nil => cases hmark
  | namedLocation _ ih =>
    cases hmark with
    | namedLocation hmark => exact ih hmark
  | star _ ih =>
    cases hmark with
    | star hmark => exact ih hmark
  | dot hi _ ih =>
    cases hmark with
    | dot hi' hmark =>
      cases hi.symm.trans hi'
      exact ih hmark

/-- The source stops at the place with an internal error: `insert_place_outer` or `lookup_place`
does not find its path, or `initlevel` meets a pointer that cannot be followed. -/
def Impos (d : FlowDict) (p : Place) : Prop :=
  ∃ v, d.lookup p.root = some v ∧
    ((∀ old, ¬ PathTo p.path v old) ∨ ∃ old, PathTo p.path v old ∧ initlevel d old = none)

/-- `escapeThese` makes these iterations until the pile is empty, or up to an internal error. -/
theorem escapeThese_run (sh : Sharing) (pile : List Place) (d : FlowDict) :
    (∃ d', escapeThese sh pile d = some d' ∧ ReflTransGen EscapeStep (pile, d) ([], d')) ∨
      escapeThese sh pile d = none ∧ ∃ p pile' d',
        ReflTransGen EscapeStep (pile, d) (p :: pile', d') ∧ Impos d' p := by
  fun_induction escapeThese sh pile d with
  | case1 sh d => exact .inl ⟨d, rfl, .refl⟩
  | case2 sh d p pile hv ih =>
    rcases ih with ⟨d', hd', hrun⟩ | ⟨hnone, q, pile', d', hrun, h⟩
    · exact .inl ⟨d', hd', .head (.absent hv) hrun⟩
    · exact .inr ⟨hnone, q, pile', d', .head (.absent hv) hrun, h⟩
  | case3 sh d p pile v hv hold =>
    refine .inr ⟨rfl, p, pile, d, .refl, v, hv, .inl fun old h => ?_⟩
    cases hold.symm.trans h.lookupPath
  | case4 sh d p pile v hv old hold ih =>
    have hpath : ∀ old', PathTo p.path v old' → old' = old := fun old' h =>
      Option.some.inj (h.lookupPath.symm.trans hold)
    cases hil : initlevel d old with
    | none =>
      refine .inr ⟨rfl, p, pile, d, .refl, v, hv, ?_⟩
      by_cases h : ∃ old', PathTo p.path v old'
      · obtain ⟨old', h⟩ := h
        exact .inr ⟨old', h, hpath old' h ▸ hil⟩
      · exact .inl (not_exists.1 h)
    | some il =>
      simp only [Option.bind_some]
      split
      · rename_i hins
        refine .inr ⟨rfl, p, pile, d, .refl, v, hv, .inl fun old' h => ?_⟩
        obtain ⟨v', hv', -⟩ := inserts_of_lookupPath h.lookupPath h.not_underMark
        cases hins.symm.trans hv'
      · rename_i v' hins
        have hstep : EscapeStep (p :: pile, d) _ := .escape sh hv hold hil hins
        rcases ih il v' hins with ⟨d', hd', hrun⟩ | ⟨hnone, q, pile', d', hrun, h⟩
        · exact .inl ⟨d', hd', .head hstep hrun⟩
        · exact .inr ⟨hnone, q, pile', d', .head hstep hrun, h⟩

/-! ## What an insertion changes -/

/-- All leaves of the value are escaped. -/
inductive Escaped : AbsRVal → Prop
  | esc (il : InitLevel) : Escaped (.esc il)
  | aggregate {u : UnionRInfo} {f : List AbsRVal} (h : ∀ r ∈ f, Escaped r) :
      Escaped (.aggregate u f)
  | consumed {e : ExpId} {i : Int} {r : AbsRVal} (h : Escaped r) : Escaped (.consumed e i r)
  | namedLocation {n : VarId} {r : AbsRVal} (h : Escaped r) : Escaped (.namedLocation n r)

/-- The value points to the place, not counting what is under a unique pointer. -/
inductive Points (q : Place) : AbsRVal → Prop
  | addressOf : Points q (.addressOf q)
  | consumed {e : ExpId} {i : Int} {r : AbsRVal} (h : Points q r) : Points q (.consumed e i r)
  | namedLocation {n : VarId} {r : AbsRVal} (h : Points q r) : Points q (.namedLocation n r)
  | field {u : UnionRInfo} {f : List AbsRVal} {r : AbsRVal} (hr : r ∈ f) (h : Points q r) :
      Points q (.aggregate u f)

theorem Points.mem_addresses {q : Place} (h : Points q r) : q ∈ r.addresses := by
  induction h with
  | addressOf => exact List.mem_singleton_self _
  | consumed _ ih | namedLocation _ ih => exact ih
  | field hr _ ih => exact mem_fieldAddresses hr ih

theorem mem_addPlaces {q : Place} {pile : List Place} (r : AbsRVal) :
    q ∈ addPlaces pile r ↔ q ∈ pile ∨ Points q r := by
  induction r using AbsRVal.induction generalizing pile with
  | addressOf p =>
    have hpoints : Points q (.addressOf p) ↔ q = p :=
      ⟨fun | .addressOf => rfl, fun h => h ▸ .addressOf⟩
    simp only [addPlaces, addPlace, hpoints]
    split_ifs with hp
    · exact ⟨.inl, fun h => h.elim id fun h => h ▸ hp⟩
    · rw [List.mem_cons, or_comm]
  | consumed e i r ih => exact ih.trans (or_congr_right ⟨.consumed, fun | .consumed h => h⟩)
  | namedLocation n r ih =>
    exact ih.trans (or_congr_right ⟨.namedLocation, fun | .namedLocation h => h⟩)
  | aggregate u f ih =>
    have hfields : q ∈ addFieldPlaces pile f ↔ q ∈ pile ∨ ∃ r ∈ f, Points q r := by
      induction f generalizing pile with
      | nil => simp [addFieldPlaces]
      | cons a f ihf =>
        obtain ⟨ha, hf⟩ := List.forall_mem_cons.1 ih
        rw [addFieldPlaces, ihf hf, ha, List.exists_mem_cons_iff, or_assoc]
    exact hfields.trans (or_congr_right
      ⟨fun ⟨r, hr, h⟩ => .field hr h, fun | .field hr h => ⟨_, hr, h⟩⟩)
  | _ => exact ⟨.inl, fun h => h.elim id fun h => by cases h⟩

/-- What becomes of a part of the value in which `old` escapes. -/
structure Fades (old r r' : AbsRVal) : Prop where
  escaped : Escaped r → Escaped r'
  points : ∀ q, Points q r → Points q r' ∨ Points q old
  addresses : ∀ q ∈ r'.addresses, q ∈ r.addresses
  valid : ∀ d, r.Valid d → r'.Valid d

theorem Fades.refl (old r : AbsRVal) : Fades old r r :=
  ⟨id, fun _ => .inl, fun _ => id, fun _ => id⟩

theorem LeavesAre.escaped (h : LeavesAre (.esc il) r) : Escaped r := by
  induction h with
  | leaf => exact .esc il
  | aggregate _ ih => exact .aggregate ih
  | consumed _ ih => exact .consumed ih
  | namedLocation _ ih => exact .namedLocation ih

theorem valid_insertPlaceInner (d : FlowDict) (il : InitLevel) (r : AbsRVal) :
    (insertPlaceInner (.esc il) r).Valid d := by
  induction r using AbsRVal.induction with
  | aggregate u f ih =>
    rw [insertPlaceInner, insertFieldsInner_eq_map]
    exact ⟨fun i _ h => (by cases h), fieldsValid_iff.2 (List.forall_mem_map.2 ih)⟩
  | consumed _ _ r ih | namedLocation _ r ih => exact ih
  | _ => exact trivial

theorem Fades.inner (h : ∀ q, Points q r → Points q old) :
    Fades old r (insertPlaceInner (.esc il) r) where
  escaped _ := (leavesAre_insertPlaceInner (.esc il) r).escaped
  points q hq := .inr (h q hq)
  addresses q hq := by
    rw [addresses_insertPlaceInner rfl] at hq
    cases hq
  valid d _ := valid_insertPlaceInner d il r

theorem Fades.namedLocation {n : VarId} (h : Fades old v v') :
    Fades old (.namedLocation n v) (.namedLocation n v') where
  escaped := fun | .namedLocation hv => .namedLocation (h.escaped hv)
  points q := fun | .namedLocation hq => (h.points q hq).imp_left .namedLocation
  addresses := h.addresses
  valid := h.valid

theorem Fades.uniquePtr (h : Fades old v v') : Fades old (.uniquePtr v) (.uniquePtr v') where
  escaped hv := by cases hv
  points q hq := by cases hq
  addresses := h.addresses
  valid := h.valid

theorem Fades.aggregate {u : UnionRInfo} {f f' : List AbsRVal} {b : Bool}
    (hlen : f'.length = f.length)
    (h : ∀ (i : Nat) a a', f[i]? = some a → f'[i]? = some a' → Fades old a a') :
    Fades old (.aggregate u f) (.aggregate ⟨b, none⟩ f') := by
  have hfrom : ∀ a' ∈ f', ∃ a ∈ f, Fades old a a' := by
    intro a' ha'
    obtain ⟨i, hi'⟩ := List.mem_iff_getElem?.1 ha'
    obtain ⟨a, hi⟩ := exists_getElem?_of_length_eq hlen hi'
    exact ⟨a, List.mem_of_getElem? hi, h i a a' hi hi'⟩
  refine ⟨?_, ?_, ?_, ?_⟩
  · rintro (_ | hf)
    refine .aggregate fun a' ha' => ?_
    obtain ⟨a, ha, hfade⟩ := hfrom a' ha'
    exact hfade.escaped (hf a ha)
  · rintro q (_ | _ | _ | ⟨ha, hq⟩)
    obtain ⟨i, hi⟩ := List.mem_iff_getElem?.1 ha
    obtain ⟨a', hi'⟩ := exists_getElem?_of_length_eq hlen.symm hi
    exact ((h i _ a' hi hi').points q hq).imp_left (.field (List.mem_of_getElem? hi'))
  · intro q hq
    obtain ⟨a', ha', hq⟩ := AbsRVal.Valid.isSome_lookupPlace.exists_of_mem_fieldAddresses hq
    obtain ⟨a, ha, hfade⟩ := hfrom a' ha'
    exact mem_fieldAddresses ha (hfade.addresses q hq)
  · refine fun d hd => ⟨fun i _ hi => (by cases hi), fieldsValid_iff.2 fun a' ha' => ?_⟩
    obtain ⟨a, ha, hfade⟩ := hfrom a' ha'
    exact hfade.valid d (fieldsValid_iff.1 hd.2 a ha)

/-- A path without dereferences leads on, in a value whose leaves are replaced. -/
theorem PathTo.inner (h : PathTo path r w) (hstar : .star ∉ path) :
    PathTo path (insertPlaceInner v r) (insertPlaceInner v w) ∧
      ∀ q, Points q w → Points q r := by
  induction h with
  | nil => exact ⟨.nil, fun _ => id⟩
  | namedLocation _ ih =>
    exact ⟨.namedLocation (ih hstar).1, fun q hq => .namedLocation ((ih hstar).2 q hq)⟩
  | dot hi _ ih =>
    obtain ⟨hpath, hpoints⟩ := ih fun h => hstar (.tail _ h)
    rw [insertPlaceInner, insertFieldsInner_eq_map]
    refine ⟨.dot ?_ hpath, fun q hq => .field (List.mem_of_getElem? hi) (hpoints q hq)⟩
    rw [List.getElem?_map, hi, Option.map_some]
  | star => exact absurd (.head _) hstar

/-- A part whose path does not lead through a unique pointer in the place that escapes is still
there. -/
theorem PathTo.insert {q : List PathCon} (h : PathTo path v old)
    (hv' : insertPlaceOuter (.esc il) v sh path = some v') (hr : PathTo q v r)
    (hstar : ∀ rest, q = path ++ rest → .star ∉ rest) :
    ∃ r', PathTo q v' r' ∧ Fades old r r' := by
  induction h generalizing q r v' sh with
  | nil =>
    rw [insertPlaceOuter, Option.some.injEq] at hv'
    subst hv'
    obtain ⟨hpath, hpoints⟩ := hr.inner (hstar q rfl)
    exact ⟨_, hpath, .inner hpoints⟩
  | namedLocation _ ih =>
    simp only [insertPlaceOuter, Option.map_eq_some_iff] at hv'
    obtain ⟨v₁, hv₁, rfl⟩ := hv'
    cases hr with
    | nil =>
      obtain ⟨r', hr', hfade⟩ := ih hv₁ .nil (by simp)
      cases hr'
      exact ⟨_, .nil, hfade.namedLocation⟩
    | namedLocation hr =>
      obtain ⟨r', hr', hfade⟩ := ih hv₁ hr hstar
      exact ⟨r', hr'.namedLocation, hfade⟩
  | star _ ih =>
    simp only [insertPlaceOuter, Option.map_eq_some_iff] at hv'
    obtain ⟨v₁, hv₁, rfl⟩ := hv'
    cases hr with
    | nil =>
      obtain ⟨r', hr', hfade⟩ := ih hv₁ .nil (by simp)
      cases hr'
      exact ⟨_, .nil, hfade.uniquePtr⟩
    | star hr =>
      obtain ⟨r', hr', hfade⟩ := ih hv₁ hr fun rest h => hstar rest (congrArg _ h)
      exact ⟨r', hr'.star, hfade⟩
  | @dot path u f i a _ hi _ ih =>
    simp only [insertPlaceOuter, Option.map_eq_some_iff] at hv'
    obtain ⟨⟨f', changed⟩, hf, rfl⟩ := hv'
    cases changed with
    | false => exact ⟨r, hr, .refl _ r⟩
    | true =>
      obtain ⟨hlen, sh', a₀, a', ha₀, ha', hi', hj⟩ := insertNthOuter_getElem? hf
      cases hi.symm.trans ha₀
      cases hr with
      | nil =>
        refine ⟨_, .nil, .aggregate hlen fun j b b' hb hb' => ?_⟩
        by_cases hji : j = i
        · subst hji
          cases hi.symm.trans hb
          cases hi'.symm.trans hb'
          obtain ⟨r', hr', hfade⟩ := ih ha' .nil (by simp)
          cases hr'
          exact hfade
        · cases hb.symm.trans ((hj j hji).symm.trans hb')
          exact .refl _ _
      | @dot q _ _ j b _ hb hr =>
        by_cases hji : j = i
        · subst hji
          cases hi.symm.trans hb
          obtain ⟨r', hr', hfade⟩ := ih ha' hr fun rest h => hstar rest (congrArg _ h)
          exact ⟨r', .dot hi' hr', hfade⟩
        · exact ⟨r, .dot ((hj j hji).trans hb) hr, .refl _ r⟩

/-! ## The escape is carried out -/

/-- The place is in the dictionary and does not lead under a mark of consumption. -/
def PlaceTo (d : FlowDict) (p : Place) (r : AbsRVal) : Prop :=
  ∃ v, d.lookup p.root = some v ∧ PathTo p.path v r

/-- The places are in the dictionary, if their roots are, and no path leads through a unique pointer
in another one of the places: that pointer is gone once the other place has escaped. -/
structure Apart (d : FlowDict) (W : List Place) : Prop where
  found : ∀ p ∈ W, (d.lookup p.root).isSome → ∃ r, PlaceTo d p r
  star : ∀ p ∈ W, ∀ q ∈ W, p.root = q.root → ∀ rest, q.path = p.path ++ rest → .star ∉ rest

/-- The places that are to escape: those on the pile and what they point to. -/
inductive Escapees (d : FlowDict) (pile : List Place) : Place → Prop
  | pile {p : Place} (hp : p ∈ pile) : Escapees d pile p
  | pointee {p q : Place} {r : AbsRVal} (hp : Escapees d pile p) (hr : lookupPlace d p = some r)
      (hq : Points q r) : Escapees d pile q

/-- What the loop keeps: the places on the pile and the pointers are among `W`. -/
structure Carries (W : List Place) (s : List Place × FlowDict) : Prop where
  valid : FlowValid s.2
  apart : Apart s.2 W
  pile : ∀ p ∈ s.1, p ∈ W
  addresses : ∀ k v, s.2.lookup k = some v → ∀ p ∈ v.addresses, p ∈ W

variable {W pile : List Place} {d' : FlowDict} {s s' : List Place × FlowDict} {q : Place}

theorem PlaceTo.lookupPlace (h : PlaceTo d p r) : lookupPlace d p = some r := by
  obtain ⟨v, hv, hpath⟩ := h
  exact Option.bind_eq_some_iff.2 ⟨v, hv, hpath.lookupPath⟩

theorem Apart.placeTo (h : Apart d W) (hp : p ∈ W) (hr : lookupPlace d p = some r) :
    PlaceTo d p r := by
  obtain ⟨v, hv, -⟩ := Option.bind_eq_some_iff.1 hr
  obtain ⟨r', hr'⟩ := h.found p hp (by rw [hv, Option.isSome_some])
  cases hr'.lookupPlace.symm.trans hr
  exact hr'

/-- What one iteration does to the places of `W`, where `old` is the value that escapes. -/
theorem Apart.insert (h : Apart d W) (hp : p ∈ W) (hv : d.lookup p.root = some v)
    (hold : PathTo p.path v old) (hv' : insertPlaceOuter (.esc il) v sh p.path = some v')
    (hq : q ∈ W) (hr : PlaceTo d q r) :
    ∃ r', PlaceTo (dictInsert d p.root v') q r' ∧ Fades old r r' := by
  obtain ⟨w, hw, hr⟩ := hr
  by_cases hroot : q.root = p.root
  · rw [hroot, hv, Option.some.injEq] at hw
    subst hw
    obtain ⟨r', hr', hfade⟩ := hold.insert hv' hr (h.star p hp q hq hroot.symm)
    exact ⟨r', ⟨v', by rw [lookup_dictInsert, if_pos hroot], hr'⟩, hfade⟩
  · exact ⟨r, ⟨w, by rw [lookup_dictInsert, if_neg hroot, hw], hr⟩, .refl _ r⟩

theorem Carries.pathTo (h : Carries W (p :: pile, d)) (hv : d.lookup p.root = some v)
    (hold : lookupPath p.path v = some old) : PathTo p.path v old := by
  obtain ⟨v₀, hv₀, hpath⟩ :=
    h.apart.placeTo (h.pile p (.head _)) (Option.bind_eq_some_iff.2 ⟨v, hv, hold⟩)
  cases hv.symm.trans hv₀
  exact hpath

theorem Carries.step (h : Carries W s) (hs : EscapeStep s s') : Carries W s' := by
  cases hs with
  | absent => exact ⟨h.valid, h.apart, fun p hp => h.pile p (.tail _ hp), h.addresses⟩
  | @escape p pile d v old v' il sh hv hold hil hins =>
    have hp := h.pile p (.head _)
    have hpath := h.pathTo hv hold
    obtain ⟨v₁, hv₁, hfade⟩ := hpath.insert hins .nil (by simp)
    cases hv₁
    have haddresses : ∀ k w, (dictInsert d p.root v').lookup k = some w →
        w.Valid d ∧ ∀ q ∈ w.addresses, q ∈ W := by
      intro k w hw
      rw [lookup_dictInsert] at hw
      split_ifs at hw
      · cases hw
        exact ⟨hfade.valid d (h.valid _ v hv),
          fun q hq => h.addresses _ v hv q (hfade.addresses q hq)⟩
      · exact ⟨h.valid k w hw, h.addresses k w hw⟩
    have hkeeps : ∀ q ∈ W, ∀ r, PlaceTo d q r → ∃ r', PlaceTo (dictInsert d p.root v') q r' := by
      intro q hq r hr
      obtain ⟨r', hr', -⟩ := h.apart.insert hp hv hpath hins hq hr
      exact ⟨r', hr'⟩
    refine ⟨fun k w hw => ?_, ⟨fun q hq hroot => ?_, h.apart.star⟩, fun q hq => ?_,
      fun k w hw => (haddresses k w hw).2⟩
    · obtain ⟨hvalid, hW⟩ := haddresses k w hw
      refine valid_of_addresses hvalid fun q hq => ?_
      obtain ⟨r, hr⟩ := Option.isSome_iff_exists.1 (hvalid.isSome_lookupPlace q hq)
      obtain ⟨r', hr'⟩ := hkeeps q (hW q hq) r (h.apart.placeTo (hW q hq) hr)
      rw [hr'.lookupPlace, Option.isSome_some]
    · have hroot : (d.lookup q.root).isSome := by
        rw [lookup_dictInsert] at hroot
        split_ifs at hroot with heq
        · rw [heq, hv, Option.isSome_some]
        · exact hroot
      obtain ⟨r, hr⟩ := h.apart.found q hq hroot
      exact hkeeps q hq r hr
    · rcases (mem_addPlaces old).1 hq with hq | hq
      · exact h.pile q (.tail _ hq)
      · exact h.addresses _ v hv q (addresses_lookupPath hold q hq.mem_addresses)

theorem Carries.run (h : Carries W s) (hrun : ReflTransGen EscapeStep s s') : Carries W s' := by
  induction hrun with
  | refl => exact h
  | tail _ hs ih => exact ih.step hs

theorem Carries.escaped_step (h : Carries W s) (hs : EscapeStep s s') (hq : q ∈ W)
    (hr : ∃ r, PlaceTo s.2 q r ∧ Escaped r) : ∃ r, PlaceTo s'.2 q r ∧ Escaped r := by
  obtain ⟨r, hr, hesc⟩ := hr
  cases hs with
  | absent => exact ⟨r, hr, hesc⟩
  | escape _ hv hold _ hins =>
    obtain ⟨r', hr', hfade⟩ :=
      h.apart.insert (h.pile _ (.head _)) hv (h.pathTo hv hold) hins hq hr
    exact ⟨r', hr', hfade.escaped hesc⟩

theorem Carries.escaped_run (h : Carries W s) (hrun : ReflTransGen EscapeStep s s') (hq : q ∈ W)
    (hr : ∃ r, PlaceTo s.2 q r ∧ Escaped r) : ∃ r, PlaceTo s'.2 q r ∧ Escaped r := by
  induction hrun with
  | refl => exact hr
  | tail hrun hs ih => exact (h.run hrun).escaped_step hs hq ih

theorem Carries.mem_of_escapees (h : Carries W s) (hq : Escapees s.2 s.1 q) : q ∈ W := by
  induction hq with
  | pile hp => exact h.pile _ hp
  | pointee _ hr hq =>
    obtain ⟨v, hv, hpath⟩ := Option.bind_eq_some_iff.1 hr
    exact h.addresses _ v hv _ (addresses_lookupPath hpath _ hq.mem_addresses)

theorem Escapees.of_absent (hp : d.lookup p.root = none) (hq : Escapees d (p :: pile) q) :
    q = p ∨ Escapees d pile q := by
  induction hq with
  | pile hq => exact (List.mem_cons.1 hq).imp_right .pile
  | pointee _ hr hq ih =>
    rcases ih with rfl | ih
    · rw [lookupPlace, hp] at hr
      cases hr
    · exact .inr (.pointee ih hr hq)

/-- The pointers that are lost in an iteration are on the pile. -/
theorem Carries.escapees (h : Carries W (p :: pile, d)) (hv : d.lookup p.root = some v)
    (hold : lookupPath p.path v = some old)
    (hv' : insertPlaceOuter (.esc il) v sh p.path = some v') (hq : Escapees d (p :: pile) q) :
    q = p ∨ Escapees (dictInsert d p.root v') (addPlaces pile old) q := by
  have hpoints : ∀ q, Points q old → Escapees (dictInsert d p.root v') (addPlaces pile old) q :=
    fun q hq => .pile ((mem_addPlaces old).2 (.inr hq))
  induction hq with
  | pile hq =>
    exact (List.mem_cons.1 hq).imp_right fun hq => .pile ((mem_addPlaces old).2 (.inl hq))
  | @pointee x q r hx hr hq ih =>
    refine .inr ?_
    rcases ih with rfl | ih
    · cases hr.symm.trans (Option.bind_eq_some_iff.2 ⟨v, hv, hold⟩)
      exact hpoints q hq
    · have hxW : x ∈ W := h.mem_of_escapees hx
      obtain ⟨r', hr', hfade⟩ := h.apart.insert (h.pile p (.head _)) hv (h.pathTo hv hold) hv' hxW
        (h.apart.placeTo hxW hr)
      exact (hfade.points q hq).elim (.pointee ih hr'.lookupPlace) (hpoints q)

theorem Carries.escapes (h : Carries W s) (hrun : ReflTransGen EscapeStep s ([], d'))
    (hq : Escapees s.2 s.1 q) (hroot : (s.2.lookup q.root).isSome) :
    ∃ r, PlaceTo d' q r ∧ Escaped r := by
  induction hrun using ReflTransGen.head_induction_on with
  | refl =>
    have hnone : ∀ q, ¬ Escapees d' [] q := by
      intro q hq
      induction hq with
      | pile hp => cases hp
      | pointee _ _ _ ih => exact ih
    exact absurd hq (hnone q)
  | @head s s' hs hrun ih =>
    have hcarry := h.step hs
    cases hs with
    | absent hp =>
      rcases hq.of_absent hp with rfl | hq
      · rw [hp] at hroot
        cases hroot
      · exact ih hcarry hq hroot
    | @escape p pile d v old v' il sh hv hold hil hins =>
      rcases h.escapees hv hold hins hq with rfl | hq
      · refine hcarry.escaped_run hrun (h.pile _ (.head _)) ?_
        have hpath := h.pathTo hv hold
        have hinserts : Inserts (.esc il) v sh q.path :=
          inserts_of_lookupPath hold hpath.not_underMark
        obtain ⟨v₁, hv₁, x, hx, hleaves⟩ := hinserts
        cases hins.symm.trans hv₁
        have hlookup : lookupPlace (dictInsert d q.root v') q = some x := by
          rw [lookupPlace, lookup_dictInsert, if_pos rfl, Option.bind_some, hx]
        exact ⟨x, hcarry.apart.placeTo (h.pile _ (.head _)) hlookup, hleaves.escaped⟩
      · refine ih hcarry hq ?_
        rw [lookup_dictInsert]
        split_ifs
        · rfl
        · exact hroot

/-- The escape is carried out, and everything that is to escape has escaped after it. -/
theorem escapeThese_escapes (hd : FlowValid d) (h : Apart d (pile ++ dictAddresses d)) :
    ∃ d', escapeThese sh pile d = some d' ∧ ∀ p, Escapees d pile p → (d.lookup p.root).isSome →
      ∃ r, lookupPlace d' p = some r ∧ Escaped r := by
  have hcarry : Carries (pile ++ dictAddresses d) (pile, d) :=
    ⟨hd, h, fun p => List.mem_append_left _, fun k v hv p hp =>
      List.mem_append_right _ (addresses_lookupPlace (q := ⟨k, []⟩) (by simp [lookupPlace, hv,
        lookupPath]) p hp)⟩
  rcases escapeThese_run sh pile d with ⟨d', hd', hrun⟩ | ⟨-, p, pile', d', hrun, v, hv, himpos⟩
  · refine ⟨d', hd', fun p hp hroot => ?_⟩
    obtain ⟨r, hr, hesc⟩ := hcarry.escapes hrun hp hroot
    exact ⟨r, hr.lookupPlace, hesc⟩
  · have hcarry' := hcarry.run hrun
    obtain ⟨r, v', hv', hr⟩ := hcarry'.apart.found p (hcarry'.pile p (.head _)) (by rw [hv]; rfl)
    cases hv.symm.trans hv'
    rcases himpos with hno | ⟨old, hold, hil⟩
    · exact absurd hr (hno r)
    · have hvalid := (hcarry'.valid _ v hv).lookupPath hold.lookupPath
      obtain ⟨il, hil', -⟩ := initlevel_total hcarry'.valid hvalid
      cases hil.symm.trans hil'

/-! ## The depth of the search -/

theorem initlevelAll_congr {f : List AbsRVal} (acc : InitLevel)
    (h : ∀ r ∈ f, ∀ acc, initlevelRec deref r acc = initlevelRec deref' r acc) :
    initlevelAll deref f acc = initlevelAll deref' f acc := by
  induction f generalizing acc with
  | nil => rfl
  | cons r f ih =>
    obtain ⟨hr, hf⟩ := List.forall_mem_cons.1 h
    rw [initlevelAll, initlevelAll, hr acc]
    exact Option.bind_congr fun acc _ => ih acc hf

theorem initlevelSome_congr {f : List AbsRVal}
    (h : ∀ r ∈ f, ∀ acc, initlevelRec deref r acc = initlevelRec deref' r acc) :
    initlevelSome deref f = initlevelSome deref' f := by
  induction f with
  | nil => rfl
  | cons r f ih =>
    obtain ⟨hr, hf⟩ := List.forall_mem_cons.1 h
    rw [initlevelSome, initlevelSome, hr, ih hf]

theorem initlevelRec_congr (r : AbsRVal) (acc : InitLevel)
    (h : ∀ p ∈ r.addresses, deref p = deref' p) :
    initlevelRec deref r acc = initlevelRec deref' r acc := by
  cases acc with
  | noneIL => simp
  | allIL =>
    induction r using AbsRVal.induction with
    | addressOf p => exact h p (List.mem_singleton_self p)
    | uniquePtr r ih | namedLocation _ r ih => exact ih h
    | aggregate u f ih =>
      have hf : ∀ r ∈ f, ∀ acc, initlevelRec deref r acc = initlevelRec deref' r acc := by
        intro r hr acc
        cases acc with
        | noneIL => simp
        | allIL => exact ih r hr fun p hp => h p (mem_fieldAddresses hr hp)
      have hnth : ∀ i, initlevelNth deref f i = initlevelNth deref' f i := by
        intro i
        rw [initlevelNth_eq, initlevelNth_eq]
        exact Option.bind_congr fun r hr => hf r (List.mem_of_getElem? hr) .allIL
      simp only [initlevelRec, initlevelAll_congr _ hf, initlevelSome_congr hf, hnth]
    | _ => rfl

theorem initlevelDeref_succ (hU : ∀ p ∈ dictAddresses d, p ∈ U) {fuel : Nat}
    (hfuel : U.length ≤ fuel) :
    ∀ p ∈ U, initlevelDeref d (fuel + 1) [] p = initlevelDeref d fuel [] p := by
  refine Worklist.stack_induction (motive := fun fuel seen p =>
    initlevelDeref d (fuel + 1) seen p = initlevelDeref d fuel seen p) ?_ ?_ hfuel
  · intro fuel seen p hmem
    cases fuel <;> simp [initlevelDeref, hmem]
  · intro fuel seen p _ hmem ih
    rw [initlevelDeref, initlevelDeref, if_neg hmem, if_neg hmem]
    refine Option.bind_congr fun r hr => initlevelRec_congr r _ fun q hq => ?_
    exact ih q (hU q (addresses_lookupPlace hr q hq))

/-- `initlevel` with a search that may go deeper. -/
theorem initlevel_deeper (d : FlowDict) (r : AbsRVal) (k : Nat) :
    initlevelRec (initlevelDeref d ((r.addresses ++ dictAddresses d).length + k) []) r .allIL =
      initlevel d r := by
  induction k with
  | zero => rfl
  | succ k ih =>
    rw [← ih]
    refine initlevelRec_congr r _ fun p hp => ?_
    exact initlevelDeref_succ (fun q hq => List.mem_append_right r.addresses hq)
      (Nat.le_add_right _ _) p (List.mem_append_left (dictAddresses d) hp)

/-! ## What is not initialised -/

/-- Something that is not initialised, or was consumed, can be reached from the value. -/
inductive Uninit (d : FlowDict) : AbsRVal → Prop
  | unknownR : Uninit d (.unknownR .noneIL)
  | esc : Uninit d (.esc .noneIL)
  | consumed {e : ExpId} {i : Int} {r : AbsRVal} : Uninit d (.consumed e i r)
  | addressOf {p : Place} {r : AbsRVal} (hr : lookupPlace d p = some r) (h : Uninit d r) :
      Uninit d (.addressOf p)
  | uniquePtr {r : AbsRVal} (h : Uninit d r) : Uninit d (.uniquePtr r)
  | struct {u : UnionRInfo} {f : List AbsRVal} {r : AbsRVal} (hu : u.isUnion = false)
      (hr : r ∈ f) (h : Uninit d r) : Uninit d (.aggregate u f)
  | unionField {u : UnionRInfo} {f : List AbsRVal} {i : Nat} {r : AbsRVal} (hu : u.isUnion = true)
      (hi : u.fieldnum = some i) (hr : f[i]? = some r) (h : Uninit d r) :
      Uninit d (.aggregate u f)
  | unionAll {u : UnionRInfo} {f : List AbsRVal} (hu : u.isUnion = true)
      (hi : u.fieldnum = none) (h : ∀ r ∈ f, Uninit d r) : Uninit d (.aggregate u f)
  | namedLocation {n : VarId} {r : AbsRVal} (h : Uninit d r) : Uninit d (.namedLocation n r)

theorem Uninit.not_init {r : AbsRVal} (h : Uninit d r) : ¬ Init d r := by
  induction h with
  | unknownR | esc | consumed => exact nofun
  | addressOf hr _ ih =>
    intro h
    cases h with
    | addressOf h =>
      obtain ⟨r', hr', hinit⟩ := h.unfold (InitStep.monotonic d)
      rw [hr, Option.some.injEq] at hr'
      exact ih (hr' ▸ hinit.mono fun q _ hq => hq.resolve_right id)
  | uniquePtr _ ih => exact fun | .uniquePtr h => ih h
  | namedLocation _ ih => exact fun | .namedLocation h => ih h
  | struct hu hr _ ih =>
    intro h
    cases h with
    | struct _ h => exact ih (h _ hr)
    | unionField hu' | unionSome hu' => exact absurd (hu.symm.trans hu') Bool.false_ne_true
  | unionField hu hi hr _ ih =>
    intro h
    cases h with
    | struct hu' => exact absurd (hu'.symm.trans hu) Bool.false_ne_true
    | unionField _ hi' hr' h =>
      cases hi.symm.trans hi'
      cases hr.symm.trans hr'
      exact ih h
    | unionSome _ hi' => cases hi.symm.trans hi'
  | unionAll hu hi _ ih =>
    intro h
    cases h with
    | struct hu' => exact absurd (hu'.symm.trans hu) Bool.false_ne_true
    | unionField _ hi' => cases hi.symm.trans hi'
    | unionSome _ _ hr h => exact ih _ hr h

/-- The places from which nothing uninitialised can be reached. -/
def Clean (d : FlowDict) (p : Place) : Prop :=
  ∃ r, lookupPlace d p = some r ∧ r.Valid d ∧ ¬ Uninit d r

theorem initGiven_clean (hd : FlowValid d) (r : AbsRVal) (h : r.Valid d) (hn : ¬ Uninit d r) :
    InitGiven (Clean d) r := by
  induction r using AbsRVal.induction with
  | zero | notZeroAll => constructor
  | unknownR il | esc il =>
    cases il with
    | allIL => constructor
    | noneIL => exact absurd (by constructor) hn
  | consumed => exact absurd .consumed hn
  | addressOf p =>
    obtain ⟨r, hr⟩ := Option.isSome_iff_exists.1 h
    obtain ⟨v, hv, hpath⟩ := Option.bind_eq_some_iff.1 hr
    exact .addressOf ⟨r, hr, (hd _ v hv).lookupPath hpath, fun h => hn (.addressOf hr h)⟩
  | uniquePtr r ih => exact .uniquePtr (ih h fun h => hn (.uniquePtr h))
  | namedLocation _ r ih => exact .namedLocation (ih h fun h => hn (.namedLocation h))
  | aggregate u f ih =>
    have hf := fun r hr => ih r hr (fieldsValid_iff.1 h.2 r hr)
    match u with
    | ⟨false, i⟩ => exact .struct rfl fun r hr => hf r hr fun h => hn (.struct rfl hr h)
    | ⟨true, some i⟩ =>
      have hr := List.getElem?_eq_getElem (h.1 i rfl rfl)
      exact .unionField rfl rfl hr (hf _ (List.getElem_mem _) fun h =>
        hn (.unionField rfl rfl hr h))
    | ⟨true, none⟩ =>
      have hsome : ∃ r ∈ f, ¬ Uninit d r := by
        by_contra hall
        exact hn (.unionAll rfl rfl fun r hr => by_contra fun h => hall ⟨r, hr, h⟩)
      obtain ⟨r, hr, hn⟩ := hsome
      exact .unionSome rfl rfl hr (hf r hr hn)

/-- A value is initialised if nothing uninitialised can be reached from it. -/
theorem init_iff_not_uninit (hd : FlowValid d) {r : AbsRVal} (hr : r.Valid d) :
    Init d r ↔ ¬ Uninit d r := by
  refine ⟨fun h hu => hu.not_init h, fun hn => (initGiven_clean hd r hr hn).mono fun p _ hp => ?_⟩
  refine Assuming.coinduct (InitStep.monotonic d) (X := Clean d) ?_ hp
  rintro q ⟨r, hr, hvalid, hn⟩
  exact ⟨r, hr, (initGiven_clean hd r hvalid hn).mono fun c _ hc => .inl hc⟩

/-- From every pile the loop of `escape_these` makes no more iterations than there are places on the
pile and pointers in the dictionary; it stops before the pile is empty only at an internal error.
There is none if the pointers and the pile name places, and no such place is under a mark of
consumption or a unique pointer that escapes with another one: then everything on the pile and all
that it points to escapes. No call of `initlevel` searches deeper than there are pointers, and if
the pointers name places then it finds the level. -/
theorem escape_initlevel_end (d : FlowDict) :
    (∀ pile ss, ((pile, d) :: ss).IsChain EscapeStep →
      ss.length ≤ pile.length + (dictAddresses d).length) ∧
    (∀ sh pile, (∃ d', escapeThese sh pile d = some d' ∧
        ReflTransGen EscapeStep (pile, d) ([], d')) ∨
      escapeThese sh pile d = none ∧ ∃ p pile' d',
        ReflTransGen EscapeStep (pile, d) (p :: pile', d') ∧ Impos d' p) ∧
    (FlowValid d → ∀ sh pile, Apart d (pile ++ dictAddresses d) →
      ∃ d', escapeThese sh pile d = some d' ∧ ∀ p, Escapees d pile p →
        (d.lookup p.root).isSome → ∃ r, lookupPlace d' p = some r ∧ Escaped r) ∧
    (∀ r k, initlevelRec (initlevelDeref d ((r.addresses ++ dictAddresses d).length + k) []) r
      .allIL = initlevel d r) ∧
    (FlowValid d → ∀ r : AbsRVal, r.Valid d →
      ∃ il, initlevel d r = some il ∧ (il = .allIL ↔ ¬ Uninit d r)) := by
  refine ⟨fun _ _ h => length_le_work h, fun sh pile => escapeThese_run sh pile d,
    fun hd _ _ h => escapeThese_escapes hd h, initlevel_deeper d, fun hd r hr => ?_⟩
  obtain ⟨il, hil, hiff⟩ := initlevel_total hd hr
  exact ⟨il, hil, hiff.trans (init_iff_not_uninit hd hr)⟩

/-- Two places that point to each other, one in a field beside a consumed value. -/
def cyclicDict : FlowDict :=
  [(.varRoot 0, .aggregate ⟨false, none⟩
      [.addressOf ⟨.varRoot 1, []⟩, .consumed 0 0 .zero]),
    (.varRoot 1, .uniquePtr (.addressOf ⟨.varRoot 0, [.dot 0]⟩))]

theorem flowValid_cyclicDict : FlowValid cyclicDict := by
  intro k v hv
  have hmem : (k, v) ∈ cyclicDict := by
    obtain ⟨l1, l2, h, -⟩ := List.lookup_eq_some_iff.1 hv
    exact h ▸ List.mem_append_right _ (.head _)
  simp only [cyclicDict, List.mem_cons, List.not_mem_nil, or_false] at hmem
  rcases hmem with ⟨-, rfl⟩ | ⟨-, rfl⟩
  · exact ⟨fun i hu => absurd hu Bool.false_ne_true, rfl, trivial, trivial⟩
  · exact rfl

theorem apart_cyclicDict :
    Apart cyclicDict ([⟨.varRoot 0, [.dot 0]⟩] ++ dictAddresses cyclicDict) := by
  have hmem : ∀ p ∈ [⟨.varRoot 0, [.dot 0]⟩] ++ dictAddresses cyclicDict,
      p = ⟨.varRoot 1, []⟩ ∨ p = ⟨.varRoot 0, [.dot 0]⟩ := by decide
  refine ⟨fun p hp _ => ?_, fun p _ q hq _ rest hrest hstar => ?_⟩
  · rcases hmem p hp with rfl | rfl
    · exact ⟨_, _, rfl, .nil⟩
    · exact ⟨_, _, rfl, .dot rfl .nil⟩
  · have hq' : .star ∈ q.path := hrest ▸ List.mem_append_right _ hstar
    rcases hmem q hq with rfl | rfl
    · cases hq'
    · simp at hq'

/-- The field escapes, and with it the place that it points to. -/
theorem escape_initlevel_end_cyclicDict : initlevel cyclicDict
    (.addressOf ⟨.varRoot 0, [.dot 0]⟩) = some .allIL ∧ ¬ Uninit cyclicDict
      (.addressOf ⟨.varRoot 0, [.dot 0]⟩) ∧
    (∃ il, initlevel cyclicDict (.addressOf ⟨.varRoot 0, []⟩) = some il ∧
      (il = .allIL ↔ ¬ Uninit cyclicDict (.addressOf ⟨.varRoot 0, []⟩))) ∧
    ∃ d', escapeThese .none [⟨.varRoot 0, [.dot 0]⟩] cyclicDict = some d' ∧
      ∃ r, lookupPlace d' ⟨.varRoot 1, []⟩ = some r ∧ Escaped r := by
  obtain ⟨-, -, hescape, -, h⟩ := escape_initlevel_end cyclicDict
  obtain ⟨d', hd', hesc⟩ :=
    hescape flowValid_cyclicDict .none [⟨.varRoot 0, [.dot 0]⟩] apart_cyclicDict
  have h := h flowValid_cyclicDict
  obtain ⟨il, hil, hiff⟩ := h (.addressOf ⟨.varRoot 0, [.dot 0]⟩) rfl
  have hall : initlevel cyclicDict (.addressOf ⟨.varRoot 0, [.dot 0]⟩) = some .allIL := by decide
  rw [hall, Option.some.injEq] at hil
  refine ⟨hall, hiff.1 hil.symm, h (.addressOf ⟨.varRoot 0, []⟩) rfl, d', hd', ?_⟩
  exact hesc _ (.pointee (.pile (.head _)) rfl .addressOf) rfl

end ConcurrentCyclone.CfFlowInfo
