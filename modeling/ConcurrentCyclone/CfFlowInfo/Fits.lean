import ConcurrentCyclone.CfFlowInfo.Below
import ConcurrentCyclone.CfFlowInfo.Joins

/-!
# Joins of values that fit together

Two values fit together (`Fits`) if the join, on its way down through both of them, never meets a
unique pointer with a value that is not zero, or two aggregates of different kinds. Two unions that
it meets must have the same last field, or be initialised in all fields, because the join forgets
the last field otherwise. If the comparison is to decide the join, it must not meet two consumed
values that both have parts either, because it does not look at them.

What the join makes of two such values is a relation, `Joined`, that does not tell the two sides
apart (`Joined.symm`). The join is below both values (`Joined.below_left`).
-/

set_option autoImplicit false

namespace ConcurrentCyclone.CfFlowInfo

open Option (bind_eq_some_iff map_eq_some_iff)

def AbsRVal.isNamed : AbsRVal → Bool
  | .namedLocation _ _ => true
  | _ => false

/-- The value has a name or a mark. -/
def AbsRVal.isWrapped : AbsRVal → Bool
  | .namedLocation _ _ => true
  | .consumed _ _ _ => true
  | _ => false

/-- Two values without names and marks that the join does not take apart, other than a unique
pointer and a value that is not zero. -/
def apart : AbsRVal → AbsRVal → Bool
  | .uniquePtr _, .uniquePtr _ => false
  | .uniquePtr _, .notZeroAll => false
  | .notZeroAll, .uniquePtr _ => false
  | .aggregate _ _, .aggregate _ _ => false
  | r₁, r₂ => !r₁.isWrapped && !r₂.isWrapped

/-- The comparisons made for the `i`th field of an aggregate. -/
def Sharing.nth (sh : Sharing) : Nat → Sharing
  | 0 => sh.sub 0
  | i + 1 => (sh.sub 1).nth i

/-- An initialised value is not consumed. It can be because of a union whose last field is not
known. -/
def Settled (d : FlowDict) (r : AbsRVal) : Prop :=
  Init d r → Unconsumed r

/-- Two unions that meet have the same last field, and no consumed fields if it is not known, or
both are initialised in all fields. -/
def UnionsFit (d₁ d₂ : FlowDict) (u₁ u₂ : UnionRInfo) (f₁ f₂ : List AbsRVal) : Prop :=
  (u₁.fieldnum = u₂.fieldnum ∧
    (u₁.fieldnum = none → (∀ r ∈ f₁, Unconsumed r) ∧ ∀ r ∈ f₂, Unconsumed r)) ∨
  Full d₁ (.aggregate u₁ f₁) ∧ Full d₂ (.aggregate u₂ f₂)

/-- The values fit together. `P` says that the comparison decides the join. -/
inductive Fits (P : Prop) (d₁ d₂ : FlowDict) : Sharing → AbsRVal → AbsRVal → Prop
  | same {sh : Sharing} {r₁ r₂ : AbsRVal} (h : sh.here r₁ r₂ = true) : Fits P d₁ d₂ sh r₁ r₂
  | names {sh : Sharing} {n₁ n₂ : VarId} {r₁ r₂ : AbsRVal} (h : Fits P d₁ d₂ (sh.sub 0) r₁ r₂) :
      Fits P d₁ d₂ sh (.namedLocation n₁ r₁) (.namedLocation n₂ r₂)
  | nameLeft {sh : Sharing} {n : VarId} {r₁ r₂ : AbsRVal} (hr : r₂.isNamed = false)
      (h : Fits P d₁ d₂ (sh.sub 0) r₁ r₂) : Fits P d₁ d₂ sh (.namedLocation n r₁) r₂
  | nameRight {sh : Sharing} {n : VarId} {r₁ r₂ : AbsRVal} (hr : r₁.isNamed = false)
      (h : Fits P d₁ d₂ (sh.sub 0) r₁ r₂) : Fits P d₁ d₂ sh r₁ (.namedLocation n r₂)
  | marks {sh : Sharing} {e₁ e₂ : ExpId} {i₁ i₂ : Int} {r₁ r₂ : AbsRVal}
      (h : e₁ = e₂ → Fits P d₁ d₂ (sh.sub 0) r₁ r₂)
      (hparts : P → r₁.noParts = true ∨ r₂.noParts = true) :
      Fits P d₁ d₂ sh (.consumed e₁ i₁ r₁) (.consumed e₂ i₂ r₂)
  | markLeft {sh : Sharing} {e : ExpId} {i : Int} {r₁ r₂ : AbsRVal} (hr : r₂.isWrapped = false)
      (h : Fits P d₁ d₂ (sh.sub 0) r₁ r₂) : Fits P d₁ d₂ sh (.consumed e i r₁) r₂
  | markRight {sh : Sharing} {e : ExpId} {i : Int} {r₁ r₂ : AbsRVal} (hr : r₁.isWrapped = false)
      (h : Fits P d₁ d₂ (sh.sub 0) r₁ r₂) : Fits P d₁ d₂ sh r₁ (.consumed e i r₂)
  | uniquePtr {sh : Sharing} {r₁ r₂ : AbsRVal} (h : Fits P d₁ d₂ (sh.sub 0) r₁ r₂) :
      Fits P d₁ d₂ sh (.uniquePtr r₁) (.uniquePtr r₂)
  | aggregate {sh : Sharing} {u₁ u₂ : UnionRInfo} {f₁ f₂ : List AbsRVal}
      (hu : u₁.isUnion = u₂.isUnion) (hunion : u₁.isUnion = true → UnionsFit d₁ d₂ u₁ u₂ f₁ f₂)
      (hlen : f₁.length = f₂.length)
      (h : ∀ (i : Nat) r₁ r₂, f₁[i]? = some r₁ → f₂[i]? = some r₂ →
        Fits P d₁ d₂ ((sh.sub 0).nth i) r₁ r₂) :
      Fits P d₁ d₂ sh (.aggregate u₁ f₁) (.aggregate u₂ f₂)
  | leaf {sh : Sharing} {r₁ r₂ : AbsRVal} (h : apart r₁ r₂ = true) (h₁ : Settled d₁ r₁)
      (h₂ : Settled d₂ r₂) : Fits P d₁ d₂ sh r₁ r₂

theorem Sharing.nth_symm (sh : Sharing) (i : Nat) : sh.symm.nth i = (sh.nth i).symm := by
  induction i generalizing sh with
  | zero => rfl
  | succ i ih => exact ih (sh.sub 1)

theorem apart_comm (r1 r2 : AbsRVal) : apart r1 r2 = apart r2 r1 := by
  cases r1 <;> cases r2 <;> rfl

variable {P : Prop} {d1 d2 : FlowDict} {sh : Sharing} {r1 r2 : AbsRVal} {u1 u2 : UnionRInfo}
  {f1 f2 : List AbsRVal}

theorem UnionsFit.symm (h : UnionsFit d1 d2 u1 u2 f1 f2) : UnionsFit d2 d1 u2 u1 f2 f1 := by
  rcases h with ⟨heq, hnone⟩ | hfull
  · exact .inl ⟨heq.symm, fun h => (hnone (heq.trans h)).symm⟩
  · exact .inr hfull.symm

/-- What a union that meets another one shows of its fields if its last field is not known, or not
the same. -/
theorem UnionsFit.unconsumed (h : UnionsFit d1 d2 u1 u2 f1 f2) (hu : u1.isUnion = true)
    (hlost : u1.fieldnum = u2.fieldnum → u1.fieldnum = none) : ∀ r ∈ f1, Unconsumed r := by
  rcases h with ⟨heq, hnone⟩ | ⟨hfull, -⟩
  · exact (hnone (hlost heq)).1
  · exact fun r hr => (hfull.field hr).unconsumed ((hfull.1 hu).2 r hr)

theorem Fits.symm (h : Fits P d1 d2 sh r1 r2) : Fits P d2 d1 sh.symm r2 r1 := by
  induction h with
  | same h => exact .same h
  | names _ ih => exact .names ih
  | nameLeft hr _ ih => exact .nameRight hr ih
  | nameRight hr _ ih => exact .nameLeft hr ih
  | marks _ hparts ih => exact .marks (fun h => ih h.symm) fun h => (hparts h).symm
  | markLeft hr _ ih => exact .markRight hr ih
  | markRight hr _ ih => exact .markLeft hr ih
  | uniquePtr _ ih => exact .uniquePtr ih
  | @aggregate sh _ _ _ _ hu hunion hlen _ ih =>
    refine .aggregate hu.symm (fun hun => (hunion (hu.trans hun)).symm) hlen.symm
      fun i a b ha hb => ?_
    have := ih i b a hb ha
    rwa [← Sharing.nth_symm] at this
  | leaf h h1 h2 => exact .leaf (apart_comm _ _ ▸ h) h2 h1

/-! ## The join, case by case -/

/-- The value keeps only the levels of two others. -/
structure Levels (d₁ d₂ : FlowDict) (r₁ r₂ r : AbsRVal) : Prop where
  leaf : ∃ il, r = .unknownR il ∨ r = .esc il
  init_iff : InitGiven (fun _ => False) r ↔
    initlevel d₁ r₁ = some .allIL ∧ initlevel d₂ r₂ = some .allIL

/-- The value is the join of a pointer, with its level, and of a value that is not zero. -/
def NotZeroLevel (d : FlowDict) (r₁ r : AbsRVal) : Prop :=
  r = .unknownR .noneIL ∨ r = .notZeroAll ∧ initlevel d r₁ = some .allIL

/-- The join of two values that fit together. All cases but the first are of values at different
addresses. -/
inductive Joined (P : Prop) (d₁ d₂ : FlowDict) : Sharing → AbsRVal → AbsRVal → AbsRVal → Prop
  | same {sh : Sharing} {r : AbsRVal} : Joined P d₁ d₂ sh r r r
  | names {sh : Sharing} {n₁ n₂ : VarId} {r₁ r₂ r : AbsRVal}
      (hs : sh.here (.namedLocation n₁ r₁) (.namedLocation n₂ r₂) = false)
      (h : Joined P d₁ d₂ (sh.sub 0) r₁ r₂ r) :
      Joined P d₁ d₂ sh (.namedLocation n₁ r₁) (.namedLocation n₂ r₂) r
  | sameNames {sh : Sharing} {n : VarId} {r₁ r₂ r : AbsRVal}
      (hs : sh.here (.namedLocation n r₁) (.namedLocation n r₂) = false)
      (h : Joined P d₁ d₂ (sh.sub 0) r₁ r₂ r) :
      Joined P d₁ d₂ sh (.namedLocation n r₁) (.namedLocation n r₂) (.namedLocation n r)
  | nameLeft {sh : Sharing} {n : VarId} {r₁ r₂ r : AbsRVal}
      (hs : sh.here (.namedLocation n r₁) r₂ = false) (hr : r₂.isNamed = false)
      (h : Joined P d₁ d₂ (sh.sub 0) r₁ r₂ r) : Joined P d₁ d₂ sh (.namedLocation n r₁) r₂ r
  | nameRight {sh : Sharing} {n : VarId} {r₁ r₂ r : AbsRVal}
      (hs : sh.here r₁ (.namedLocation n r₂) = false) (hr : r₁.isNamed = false)
      (h : Joined P d₁ d₂ (sh.sub 0) r₁ r₂ r) : Joined P d₁ d₂ sh r₁ (.namedLocation n r₂) r
  | marks {sh : Sharing} {e : ExpId} {i₁ i₂ i : Int} {r₁ r₂ r : AbsRVal}
      (hs : sh.here (.consumed e i₁ r₁) (.consumed e i₂ r₂) = false)
      (h : Joined P d₁ d₂ (sh.sub 0) r₁ r₂ r) :
      Joined P d₁ d₂ sh (.consumed e i₁ r₁) (.consumed e i₂ r₂) (.consumed e i r)
  | otherMarks {sh : Sharing} {e₁ e₂ : ExpId} {i₁ i₂ : Int} {r₁ r₂ r : AbsRVal}
      (hs : sh.here (.consumed e₁ i₁ r₁) (.consumed e₂ i₂ r₂) = false)
      (hparts : P → r₁.noParts = true ∨ r₂.noParts = true)
      (h : Levels d₁ d₂ (.consumed e₁ i₁ r₁) (.consumed e₂ i₂ r₂) r) :
      Joined P d₁ d₂ sh (.consumed e₁ i₁ r₁) (.consumed e₂ i₂ r₂) r
  | markLeft {sh : Sharing} {e : ExpId} {i : Int} {r₁ r₂ r : AbsRVal}
      (hs : sh.here (.consumed e i r₁) r₂ = false) (hr : r₂.isWrapped = false)
      (h : Joined P d₁ d₂ (sh.sub 0) r₁ r₂ r) :
      Joined P d₁ d₂ sh (.consumed e i r₁) r₂ (.consumed e i r)
  | markRight {sh : Sharing} {e : ExpId} {i : Int} {r₁ r₂ r : AbsRVal}
      (hs : sh.here r₁ (.consumed e i r₂) = false) (hr : r₁.isWrapped = false)
      (h : Joined P d₁ d₂ (sh.sub 0) r₁ r₂ r) :
      Joined P d₁ d₂ sh r₁ (.consumed e i r₂) (.consumed e i r)
  | uniquePtr {sh : Sharing} {r₁ r₂ r : AbsRVal}
      (hs : sh.here (.uniquePtr r₁) (.uniquePtr r₂) = false)
      (h : Joined P d₁ d₂ (sh.sub 0) r₁ r₂ r) :
      Joined P d₁ d₂ sh (.uniquePtr r₁) (.uniquePtr r₂) (.uniquePtr r)
  | aggregate {sh : Sharing} {u₁ u₂ u : UnionRInfo} {f₁ f₂ f : List AbsRVal}
      (hs : sh.here (.aggregate u₁ f₁) (.aggregate u₂ f₂) = false)
      (hu₁ : u.isUnion = u₁.isUnion) (hu₂ : u.isUnion = u₂.isUnion)
      (hfield : u.isUnion = true → u₁.fieldnum = u₂.fieldnum → u.fieldnum = u₁.fieldnum)
      (hlost : u.isUnion = true → u₁.fieldnum ≠ u₂.fieldnum → u.fieldnum = none)
      (hunion : u₁.isUnion = true → UnionsFit d₁ d₂ u₁ u₂ f₁ f₂)
      (hlen₁ : f.length = f₁.length) (hlen₂ : f.length = f₂.length)
      (h : ∀ (i : Nat) r r₁ r₂, f[i]? = some r → f₁[i]? = some r₁ → f₂[i]? = some r₂ →
        Joined P d₁ d₂ ((sh.sub 0).nth i) r₁ r₂ r) :
      Joined P d₁ d₂ sh (.aggregate u₁ f₁) (.aggregate u₂ f₂) (.aggregate u f)
  | addressOf {sh : Sharing} {p : Place}
      (hs : sh.here (.addressOf p) (.addressOf p) = false) :
      Joined P d₁ d₂ sh (.addressOf p) (.addressOf p) (.addressOf p)
  | notZeroRight {sh : Sharing} {p : Place} {r : AbsRVal}
      (hs : sh.here (.addressOf p) .notZeroAll = false) (h : NotZeroLevel d₁ (.addressOf p) r) :
      Joined P d₁ d₂ sh (.addressOf p) .notZeroAll r
  | notZeroLeft {sh : Sharing} {p : Place} {r : AbsRVal}
      (hs : sh.here .notZeroAll (.addressOf p) = false) (h : NotZeroLevel d₂ (.addressOf p) r) :
      Joined P d₁ d₂ sh .notZeroAll (.addressOf p) r
  | levels {sh : Sharing} {r₁ r₂ r : AbsRVal} (hs : sh.here r₁ r₂ = false)
      (hapart : apart r₁ r₂ = true) (hne : ∀ p, r₁ = .addressOf p → r₂ ≠ .addressOf p)
      (h₁ : Settled d₁ r₁) (h₂ : Settled d₂ r₂) (h : Levels d₁ d₂ r₁ r₂ r) :
      Joined P d₁ d₂ sh r₁ r₂ r

theorem Levels.symm {d1 d2 : FlowDict} {r : AbsRVal} (h : Levels d1 d2 r1 r2 r) :
    Levels d2 d1 r2 r1 r :=
  ⟨h.leaf, h.init_iff.trans And.comm⟩

theorem Joined.symm {d1 d2 : FlowDict} {r : AbsRVal}
    (h : Joined P d1 d2 sh r1 r2 r) : Joined P d2 d1 sh.symm r2 r1 r := by
  induction h with
  | same => exact .same
  | names hs _ ih => exact .names hs ih
  | sameNames hs _ ih => exact .sameNames hs ih
  | nameLeft hs hr _ ih => exact .nameRight hs hr ih
  | nameRight hs hr _ ih => exact .nameLeft hs hr ih
  | marks hs _ ih => exact .marks hs ih
  | otherMarks hs hparts h => exact .otherMarks hs (fun hP => (hparts hP).symm) h.symm
  | markLeft hs hr _ ih => exact .markRight hs hr ih
  | markRight hs hr _ ih => exact .markLeft hs hr ih
  | uniquePtr hs _ ih => exact .uniquePtr hs ih
  | aggregate hs hu1 hu2 hfield hlost hunion hlen1 hlen2 _ ih =>
    refine .aggregate hs hu2 hu1 (fun hun heq => (hfield hun heq.symm).trans heq.symm)
      (fun hun hne => hlost hun hne.symm)
      (fun hun => (hunion (hu1.symm.trans (hu2.trans hun))).symm) hlen2 hlen1
      fun i r b a hr hb ha => ?_
    have := ih i r a b hr ha hb
    rwa [← Sharing.nth_symm] at this
  | addressOf hs => exact .addressOf hs
  | notZeroRight hs h => exact .notZeroLeft hs h
  | notZeroLeft hs h => exact .notZeroRight hs h
  | levels hs hapart hne h1 h2 h =>
    exact .levels hs (apart_comm _ _ ▸ hapart) (fun p h2 h1 => hne p h1 h2) h2 h1 h.symm

/-! ## What `joinAbsRval` computes -/

section JoinAbsRval

variable {d1 d2 : FlowDict} {sh : Sharing} {pile : List Place}

variable {a : AbsRVal × List Place}

variable {r1 r2 : AbsRVal}

theorem levels_of_joinLevels
    (h : joinLevels d1 d2 r1 r2 pile = some a) : Levels d1 d2 r1 r2 a.1 := by
  obtain ⟨il1, h1, h⟩ := bind_eq_some_iff.1 h
  obtain ⟨il2, h2, h⟩ := bind_eq_some_iff.1 h
  have hleaf : ∃ il, (a.1 = .unknownR il ∨ a.1 = .esc il) ∧
      (il = .allIL ↔ il1 = .allIL ∧ il2 = .allIL) := by
    cases il1 <;> cases il2 <;> dsimp only at h <;> split at h <;> cases h <;> simp
  obtain ⟨il, hr, hil⟩ := hleaf
  refine ⟨⟨il, hr⟩, ?_⟩
  rw [h1, h2, Option.some.injEq, Option.some.injEq, ← hil]
  rcases hr with hr | hr
  · rw [hr]
    exact ⟨fun h => by cases h; rfl, fun h => h ▸ .unknownR⟩
  · rw [hr]
    exact ⟨fun h => by cases h; rfl, fun h => h ▸ .esc⟩

theorem notZeroLevel_of_joinNotZero {d : FlowDict}
    (h : joinNotZero d r1 pile = some a) : NotZeroLevel d r1 a.1 := by
  obtain ⟨il, hil, rfl⟩ := map_eq_some_iff.1 h
  cases il with
  | noneIL => exact .inl rfl
  | allIL => exact .inr ⟨rfl, hil⟩

theorem eq_of_sameFields : ∀ {sh : Sharing} {f g : List AbsRVal},
    sameFields sh f g = true → f.length = g.length → f = g
  | _, [], [], _, _ => rfl
  | _, a :: f, b :: g, h, hlen => by
    obtain ⟨hab, hfg⟩ := Bool.and_eq_true_iff.1 h
    rw [Sharing.eq_of_here hab, eq_of_sameFields hfg (Nat.succ.inj hlen)]

/-- The fields of the join are the joins of the fields. -/
theorem getElem?_joinFields {f1 f2 : List AbsRVal} {a : List AbsRVal × List Place}
    (h : joinFields d1 d2 sh f1 f2 pile = some a) : a.1.length = f1.length ∧
      ∀ (i : Nat) r r1 r2, a.1[i]? = some r → f1[i]? = some r1 → f2[i]? = some r2 →
        ∃ pile pile', joinAbsRval d1 d2 (sh.nth i) r1 r2 pile = some (r, pile') := by
  induction f1 generalizing sh f2 pile a with
  | nil =>
    rw [joinFields] at h
    cases h
    exact ⟨rfl, fun i r r1 r2 hr => by simp at hr⟩
  | cons r1 f1 ih =>
    cases f2 with
    | nil =>
      rw [joinFields] at h
      cases h
    | cons r2 f2 =>
      rw [joinFields] at h
      obtain ⟨⟨r, pile'⟩, hr, h⟩ := bind_eq_some_iff.1 h
      obtain ⟨b, hb, rfl⟩ := map_eq_some_iff.1 h
      obtain ⟨hlen, hfields⟩ := ih hb
      refine ⟨congrArg (· + 1) hlen, fun i x x1 x2 hx hx1 hx2 => ?_⟩
      cases i with
      | zero =>
        cases hx
        cases hx1
        cases hx2
        exact ⟨pile, pile', hr⟩
      | succ i => exact hfields i x x1 x2 hx hx1 hx2

/-- The join of two aggregates has the joined fields; the last field written of a union is kept if
it is the same in both. -/
theorem joinAbsRval_aggregate {u1 u2 : UnionRInfo} {f1 f2 : List AbsRVal}
    (hu : u1.isUnion = u2.isUnion) (hlen : f1.length = f2.length)
    (hs : sh.here (.aggregate u1 f1) (.aggregate u2 f2) = false)
    (ha : joinAbsRval d1 d2 sh (.aggregate u1 f1) (.aggregate u2 f2) pile = some a) :
    ∃ u b, a = (.aggregate u b.1, b.2) ∧ joinFields d1 d2 (sh.sub 0) f1 f2 pile = some b ∧
      u.isUnion = u1.isUnion ∧
      (u.isUnion = true → u1.fieldnum = u2.fieldnum → u.fieldnum = u1.fieldnum) ∧
      (u.isUnion = true → u1.fieldnum ≠ u2.fieldnum → u.fieldnum = none) := by
  unfold joinAbsRval at ha
  simp only [hs] at ha
  obtain ⟨b, hb, rfl⟩ := map_eq_some_iff.1 ha
  have hlen' := (getElem?_joinFields hb).1
  split
  · rename_i hsame
    obtain ⟨hstruct, hsame⟩ := Bool.and_eq_true_iff.1 hsame
    have hu1 : u1.isUnion = false := by simpa using hstruct
    refine ⟨u1, b, ?_, hb, rfl, fun _ _ => rfl,
      fun hun => absurd (hu1.symm.trans hun) Bool.false_ne_true⟩
    rw [eq_of_sameFields hsame hlen']
  · split
    · rename_i hsame
      obtain ⟨hstruct, hsame⟩ := Bool.and_eq_true_iff.1 hsame
      have hu2 : u2.isUnion = false := by simpa [hu] using hstruct
      refine ⟨u2, b, ?_, hb, hu.symm, fun _ heq => heq.symm,
        fun hun => absurd (hu2.symm.trans hun) Bool.false_ne_true⟩
      rw [eq_of_sameFields hsame (hlen'.trans hlen)]
    · exact ⟨_, b, rfl, hb, rfl, fun _ heq => if_pos heq, fun _ hne => if_neg hne⟩

/-- The join of two values that it does not take apart. -/
theorem Joined.of_apart {P : Prop}
    (hs : sh.here r1 r2 = false) (hapart : apart r1 r2 = true) (h1 : Settled d1 r1)
    (h2 : Settled d2 r2) (ha : joinAbsRval d1 d2 sh r1 r2 pile = some a) :
    Joined P d1 d2 sh r1 r2 a.1 := by
  have levels : (∀ p, r1 = .addressOf p → r2 ≠ .addressOf p) → ∀ {pile},
      joinLevels d1 d2 r1 r2 pile = some a → Joined P d1 d2 sh r1 r2 a.1 :=
    fun hne _ h => .levels hs hapart hne h1 h2 (levels_of_joinLevels h)
  unfold joinAbsRval at ha
  simp only [hs, Bool.false_eq_true, if_false] at ha
  split at ha
  case h_7 p1 p2 =>
      split at ha
      · rename_i heq
        cases ha
        subst heq
        exact .addressOf hs
      · rename_i hne
        exact levels (fun p h1 h2 => by cases h1; cases h2; exact hne rfl) ha
  case h_8 => exact .notZeroRight hs (notZeroLevel_of_joinNotZero ha)
  case h_9 => exact .notZeroLeft hs (notZeroLevel_of_joinNotZero ha)
  case h_13 hne _ => exact levels (fun p _ => hne p) ha
  case h_14 hne _ => exact levels (fun p h => absurd h (hne p)) ha
  case h_16 =>
      have hne : ∀ p1 p2, r1 = .addressOf p1 → r2 = .addressOf p2 → False := by assumption
      exact levels (fun p h1 h2 => hne p p h1 h2) ha
  -- the other cases take the values apart
  all_goals simp [apart, AbsRVal.isWrapped] at hapart

/-- It is enough to look at values at different addresses. -/
theorem Joined.of_different {P : Prop}
    (ha : joinAbsRval d1 d2 sh r1 r2 pile = some a)
    (h : sh.here r1 r2 = false → Joined P d1 d2 sh r1 r2 a.1) : Joined P d1 d2 sh r1 r2 a.1 := by
  cases hs : sh.here r1 r2 with
  | false => exact h hs
  | true =>
    unfold joinAbsRval at ha
    rw [if_pos hs] at ha
    cases ha
    obtain rfl := Sharing.eq_of_here hs
    exact .same

theorem Fits.joined {P : Prop} {sh : Sharing} (h : Fits P d1 d2 sh r1 r2)
    (ha : joinAbsRval d1 d2 sh r1 r2 pile = some a) : Joined P d1 d2 sh r1 r2 a.1 := by
  induction h generalizing pile a
  all_goals refine .of_different ha fun hs => ?_
  case same h => exact absurd (hs.symm.trans h) Bool.false_ne_true
  case leaf h h1 h2 => exact .of_apart hs h h1 h2 ha
  case aggregate hu hunion hlen _ ih =>
    obtain ⟨u, b, rfl, hb, hu1, hfield, hlost⟩ := joinAbsRval_aggregate hu hlen hs ha
    obtain ⟨hlen1, hfields⟩ := getElem?_joinFields hb
    refine .aggregate hs hu1 (hu1.trans hu) hfield hlost hunion hlen1 (hlen1.trans hlen) ?_
    intro i r r1 r2 hr hr1 hr2
    obtain ⟨pile', pile'', hj⟩ := hfields i r r1 r2 hr hr1 hr2
    exact ih i r1 r2 hr1 hr2 hj
  -- the other values are taken apart
  all_goals
    unfold joinAbsRval at ha
    simp only [hs, Bool.false_eq_true, if_false] at ha
  case names n1 n2 r1 r2 _ ih =>
    obtain ⟨b, hb, rfl⟩ := map_eq_some_iff.1 ha
    split
    · rename_i heq
      subst heq
      exact .sameNames hs (ih hb)
    · exact .names hs (ih hb)
  case nameLeft n r1 r2 hr _ ih =>
    cases r2 with
    | namedLocation => cases hr
    | _ => exact .nameLeft hs hr (ih ha)
  case nameRight n r1 r2 hr _ ih =>
    cases r1 with
    | namedLocation => cases hr
    | _ => exact .nameRight hs hr (ih ha)
  case marks e1 e2 i1 i2 r1 r2 _ hparts ih =>
    split at ha
    · rename_i heq
      subst heq
      obtain ⟨b, hb, rfl⟩ := map_eq_some_iff.1 ha
      exact .marks hs (ih rfl hb)
    · exact .otherMarks hs hparts (levels_of_joinLevels ha)
  case markLeft e i r1 r2 hr _ ih =>
    cases r2 with
    | namedLocation | consumed => cases hr
    | _ =>
      obtain ⟨b, hb, rfl⟩ := map_eq_some_iff.1 ha
      exact .markLeft hs hr (ih hb)
  case markRight e i r1 r2 hr _ ih =>
    cases r1 with
    | namedLocation | consumed => cases hr
    | _ =>
      obtain ⟨b, hb, rfl⟩ := map_eq_some_iff.1 ha
      exact .markRight hs hr (ih hb)
  case uniquePtr ih =>
    obtain ⟨b, hb, rfl⟩ := map_eq_some_iff.1 ha
    exact .uniquePtr hs (ih hb)

end JoinAbsRval

/-! ## The join claims less than both values -/

variable {P : Prop} {d1 d2 : FlowDict} {sh : Sharing} {r1 r2 r : AbsRVal}

theorem Levels.below (h : Levels d1 d2 r1 r2 r) (h1 : Settled d1 r1) : Below d1 r r1 := by
  have hready : initlevel d1 r1 = some .allIL → Ready d1 r1 := fun hall =>
    ⟨init_of_initlevel hall, h1 (init_of_initlevel hall)⟩
  obtain ⟨il, rfl | rfl⟩ := h.leaf
  · exact .unknownR (by rintro rfl; exact hready (h.init_iff.1 .unknownR).1)
  · exact .esc (by rintro rfl; exact hready (h.init_iff.1 .esc).1)

theorem Levels.unconsumed (h : Levels d1 d2 r1 r2 r) : Unconsumed r := by
  obtain ⟨il, rfl | rfl⟩ := h.leaf <;> exact fun e k => ⟨false, false, rfl⟩

theorem Levels.noParts (h : Levels d1 d2 r1 r2 r) : r.noParts = true := by
  obtain ⟨il, rfl | rfl⟩ := h.leaf <;> rfl

variable {d : FlowDict}

theorem NotZeroLevel.below_address {p : Place}
    (h : NotZeroLevel d (.addressOf p) r) : Below d r (.addressOf p) := by
  rcases h with rfl | ⟨rfl, h⟩
  · exact .unknownNone _
  · exact .notZeroAll (init_of_initlevel h) rfl

theorem NotZeroLevel.below_notZero {d' : FlowDict} (h : NotZeroLevel d r1 r) :
    Below d' r .notZeroAll := by
  rcases h with rfl | ⟨rfl, -⟩
  · exact .unknownNone _
  · exact .notZeroAll .notZeroAll rfl

theorem NotZeroLevel.unconsumed (h : NotZeroLevel d r1 r) : Unconsumed r := by
  rcases h with rfl | ⟨rfl, -⟩ <;> exact fun e k => ⟨false, false, rfl⟩

theorem NotZeroLevel.noParts (h : NotZeroLevel d r1 r) : r.noParts = true := by
  rcases h with rfl | ⟨rfl, -⟩ <;> rfl

/-- The union that is the join of two that meet, below the first. -/
theorem UnionsFit.below {u1 u2 u : UnionRInfo} {f1 f2 f : List AbsRVal}
    (h : UnionsFit d1 d2 u1 u2 f1 f2) (hu : u1.isUnion = true)
    (hfield : u1.fieldnum = u2.fieldnum → u.fieldnum = u1.fieldnum) : UnionBelow d1 u u1 f f1 := by
  rcases h with ⟨heq, hnone⟩ | ⟨hfull, -⟩
  · refine .inl ⟨hfield heq, fun hn i r' r _ hr e k _ => ?_⟩
    exact (hnone hn).1 r (List.mem_of_getElem? hr) e k
  · exact .inr (hfull.ready hu)

theorem Joined.below_left (h : Joined P d1 d2 sh r1 r2 r) (hok : r1.Valid d1) :
    Below d1 r r1 := by
  induction h with
  | same => exact .refl hok.isSome_lookupPlace
  | names _ _ ih | nameLeft _ _ _ ih => exact .nameRight (ih hok)
  | sameNames _ _ ih => exact .nameLeft (.nameRight (ih hok))
  | nameRight _ _ _ ih => exact ih hok
  | marks _ _ ih | markLeft _ _ _ ih => exact .markBoth (ih hok)
  | otherMarks _ _ h => exact h.below fun hinit => nomatch hinit
  | markRight _ _ _ ih => exact .markLeft (ih hok)
  | uniquePtr _ _ ih => exact .uniquePtr (ih hok)
  | @aggregate sh u1 u2 u f1 f2 f _ hu1 _ hfield _ hunion hlen1 hlen2 _ ih =>
    refine .aggregate hu1 (fun hun => (hunion hun).below hun (hfield (hu1.trans hun))) hlen1
      fun i r r1 hr hr1 => ?_
    obtain ⟨r2, hr2⟩ := exists_getElem?_of_length_eq hlen2 hr
    exact ih i r r1 r2 hr hr1 hr2 (fieldsValid_iff.1 hok.2 r1 (List.mem_of_getElem? hr1))
  | addressOf => exact .addressOf hok
  | notZeroRight _ h => exact h.below_address
  | notZeroLeft _ h => exact h.below_notZero
  | levels _ _ _ h1 _ h => exact h.below h1

theorem not_unconsumed_consumed (e : ExpId) (i : Int) (r : AbsRVal) :
    ¬ Unconsumed (.consumed e i r) := by
  intro h
  obtain ⟨n, n', hn⟩ := h e (i + 1)
  unfold isUniqueConsumed at hn
  rw [if_neg (by omega)] at hn
  cases hn

theorem Unconsumed.known {u : UnionRInfo} {f : List AbsRVal} {i : Nat}
    (h : Unconsumed (.aggregate u f)) (hu : u.isUnion = true) (hi : u.fieldnum = some i) :
    ∃ r, f[i]? = some r ∧ Unconsumed r := by
  obtain ⟨r, hr, -⟩ := (notConsumed_known hu hi).1 (h 0 0)
  refine ⟨r, hr, fun e k => ?_⟩
  obtain ⟨r', hr', hnot⟩ := (notConsumed_known hu hi).1 (h e k)
  rw [hr, Option.some.injEq] at hr'
  exact hr' ▸ hnot

/-- The fields that are looked at if the last one is not known. -/
theorem UnionsFit.fields_unconsumed {u1 u2 : UnionRInfo} {f1 f2 : List AbsRVal}
    (hunion : u1.isUnion = true → UnionsFit d1 d2 u1 u2 f1 f2)
    (hlost : u1.isUnion = true → u1.fieldnum = u2.fieldnum → u1.fieldnum = none)
    (h : Unconsumed (.aggregate u1 f1)) : ∀ r ∈ f1, Unconsumed r := by
  cases hu : u1.isUnion with
  | false => exact fun r hr e k => (notConsumed_all (.inl hu)).1 (h e k) r hr
  | true => exact (hunion hu).unconsumed hu (hlost hu)

/-- The join of two values that are not consumed is not. -/
theorem Joined.unconsumed (h : Joined P d1 d2 sh r1 r2 r) (h1 : Unconsumed r1)
    (h2 : Unconsumed r2) : Unconsumed r := by
  induction h with
  | same => exact h1
  | names _ _ ih | sameNames _ _ ih | nameLeft _ _ _ ih | nameRight _ _ _ ih => exact ih h1 h2
  | marks | otherMarks | markLeft => exact absurd h1 (not_unconsumed_consumed _ _ _)
  | markRight => exact absurd h2 (not_unconsumed_consumed _ _ _)
  | uniquePtr | addressOf => exact fun e k => ⟨false, false, rfl⟩
  | notZeroRight _ h | notZeroLeft _ h | levels _ _ _ _ _ h => exact h.unconsumed
  | @aggregate sh u1 u2 u f1 f2 f _ hu1 hu2 hfield hlost hunion hlen1 hlen2 _ ih =>
    have hfit : u2.isUnion = true → UnionsFit d2 d1 u2 u1 f2 f1 := fun hun =>
      (hunion (hu1.symm.trans (hu2.trans hun))).symm
    rcases known_or_all u with ⟨i, hun, hi⟩ | hall
    · have heq : u1.fieldnum = u2.fieldnum := by
        by_contra hne
        cases hi.symm.trans (hlost hun hne)
      have hi1 := (hfield hun heq).symm.trans hi
      obtain ⟨a1, ha1, h1⟩ := h1.known (hu1.symm.trans hun) hi1
      obtain ⟨a2, ha2, h2⟩ := h2.known (hu2.symm.trans hun) (heq.symm.trans hi1)
      obtain ⟨a, ha⟩ := exists_getElem?_of_length_eq hlen1.symm ha1
      exact fun e k => (notConsumed_known hun hi).2 ⟨a, ha, ih i a a1 a2 ha ha1 ha2 h1 h2 e k⟩
    · have hnone : u.isUnion = true → u1.fieldnum = u2.fieldnum → u1.fieldnum = none := by
        intro hun heq
        rcases hall with hall | hall
        · exact absurd (hall.symm.trans hun) Bool.false_ne_true
        · exact (hfield hun heq).symm.trans hall
      have hf1 := UnionsFit.fields_unconsumed hunion (fun hun => hnone (hu1.trans hun)) h1
      have hf2 := UnionsFit.fields_unconsumed hfit
        (fun hun heq => heq.trans (hnone (hu2.trans hun) heq.symm)) h2
      intro e k
      refine (notConsumed_all hall).2 fun a ha => ?_
      obtain ⟨i, ha⟩ := List.mem_iff_getElem?.1 ha
      obtain ⟨a1, ha1⟩ := exists_getElem?_of_length_eq hlen1 ha
      obtain ⟨a2, ha2⟩ := exists_getElem?_of_length_eq hlen2 ha
      exact ih i a a1 a2 ha ha1 ha2 (hf1 a1 (List.mem_of_getElem? ha1))
        (hf2 a2 (List.mem_of_getElem? ha2)) e k

/-- If one of the values has no parts then the join has none. -/
theorem Joined.noParts (h : Joined P d1 d2 sh r1 r2 r) :
    r1.noParts = true ∨ r2.noParts = true → r.noParts = true := by
  induction h with
  | same => exact fun h => h.elim id id
  | names _ _ ih | sameNames _ _ ih | nameLeft _ _ _ ih | nameRight _ _ _ ih | marks _ _ ih
  | markLeft _ _ _ ih | markRight _ _ _ ih => exact ih
  | uniquePtr | aggregate => exact fun h => by rcases h with h | h <;> cases h
  | addressOf => exact fun _ => rfl
  | otherMarks _ _ h | levels _ _ _ _ _ h | notZeroRight _ h | notZeroLeft _ h =>
    exact fun _ => h.noParts

/-! ## The join has the places of both values -/

theorem Joined.lookupPath (hP : P) {path : List PathCon} {w1 w2 : AbsRVal}
    (h : Joined P d1 d2 sh r1 r2 r) (hw1 : lookupPath path r1 = some w1)
    (hw2 : lookupPath path r2 = some w2) : ∃ w, lookupPath path r = some w := by
  induction path generalizing sh r1 r2 r with
  | nil => exact ⟨_, rfl⟩
  | cons c path ih =>
    induction h with
    | same => exact ⟨_, hw1⟩
    | names _ _ ih | sameNames _ _ ih | nameLeft _ _ _ ih | nameRight _ _ _ ih | marks _ _ ih
    | markLeft _ _ _ ih | markRight _ _ _ ih => exact ih hw1 hw2
    | otherMarks _ hparts _ =>
      rcases hparts hP with hno | hno
      · cases (lookupPath_of_noParts hno c path).symm.trans hw1
      · cases (lookupPath_of_noParts hno c path).symm.trans hw2
    | uniquePtr _ h =>
      cases c with
      | dot => cases hw1
      | star => exact ih h hw1 hw2
    | aggregate _ _ _ _ _ _ hlen _ h =>
      cases c with
      | star => cases hw1
      | dot i =>
        obtain ⟨a1, ha1, hw1⟩ := bind_eq_some_iff.1 hw1
        obtain ⟨a2, ha2, hw2⟩ := bind_eq_some_iff.1 hw2
        obtain ⟨a, ha⟩ := exists_getElem?_of_length_eq hlen.symm ha1
        obtain ⟨w, hw⟩ := ih (h i a a1 a2 ha ha1 ha2) hw1 hw2
        exact ⟨w, bind_eq_some_iff.2 ⟨a, ha, hw⟩⟩
    | addressOf | notZeroRight | notZeroLeft => cases c <;> cases hw1
    | @levels sh r1 r2 r _ hapart =>
      cases r1 with
      | uniquePtr | aggregate =>
        cases r2 with
        | namedLocation | consumed => cases hapart
        | uniquePtr | aggregate => cases c <;> first | cases hw1 | cases hw2 | cases hapart
        | _ => cases c <;> cases hw2
      | namedLocation | consumed => cases r2 <;> cases hapart
      | _ => cases c <;> cases hw1

end ConcurrentCyclone.CfFlowInfo
