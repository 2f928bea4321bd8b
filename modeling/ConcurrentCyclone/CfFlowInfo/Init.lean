import ConcurrentCyclone.CfFlowInfo.Values
import ConcurrentCyclone.FixedPoint.Assuming
import ConcurrentCyclone.Worklist.Search

/-!
# What `initlevel` computes

A value is initialised if everything reachable from it is, through fields, unique pointers and known
pointers to places; cycles of places are initialised if nothing on them is not. This is a greatest
fixed point: `Init d r`. The search of `initlevel` takes the places on its stack for granted, so it
gives `allIL` only for initialised values (`init_of_initlevel`), and on a dictionary whose pointers
can be followed (`FlowValid`) it does so for all of them (`initlevel_total`): the number of pointers
is enough for the depth of the search.

A value that is initialised may still be reported consumed, because of the other members of a union
whose last field is not known. If all members of its unions are initialised it is not
(`Full.unconsumed`).
-/

set_option autoImplicit false

namespace ConcurrentCyclone.CfFlowInfo

open FixedPoint
open List (not_mem_nil mem_cons mem_append_left mem_append_right)
open Option (bind_eq_some_iff bind_some)

/-! ## Initialised values -/

/-- The value is initialised if the places with `A` are. -/
inductive InitGiven (A : Place → Prop) : AbsRVal → Prop
  | zero : InitGiven A .zero
  | notZeroAll : InitGiven A .notZeroAll
  | unknownR : InitGiven A (.unknownR .allIL)
  | esc : InitGiven A (.esc .allIL)
  | addressOf {p : Place} (h : A p) : InitGiven A (.addressOf p)
  | uniquePtr {r : AbsRVal} (h : InitGiven A r) : InitGiven A (.uniquePtr r)
  | struct {u : UnionRInfo} {f : List AbsRVal} (hu : u.isUnion = false)
      (h : ∀ r ∈ f, InitGiven A r) : InitGiven A (.aggregate u f)
  | unionField {u : UnionRInfo} {f : List AbsRVal} {i : Nat} {r : AbsRVal} (hu : u.isUnion = true)
      (hi : u.fieldnum = some i) (hr : f[i]? = some r) (h : InitGiven A r) :
      InitGiven A (.aggregate u f)
  | unionSome {u : UnionRInfo} {f : List AbsRVal} {r : AbsRVal} (hu : u.isUnion = true)
      (hi : u.fieldnum = none) (hr : r ∈ f) (h : InitGiven A r) : InitGiven A (.aggregate u f)
  | namedLocation {n : VarId} {r : AbsRVal} (h : InitGiven A r) : InitGiven A (.namedLocation n r)

variable {f : List AbsRVal} {r w : AbsRVal} {p : Place}

theorem mem_fieldAddresses (hr : r ∈ f) (hp : p ∈ r.addresses) : p ∈ fieldAddresses f := by
  induction f with
  | nil => exact absurd hr not_mem_nil
  | cons a f ih =>
    rcases mem_cons.1 hr with rfl | hr
    · exact mem_append_left _ hp
    · exact mem_append_right _ (ih hr)

theorem InitGiven.mono {A B : Place → Prop} (h : InitGiven A r)
    (hAB : ∀ p ∈ r.addresses, A p → B p) : InitGiven B r := by
  induction h with
  | zero | notZeroAll | unknownR | esc => constructor
  | addressOf hp => exact .addressOf (hAB _ (List.mem_singleton_self _) hp)
  | uniquePtr _ ih => exact .uniquePtr (ih hAB)
  | struct hu _ ih =>
    exact .struct hu fun r hr => ih r hr fun p hp => hAB p (mem_fieldAddresses hr hp)
  | unionField hu hi hr _ ih =>
    exact .unionField hu hi hr (ih fun p hp =>
      hAB p (mem_fieldAddresses (List.mem_of_getElem? hr) hp))
  | unionSome hu hi hr _ ih =>
    exact .unionSome hu hi hr (ih fun p hp => hAB p (mem_fieldAddresses hr hp))
  | namedLocation _ ih => exact .namedLocation (ih hAB)

variable {u : UnionRInfo}

theorem InitGiven.field {A : Place → Prop} (hu : u.isUnion = false)
    (h : InitGiven A (.aggregate u f)) : ∀ r ∈ f, InitGiven A r := by
  cases h with
  | struct _ h => exact h
  | unionField hu' | unionSome hu' => rw [hu] at hu'; cases hu'

/-- The value of the place is initialised if the places with `A` are. -/
def InitStep (d : FlowDict) (A : Place → Prop) (p : Place) : Prop :=
  ∃ r, lookupPlace d p = some r ∧ InitGiven A r

theorem InitStep.monotonic (d : FlowDict) : Monotonic (InitStep d) := by
  rintro X Y hXY p ⟨r, hr, h⟩
  exact ⟨r, hr, h.mono fun q _ hq => hXY q hq⟩

/-- Everything reachable from the place is initialised. -/
def InitPlace (d : FlowDict) : Place → Prop :=
  Assuming (InitStep d) fun _ => False

/-- Everything reachable from the value is initialised. -/
def Init (d : FlowDict) : AbsRVal → Prop :=
  InitGiven (InitPlace d)

variable {d : FlowDict}

theorem InitPlace.value (h : InitPlace d p) : ∃ r, lookupPlace d p = some r ∧ Init d r := by
  obtain ⟨r, hr, hinit⟩ := Assuming.unfold (InitStep.monotonic d) h
  exact ⟨r, hr, hinit.mono fun _ _ hq => hq.resolve_right id⟩

/-! ## The search finds only initialised values -/

section Search

variable {deref : Place → Option InitLevel}

@[simp] theorem initlevelRec_noneIL (r : AbsRVal) :
    initlevelRec deref r .noneIL = some .noneIL := by
  cases r <;> rfl

@[simp] theorem initlevelAll_noneIL (f : List AbsRVal) :
    initlevelAll deref f .noneIL = some .noneIL := by
  induction f with
  | nil => rfl
  | cons r f ih => simpa [initlevelAll] using ih

variable {A : Place → Prop}

theorem initlevelRec_of_initlevelAll (h : initlevelAll deref f .allIL = some .allIL) :
    ∀ r ∈ f, initlevelRec deref r .allIL = some .allIL := by
  induction f with
  | nil => exact fun r hr => absurd hr not_mem_nil
  | cons a f ih =>
    obtain ⟨il, ha, hf⟩ := bind_eq_some_iff.1 h
    cases il with
    | noneIL => simp at hf
    | allIL => exact List.forall_mem_cons.2 ⟨ha, ih hf⟩

theorem initlevelRec_of_initlevelSome (h : initlevelSome deref f = some .allIL) :
    ∃ r ∈ f, initlevelRec deref r .allIL = some .allIL := by
  induction f with
  | nil => cases h
  | cons a f ih =>
    obtain ⟨il, ha, hf⟩ := bind_eq_some_iff.1 h
    cases il with
    | allIL => exact ⟨a, .head _, ha⟩
    | noneIL =>
      obtain ⟨r, hr, hil⟩ := ih hf
      exact ⟨r, .tail _ hr, hil⟩

theorem initlevelNth_eq (f : List AbsRVal) (i : Nat) :
    initlevelNth deref f i = f[i]?.bind fun r => initlevelRec deref r .allIL := by
  induction f generalizing i with
  | nil => rfl
  | cons a f ih =>
    cases i with
    | zero => rfl
    | succ i => exact ih i

theorem initGiven_of_initlevelRec (hderef : ∀ p, deref p = some .allIL → A p) (r : AbsRVal)
    (h : initlevelRec deref r .allIL = some .allIL) : InitGiven A r := by
  induction r using AbsRVal.induction with
  | zero | notZeroAll => constructor
  | unknownR il | esc il => cases h; constructor
  | addressOf p => exact .addressOf (hderef p h)
  | uniquePtr r ih => exact .uniquePtr (ih h)
  | consumed => cases h
  | namedLocation _ r ih => exact .namedLocation (ih h)
  | aggregate u f ih =>
    match u with
    | ⟨false, _⟩ => exact .struct rfl fun r hr => ih r hr (initlevelRec_of_initlevelAll h r hr)
    | ⟨true, none⟩ =>
      obtain ⟨r, hr, hil⟩ := initlevelRec_of_initlevelSome h
      exact .unionSome rfl rfl hr (ih r hr hil)
    | ⟨true, some i⟩ =>
      obtain ⟨r, hr, hil⟩ := bind_eq_some_iff.1 ((initlevelNth_eq f i).symm.trans h)
      exact .unionField rfl rfl hr (ih r (List.mem_of_getElem? hr) hil)

end Search

/-- A place for which the search gives `allIL` is on the stack, or is initialised if the places on
the stack are. -/
theorem assuming_of_initlevelDeref {fuel : Nat} {seen : List Place}
    (h : initlevelDeref d fuel seen p = some .allIL) :
    Assuming (InitStep d) (· ∈ seen) p ∨ p ∈ seen := by
  induction fuel generalizing seen p with
  | zero =>
    rw [initlevelDeref] at h
    split_ifs at h with hp
    exact .inr hp
  | succ fuel ih =>
    rw [initlevelDeref] at h
    split_ifs at h with hp
    · exact .inr hp
    · obtain ⟨r, hr, hrec⟩ := bind_eq_some_iff.1 h
      have hinit := initGiven_of_initlevelRec (fun _ => ih) r hrec
      have hself : Assuming (InitStep d) (· ∈ p :: seen) p :=
        Assuming.fold (InitStep.monotonic d) ⟨r, hr, hinit⟩
      exact .inl (hself.discharge (InitStep.monotonic d) fun q hq => mem_cons.1 hq)

theorem init_of_initlevel (h : initlevel d r = some .allIL) : Init d r := by
  refine initGiven_of_initlevelRec (fun p hp => ?_) r h
  have hassuming := assuming_of_initlevelDeref hp
  simpa [InitPlace] using hassuming

/-! ## The search finds the initialised values -/

variable {path : List PathCon}

/-- What a step of a path selects from a value. -/
theorem lookupPath_cons {c : PathCon}
    (h : lookupPath (c :: path) r = some w) :
    (∃ u f i a, r.unwrap = .aggregate u f ∧ c = .dot i ∧ f[i]? = some a ∧
      lookupPath path a = some w) ∨
    ∃ a, r.unwrap = .uniquePtr a ∧ c = .star ∧ lookupPath path a = some w := by
  unfold lookupPath at h
  split at h
  · rename_i u f i hr
    obtain ⟨a, ha, hw⟩ := bind_eq_some_iff.1 h
    exact .inl ⟨u, f, i, a, hr, rfl, ha, hw⟩
  · rename_i a hr
    exact .inr ⟨a, hr, rfl, h⟩
  · cases h

/-- What the steps of a path keep holds of the part that the path selects. -/
theorem keeps_lookupPath {P : AbsRVal → Prop} (hunwrap : ∀ r, P r → P r.unwrap)
    (hfield : ∀ u f a, P (.aggregate u f) → a ∈ f → P a) (hptr : ∀ a, P (.uniquePtr a) → P a)
    (h : P r) (hw : lookupPath path r = some w) : P w := by
  induction path generalizing r with
  | nil =>
    cases hw
    exact h
  | cons c path ih =>
    have hr := hunwrap r h
    rcases lookupPath_cons hw with ⟨u, f, i, a, hu, -, ha, hw⟩ | ⟨a, hu, -, hw⟩
    · rw [hu] at hr
      exact ih (hfield u f a hr (List.mem_of_getElem? ha)) hw
    · rw [hu] at hr
      exact ih (hptr a hr) hw

theorem addresses_unwrap (r : AbsRVal) : r.unwrap.addresses = r.addresses := by
  induction r using AbsRVal.induction with
  | consumed _ _ _ ih | namedLocation _ _ ih => exact ih
  | _ => rfl

theorem addresses_lookupPath (hw : lookupPath path r = some w) :
    ∀ p ∈ w.addresses, p ∈ r.addresses := by
  intro p hp
  by_contra h
  refine keeps_lookupPath (P := fun r => p ∉ r.addresses) ?_ ?_ (fun _ => id) h hw hp
  · exact fun r h => by rwa [addresses_unwrap]
  · exact fun u f a h ha hp => h (mem_fieldAddresses ha hp)

theorem addresses_lookupPlace {q : Place}
    (hw : lookupPlace d q = some w) : ∀ p ∈ w.addresses, p ∈ dictAddresses d := by
  intro p hp
  obtain ⟨v, hv, hpath⟩ := bind_eq_some_iff.1 hw
  obtain ⟨l1, l2, rfl, -⟩ := List.lookup_eq_some_iff.1 hv
  simp only [dictAddresses, List.flatMap_append, List.flatMap_cons, List.mem_append]
  exact .inr (.inl (addresses_lookupPath hpath p hp))

mutual
/-- The pointers in the value name places, and the field of a union that is known is one of its
fields. -/
def AbsRVal.Valid (d : FlowDict) : AbsRVal → Prop
  | .addressOf p => (lookupPlace d p).isSome
  | .uniquePtr r => r.Valid d
  | .aggregate u f => (∀ i, u.isUnion = true → u.fieldnum = some i → i < f.length) ∧ FieldsValid d f
  | .consumed _ _ r => r.Valid d
  | .namedLocation _ r => r.Valid d
  | .zero | .notZeroAll | .unknownR _ | .esc _ => True

def FieldsValid (d : FlowDict) : List AbsRVal → Prop
  | [] => True
  | r :: f => r.Valid d ∧ FieldsValid d f
end

/-- All values of the dictionary are valid in it. -/
def FlowValid (d : FlowDict) : Prop :=
  ∀ k v, d.lookup k = some v → v.Valid d

theorem fieldsValid_iff : FieldsValid d f ↔ ∀ r ∈ f, r.Valid d := by
  induction f with
  | nil => simp [FieldsValid]
  | cons r f ih => simp [FieldsValid, ih]

theorem valid_of_addresses {d' : FlowDict} (h : r.Valid d)
    (hp : ∀ p ∈ r.addresses, (lookupPlace d' p).isSome) : r.Valid d' := by
  induction r using AbsRVal.induction with
  | zero | notZeroAll | unknownR | esc => exact trivial
  | addressOf p => exact hp p (List.mem_singleton_self p)
  | uniquePtr _ ih | consumed _ _ _ ih | namedLocation _ _ ih => exact ih h hp
  | aggregate u f ih =>
    refine ⟨h.1, fieldsValid_iff.2 fun r hr => ?_⟩
    exact ih r hr (fieldsValid_iff.1 h.2 r hr) fun p hq => hp p (mem_fieldAddresses hr hq)

theorem AbsRVal.Valid.unwrap (r : AbsRVal) : r.Valid d → r.unwrap.Valid d := by
  induction r using AbsRVal.induction with
  | consumed _ _ _ ih | namedLocation _ _ ih => exact ih
  | _ => exact id

theorem AbsRVal.Valid.lookupPath (h : r.Valid d) (hw : lookupPath path r = some w) : w.Valid d :=
  keeps_lookupPath AbsRVal.Valid.unwrap (fun _ _ a h ha => fieldsValid_iff.1 h.2 a ha)
    (fun _ => id) h hw

theorem FlowValid.lookupPlace (hd : FlowValid d) (hw : lookupPlace d p = some w) : w.Valid d := by
  obtain ⟨v, hv, hpath⟩ := bind_eq_some_iff.1 hw
  exact (hd _ v hv).lookupPath hpath

/-- Every pointer in `U` can be followed, with the answer `allIL` if its place has `A`. -/
def Derefs (d : FlowDict) (U : List Place) (deref : Place → Option InitLevel)
    (A : Place → Prop) : Prop :=
  ∀ p ∈ U, (lookupPlace d p).isSome → ∃ il, deref p = some il ∧ (A p → il = .allIL)

section Complete

variable {U : List Place} {deref : Place → Option InitLevel} {A : Place → Prop}

/-- The search of the value ends, and with `allIL` if the value is initialised. -/
def Found (deref : Place → Option InitLevel) (A : Place → Prop) (r : AbsRVal) : Prop :=
  ∃ il, initlevelRec deref r .allIL = some il ∧ (InitGiven A r → il = .allIL)

theorem initlevelAll_total (h : ∀ r ∈ f, Found deref A r) :
    ∃ il, initlevelAll deref f .allIL = some il ∧ ((∀ r ∈ f, InitGiven A r) → il = .allIL) := by
  induction f with
  | nil => exact ⟨.allIL, rfl, fun _ => rfl⟩
  | cons r f ih =>
    obtain ⟨⟨il, hil, hA⟩, hf⟩ := List.forall_mem_cons.1 h
    rw [initlevelAll, hil, bind_some]
    cases il with
    | noneIL => exact ⟨.noneIL, initlevelAll_noneIL f, fun h => hA (h r (.head _))⟩
    | allIL =>
      obtain ⟨il', hil', hA'⟩ := ih hf
      exact ⟨il', hil', fun h => hA' fun r hr => h r (.tail _ hr)⟩

theorem initlevelSome_total (h : ∀ r ∈ f, Found deref A r) :
    ∃ il, initlevelSome deref f = some il ∧ ((∃ r ∈ f, InitGiven A r) → il = .allIL) := by
  induction f with
  | nil => exact ⟨.noneIL, rfl, fun ⟨_, hr, _⟩ => absurd hr not_mem_nil⟩
  | cons r f ih =>
    obtain ⟨⟨il, hil, hA⟩, hf⟩ := List.forall_mem_cons.1 h
    rw [initlevelSome, hil, bind_some]
    cases il with
    | allIL => exact ⟨.allIL, rfl, fun _ => rfl⟩
    | noneIL =>
      obtain ⟨il', hil', hA'⟩ := ih hf
      refine ⟨il', hil', ?_⟩
      rintro ⟨a, ha, hinit⟩
      rcases mem_cons.1 ha with rfl | ha
      · cases hA hinit
      · exact hA' ⟨a, ha, hinit⟩

/-- On a valid value the search ends, and with `allIL` if the value is initialised. -/
theorem initlevelRec_total (hderef : Derefs d U deref A) (r : AbsRVal) (h : r.Valid d)
    (hU : ∀ p ∈ r.addresses, p ∈ U) : Found deref A r := by
  induction r using AbsRVal.induction with
  | zero | notZeroAll => exact ⟨.allIL, rfl, fun _ => rfl⟩
  | unknownR il | esc il => exact ⟨il, rfl, fun h => by cases h; rfl⟩
  | consumed => exact ⟨.noneIL, rfl, nofun⟩
  | addressOf p =>
    obtain ⟨il, hil, hA⟩ := hderef p (hU p (List.mem_singleton_self p)) h
    exact ⟨il, hil, fun | .addressOf h => hA h⟩
  | uniquePtr r ih =>
    obtain ⟨il, hil, hA⟩ := ih h hU
    exact ⟨il, hil, fun | .uniquePtr h => hA h⟩
  | namedLocation _ r ih =>
    obtain ⟨il, hil, hA⟩ := ih h hU
    exact ⟨il, hil, fun | .namedLocation h => hA h⟩
  | aggregate u f ih =>
    have hf : ∀ r ∈ f, Found deref A r := fun r hr =>
      ih r hr (fieldsValid_iff.1 h.2 r hr) fun p hp => hU p (mem_fieldAddresses hr hp)
    match u with
    | ⟨false, _⟩ =>
      obtain ⟨il, hil, hA⟩ := initlevelAll_total hf
      exact ⟨il, hil, fun h => hA (h.field rfl)⟩
    | ⟨true, none⟩ =>
      obtain ⟨il, hil, hA⟩ := initlevelSome_total hf
      exact ⟨il, hil, fun | .unionSome _ _ hr h => hA ⟨_, hr, h⟩⟩
    | ⟨true, some i⟩ =>
      have hi := List.getElem?_eq_getElem (h.1 i rfl rfl)
      obtain ⟨il, hil, hA⟩ := hf _ (List.mem_of_getElem? hi)
      refine ⟨il, (initlevelNth_eq f i).trans (by rw [hi, bind_some, hil]), ?_⟩
      exact fun | .unionField _ rfl hr h => hA (Option.some.inj (hi.symm.trans hr) ▸ h)

end Complete

theorem initlevelDeref_total (hd : FlowValid d) {U : List Place}
    (hU : ∀ p ∈ dictAddresses d, p ∈ U) {fuel : Nat} (hfuel : U.length ≤ fuel) :
    Derefs d U (initlevelDeref d fuel []) fun p =>
      Assuming (InitStep d) (· ∈ []) p ∨ p ∈ [] := by
  refine Worklist.stack_induction (motive := fun fuel seen p => (lookupPlace d p).isSome →
    ∃ il, initlevelDeref d fuel seen p = some il ∧
      (Assuming (InitStep d) (· ∈ seen) p ∨ p ∈ seen → il = .allIL)) ?_ ?_ hfuel
  · intro fuel seen p hmem _
    refine ⟨.allIL, ?_, fun _ => rfl⟩
    cases fuel <;> simp [initlevelDeref, hmem]
  · intro fuel seen p _ hmem ih hlink
    obtain ⟨r, hr⟩ := Option.isSome_iff_exists.1 hlink
    obtain ⟨il, hil, hA⟩ := initlevelRec_total ih r (hd.lookupPlace hr)
      fun q hq => hU q (addresses_lookupPlace hr q hq)
    rw [initlevelDeref, if_neg hmem]
    refine ⟨il, by simp only [hr, bind_some, hil], fun h => hA ?_⟩
    obtain ⟨r', hr', hinit⟩ := (h.resolve_right hmem).unfold (InitStep.monotonic d)
    rw [hr, Option.some.injEq] at hr'
    exact hr' ▸ hinit.mono fun q _ hq =>
      hq.imp (fun hq => hq.weaken (fun c => .tail p) (InitStep.monotonic d))
        (.tail p)

/-- On valid values `initlevel` ends, and gives `allIL` for the initialised ones only. -/
theorem initlevel_total (hd : FlowValid d) (hr : r.Valid d) :
    ∃ il, initlevel d r = some il ∧ (il = .allIL ↔ Init d r) := by
  obtain ⟨il, hil, hA⟩ := initlevelRec_total
    (initlevelDeref_total hd (fun p hp => mem_append_right r.addresses hp) le_rfl) r hr
    fun p hp => mem_append_left _ hp
  refine ⟨il, hil, fun h => init_of_initlevel (h ▸ hil), fun h => hA ?_⟩
  exact h.mono fun p _ hp => .inl (hp.weaken (fun c hc => hc.elim) (InitStep.monotonic d))

theorem Init.initlevel (hd : FlowValid d) (hr : r.Valid d) (h : Init d r) :
    initlevel d r = some .allIL := by
  obtain ⟨il, hil, hiff⟩ := initlevel_total hd hr
  rw [hil, hiff.2 h]

/-! ## Values that are not consumed -/

/-- The value is not reported consumed at the iteration of the expression. -/
def NotConsumed (e : ExpId) (k : Int) (r : AbsRVal) : Prop :=
  ∃ needs needs', isUniqueConsumed e k r needs = some (false, needs')

/-- The value is not reported consumed anywhere. -/
def Unconsumed (r : AbsRVal) : Prop :=
  ∀ e k, NotConsumed e k r

section Consumed

variable {e : ExpId} {k : Int}

/-- The answer is the same for both values of the flag. -/
def Steadfast (e : ExpId) (k : Int) (r : AbsRVal) : Prop :=
  NotConsumed e k r → ∀ needs, ∃ needs', isUniqueConsumed e k r needs = some (false, needs')

theorem isConsumedSome_iff (h : ∀ r ∈ f, Steadfast e k r) (needs : Bool) :
    (∃ needs', isConsumedSome e k f needs = some (false, needs')) ↔
      ∀ r ∈ f, NotConsumed e k r := by
  induction f generalizing needs with
  | nil => exact ⟨fun _ _ hr => absurd hr not_mem_nil, fun _ => ⟨needs, rfl⟩⟩
  | cons a f ih =>
    obtain ⟨ha, hf⟩ := List.forall_mem_cons.1 h
    rw [List.forall_mem_cons]
    constructor
    · rintro ⟨needs', hsome⟩
      obtain ⟨⟨b, n⟩, hb, hrest⟩ := bind_eq_some_iff.1 hsome
      cases b with
      | true => cases hrest
      | false => exact ⟨⟨needs, n, hb⟩, (ih hf n).1 ⟨needs', hrest⟩⟩
    · rintro ⟨hnot, hrest⟩
      obtain ⟨n, hn⟩ := ha hnot needs
      obtain ⟨n', hn'⟩ := (ih hf n).2 hrest
      exact ⟨n', by rw [isConsumedSome, hn]; exact hn'⟩

theorem isConsumedNth_eq (f : List AbsRVal) (i : Nat) (needs : Bool) :
    isConsumedNth e k f i needs = f[i]?.bind fun r => isUniqueConsumed e k r needs := by
  induction f generalizing i with
  | nil => rfl
  | cons a f ih =>
    cases i with
    | zero => rfl
    | succ i => exact ih i

theorem isUniqueConsumed_known {i : Nat} (hu : u.isUnion = true) (hi : u.fieldnum = some i)
    (needs : Bool) : isUniqueConsumed e k (.aggregate u f) needs =
      f[i]?.bind fun r => isUniqueConsumed e k r needs := by
  rw [← isConsumedNth_eq, isUniqueConsumed]
  simp only [hu, hi]

theorem isUniqueConsumed_all (h : u.isUnion = false ∨ u.fieldnum = none) (needs : Bool) :
    isUniqueConsumed e k (.aggregate u f) needs = isConsumedSome e k f needs := by
  unfold isUniqueConsumed
  split
  · rename_i i hu hi
    rcases h with h | h
    · exact absurd (h.symm.trans hu) Bool.false_ne_true
    · rw [h] at hi
      cases hi
  · rfl

/-- What of an aggregate is looked at. -/
theorem known_or_all (u : UnionRInfo) :
    (∃ i, u.isUnion = true ∧ u.fieldnum = some i) ∨ u.isUnion = false ∨ u.fieldnum = none := by
  obtain ⟨_ | _, _ | i⟩ := u
  · exact .inr (.inl rfl)
  · exact .inr (.inl rfl)
  · exact .inr (.inr rfl)
  · exact .inl ⟨i, rfl, rfl⟩

theorem steadfast (e : ExpId) (k : Int) (r : AbsRVal) : Steadfast e k r := by
  rintro ⟨n, n', h⟩ needs
  induction r using AbsRVal.induction generalizing n n' needs with
  | consumed c i r =>
    unfold isUniqueConsumed at h ⊢
    split_ifs at h ⊢
    · exact ⟨_, rfl⟩
    · cases h
  | namedLocation _ r ih => exact ih n n' h needs
  | aggregate u f ih =>
    rcases known_or_all u with ⟨i, hu, hi⟩ | hall
    · rw [isUniqueConsumed_known hu hi] at h ⊢
      obtain ⟨r, hr, h⟩ := bind_eq_some_iff.1 h
      rw [hr]
      exact ih r (List.mem_of_getElem? hr) n n' h needs
    · rw [isUniqueConsumed_all hall] at h ⊢
      have hf : ∀ r ∈ f, Steadfast e k r := fun r hr ⟨m, m', hm⟩ => ih r hr m m' hm
      exact (isConsumedSome_iff hf needs).2 ((isConsumedSome_iff hf n).1 ⟨n', h⟩)
  | _ => exact ⟨needs, rfl⟩

theorem notConsumed_known {i : Nat} (hu : u.isUnion = true) (hi : u.fieldnum = some i) :
    NotConsumed e k (.aggregate u f) ↔ ∃ r, f[i]? = some r ∧ NotConsumed e k r := by
  simp only [NotConsumed, isUniqueConsumed_known hu hi, bind_eq_some_iff]
  grind

theorem notConsumed_all (h : u.isUnion = false ∨ u.fieldnum = none) :
    NotConsumed e k (.aggregate u f) ↔ ∀ r ∈ f, NotConsumed e k r := by
  have hf : ∀ r ∈ f, Steadfast e k r := fun r _ => steadfast e k r
  constructor
  · rintro ⟨n, n', h'⟩
    rw [isUniqueConsumed_all h] at h'
    exact (isConsumedSome_iff hf n).1 ⟨n', h'⟩
  · intro h'
    obtain ⟨n', hn'⟩ := (isConsumedSome_iff hf false).2 h'
    exact ⟨false, n', (isUniqueConsumed_all h false).trans hn'⟩

end Consumed

/-- An aggregate of which all members are unconsumed. -/
theorem unconsumed_aggregate (hf : ∀ r ∈ f, Unconsumed r)
    (hu : ∀ i, u.isUnion = true → u.fieldnum = some i → i < f.length) :
    Unconsumed (.aggregate u f) := by
  intro e k
  rcases known_or_all u with ⟨i, hun, hi⟩ | hall
  · have hr := List.getElem?_eq_getElem (hu i hun hi)
    exact (notConsumed_known hun hi).2 ⟨_, hr, hf _ (List.mem_of_getElem? hr) e k⟩
  · exact (notConsumed_all hall).2 fun r hr => hf r hr e k

mutual
/-- All unions in the value, outside of what it points to, have `Q`. -/
def AbsRVal.Unions (Q : UnionRInfo → List AbsRVal → Prop) : AbsRVal → Prop
  | .aggregate u f => (u.isUnion = true → Q u f) ∧ FieldUnions Q f
  | .consumed _ _ r => r.Unions Q
  | .namedLocation _ r => r.Unions Q
  | .zero | .notZeroAll | .unknownR _ | .esc _ | .addressOf _ | .uniquePtr _ => True

def FieldUnions (Q : UnionRInfo → List AbsRVal → Prop) : List AbsRVal → Prop
  | [] => True
  | r :: f => r.Unions Q ∧ FieldUnions Q f
end

theorem fieldUnions_iff {Q : UnionRInfo → List AbsRVal → Prop} :
    FieldUnions Q f ↔ ∀ r ∈ f, r.Unions Q := by
  induction f with
  | nil => simp [FieldUnions]
  | cons r f ih => simp [FieldUnions, ih]

/-- The unions in the value are initialised, in all fields. -/
def Full (d : FlowDict) : AbsRVal → Prop :=
  AbsRVal.Unions fun u f => Init d (.aggregate u f) ∧ ∀ r ∈ f, Init d r

theorem Full.field (h : Full d (.aggregate u f)) (hr : r ∈ f) : Full d r :=
  fieldUnions_iff.1 h.2 r hr

theorem Full.init_field (h : Full d (.aggregate u f)) (hinit : Init d (.aggregate u f))
    (hr : r ∈ f) : Init d r := by
  cases hu : u.isUnion with
  | false => exact hinit.field hu r hr
  | true => exact (h.1 hu).2 r hr

/-- The last field of an initialised union is one of its fields. -/
theorem InitGiven.field_lt {A : Place → Prop} {i : Nat} (h : InitGiven A (.aggregate u f))
    (hu : u.isUnion = true) (hi : u.fieldnum = some i) : i < f.length := by
  cases h with
  | struct hu' => rw [hu] at hu'; cases hu'
  | unionField _ hi' hr =>
    rw [hi, Option.some.injEq] at hi'
    exact hi' ▸ (List.getElem?_eq_some_iff.1 hr).1
  | unionSome _ hi' => rw [hi] at hi'; cases hi'

theorem Full.unconsumed (h : Full d r) (hinit : Init d r) : Unconsumed r := by
  induction r using AbsRVal.induction with
  | consumed => cases hinit
  | namedLocation _ r ih =>
    cases hinit with
    | namedLocation hinit => exact ih h hinit
  | aggregate u f ih =>
    refine unconsumed_aggregate (fun r hr => ?_) fun i => hinit.field_lt
    exact ih r hr (h.field hr) (h.init_field hinit hr)
  | _ => exact fun e k => ⟨false, false, rfl⟩

end ConcurrentCyclone.CfFlowInfo
