import ConcurrentCyclone.CfFlowInfo.Values

/-!
# Places that escape

`escapeThese` works off a pile of places: the leaves of the value of a place become `esc`, with the
level of initialisation the value has, and the places it points to are put on the pile. It ends
because a pointer that is put on the pile is replaced in the dictionary.

The source compares values by address in order to share them. Which values are at one address is
left open: a `Sharing` says of two values that are compared whether they are, and only that they are
then equal is known. Each place of a comparison in the code has an answer of its own.
-/

set_option autoImplicit false

namespace ConcurrentCyclone.CfFlowInfo

/-- The outcome of the comparisons by address, by the place of the comparison in the computation. -/
structure Sharing where
  same : List Nat → AbsRVal → AbsRVal → Bool
  eq_of_same : ∀ q a b, same q a b = true → a = b

namespace Sharing

/-- The comparison made here. -/
def here (sh : Sharing) (a b : AbsRVal) : Bool :=
  sh.same [] a b

/-- The comparisons made in a part of the computation. -/
def sub (sh : Sharing) (i : Nat) : Sharing :=
  ⟨fun q => sh.same (i :: q), fun q => sh.eq_of_same (i :: q)⟩

theorem eq_of_here {sh : Sharing} {a b : AbsRVal} (h : sh.here a b = true) : a = b :=
  sh.eq_of_same [] a b h

/-- No two values are at one address. -/
def none : Sharing :=
  ⟨fun _ _ _ => false, fun _ _ _ h => absurd h Bool.false_ne_true⟩

end Sharing

/-! ## Replacing the value of a place -/

mutual
/-- `insert_place_outer`. If the part that is replaced stays at its address then so does the whole;
only for an aggregate is that a different value, with the last field written still known. -/
def insertPlaceOuter (newVal : AbsRVal) : AbsRVal → Sharing → List PathCon → Option AbsRVal
  | r, _, [] => some (insertPlaceInner newVal r)
  | .aggregate u d, sh, .dot i :: tl =>
    (insertNthOuter newVal d sh i tl).map fun d' =>
      if d'.2 then .aggregate ⟨u.isUnion, none⟩ d'.1 else .aggregate u d
  | .uniquePtr r, sh, .star :: tl => (insertPlaceOuter newVal r (sh.sub 0) tl).map .uniquePtr
  | .namedLocation n r, sh, path =>
    (insertPlaceOuter newVal r (sh.sub 0) path).map (.namedLocation n)
  | _, _, _ => none

/-- The fields with the `i`th one replaced, and whether it was changed. -/
def insertNthOuter (newVal : AbsRVal) :
    List AbsRVal → Sharing → Nat → List PathCon → Option (List AbsRVal × Bool)
  | [], _, _, _ => none
  | r :: d, sh, 0, path =>
    (insertPlaceOuter newVal r (sh.sub 0) path).map fun r' => (r' :: d, !sh.here r' r)
  | r :: d, sh, i + 1, path =>
    (insertNthOuter newVal d (sh.sub 1) i path).map fun d' => (r :: d'.1, d'.2)
end

/-- `Dict::insert`. -/
def dictInsert : FlowDict → Root → AbsRVal → FlowDict
  | [], root, v => [(root, v)]
  | (k, w) :: d, root, v => if k = root then (k, v) :: d else (k, w) :: dictInsert d root v

/-! ## The pile gets shorter -/

theorem length_addPlace_le (pile : List Place) (p : Place) :
    (addPlace pile p).length ≤ pile.length + 1 := by
  unfold addPlace
  split
  · exact Nat.le_succ _
  · exact Nat.le_refl _

mutual
theorem length_addPlaces_le (r : AbsRVal) :
    ∀ pile, (addPlaces pile r).length ≤ pile.length + r.addresses.length := by
  intro pile
  match r with
  | .consumed _ _ r | .namedLocation _ r => exact length_addPlaces_le r pile
  | .addressOf p => exact length_addPlace_le pile p
  | .aggregate _ d => exact length_addFieldPlaces_le d pile
  | .zero | .notZeroAll | .unknownR _ | .esc _ | .uniquePtr _ => exact Nat.le_add_right _ _

theorem length_addFieldPlaces_le (d : List AbsRVal) :
    ∀ pile, (addFieldPlaces pile d).length ≤ pile.length + (fieldAddresses d).length := by
  intro pile
  match d with
  | [] => exact Nat.le_refl _
  | r :: d =>
    have hr := length_addPlaces_le r pile
    have hd := length_addFieldPlaces_le d (addPlaces pile r)
    simp only [addFieldPlaces, fieldAddresses, List.length_append]
    omega
end

mutual
theorem addresses_insertPlaceInner {w : AbsRVal} (hw : w.addresses = []) :
    ∀ r : AbsRVal, (insertPlaceInner w r).addresses = []
  | .aggregate _ d => fieldAddresses_insertFieldsInner hw d
  | .consumed _ _ r | .namedLocation _ r => addresses_insertPlaceInner hw r
  | .zero | .notZeroAll | .unknownR _ | .esc _ | .addressOf _ | .uniquePtr _ => hw

theorem fieldAddresses_insertFieldsInner {w : AbsRVal} (hw : w.addresses = []) :
    ∀ d : List AbsRVal, fieldAddresses (insertFieldsInner w d) = []
  | [] => rfl
  | r :: d => by
    simp only [insertFieldsInner, fieldAddresses, addresses_insertPlaceInner hw r,
      fieldAddresses_insertFieldsInner hw d, List.append_nil]
end

/-- A field that has not been changed is what it was. -/
theorem eq_of_insertNthOuter {w : AbsRVal} : ∀ {d d' : List AbsRVal} {sh : Sharing} {i : Nat}
    {path : List PathCon}, insertNthOuter w d sh i path = some (d', false) → d' = d
  | [], _, _, _, _, h => by simp [insertNthOuter] at h
  | r :: d, _, _, 0, _, h => by
    simp only [insertNthOuter, Option.map_eq_some_iff, Prod.mk.injEq, Bool.not_eq_false'] at h
    obtain ⟨r', -, rfl, hsame⟩ := h
    rw [Sharing.eq_of_here hsame]
  | r :: d, _, _, i + 1, _, h => by
    simp only [insertNthOuter, Option.map_eq_some_iff] at h
    obtain ⟨⟨d'', c⟩, h, rfl, rfl⟩ := h
    rw [eq_of_insertNthOuter h]

mutual
/-- The pointers in the old value of a place are gone after the insertion. -/
theorem length_insertPlaceOuter {w : AbsRVal} (hw : w.addresses = []) :
    ∀ {v v' old : AbsRVal} {sh : Sharing} {path : List PathCon},
      insertPlaceOuter w v sh path = some v' → lookupPath path v = some old →
        v'.addresses.length + old.addresses.length ≤ v.addresses.length
  | v, _, _, _, [], h, hold => by
    rw [insertPlaceOuter] at h
    cases h
    cases hold
    simp [addresses_insertPlaceInner hw]
  | .aggregate u d, v', _, _, .dot i :: tl, h, hold => by
    simp only [insertPlaceOuter, Option.map_eq_some_iff] at h
    obtain ⟨⟨d', c⟩, hd, rfl⟩ := h
    have hlen := length_insertNthOuter hw hd hold
    cases c with
    | true => exact hlen
    | false =>
      rw [eq_of_insertNthOuter hd] at hlen
      exact hlen
  | .uniquePtr r, _, _, _, .star :: tl, h, hold
  | .namedLocation n r, _, _, _, c :: tl, h, hold => by
    simp only [insertPlaceOuter, Option.map_eq_some_iff] at h
    obtain ⟨r', hr, rfl⟩ := h
    have hlen := length_insertPlaceOuter hw hr hold
    exact hlen
  | .aggregate _ _, _, _, _, .star :: _, h, _ | .uniquePtr _, _, _, _, .dot _ :: _, h, _
  | .consumed _ _ _, _, _, _, _ :: _, h, _ | .zero, _, _, _, _ :: _, h, _
  | .notZeroAll, _, _, _, _ :: _, h, _ | .unknownR _, _, _, _, _ :: _, h, _
  | .esc _, _, _, _, _ :: _, h, _ | .addressOf _, _, _, _, _ :: _, h, _ => by
    simp [insertPlaceOuter] at h

theorem length_insertNthOuter {w : AbsRVal} (hw : w.addresses = []) :
    ∀ {d : List AbsRVal} {d' : List AbsRVal × Bool} {old : AbsRVal} {sh : Sharing} {i : Nat}
      {path : List PathCon},
      insertNthOuter w d sh i path = some d' → d[i]?.bind (lookupPath path) = some old →
        (fieldAddresses d'.1).length + old.addresses.length ≤ (fieldAddresses d).length
  | [], _, _, _, _, _, h, _ => by simp [insertNthOuter] at h
  | r :: d, _, _, _, 0, _, h, hold => by
    simp only [insertNthOuter, Option.map_eq_some_iff] at h
    obtain ⟨r', hr, rfl⟩ := h
    have hlen := length_insertPlaceOuter hw hr hold
    simp only [fieldAddresses, List.length_append]
    omega
  | r :: d, _, _, _, i + 1, _, h, hold => by
    simp only [insertNthOuter, Option.map_eq_some_iff] at h
    obtain ⟨d'', hd, rfl⟩ := h
    have hlen := length_insertNthOuter hw hd hold
    simp only [fieldAddresses, List.length_append]
    omega
end

theorem length_dictInsert {d : FlowDict} {root : Root} {v : AbsRVal}
    (hv : d.lookup root = some v) (v' : AbsRVal) :
    (dictAddresses (dictInsert d root v')).length + v.addresses.length =
      (dictAddresses d).length + v'.addresses.length := by
  induction d with
  | nil => cases hv
  | cons e d ih =>
    obtain ⟨k, w⟩ := e
    by_cases hk : k = root
    · subst hk
      rw [List.lookup_cons_self, Option.some.injEq] at hv
      subst hv
      simp only [dictInsert, if_true, dictAddresses, List.flatMap_cons, List.length_append]
      omega
    · rw [List.lookup_cons, beq_false_of_ne (Ne.symm hk)] at hv
      have := ih hv
      simp only [dictInsert, hk, if_false, dictAddresses, List.flatMap_cons,
        List.length_append] at this ⊢
      omega

/-! ## The loop -/

/-- `escape_these`. A place whose root is not in the dictionary is passed over. -/
def escapeThese (sh : Sharing) (pile : List Place) (d : FlowDict) : Option FlowDict :=
  match pile with
  | [] => some d
  | p :: pile =>
    match _hv : d.lookup p.root with
    | none => escapeThese (sh.sub 0) pile d
    | some v =>
      match _hold : lookupPath p.path v with
      | none => none
      | some old =>
        (initlevel d old).bind fun il =>
          match _hins : insertPlaceOuter (.esc il) v sh p.path with
          | none => none
          | some v' =>
            escapeThese (sh.sub 1) (addPlaces pile old) (dictInsert d p.root v')
termination_by pile.length + (dictAddresses d).length
decreasing_by
  · simp
  · have hpile := length_addPlaces_le old pile
    have hval := length_insertPlaceOuter (by rfl) _hins _hold
    have hdict := length_dictInsert _hv v'
    simp only [List.length_cons]
    omega

end ConcurrentCyclone.CfFlowInfo
