import ConcurrentCyclone.CfFlowInfo.Below

/-!
# Leaves of a value

`is_rval_unescaped` is to tell whether no relevant leaf of a value is escaped. At a union whose last
field is known it negates the answer for that field, so it is right if it reaches no such union, and
wrong at one of them if it is right for its field (`isRvalUnescaped_right`).

`insert_place_outer` is to replace the leaves of a place that `lookup_place` finds. It does so
exactly if the path does not lead under a mark of consumption (`insertPlaceOuter_iff`).
-/

set_option autoImplicit false

namespace ConcurrentCyclone.CfFlowInfo

open Option (bind_eq_some_iff map_eq_some_iff)

/-! ## Escaped leaves -/

mutual
def isRvalUnescaped : AbsRVal → Option Bool
  | .esc _ => some false
  | .consumed _ _ r => isRvalUnescaped r
  | .namedLocation _ r => isRvalUnescaped r
  | .aggregate u d =>
    match u.isUnion, u.fieldnum with
    | true, some f => (isNthUnescaped d f).map (!·)
    | _, _ => areUnescaped d
  | .zero | .notZeroAll | .unknownR _ | .addressOf _ | .uniquePtr _ => some true

def areUnescaped : List AbsRVal → Option Bool
  | [] => some true
  | r :: d => (isRvalUnescaped r).bind fun b => if b then areUnescaped d else some false

def isNthUnescaped : List AbsRVal → Nat → Option Bool
  | [], _ => none
  | r :: _, 0 => isRvalUnescaped r
  | _ :: d, f + 1 => isNthUnescaped d f
end

/-- The relevant parts of a value: of a union whose last field is known only that field counts. -/
inductive Relevant (x : AbsRVal) : AbsRVal → Prop
  | refl : Relevant x x
  | consumed {e i r} (h : Relevant x r) : Relevant x (.consumed e i r)
  | namedLocation {n r} (h : Relevant x r) : Relevant x (.namedLocation n r)
  | known {d : List AbsRVal} {f r} (hf : d[f]? = some r) (h : Relevant x r) :
      Relevant x (.aggregate ⟨true, some f⟩ d)
  | field {u d r} (hu : u.isUnion = false ∨ u.fieldnum = none) (hr : r ∈ d) (h : Relevant x r) :
      Relevant x (.aggregate u d)

/-- No relevant leaf of the value is escaped. -/
def Unescaped (r : AbsRVal) : Prop :=
  ∀ il, ¬ Relevant (.esc il) r

/-- The parts of a value that `is_rval_unescaped` looks at: its loop over fields ends at one with an
escaped leaf. -/
inductive Reached (x : AbsRVal) : AbsRVal → Prop
  | refl : Reached x x
  | consumed {e i r} (h : Reached x r) : Reached x (.consumed e i r)
  | namedLocation {n r} (h : Reached x r) : Reached x (.namedLocation n r)
  | known {d : List AbsRVal} {f r} (hf : d[f]? = some r) (h : Reached x r) :
      Reached x (.aggregate ⟨true, some f⟩ d)
  | field {u pre r post} (hu : u.isUnion = false ∨ u.fieldnum = none)
      (hpre : ∀ r' ∈ pre, Unescaped r') (h : Reached x r) :
      Reached x (.aggregate u (pre ++ r :: post))

/-- The answer for the value is that no relevant leaf is escaped. -/
def AnswersRight (r : AbsRVal) : Prop :=
  ∃ b, isRvalUnescaped r = some b ∧ (b = true ↔ Unescaped r)

/-- The loop over the fields is right if it is right for those that it gets to. -/
theorem areUnescaped_right {d : List AbsRVal}
    (h : ∀ pre r post, d = pre ++ r :: post → (∀ r' ∈ pre, Unescaped r') → AnswersRight r) :
    ∃ b, areUnescaped d = some b ∧ (b = true ↔ ∀ r ∈ d, Unescaped r) := by
  induction d with
  | nil => exact ⟨true, rfl, by simp⟩
  | cons r d ih =>
    obtain ⟨b, hb, hr⟩ := h [] r d rfl nofun
    rw [areUnescaped, hb, Option.bind_some, List.forall_mem_cons, ← hr]
    cases b with
    | false => exact ⟨false, rfl, by simp⟩
    | true =>
      obtain ⟨b, hb, hd⟩ := ih fun pre r' post hsplit hpre => h (r :: pre) r' post
        (by rw [hsplit, List.cons_append]) (List.forall_mem_cons.2 ⟨hr.1 rfl, hpre⟩)
      exact ⟨b, hb, by simpa using hd⟩

theorem isNthUnescaped_eq (d : List AbsRVal) (f : Nat) :
    isNthUnescaped d f = d[f]?.bind isRvalUnescaped := by
  induction d generalizing f with
  | nil => rfl
  | cons r d ih =>
    cases f with
    | zero => rfl
    | succ f => exact ih f

theorem answersRight_of_iff {r r' : AbsRVal} (h : AnswersRight r)
    (hr : isRvalUnescaped r' = isRvalUnescaped r)
    (hx : ∀ il, Relevant (.esc il) r' ↔ Relevant (.esc il) r) : AnswersRight r' := by
  simpa only [AnswersRight, Unescaped, hr, hx] using h

/-- Right where no union with a known field is reached, and wrong at such a union if it is right for
the field. -/
theorem isRvalUnescaped_right (r : AbsRVal) :
    ((∀ f d, ¬ Reached (.aggregate ⟨true, some f⟩ d) r) → AnswersRight r) ∧
      ∀ d f, d[f]? = some r → AnswersRight r → ¬ AnswersRight (.aggregate ⟨true, some f⟩ d) := by
  constructor
  · induction r using AbsRVal.induction with
    | esc il => exact fun _ => ⟨false, rfl, iff_of_false Bool.false_ne_true fun h => h il .refl⟩
    | zero | notZeroAll | unknownR | addressOf | uniquePtr =>
      exact fun _ => ⟨true, rfl, iff_of_true rfl nofun⟩
    | consumed e i r ih =>
      intro hr
      refine answersRight_of_iff (ih fun f d h => hr f d h.consumed) rfl fun il => ?_
      exact ⟨fun | .consumed h => h, .consumed⟩
    | namedLocation n r ih =>
      intro hr
      refine answersRight_of_iff (ih fun f d h => hr f d h.namedLocation) rfl fun il => ?_
      exact ⟨fun | .namedLocation h => h, .namedLocation⟩
    | aggregate u d ih =>
      intro hr
      have hu : u.isUnion = false ∨ u.fieldnum = none := by
        obtain ⟨_ | _, _ | f⟩ := u
        case true.some => exact absurd .refl (hr f d)
        all_goals simp
      have heq : isRvalUnescaped (.aggregate u d) = areUnescaped d := by
        rcases hu with hu | hu <;> simp [isRvalUnescaped, hu]
      obtain ⟨b, hb, hd⟩ := areUnescaped_right (d := d) <| by
        rintro pre r post rfl hpre
        exact ih r (by simp) fun f d' h => hr f d' (.field hu hpre h)
      refine ⟨b, heq.trans hb, hd.trans ⟨fun h il hx => ?_, fun h r hr il hx => ?_⟩⟩
      · cases hx with
        | known => simp at hu
        | field _ hr hx => exact h _ hr il hx
      · exact h il (.field hu hr hx)
  · rintro d f hf ⟨b, hb, hr⟩ ⟨b', hb', hu⟩
    have hx il : Relevant (.esc il) (.aggregate ⟨true, some f⟩ d) ↔ Relevant (.esc il) r := by
      refine ⟨fun h => ?_, .known hf⟩
      cases h with
      | known hf' h => exact Option.some.inj (hf.symm.trans hf') ▸ h
      | field hu => simp at hu
    simp only [isRvalUnescaped, isNthUnescaped_eq, hf, Option.bind_some, hb, Option.map_some,
      Option.some.injEq] at hb'
    have hsame : Unescaped (.aggregate ⟨true, some f⟩ d) ↔ Unescaped r :=
      forall_congr' fun il => not_congr (hx il)
    rw [hsame, ← hr, ← hb'] at hu
    cases b <;> simp at hu

theorem isRvalUnescaped_union_esc :
    isRvalUnescaped (.aggregate ⟨true, some 0⟩ [.esc .noneIL]) = some true := rfl

/-! ## Replaced leaves -/

/-- The path leads under a mark of consumption. -/
inductive UnderMark : List PathCon → AbsRVal → Prop
  | consumed {c path e i r} : UnderMark (c :: path) (.consumed e i r)
  | namedLocation {c path n r} (h : UnderMark (c :: path) r) :
      UnderMark (c :: path) (.namedLocation n r)
  | dot {path u} {d : List AbsRVal} {i r} (hi : d[i]? = some r) (h : UnderMark path r) :
      UnderMark (.dot i :: path) (.aggregate u d)
  | star {path r} (h : UnderMark path r) : UnderMark (.star :: path) (.uniquePtr r)

/-- All leaves of the value are `w`. -/
inductive LeavesAre (w : AbsRVal) : AbsRVal → Prop
  | leaf : LeavesAre w w
  | aggregate {u d} (h : ∀ r ∈ d, LeavesAre w r) : LeavesAre w (.aggregate u d)
  | consumed {e i r} (h : LeavesAre w r) : LeavesAre w (.consumed e i r)
  | namedLocation {n r} (h : LeavesAre w r) : LeavesAre w (.namedLocation n r)

theorem leavesAre_insertPlaceInner (w r : AbsRVal) : LeavesAre w (insertPlaceInner w r) := by
  induction r using AbsRVal.induction with
  | aggregate u d ih =>
    rw [insertPlaceInner, insertFieldsInner_eq_map]
    exact .aggregate (List.forall_mem_map.2 ih)
  | consumed _ _ r ih => exact .consumed ih
  | namedLocation _ r ih => exact .namedLocation ih
  | _ => exact .leaf

variable {w r old : AbsRVal} {path : List PathCon} {sh : Sharing}

/-- The insertion succeeds, and the place has then only leaves `w`. -/
def Inserts (w r : AbsRVal) (sh : Sharing) (path : List PathCon) : Prop :=
  ∃ r', insertPlaceOuter w r sh path = some r' ∧ ∃ x, lookupPath path r' = some x ∧ LeavesAre w x

theorem insertPlaceOuter_eq_none (h : UnderMark path r) : insertPlaceOuter w r sh path = none := by
  induction h generalizing sh with
  | consumed => simp [insertPlaceOuter]
  | namedLocation _ ih | star _ ih => simp [insertPlaceOuter, ih]
  | dot hi _ ih =>
    rw [insertPlaceOuter, Option.map_eq_none_iff, Option.eq_none_iff_forall_ne_some]
    intro d' hd'
    obtain ⟨-, sh', r, r', hr, hr', -⟩ := insertNthOuter_getElem? hd'
    cases hi.symm.trans hr
    cases ih.symm.trans hr'

theorem inserts_nth {d : List AbsRVal} {i : Nat} (hi : d[i]? = some r)
    (h : ∀ sh, Inserts w r sh path) :
    ∃ d', insertNthOuter w d sh i path = some d' ∧
      ∃ x, d'.1[i]?.bind (lookupPath path) = some x ∧ LeavesAre w x := by
  induction d generalizing i sh with
  | nil => cases hi
  | cons a d ih =>
    cases i with
    | zero =>
      cases hi
      obtain ⟨r', hr', hx⟩ := h (sh.sub 0)
      exact ⟨(r' :: d, _), by rw [insertNthOuter, hr', Option.map_some], hx⟩
    | succ i =>
      obtain ⟨d', hd', hx⟩ := ih hi
      exact ⟨(a :: d'.1, d'.2), by rw [insertNthOuter, hd', Option.map_some], hx⟩

theorem inserts_of_lookupPath (hold : lookupPath path r = some old) (h : ¬ UnderMark path r) :
    Inserts w r sh path := by
  induction path generalizing r sh with
  | nil => exact ⟨_, by rw [insertPlaceOuter], _, rfl, leavesAre_insertPlaceInner w r⟩
  | cons c path ih =>
    induction r using AbsRVal.induction generalizing sh with
    | namedLocation n r ihr =>
      obtain ⟨r', hr', hx⟩ := @ihr (sh.sub 0) hold fun hr => h hr.namedLocation
      exact ⟨.namedLocation n r', by simp [insertPlaceOuter, hr'], hx⟩
    | consumed => exact absurd .consumed h
    | uniquePtr r =>
      cases c with
      | dot => cases hold
      | star =>
        obtain ⟨r', hr', hx⟩ := ih hold fun hr => h hr.star
        exact ⟨.uniquePtr r', by rw [insertPlaceOuter, hr', Option.map_some], hx⟩
    | aggregate u d =>
      cases c with
      | star => cases hold
      | dot i =>
        obtain ⟨r, hi, hr⟩ := bind_eq_some_iff.1 hold
        obtain ⟨⟨d', changed⟩, hd', hx⟩ :=
          inserts_nth hi fun _ => ih hr fun hr => h (.dot hi hr)
        refine ⟨_, by rw [insertPlaceOuter, hd', Option.map_some], ?_⟩
        cases changed with
        | true => exact hx
        | false =>
          rw [eq_of_insertNthOuter hd'] at hx
          exact hx
    | _ => cases c <;> cases hold

/-- The insertion at a place that is found succeeds exactly if its path does not lead under a mark
of consumption, and all leaves of the place are then the new value. -/
theorem insertPlaceOuter_iff {d : FlowDict} {p : Place} {v : AbsRVal}
    (hp : (lookupPlace d p).isSome) (hv : d.lookup p.root = some v) (w : AbsRVal) (sh : Sharing) :
    (∃ v', insertPlaceOuter w v sh p.path = some v' ∧
      ∃ x, lookupPlace (dictInsert d p.root v') p = some x ∧ LeavesAre w x) ↔
        ¬ UnderMark p.path v := by
  obtain ⟨old, hold⟩ := Option.isSome_iff_exists.1 hp
  simp only [lookupPlace, hv, lookup_dictInsert, if_true, Option.bind_some] at hold ⊢
  refine ⟨?_, inserts_of_lookupPath hold⟩
  rintro ⟨v', hv', -⟩ hmark
  cases (insertPlaceOuter_eq_none hmark).symm.trans hv'

/-- A named aggregate whose second field is a unique pointer to another one, with a field that was
consumed. -/
def ownedPair : AbsRVal :=
  .namedLocation 7 (.aggregate ⟨false, none⟩
    [.zero, .uniquePtr (.aggregate ⟨false, none⟩ [.zero, .consumed 3 0 .notZeroAll])])

/-- Through the second field and the pointer; the mark of consumption is at the end of the path. -/
theorem insertPlaceOuter_iff_ownedPair :
    let d : FlowDict := [(.varRoot 0, .zero), (.varRoot 1, ownedPair)]
    ∃ v', insertPlaceOuter (.esc .allIL) ownedPair .none [.dot 1, .star, .dot 1] = some v' ∧
      ∃ x, lookupPlace (dictInsert d (.varRoot 1) v') ⟨.varRoot 1, [.dot 1, .star, .dot 1]⟩ =
        some x ∧ LeavesAre (.esc .allIL) x := by
  refine (@insertPlaceOuter_iff _ ⟨.varRoot 1, [.dot 1, .star, .dot 1]⟩ _ rfl rfl _ _).2 ?_
  rintro (_ | ⟨_ | _ | ⟨hi, h⟩⟩)
  cases hi
  rcases h with _ | _ | _ | h
  rcases h with _ | _ | ⟨hi, h⟩
  cases hi
  cases h

theorem insertPlaceOuter_consumed :
    let v : AbsRVal := .consumed 0 0 (.aggregate ⟨false, none⟩ [.zero])
    (lookupPlace [(.varRoot 0, v)] ⟨.varRoot 0, [.dot 0]⟩).isSome ∧
      insertPlaceOuter (.esc .allIL) v .none [.dot 0] = none :=
  ⟨rfl, by simp [insertPlaceOuter]⟩

end ConcurrentCyclone.CfFlowInfo
