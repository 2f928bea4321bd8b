import ConcurrentCyclone.CfFlowInfo.Escape
import ConcurrentCyclone.Relations.Solver

/-!
# Joins of flows

The join of two flows of the flow analysis. If one flow is below the other by the approximate
comparison `flowLessthanApprox`, the other one is the result as it is; otherwise the values of the
common roots are joined one by one (`joinAbsRval`), and the places that are no longer pointed to by
a known pointer escape.
-/

set_option autoImplicit false

namespace ConcurrentCyclone.CfFlowInfo

/-! ## Joining two values -/

/-- The last part of `join_absRval`: nothing but the levels is kept. -/
def joinLevels (d₁ d₂ : FlowDict) (r₁ r₂ : AbsRVal) (pile : List Place) :
    Option (AbsRVal × List Place) :=
  (initlevel d₁ r₁).bind fun il₁ => (initlevel d₂ r₂).bind fun il₂ =>
    let il := match il₁, il₂ with
      | .allIL, .allIL => InitLevel.allIL
      | _, _ => .noneIL
    match r₁, r₂ with
    | .esc _, _ | _, .esc _ => some (.esc il, pile)
    | _, _ => some (.unknownR il, pile)

/-- A pointer that is initialised, joined with a value that is not zero and initialised. -/
def joinNotZero (d : FlowDict) (r : AbsRVal) (pile : List Place) : Option (AbsRVal × List Place) :=
  (initlevel d r).map fun il =>
    match il with
    | .allIL => (.notZeroAll, pile)
    | .noneIL => (.unknownR .noneIL, pile)

/-- The place that a value points to, if it is a known pointer, is put on the pile. -/
def addAddress (pile : List Place) : AbsRVal → List Place
  | .addressOf p => addPlace pile p
  | _ => pile

/-- All fields of a new aggregate are at the addresses of the old ones. -/
def sameFields : Sharing → List AbsRVal → List AbsRVal → Bool
  | _, [], _ => true
  | _, _ :: _, [] => false
  | sh, a :: f, b :: g => sh.here a b && sameFields (sh.sub 0) f g

mutual
/-- `join_absRval`, with the pile of the places that escape. -/
def joinAbsRval (d₁ d₂ : FlowDict) (sh : Sharing) (r₁ r₂ : AbsRVal) (pile : List Place) :
    Option (AbsRVal × List Place) :=
  if sh.here r₁ r₂ then some (r₁, pile)
  else
    match r₁, r₂ with
    | .namedLocation n₁ r₁, .namedLocation n₂ r₂ =>
      (joinAbsRval d₁ d₂ (sh.sub 0) r₁ r₂ pile).map fun a =>
        if n₁ = n₂ then (.namedLocation n₁ a.1, a.2) else a
    | .namedLocation _ r₁, r₂ => joinAbsRval d₁ d₂ (sh.sub 0) r₁ r₂ pile
    | r₁, .namedLocation _ r₂ => joinAbsRval d₁ d₂ (sh.sub 0) r₁ r₂ pile
    | .consumed e₁ i₁ v₁, .consumed e₂ i₂ v₂ =>
      if e₁ = e₂ then
        (joinAbsRval d₁ d₂ (sh.sub 0) v₁ v₂ pile).map fun a =>
          (.consumed e₁ (if i₁ > i₂ then i₁ else i₂) a.1, a.2)
      else
        joinLevels d₁ d₂ (.consumed e₁ i₁ v₁) (.consumed e₂ i₂ v₂)
          (addAddress (addAddress pile v₁) v₂)
    | .consumed e₁ i₁ r₁, r₂ =>
      (joinAbsRval d₁ d₂ (sh.sub 0) r₁ r₂ pile).map fun a => (.consumed e₁ i₁ a.1, a.2)
    | r₁, .consumed e₂ i₂ r₂ =>
      (joinAbsRval d₁ d₂ (sh.sub 0) r₁ r₂ pile).map fun a => (.consumed e₂ i₂ a.1, a.2)
    | .addressOf p₁, .addressOf p₂ =>
      if p₁ = p₂ then some (.addressOf p₁, pile)
      else joinLevels d₁ d₂ (.addressOf p₁) (.addressOf p₂) (addPlace (addPlace pile p₁) p₂)
    | .addressOf p, .notZeroAll => joinNotZero d₁ (.addressOf p) (addPlace pile p)
    | .notZeroAll, .addressOf p => joinNotZero d₂ (.addressOf p) (addPlace pile p)
    | .uniquePtr r₁, .uniquePtr r₂ =>
      (joinAbsRval d₁ d₂ (sh.sub 0) r₁ r₂ pile).map fun a => (.uniquePtr a.1, a.2)
    -- here the level of the value pointed to is taken
    | .uniquePtr r₁, .notZeroAll => joinNotZero d₁ r₁ pile
    | .notZeroAll, .uniquePtr r₂ => joinNotZero d₂ r₂ pile
    | .addressOf p, r₂ => joinLevels d₁ d₂ (.addressOf p) r₂ (addPlace pile p)
    | r₁, .addressOf p => joinLevels d₁ d₂ r₁ (.addressOf p) (addPlace pile p)
    | .aggregate u₁ f₁, .aggregate u₂ f₂ =>
      (joinFields d₁ d₂ (sh.sub 0) f₁ f₂ pile).map fun a =>
        -- a struct whose fields are all at their old addresses is returned as it is
        if !u₁.isUnion && sameFields (sh.sub 1) a.1 f₁ then (.aggregate u₁ f₁, a.2)
        else if !u₁.isUnion && sameFields (sh.sub 2) a.1 f₂ then (.aggregate u₂ f₂, a.2)
        else (.aggregate ⟨u₁.isUnion, if u₁.fieldnum = u₂.fieldnum then u₁.fieldnum else none⟩
          a.1, a.2)
    | r₁, r₂ => joinLevels d₁ d₂ r₁ r₂ pile
termination_by sizeOf r₁ + sizeOf r₂

/-- The fields of two aggregates, joined in order. -/
def joinFields (d₁ d₂ : FlowDict) (sh : Sharing) (f₁ f₂ : List AbsRVal) (pile : List Place) :
    Option (List AbsRVal × List Place) :=
  match f₁, f₂ with
  | [], _ => some ([], pile)
  | _ :: _, [] => none
  | r₁ :: f₁, r₂ :: f₂ =>
    (joinAbsRval d₁ d₂ (sh.sub 0) r₁ r₂ pile).bind fun a =>
      (joinFields d₁ d₂ (sh.sub 1) f₁ f₂ a.2).map fun b => (a.1 :: b.1, b.2)
termination_by sizeOf f₁ + sizeOf f₂
end

/-! ## The approximate comparison -/

/-- The last part of `absRval_lessthan_approx`. -/
def lessthanLevels (r₁ r₂ : AbsRVal) : Option Bool :=
  (initlevelApprox r₁).bind fun il₁ => (initlevelApprox r₂).map fun il₂ =>
    match il₁, il₂ with
    | .allIL, _ => true
    | _, .noneIL => true
    | _, _ => false

mutual
/-- `absRval_lessthan_approx`. Arrays of fields at one address are those whose elements are. -/
def absRvalLessthanApprox (sh : Sharing) (r₁ r₂ : AbsRVal) : Option Bool :=
  if sh.here r₁ r₂ then some true
  else
    match r₁, r₂ with
    | .namedLocation n₁ r₁, .namedLocation n₂ r₂ =>
      if n₁ = n₂ then absRvalLessthanApprox (sh.sub 0) r₁ r₂ else some false
    | .namedLocation _ _, _ => some false
    | _, .namedLocation _ _ => some false
    | .addressOf p₁, .addressOf p₂ => some (decide (p₁ = p₂))
    | .addressOf _, _ => some false
    | _, .addressOf _ => some false
    | .uniquePtr r₁, .uniquePtr r₂ => absRvalLessthanApprox (sh.sub 0) r₁ r₂
    | .uniquePtr _, _ => some false
    | _, .uniquePtr _ => some false
    | .aggregate u₁ f₁, .aggregate u₂ f₂ =>
      if u₁.isUnion && u₁.fieldnum ≠ u₂.fieldnum then some false
      else fieldsLessthanApprox (sh.sub 0) f₁ f₂
    | _, .zero => some false
    | _, .notZeroAll => some false
    | .esc il₁, .esc il₂ => lessthanLevels (.esc il₁) (.esc il₂)
    | .esc _, _ => some false
    | r₁, r₂ => lessthanLevels r₁ r₂
termination_by sizeOf r₁

def fieldsLessthanApprox (sh : Sharing) (f₁ f₂ : List AbsRVal) : Option Bool :=
  match f₁, f₂ with
  | [], _ => some true
  | _ :: _, [] => none
  | r₁ :: f₁, r₂ :: f₂ =>
    (absRvalLessthanApprox (sh.sub 0) r₁ r₂).bind fun b =>
      if b then fieldsLessthanApprox (sh.sub 1) f₁ f₂ else some false
termination_by sizeOf f₁
end

/-! ## Flows -/

section Flows

variable {V T : Type} [DecidableEq V] [DecidableEq T]

inductive FlowInfo (V T : Type) where
  | bottomFL
  | reachableFL (d : FlowDict) (relns : List (Relations.Reln V T))

/-- `relns_approx(r2s, r1s)`: every relation of the second list is in the first. -/
def relnsApprox (r₂s r₁s : List (Relations.Reln V T)) : Bool :=
  r₁s.all fun r => r ∈ r₂s

def joinRelns (r₁s r₂s : List (Relations.Reln V T)) : List (Relations.Reln V T) :=
  if r₁s.all fun r => r ∈ r₂s then r₁s else (r₁s.filter fun r => r ∈ r₂s).reverse

/-- The comparisons by address in the join of two flows: of the flows themselves, of the values of
each root, and while places are made to escape. -/
structure FlowSharing (V T : Type) where
  entry : Root → Sharing
  escape : Sharing
  flows : FlowInfo V T → FlowInfo V T → Bool
  eq_of_flows : ∀ f₁ f₂, flows f₁ f₂ = true → f₁ = f₂

def Sharing.symm (sh : Sharing) : Sharing :=
  ⟨fun q a b => sh.same q b a, fun q a b h => (sh.eq_of_same q b a h).symm⟩

def FlowSharing.symm (sh : FlowSharing V T) : FlowSharing V T :=
  ⟨fun k => (sh.entry k).symm, sh.escape, fun f₁ f₂ => sh.flows f₂ f₁,
    fun f₁ f₂ h => (sh.eq_of_flows f₂ f₁ h).symm⟩

/-- `Dict::forall_intersect` with the comparison of values: the roots of one dictionary only do not
matter. -/
def forallIntersect (entry : Root → Sharing) : FlowDict → FlowDict → Option Bool
  | [], _ => some true
  | (k, v₁) :: d₁, d₂ =>
    match d₂.lookup k with
    | none => forallIntersect entry d₁ d₂
    | some v₂ => (absRvalLessthanApprox (entry k) v₁ v₂).bind fun b =>
      if b then forallIntersect entry d₁ d₂ else some false

def flowLessthanApprox (sh : FlowSharing V T) : FlowInfo V T → FlowInfo V T → Option Bool
  | .bottomFL, _ => some true
  | _, .bottomFL => some false
  | .reachableFL d₁ r₁, .reachableFL d₂ r₂ =>
    if sh.flows (.reachableFL d₁ r₁) (.reachableFL d₂ r₂) then some true
    else (forallIntersect sh.entry d₁ d₂).map fun b => b && relnsApprox r₁ r₂

/-- `Dict::intersect_c` with `join_absRval`: a walk over the second dictionary. -/
def intersectJoin (entry : Root → Sharing) (d₁ d₂ : FlowDict) :
    FlowDict → List Place → Option (FlowDict × List Place)
  | [], pile => some ([], pile)
  | (k, v₂) :: rest, pile =>
    match d₁.lookup k with
    | none => intersectJoin entry d₁ d₂ rest pile
    | some v₁ => (joinAbsRval d₁ d₂ (entry k) v₁ v₂ pile).bind fun a =>
      (intersectJoin entry d₁ d₂ rest a.2).map fun b => ((k, a.1) :: b.1, b.2)

/-- The slow path of `join_flow`. -/
def joinSlow (sh : FlowSharing V T) (d₁ : FlowDict) (r₁ : List (Relations.Reln V T))
    (d₂ : FlowDict) (r₂ : List (Relations.Reln V T)) : Option (FlowInfo V T) :=
  (intersectJoin sh.entry d₁ d₂ d₂ []).bind fun out =>
    (escapeThese sh.escape out.2 out.1).map fun d => .reachableFL d (joinRelns r₁ r₂)

def joinFlow (sh : FlowSharing V T) : FlowInfo V T → FlowInfo V T → Option (FlowInfo V T)
  | .bottomFL, f₂ => some f₂
  | f₁, .bottomFL => some f₁
  | .reachableFL d₁ r₁, .reachableFL d₂ r₂ =>
    if sh.flows (.reachableFL d₁ r₁) (.reachableFL d₂ r₂) then some (.reachableFL d₁ r₁)
    else
      (flowLessthanApprox sh (.reachableFL d₁ r₁) (.reachableFL d₂ r₂)).bind fun below =>
        if below then some (.reachableFL d₂ r₂)
        else
          (flowLessthanApprox sh.symm (.reachableFL d₂ r₂) (.reachableFL d₁ r₁)).bind
            fun above =>
              if above then some (.reachableFL d₁ r₁) else joinSlow sh d₁ r₁ d₂ r₂

end Flows

end ConcurrentCyclone.CfFlowInfo
