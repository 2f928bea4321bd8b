import ConcurrentCyclone.Unify.Steps

/-!
# What a unification establishes

`Later` relates the states before and after a unification, failed or not: the new bindings are
acyclic again, and their solution refines the one of the old bindings. When the unification does
not fail, the two types have become equal, unless pointers with fat bounds are among them
(`unifyIt_spec`).

An Evar may be bound to types with certain type variables only. The bindings respect this when the
test that is made before an Evar is bound to one of a smaller kind is sound for it
(`ScopeTest.Sound`).
-/

set_option autoImplicit false

namespace ConcurrentCyclone.Unify

open Terms Transition
open Tcutil (Kind kindLeq)

/-! ## Steps that bind an Evar -/

/-- The test of the lists is good enough for binding the second Evar to the first. -/
def ScopeTest.Sound (test : ScopeTest) : Prop :=
  ∀ tvs₁ tvs₂, test tvs₁ tvs₂ = true → ids tvs₁ ⊆ ids tvs₂

/-- Every Evar stands for a type that it may mention. -/
def State.Scoped (s : State) (m : Evar → Term Head Evar) : Prop :=
  ∀ e, Within s (s.scope e) (m e)

/-- From the state `s` with the solution `m` to the state `s'` with the solution `m'`, Evars are
bound. -/
structure Later (test : ScopeTest) (s : State) (m : Evar → Term Head Evar) (s' : State)
    (m' : Evar → Term Head Evar) : Prop where
  good : ∃ r, Solved s'.store r m'
  refines : ∀ e, m' e = (m e).subst m'
  keepsScopes : test.Sound → s.Scoped m → s'.Scoped m'

variable {test : ScopeTest} {env : Env} {s s' s1 s2 s3 : State}
  {m m' m1 m2 m3 : Evar → Term Head Evar} {r : Evar → ℕ}
  {t t1 t2 : Ty} {e : Evar}

theorem Later.subst_eq (h : Later test s m s' m') (u : Term Head Evar) :
    u.subst m' = (u.subst m).subst m' := by
  rw [Term.subst_subst]
  exact Term.subst_congr fun e _ => h.refines e

theorem Later.trans (h : Later test s1 m1 s2 m2) (h' : Later test s2 m2 s3 m3) :
    Later test s1 m1 s3 m3 where
  good := h'.good
  refines e := by
    rw [h'.refines e, h.refines e, Term.subst_subst]
    exact (Term.subst_congr fun x _ => h'.refines x).symm
  keepsScopes hsound hs := h'.keepsScopes hsound (h.keepsScopes hsound hs)

/-- Shorter lists of unbound Evars suit every Evar that is bound. -/
theorem Narrows.later (h : Narrows s s') (hm : Solved s.store r m) : Later test s m s' m where
  good := ⟨r, h.solved r m hm⟩
  refines e := (hm.solution_idem e).symm
  keepsScopes _ hs e := by
    by_cases he : s.ref e = none
    · rw [hm.solves.eq_hole (store_eq_none.2 he)]
      refine ⟨fun i hi => absurd hi Term.not_hasLabel_hole, fun x hx => ?_⟩
      rw [Term.hasHole_hole.1 hx]
      exact fun _ hi => hi
    · rw [h.kept e he]
      exact (hs e).narrows h

theorem Quiet.later (h : Quiet s s') (hm : Solved s.store r m) : Later test s m s' m :=
  h.narrows.later hm

/-- The solution after `e` is bound to `t`. -/
def bound (m : Evar → Term Head Evar) (e : Evar) (t : Ty) (x : Evar) : Term Head Evar :=
  (m x).subst (Term.single e (t.term.subst m))

variable {u : Term Head Evar} {f : Ty → Ty → M Unit} {elt rgn nullable bounds zeroTerm : Ty}
  {tq : Tqual} {e1 : Evar}

theorem within_bound {tvs : List Tvar} (hu : Within s tvs u)
    (hscope : u.HasHole e → Within s tvs (t.term.subst m)) :
    Within s tvs (u.subst (Term.single e (t.term.subst m))) := by
  constructor
  · intro i hi
    rcases Term.hasLabel_subst.1 hi with hi | ⟨x, hx, hi⟩
    · exact hu.vars i hi
    · by_cases hxe : x = e
      · subst hxe
        rw [Term.single_self] at hi
        exact (hscope hx).vars i hi
      · rw [Term.single_of_ne _ hxe] at hi
        exact absurd hi Term.not_hasLabel_hole
  · intro y hy
    obtain ⟨x, hx, hy⟩ := Term.hasHole_subst.1 hy
    by_cases hxe : x = e
    · subst hxe
      rw [Term.single_self] at hy
      exact (hscope hx).holes y hy
    · rw [Term.single_of_ne _ hxe, Term.hasHole_hole] at hy
      exact hu.holes y (hy ▸ hx)

theorem Within.mono {tvs tvs' : List Tvar} (h : Within s tvs u)
    (hsub : ids tvs ⊆ ids tvs') : Within s tvs' u :=
  ⟨fun i hi => hsub (h.vars i hi), fun x hx _ hi => hsub (h.holes x hx hi)⟩

/-- Binding an unbound Evar to a type in which it does not occur. -/
theorem later_setRef (hm : Solved s.store r m) (he : s.ref e = none)
    (hocc : ¬(t.term.subst m).HasHole e)
    (hscope : test.Sound → Within s (s.scope e) (t.term.subst m)) :
    Later test s m (s.setRef e t) (bound m e t) where
  good := by
    rw [store_setRef]
    exact hm.fill (store_eq_none.2 he) hocc
  refines x := by
    show bound m e t x = (m x).subst fun y => (m y).subst _
    rw [← Term.subst_subst, hm.solution_idem x]
    rfl
  keepsScopes hsound hs x := by
    have hx : Within s (s.scope x) (bound m e t x) :=
      within_bound (hs x) fun hx => (hscope hsound).mono ((hs x).holes e hx)
    exact ⟨hx.vars, hx.holes⟩

theorem Later.eq_of_setRef (h : Later test s1 m1 (s.setRef e t) m) : m e = t.term.subst m := by
  obtain ⟨r, hr⟩ := h.good
  refine hr.solves.eq_subst ?_
  rw [store_setRef, Function.update_self]

/-! ## What the two types have become -/

/-- A pointer type does not have fat bounds. -/
def NotFat (l : Head) (args : List (Term Head Evar)) : Prop :=
  ∀ q, l = .pointer q → ∀ names ts, args[3]? ≠ some (.node (.con (tycon2int .fatCon) names) ts)

/-- No pointer has fat bounds. -/
def ThinPointers (u : Term Head Evar) : Prop :=
  u.Everywhere NotFat

theorem ThinPointers.of_subst (h : ThinPointers (u.subst m)) : ThinPointers u := by
  refine Term.Everywhere.of_subst (fun l args hargs q hq names ts hfat => ?_) h
  refine hargs q hq names (ts.map (Term.subst m)) ?_
  rw [List.getElem?_map, hfat]
  simp

/-- Two types have become equal, or there are pointers with fat bounds among them. -/
def Agree (m : Evar → Term Head Evar) (t₁ t₂ : Ty) : Prop :=
  ThinPointers (t₁.term.subst m) → ThinPointers (t₂.term.subst m) →
    t₁.term.subst m = t₂.term.subst m

theorem Agree.symm (h : Agree m t1 t2) : Agree m t2 t1 :=
  fun h2 h1 => (h h1 h2).symm

theorem Agree.later (h : Agree m t1 t2) (hl : Later test s m s' m') : Agree m' t1 t2 := by
  intro h1 h2
  rw [hl.subst_eq] at h1 h2 ⊢
  rw [hl.subst_eq t2.term]
  rw [h h1.of_subst h2.of_subst]

/-- What a unification of two types does. -/
def UnifySpec (test : ScopeTest) (f : Ty → Ty → M Unit) : Prop :=
  ∀ t₁ t₂ s r m, Solved s.store r m → Outcome (f t₁ t₂) s
    (fun _ s' => ∃ m', Later test s m s' m' ∧ Agree m' t₁ t₂) fun _ s' => ∃ m', Later test s m s' m'

/-- What unification with the bounds of a single element does. -/
def BoundsSpec (f : Ty → Ty → M Unit) : Prop :=
  ∀ c s, s.ref c = none → Outcome (f (.evar c) boundsOne) s
    (fun _ s' => s' = s.setRef c boundsOne) fun _ s' => s' = s

/-- A computation that binds Evars, and what holds of the solution when it does not fail. -/
def Unifies {α : Type} (test : ScopeTest) (s : State) (m : Evar → Term Head Evar) (x : M α)
    (P : α → (Evar → Term Head Evar) → Prop) : Prop :=
  Outcome x s (fun a s' => ∃ m', Later test s m s' m' ∧ P a m')
    fun _ s' => ∃ m', Later test s m s' m'

section Unifies

variable {α β : Type} {x : M α} {P P' : α → (Evar → Term Head Evar) → Prop}

theorem unifies_pure (hm : Solved s.store r m) {a : α} (h : P a m) :
    Unifies test s m (pure a) P :=
  outcome_pure ⟨m, (Quiet.refl s).later hm, h⟩

theorem unifies_throw (hm : Solved s.store r m) (stop : Stop) :
    Unifies test s m (throw stop : M α) P :=
  outcome_throw ⟨m, (Quiet.refl s).later hm⟩

theorem Unifies.mono (h : Unifies test s m x P)
    (hP : ∀ a s' m', Later test s m s' m' → P a m' → P' a m') : Unifies test s m x P' :=
  Outcome.mono h (fun a s' ⟨m', hl, ha⟩ => ⟨m', hl, hP a s' m' hl ha⟩) fun _ _ h => h

/-- A computation from a later state on. -/
theorem Unifies.after (hl : Later test s m s1 m1) (h : Unifies test s1 m1 x P) :
    Outcome x s1 (fun a s' => ∃ m', Later test s m s' m' ∧ P a m')
      fun _ s' => ∃ m', Later test s m s' m' :=
  Outcome.mono h (fun _ _ ⟨m', hl', ha⟩ => ⟨m', hl.trans hl', ha⟩)
    fun _ _ ⟨m', hl'⟩ => ⟨m', hl.trans hl'⟩

theorem Unifies.bind {k : α → M β} {Q : β → (Evar → Term Head Evar) → Prop}
    (h : Unifies test s m x P) (hk : ∀ a s1 m1 r1, Later test s m s1 m1 → Solved s1.store r1 m1 →
      P a m1 → Unifies test s1 m1 (k a) Q) : Unifies test s m (x >>= k) Q := by
  refine Outcome.bind h (fun a s1 h => ?_) fun _ _ h => h
  obtain ⟨m1, hl1, ha⟩ := h
  obtain ⟨r1, hm1⟩ := hl1.good
  exact (hk a s1 m1 r1 hl1 hm1 ha).after hl1

theorem unifies_compress {n : Nat} {k : Ty → M β} {Q : β → (Evar → Term Head Evar) → Prop}
    (hm : Solved s.store r m)
    (hk : ∀ t' s1, Compressed s t t' s1 → Solved s1.store r m → Unifies test s1 m (k t') Q) :
    Unifies test s m (compress n t >>= k) Q := by
  refine (compress_spec n t s).bind (fun t' s1 h => ?_) fun _ _ h => ⟨m, h.later hm⟩
  exact (hk t' s1 h (h.quiet.solved r m hm)).after (h.quiet.later hm)

end Unifies

theorem unifies_tqual (tq1 tq2 : Tqual) (hm : Solved s.store r m) :
    Unifies test s m (unifyTqual tq1 tq2) fun _ _ => tq1.quals = tq2.quals := by
  unfold unifyTqual
  split
  next => exact unifies_throw hm _
  next h =>
    push Not at h
    exact unifies_pure hm (by simp [Tqual.quals, h])

theorem tryUnify_spec (hf : UnifySpec test f) (t1 t2 : Ty) (hm : Solved s.store r m) :
    Unifies test s m (tryUnify f t1 t2) fun b m' => b = true → Agree m' t1 t2 := by
  refine Outcome.tryCatch (Q := fun _ s' => ∃ m', Later test s m s' m') ?_ ?_
  · refine (hf t1 t2 s r m hm).bind (fun _ s' h => ?_) fun _ _ h => h
    obtain ⟨m', hl, ha⟩ := h
    exact outcome_pure ⟨m', hl, fun _ => ha⟩
  · rintro stop s' ⟨m', hl⟩
    cases stop with
    | unify r => exact outcome_pure ⟨m', hl, nofun⟩
    | impossible | outOfFuel => exact outcome_throw ⟨m', hl⟩

theorem unifyList_spec (hf : UnifySpec test f) (ts1 ts2 : List Ty) (hm : Solved s.store r m) :
    Unifies test s m (unifyList f ts1 ts2) fun _ m' => List.Forall₂ (Agree m') ts1 ts2 := by
  induction ts1 generalizing ts2 s r m with
  | nil =>
    cases ts2 with
    | nil => exact unifies_pure hm .nil
    | cons t2 ts2 => exact unifies_throw hm _
  | cons t1 ts1 ih =>
    cases ts2 with
    | nil => exact unifies_throw hm _
    | cons t2 ts2 =>
      refine Unifies.bind (hf t1 t2 s r m hm) fun _ s1 m1 r1 _ hm1 ha1 => ?_
      exact (ih ts2 hm1).mono fun _ _ _ hl2 ha2 => .cons (ha1.later hl2) ha2

theorem unifyFields_spec (hf : UnifySpec test f)
    (fs1 fs2 : List (Tqual × Ty)) (hm : Solved s.store r m) :
    Unifies test s m (unifyFields f fs1 fs2) fun _ m' =>
      List.Forall₂ (fun f1 f2 => f1.1.quals = f2.1.quals ∧ Agree m' f1.2 f2.2) fs1 fs2 := by
  induction fs1 generalizing fs2 s r m with
  | nil =>
    cases fs2 with
    | nil => exact unifies_pure hm .nil
    | cons f2 fs2 => exact unifies_throw hm _
  | cons f1 fs1 ih =>
    cases fs2 with
    | nil => exact unifies_throw hm _
    | cons f2 fs2 =>
      refine Unifies.bind (hf f1.2 f2.2 s r m hm) fun _ s1 m1 r1 _ hm1 ha1 => ?_
      refine (unifies_tqual f1.1 f2.1 hm1).bind fun _ s2 m2 r2 hl2 hm2 hq => ?_
      exact (ih fs2 hm2).mono fun _ _ _ hl3 ha3 => .cons ⟨hq, ha1.later (hl2.trans hl3)⟩ ha3

/-- Two nodes of the same label agree when their arguments do. -/
theorem agree_node {l : Head} (ts1 ts2 : List Ty) (h1 : t1.term = .node l (ts1.map Ty.term))
    (h2 : t2.term = .node l (ts2.map Ty.term)) (h : List.Forall₂ (Agree m) ts1 ts2) :
    Agree m t1 t2 := by
  intro hthin1 hthin2
  rw [h1, Term.subst_node] at hthin1
  rw [h2, Term.subst_node] at hthin2
  rw [h1, h2, Term.subst_node, Term.subst_node]
  congr 1
  replace hthin1 := (Term.everywhere_node.1 hthin1).2
  replace hthin2 := (Term.everywhere_node.1 hthin2).2
  clear h1 h2
  induction h with
  | nil => rfl
  | cons ha _ ih =>
    simp only [List.map_cons, List.mem_cons, forall_eq_or_imp] at hthin1 hthin2 ⊢
    rw [ha hthin1.1 hthin2.1, ih hthin1.2 hthin2.2]

theorem agree_tuple {fs1 fs2 : List (Tqual × Ty)}
    (h : List.Forall₂ (fun f1 f2 => f1.1.quals = f2.1.quals ∧ Agree m f1.2 f2.2) fs1 fs2) :
    Agree m (.tuple fs1) (.tuple fs2) := by
  have hquals : fs1.map (fun f => f.1.quals) = fs2.map fun f => f.1.quals := by
    induction h with
    | nil => rfl
    | cons hf _ ih => rw [List.map_cons, List.map_cons, hf.1, ih]
  refine agree_node (fs1.map Prod.snd) (fs2.map Prod.snd) (term_tuple fs1)
    (by rw [term_tuple, hquals]) ?_
  rw [List.forall₂_map_left_iff, List.forall₂_map_right_iff]
  exact h.imp fun _ _ hf => hf.2

/-- The bounds of a pointer are not fat. -/
def ThinBounds (m : Evar → Term Head Evar) (bounds : Ty) : Prop :=
  ∀ names ts, bounds.term.subst m ≠ .node (.con (tycon2int .fatCon) names) ts

theorem ThinPointers.thinBounds
    (h : ThinPointers ((Ty.pointer elt tq rgn nullable bounds zeroTerm).term.subst m)) :
    ThinBounds m bounds := by
  intro names ts hfat
  rw [term_pointer, Term.subst_node] at h
  refine (Term.everywhere_node.1 h).1 _ rfl names ts ?_
  simp only [List.map_cons, List.getElem?_cons_succ, List.getElem?_cons_zero]
  rw [hfat]

theorem unifyNullable_spec (hf : UnifySpec test f) (n : Nat)
    (bounds1 null1 null2 : Ty) (hm : Solved s.store r m) :
    Unifies test s m (unifyNullable f n bounds1 null1 null2) fun _ m' =>
      ThinBounds m' bounds1 → Agree m' null1 null2 := by
  refine unifies_compress hm fun b s1 h hm1 => ?_
  split
  next ts =>
    refine unifies_pure hm1 fun hthin => ?_
    refine absurd ?_ (hthin .anonymous ((ts.map Ty.term).map (Term.subst m)))
    rw [← h.same r m hm, term_app, Term.subst_node]
    rfl
  next => exact Unifies.mono (hf null1 null2 s1 r m hm1) fun _ _ _ _ hnull _ => hnull

theorem unifyPointers_spec (hf : UnifySpec test f) (n : Nat) (elt1 : Ty)
    (tq1 : Tqual) (rgn1 null1 bounds1 zt1 elt2 : Ty) (tq2 : Tqual)
    (rgn2 null2 bounds2 zt2 : Ty) (hm : Solved s.store r m) : Unifies test s m
      (unifyPointers f n elt1 tq1 rgn1 null1 bounds1 zt1 elt2 tq2 rgn2 null2 bounds2 zt2)
      fun _ m' => Agree m' (.pointer elt1 tq1 rgn1 null1 bounds1 zt1)
        (.pointer elt2 tq2 rgn2 null2 bounds2 zt2) := by
  refine Unifies.bind (hf elt1 elt2 s r m hm) fun _ s1 m1 r1 _ hm1 helt => ?_
  refine Unifies.bind (hf rgn2 rgn1 s1 r1 m1 hm1) fun _ s2 m2 r2 hl2 hm2 hrgn => ?_
  refine (tryUnify_spec hf zt1 zt2 hm2).bind fun zt s3 m3 r3 hl3 hm3 hzt => ?_
  cases zt with
  | false => exact unifies_throw hm3 _
  | true =>
    refine (unifies_tqual tq1 tq2 hm3).bind fun _ s4 m4 r4 hl4 hm4 hq => ?_
    refine (tryUnify_spec hf bounds1 bounds2 hm4).bind fun bnd s5 m5 r5 hl5 hm5 hbnd => ?_
    cases bnd with
    | false => exact unifies_throw hm5 _
    | true =>
      refine (unifyNullable_spec hf n bounds1 null1 null2 hm5).mono fun _ s6 m6 hl6 hnull => ?_
      intro hthin1 hthin2
      -- everything that was unified on the way agrees at the end
      have hfrom3 := hl4.trans (hl5.trans hl6)
      have hfrom2 := hl3.trans hfrom3
      refine agree_node [elt1, rgn1, null1, bounds1, zt1] [elt2, rgn2, null2, bounds2, zt2]
        (term_pointer _ _ _ _ _ _) (by rw [hq]; rfl) ?_ hthin1 hthin2
      exact .cons (helt.later (hl2.trans hfrom2)) (.cons (hrgn.symm.later hfrom2)
        (.cons (hnull hthin1.thinBounds) (.cons ((hbnd rfl).later hl6)
          (.cons ((hzt rfl).later hfrom3) .nil))))

/-! ## An Evar and another type -/

@[simp] theorem term_boundsOne :
    boundsOne.term = .node (.con (tycon2int .thinCon) .anonymous) [.node (.valueof 1) []] := by
  simp [boundsOne, Tycon.names]

theorem within_boundsOne (s : State) (tvs : List Tvar) (m : Evar → Term Head Evar) :
    Within s tvs (boundsOne.term.subst m) := by
  refine ⟨fun i hi => ?_, fun x hx => ?_⟩
  · simp at hi
  · simp at hx

theorem not_hasHole_boundsOne (m : Evar → Term Head Evar) (x : Evar) :
    ¬(boundsOne.term.subst m).HasHole x := by
  simp

/-- A boxed Evar and a pointer whose bounds are not known: the bounds become those of one
element. -/
theorem later_boundsOne (test : ScopeTest) {c : Evar} {t2 : Ty} (hm : Solved s.store r m)
    (hc : s.ref c = none) (he1 : s.ref e1 = none) (hin : (t2.term.subst m).HasHole c)
    (hocc : ¬(t2.term.subst m).HasHole e1) (hscope : Within s (s.scope e1) (t2.term.subst m)) :
    ∃ m', Later test s m ((s.setRef c boundsOne).setRef e1 t2) m' := by
  have hne : e1 ≠ c := by
    rintro rfl
    exact hocc hin
  have hl : Later test s m (s.setRef c boundsOne) (bound m c boundsOne) :=
    later_setRef hm hc (not_hasHole_boundsOne m c) fun _ => within_boundsOne s _ m
  obtain ⟨r', hm'⟩ := hl.good
  have hsubst : t2.term.subst (bound m c boundsOne) =
      (t2.term.subst m).subst (Term.single c (boundsOne.term.subst m)) := by
    rw [Term.subst_subst]
    rfl
  refine ⟨_, hl.trans (later_setRef hm' ?_ ?_ fun _ => ?_)⟩
  · simpa [State.setRef, Function.update_of_ne hne] using he1
  · rw [hsubst, Term.hasHole_subst]
    rintro ⟨x, hx, he⟩
    by_cases hxc : x = c
    · subst hxc
      rw [Term.single_self] at he
      exact not_hasHole_boundsOne m e1 he
    · rw [Term.single_of_ne _ hxc, Term.hasHole_hole] at he
      exact hocc (he ▸ hx)
  · rw [hsubst]
    have hw := within_bound (e := c) hscope fun _ => within_boundsOne s (s.scope e1) m
    exact ⟨hw.vars, hw.holes⟩

/-- What the occurs check has established when an Evar is about to be bound. -/
structure Checked (s : State) (m : Evar → Term Head Evar) (e₁ : Evar) (t₂ : Ty) : Prop where
  unbound : s.ref e₁ = none
  head : ∀ e, t₂ = .evar e → s.ref e = none
  not_mem : ¬(t₂.term.subst m).HasHole e₁
  within : Within s (s.scope e₁) (t₂.term.subst m)

theorem Checked.quiet (h : Checked s m e1 t2) (hq : Quiet s s') : Checked s' m e1 t2 where
  unbound := (hq.unbound e1).2 h.unbound
  head e he := (hq.unbound e).2 (h.head e he)
  not_mem := h.not_mem
  within := by
    rw [hq.scope_eq]
    exact h.within.narrows hq.narrows

/-- Binding the checked Evar. -/
theorem Checked.bind (test : ScopeTest) (h : Checked s m e1 t2) (hm : Solved s.store r m) :
    ∃ m', Later test s m (s.setRef e1 t2) m' ∧ Agree m' (.evar e1) t2 := by
  have hl : Later test s m (s.setRef e1 t2) (bound m e1 t2) :=
    later_setRef hm h.unbound h.not_mem fun _ => h.within
  refine ⟨_, hl, fun _ _ => ?_⟩
  exact hl.eq_of_setRef

/-- Binding the Evar of the larger kind to the checked one, after the test of the two lists. -/
theorem Checked.bind_reversed {e2 : Evar} (h : Checked s m e1 (.evar e2))
    (hm : Solved s.store r m) (htest : test (s.scope e1) (s.scope e2) = true) :
    ∃ m', Later test s m (s.setRef e2 (.evar e1)) m' ∧ Agree m' (.evar e1) (.evar e2) := by
  have he1 : m e1 = .hole e1 := hm.solves.eq_hole (store_eq_none.2 h.unbound)
  have he2 : m e2 = .hole e2 := hm.solves.eq_hole (store_eq_none.2 (h.head e2 rfl))
  have hne : e2 ≠ e1 := by
    rintro rfl
    refine h.not_mem ?_
    rw [term_evar, Term.subst_hole, he2]
    exact .here
  have hl : Later test s m (s.setRef e2 (.evar e1)) (bound m e2 (.evar e1)) := by
    refine later_setRef hm (h.head e2 rfl) ?_ fun hsound => ?_
    · rw [term_evar, Term.subst_hole, he1, Term.hasHole_hole]
      exact hne
    · rw [term_evar, Term.subst_hole, he1]
      refine ⟨fun i hi => absurd hi Term.not_hasLabel_hole, fun x hx => ?_⟩
      rw [Term.hasHole_hole.1 hx]
      exact hsound _ _ htest
  refine ⟨_, hl, Agree.symm fun _ _ => ?_⟩
  exact hl.eq_of_setRef

theorem hasHole_bounds {x : Evar} (h : (bounds.term.subst m).HasHole x) :
    ((Ty.pointer elt tq rgn nullable bounds zeroTerm).term.subst m).HasHole x := by
  rw [term_pointer, Term.subst_node, Term.hasHole_node]
  exact ⟨_, List.mem_map_of_mem (by simp), h⟩

section

variable (hb : BoundsSpec f)

include hb

/-- Whether or not the bounds become those of one element, nothing else changes. -/
theorem tryUnify_boundsOne {c : Evar} (hc : s.ref c = none) :
    Outcome (tryUnify f (.evar c) boundsOne) s
      (fun _ s' => s' = s ∨ s' = s.setRef c boundsOne) fun _ s' => s' = s := by
  refine Outcome.tryCatch (Q := fun _ s' => s' = s) ?_ ?_
  · refine (hb c s hc).bind (fun _ s' hs' => ?_) fun _ _ h => h
    exact outcome_pure (.inr hs')
  · rintro stop s' rfl
    cases stop with
    | unify r => exact outcome_pure (.inl rfl)
    | impossible | outOfFuel => exact outcome_throw rfl

theorem unifyAbove_pointer (n : Nat) (tvs : List Tvar) (k2 : Kind)
    (h : Checked s m e1 (.pointer elt tq rgn nullable bounds zeroTerm)) (hm : Solved s.store r m) :
    Unifies test s m
      (unifyAbove test env f n e1 tvs (.pointer elt tq rgn nullable bounds zeroTerm) k2)
      fun _ m' => Agree m' (.evar e1) (.pointer elt tq rgn nullable bounds zeroTerm) := by
  rw [unifyAbove]
  split
  next =>
    refine unifies_compress hm fun c s1 hc hm1 => ?_
    have h1 := h.quiet hc.quiet
    cases c with
    | evar c =>
      have hunbound : s1.ref c = none := hc.head c rfl
      have hbounds : (bounds.term.subst m).HasHole c := by
        rw [← hc.same r m hm, term_evar, Term.subst_hole,
          hm1.solves.eq_hole (store_eq_none.2 hunbound)]
        exact .here
      refine (tryUnify_boundsOne hb hunbound).bind (fun _ s2 hs2 => ?_) ?_
      · rcases hs2 with rfl | rfl
        · exact outcome_modify (h1.bind test hm1)
        · obtain ⟨m', hl'⟩ := later_boundsOne test hm1 hunbound h1.unbound
            (hasHole_bounds hbounds) h1.not_mem h1.within
          exact outcome_modify ⟨m', hl', fun _ _ => hl'.eq_of_setRef⟩
      · rintro _ s2 rfl
        exact ⟨m, (Quiet.refl s2).later hm1⟩
    | app | var | pointer | tuple | valueof => exact unifies_throw hm1 _
  next => exact unifies_throw hm _

theorem unifyAbove_spec (n : Nat) {tvs : List Tvar} (k2 : Kind) (htvs : tvs = s.scope e1)
    (h : Checked s m e1 t2) (hm : Solved s.store r m) :
    Unifies test s m (unifyAbove test env f n e1 tvs t2 k2) fun _ m' => Agree m' (.evar e1) t2 := by
  cases t2 with
  | evar e2 =>
    rw [unifyAbove, Unifies, outcome_get_bind]
    split
    next htest =>
      split
      next => exact outcome_modify (h.bind_reversed hm (htvs ▸ htest))
      next => exact unifies_throw hm _
    next => exact unifies_throw hm _
  | pointer elt tq rgn nullable bounds zeroTerm => exact unifyAbove_pointer hb n tvs k2 h hm
  | app | var | tuple | valueof => exact unifies_throw hm _

theorem unifyEvar_spec (n : Nat)
    (he1 : s.ref e1 = none) (ht2 : ∀ e, t2 = .evar e → s.ref e = none) (hm : Solved s.store r m) :
    Unifies test s m (unifyEvar test env f n e1 t2) fun _ m' => Agree m' (.evar e1) t2 := by
  refine (occurs_spec e1 (s.scope e1) n t2 s).bind (fun _ s1 h => ?_)
    fun _ _ h => ⟨m, h.1.later hm⟩
  obtain ⟨hcuts, hclear⟩ := h
  have hm1 := hcuts.1.solved r m hm
  have h1 : Checked s1 m e1 t2 := by
    refine ⟨(hcuts.1.unbound e1).2 he1, fun e he => (hcuts.1.unbound e).2 (ht2 e he),
      (hclear r m hm).1, ?_⟩
    rw [hcuts.2]
    exact (hclear r m hm).2
  refine Unifies.after (hcuts.1.later hm) ?_
  refine (typeKind_spec env n t2 s1).bind (fun k2 s2 hquiet => ?_) fun _ _ h => ⟨m, h.later hm1⟩
  have hm2 := hquiet.solved r m hm1
  have h2 := h1.quiet hquiet
  refine Unifies.after (hquiet.later hm1) ?_
  split
  next => exact outcome_modify (h2.bind test hm2)
  next =>
    refine unifyAbove_spec hb n k2 ?_ h2 hm2
    rw [hquiet.scope_eq]
    exact hcuts.2.symm

end

/-! ## The whole unification -/

theorem occurs_boundsOne (evar : Evar) (tvs : List Tvar) (n : Nat) (s : State) :
    Outcome (occurs evar tvs n boundsOne) s (fun _ s' => s' = s) fun _ s' => s' = s := by
  match n with
  | 0 | 1 | 2 | _ + 3 => rfl

theorem typeKind_boundsOne (env : Env) (n : Nat) (s : State) :
    Outcome (typeKind env n boundsOne) s (fun _ s' => s' = s) fun _ s' => s' = s := by
  match n with
  | 0 | 1 | _ + 2 => rfl

theorem unifyIt_boundsOne (env : Env) (n : Nat) : BoundsSpec (unifyIt test env n) := by
  intro c s hc
  match n with
  | 0 | 1 => rfl
  | n + 2 =>
    rw [unifyIt, Outcome, bind_of_ok (compress_unbound n hc)]
    show Outcome (unifyEvar test env (unifyIt test env (n + 1)) (n + 1) c boundsOne) s _ _
    refine (occurs_boundsOne c _ (n + 1) s).bind (fun _ s1 h => ?_) fun _ _ h => h
    subst h
    refine (typeKind_boundsOne env (n + 1) s1).bind (fun k2 s2 h => ?_) fun _ _ h => h
    subst h
    split
    next => exact outcome_modify rfl
    next => exact outcome_throw rfl

theorem tyconCmp_iff {c₁ c₂ : Tycon} :
    tyconCmp c₁ c₂ = true ↔ tycon2int c₁ = tycon2int c₂ ∧ c₁.names = c₂.names := by
  simp only [tyconCmp, Bool.and_eq_true, beq_iff_eq]

theorem unifyHeads_spec (hf : UnifySpec test f) (hb : BoundsSpec f)
    (n : Nat) (h1 : ∀ e, t1 = .evar e → s.ref e = none) (h2 : ∀ e, t2 = .evar e → s.ref e = none)
    (hm : Solved s.store r m) :
    Unifies test s m (unifyHeads test env f n t1 t2) fun _ m' => Agree m' t1 t2 := by
  unfold unifyHeads
  split
  next e1 e2 =>
    split
    next heq => exact unifies_pure hm (heq ▸ fun _ _ => rfl)
    next => exact unifyEvar_spec hb n (h1 e1 rfl) h2 hm
  next e1 _ => exact unifyEvar_spec hb n (h1 e1 rfl) h2 hm
  next e2 _ => exact Unifies.mono (hf (.evar e2) _ s r m hm) fun _ _ _ _ ha => ha.symm
  next c₁ ts1 c₂ ts2 =>
    split
    next hc =>
      obtain ⟨hi, hnames⟩ := tyconCmp_iff.1 hc
      refine (unifyList_spec hf ts1 ts2 hm).mono fun _ _ _ _ hall => ?_
      exact agree_node ts1 ts2 (term_app c₁ ts1) (by rw [term_app, hi, hnames]) hall
    next => exact unifies_throw hm _
  next tv1 tv2 =>
    split
    next hid =>
      exact unifies_pure hm (agree_node [] [] (term_var tv1) (by rw [term_var, hid]; rfl) .nil)
    next => exact unifies_throw hm _
  next elt1 tq1 rgn1 null1 bounds1 zt1 elt2 tq2 rgn2 null2 bounds2 zt2 =>
    exact unifyPointers_spec hf n elt1 tq1 rgn1 null1 bounds1 zt1 elt2 tq2 rgn2 null2 bounds2
      zt2 hm
  next i1 i2 =>
    split
    next heq => exact unifies_pure hm (heq ▸ fun _ _ => rfl)
    next => exact unifies_throw hm _
  next fs1 fs2 => exact (unifyFields_spec hf fs1 fs2 hm).mono fun _ _ _ _ hall => agree_tuple hall
  next => exact unifies_throw hm _

theorem unifyIt_spec (env : Env) (n : Nat) : UnifySpec test (unifyIt test env n) := by
  induction n with
  | zero =>
    intro t1 t2 s r m hm
    exact unifies_throw hm _
  | succ n ih =>
    intro t1 t2 s r m hm
    refine unifies_compress hm fun t1' s1 h1 hm1 => ?_
    refine unifies_compress hm1 fun t2' s2 h2 hm2 => ?_
    refine (unifyHeads_spec ih (unifyIt_boundsOne env n) n
      (fun e he => (h2.quiet.unbound e).2 (h1.head e he)) h2.head hm2).mono fun _ _ m' hl ha => ?_
    -- the types stand for the same as the ends of their chains
    have hsame1 : t1'.term.subst m' = t1.term.subst m' := by
      rw [hl.subst_eq t1'.term, hl.subst_eq t1.term, h1.same r m hm]
    have hsame2 : t2'.term.subst m' = t2.term.subst m' := by
      rw [hl.subst_eq t2'.term, hl.subst_eq t2.term, h2.same r m hm1]
    unfold Agree at ha ⊢
    rwa [hsame1, hsame2] at ha

end ConcurrentCyclone.Unify
