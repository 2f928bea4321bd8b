import ConcurrentCyclone.Unify.Sound

/-!
# Unification is sound and idempotent

When `unify` returns true, the bindings are acyclic, the two types have become equal and a second
call finds nothing to do (`unify_sound`).

When `unify_it` meets two Evars of which the first one has the smaller kind it binds the second one
to the first, and it compares the two lists of type variables that they may mention the wrong way
round before it does (`not_unify_scoped`). The lists are respected when the right comparison would
not have stopped it.
-/

set_option autoImplicit false

namespace ConcurrentCyclone.Unify

open Terms Transition
open Tcutil (Kind kindLeq)

variable {f : Ty → Ty → M Unit} {s : State} {m : Evar → Term Head Evar} {r : Evar → ℕ}
  {t t1 t2 : Ty} {e : Evar}

/-! ## Unifying once more -/

/-- With fuel above the ranks of the Evars, `compress` comes to an end. -/
theorem compress_ok (hm : Solved s.store r m) (n : Nat) (t : Ty)
    (hn : ∀ e, t = .evar e → r e < n) :
    ∃ t' s', compress (n + 1) t s = .ok t' s' ∧ Compressed s t t' s' := by
  suffices hrun : ∃ t' s', compress (n + 1) t s = .ok t' s' by
    obtain ⟨t', s', h⟩ := hrun
    exact ⟨t', s', h, (compress_spec (n + 1) t s).of_ok h⟩
  induction n generalizing t with
  | zero =>
    cases t with
    | evar e => exact absurd (hn e rfl) (Nat.not_lt_zero _)
    | _ => exact ⟨_, s, rfl⟩
  | succ n ih =>
    cases t with
    | evar e =>
      cases hta : s.ref e with
      | none => exact ⟨_, s, compress_unbound (n + 1) hta⟩
      | some ta =>
        have hlower : ∀ x, ta = .evar x → r x < n := by
          rintro x rfl
          have hstore : s.store e = some (.hole x) := by
            rw [State.store, hta, Option.map_some, term_evar]
          have hlt := hm.ranked ⟨_, hstore, .here⟩
          have hle := hn e rfl
          omega
        obtain ⟨t', s', h⟩ := ih ta hlower
        refine ⟨t', s'.setRef e t', ?_⟩
        rw [compress, get_bind, hta]
        exact bind_of_ok h
    | _ => exact ⟨_, s, rfl⟩

/-- A computation that changes no binding, in any state of the given solution. -/
def Quietly {α : Type} (r : Evar → ℕ) (m : Evar → Term Head Evar) (x : M α) (a : α) : Prop :=
  ∀ s, Solved s.store r m → ∃ s', x s = .ok a s' ∧ Quiet s s'

theorem Quietly.bind {α β : Type} {x : M α} {a : α} {k : α → M β} {b : β} (hx : Quietly r m x a)
    (hk : Quietly r m (k a) b) : Quietly r m (x >>= k) b := by
  intro s hm
  obtain ⟨s1, h1, hq1⟩ := hx s hm
  obtain ⟨s2, h2, hq2⟩ := hk s1 (hq1.solved r m hm)
  exact ⟨s2, (bind_of_ok h1).trans h2, hq1.trans hq2⟩

theorem quietly_pure {α : Type} (a : α) : Quietly r m (pure a) a :=
  fun s _ => ⟨s, rfl, .refl s⟩

/-- A unification that has nothing to do, in any state of the given solution. -/
def Settled (f : Ty → Ty → M Unit) (r : Evar → ℕ) (m : Evar → Term Head Evar) (t₁ t₂ : Ty) : Prop :=
  ∀ s, Solved s.store r m → ∃ s', f t₁ t₂ s = .ok () s' ∧ Quiet s s'

variable {tq1 tq2 : Tqual} {ts1 ts2 : List Ty}

theorem unifyTqual_quietly (h : tq1.quals = tq2.quals) : Quietly r m (unifyTqual tq1 tq2) () := by
  simp only [Tqual.quals, Prod.mk.injEq] at h
  unfold unifyTqual
  simp only [h, ne_eq]
  exact quietly_pure ()

theorem Settled.tryUnify (h : Settled f r m t1 t2) : Quietly r m (tryUnify f t1 t2) true := by
  intro s hm
  obtain ⟨s', hrun, hq⟩ := h s hm
  exact ⟨s', tryCatch_of_ok (bind_of_ok hrun), hq⟩

theorem unifyList_settled (h : List.Forall₂ (Settled f r m) ts1 ts2) :
    Quietly r m (unifyList f ts1 ts2) () := by
  induction h with
  | nil => exact quietly_pure ()
  | cons ht _ ih => exact Quietly.bind ht ih

theorem unifyFields_settled {fs1 fs2 : List (Tqual × Ty)}
    (h : List.Forall₂ (fun f1 f2 => f1.1.quals = f2.1.quals ∧ Settled f r m f1.2 f2.2) fs1 fs2) :
    Quietly r m (unifyFields f fs1 fs2) () := by
  induction h with
  | nil => exact quietly_pure ()
  | cons ht _ ih => exact Quietly.bind ht.2 ((unifyTqual_quietly ht.1).bind ih)

variable {R n : ℕ}

theorem unifyNullable_settled (hR : ∀ e, r e < R) (hn : R < n) (bounds1 : Ty)
    (h : Settled f r m t1 t2) : Quietly r m (unifyNullable f n bounds1 t1 t2) () := by
  intro s hm
  obtain ⟨k, rfl⟩ : ∃ k, n = k + 1 := ⟨n - 1, by omega⟩
  obtain ⟨b, s1, hb, hcomp⟩ := compress_ok hm k bounds1 fun e _ => (hR e).trans_le (by omega)
  rw [unifyNullable, bind_of_ok hb]
  split
  next => exact ⟨s1, rfl, hcomp.quiet⟩
  next =>
    obtain ⟨s2, hrun, hq⟩ := h s1 (hcomp.quiet.solved r m hm)
    exact ⟨s2, hrun, hcomp.quiet.trans hq⟩

theorem unifyPointers_settled (hR : ∀ e, r e < R) (hn : R < n)
    {elt1 rgn1 null1 bounds1 zt1 elt2 rgn2 null2 bounds2 zt2 : Ty}
    (helt : Settled f r m elt1 elt2) (hrgn : Settled f r m rgn2 rgn1)
    (hnull : Settled f r m null1 null2) (hbounds : Settled f r m bounds1 bounds2)
    (hzt : Settled f r m zt1 zt2) (hq : tq1.quals = tq2.quals) : Quietly r m
      (unifyPointers f n elt1 tq1 rgn1 null1 bounds1 zt1 elt2 tq2 rgn2 null2 bounds2 zt2) () := by
  refine Quietly.bind helt (Quietly.bind hrgn (hzt.tryUnify.bind ?_))
  refine (unifyTqual_quietly hq).bind (hbounds.tryUnify.bind ?_)
  exact unifyNullable_settled hR hn bounds1 hnull

/-- The type that stands for an unbound Evar is this Evar. -/
theorem eq_evar_of_subst (hm : Solved s.store r m) (hhead : ∀ x, t = .evar x → s.ref x = none)
    (h : t.term.subst m = .hole e) : t = .evar e := by
  cases t with
  | evar x =>
    rw [term_evar, Term.subst_hole, hm.solves.eq_hole (store_eq_none.2 (hhead x rfl))] at h
    injection h with hx
    rw [hx]
  | _ => simp at h

variable {α β : Type} {P : α → β → Prop} {xs : List α} {ys : List β}

theorem forall₂_of_map_eq {γ : Type} {f : α → γ} {g : β → γ} (h : xs.map f = ys.map g) :
    List.Forall₂ (fun x y => x ∈ xs ∧ f x = g y) xs ys := by
  refine (List.forall₂_and_left _ _).2 ⟨fun _ hx => hx, ?_⟩
  rw [← List.forall₂_map_right_iff (R := fun x z => f x = z), ← List.forall₂_map_left_iff (R := Eq),
    List.forall₂_eq_eq_eq]
  exact h

theorem forall₂_and {Q : α → β → Prop}
    (hP : List.Forall₂ P xs ys) (hQ : List.Forall₂ Q xs ys) :
    List.Forall₂ (fun x y => P x y ∧ Q x y) xs ys := by
  induction hP with
  | nil => exact .nil
  | cons h _ ih =>
    cases hQ with
    | cons h' hQ => exact .cons ⟨h, h'⟩ (ih hQ)

/-- Any two types that stand for the same argument have nothing to unify. -/
def ArgsSettled (f : Ty → Ty → M Unit) (r : Evar → ℕ) (m : Evar → Term Head Evar)
    (args : List (Term Head Evar)) : Prop :=
  ∀ u ∈ args, ∀ a b : Ty, a.term.subst m = u → b.term.subst m = u → Settled f r m a b

theorem ArgsSettled.forall₂
    (h : ArgsSettled f r m ((ts1.map Ty.term).map (Term.subst m)))
    (heq : (ts1.map Ty.term).map (Term.subst m) = (ts2.map Ty.term).map (Term.subst m)) :
    List.Forall₂ (Settled f r m) ts1 ts2 := by
  rw [List.map_map, List.map_map] at heq
  refine (forall₂_of_map_eq heq).imp fun a b hab => ?_
  refine h (a.term.subst m) ?_ a b rfl hab.2.symm
  exact List.mem_map_of_mem (List.mem_map_of_mem hab.1)

/-- Two equal nodes, when their arguments have nothing to unify. -/
theorem unifyHeads_settled (test : ScopeTest) (env : Env) (hR : ∀ e, r e < R) (hn : R < n)
    {l : Head} {args : List (Term Head Evar)} (hargs : ArgsSettled f r m args)
    (hm : Solved s.store r m) (hhead1 : ∀ x, t1 = .evar x → s.ref x = none)
    (hhead2 : ∀ x, t2 = .evar x → s.ref x = none) (h1 : t1.term.subst m = .node l args)
    (h2 : t2.term.subst m = .node l args) :
    ∃ s', unifyHeads test env f n t1 t2 s = .ok () s' ∧ Quiet s s' := by
  -- an unbound Evar stands for itself, not for a node
  have hhole : ∀ e, s.ref e = none → (Ty.evar e).term.subst m ≠ .node l args := by
    intro e he
    rw [term_evar, Term.subst_hole, hm.solves.eq_hole (store_eq_none.2 he)]
    simp
  have heq := h1.trans h2.symm
  cases t1 with
  | evar e => exact absurd h1 (hhole e (hhead1 e rfl))
  | app c₁ ts1 =>
    cases t2 with
    | evar e => exact absurd h2 (hhole e (hhead2 e rfl))
    | app c₂ ts2 =>
      rw [term_app, Term.subst_node] at h1 h2
      cases h1
      injection h2 with hl hts
      injection hl with hi hnames
      rw [unifyHeads, if_pos (tyconCmp_iff.2 ⟨hi.symm, hnames.symm⟩)]
      exact unifyList_settled (hargs.forall₂ hts.symm) s hm
    | _ => simp at heq
  | var tv1 =>
    cases t2 with
    | evar e => exact absurd h2 (hhole e (hhead2 e rfl))
    | var tv2 =>
      have hid : tv2.identity = tv1.identity := by simpa using heq.symm
      rw [unifyHeads, if_pos hid]
      exact ⟨s, rfl, .refl s⟩
    | _ => simp at heq
  | valueof i1 =>
    cases t2 with
    | evar e => exact absurd h2 (hhole e (hhead2 e rfl))
    | valueof i2 =>
      have hi : i1 = i2 := by simpa using heq
      rw [unifyHeads, if_pos hi]
      exact ⟨s, rfl, .refl s⟩
    | _ => simp at heq
  | tuple fs1 =>
    cases t2 with
    | evar e => exact absurd h2 (hhole e (hhead2 e rfl))
    | tuple fs2 =>
      rw [term_tuple, Term.subst_node] at h1 h2
      cases h1
      injection h2 with hl hts
      injection hl with hquals
      refine unifyFields_settled ?_ s hm
      have hall := hargs.forall₂ hts.symm
      rw [List.forall₂_map_left_iff, List.forall₂_map_right_iff] at hall
      exact forall₂_and ((forall₂_of_map_eq hquals.symm).imp fun _ _ h => h.2) hall
    | _ => simp at heq
  | pointer elt1 tq1 rgn1 null1 bounds1 zt1 =>
    cases t2 with
    | evar e => exact absurd h2 (hhole e (hhead2 e rfl))
    | pointer elt2 tq2 rgn2 null2 bounds2 zt2 =>
      simp only [term_pointer, Term.subst_node, List.map_cons, List.map_nil,
        Term.node.injEq, Head.pointer.injEq, List.cons.injEq, and_true] at heq
      rw [term_pointer, Term.subst_node] at h1
      cases h1
      obtain ⟨hq, helt, hrgn, hnull, hbounds, hzt⟩ := heq
      exact unifyPointers_settled hR hn (hargs _ (by simp) elt1 elt2 rfl helt.symm)
        (hargs _ (by simp) rgn2 rgn1 hrgn.symm rfl) (hargs _ (by simp) null1 null2 rfl hnull.symm)
        (hargs _ (by simp) bounds1 bounds2 rfl hbounds.symm)
        (hargs _ (by simp) zt1 zt2 rfl hzt.symm) hq s hm
    | _ => simp at heq

/-- A bound for a list from bounds for its elements. -/
theorem exists_forall_mem {P : α → ℕ → Prop} (xs : List α)
    (h : ∀ x ∈ xs, ∃ N, ∀ n ≥ N, P x n) : ∃ N, ∀ n ≥ N, ∀ x ∈ xs, P x n := by
  induction xs with
  | nil => exact ⟨0, fun n _ x hx => by simp at hx⟩
  | cons x xs ih =>
    obtain ⟨⟨N1, h1⟩, hxs⟩ := List.forall_mem_cons.1 h
    obtain ⟨N2, h2⟩ := ih hxs
    refine ⟨max N1 N2, fun n hn => List.forall_mem_cons.2 ⟨?_, ?_⟩⟩
    · exact h1 n (le_of_max_le_left hn)
    · exact h2 n (le_of_max_le_right hn)

/-- With enough fuel, `unify_it` gets to the ends of the two chains. -/
theorem unifyIt_compressed (test : ScopeTest) (env : Env) {k : ℕ} (hR : ∀ e, r e < R)
    (hk : R ≤ k) (t1 t2 : Ty) (hm : Solved s.store r m) :
    ∃ t1' t2' s', unifyIt test env (k + 2) t1 t2 s =
        unifyHeads test env (unifyIt test env (k + 1)) (k + 1) t1' t2' s' ∧ Quiet s s' ∧
      t1'.term.subst m = t1.term.subst m ∧ t2'.term.subst m = t2.term.subst m ∧
      (∀ x, t1' = .evar x → s'.ref x = none) ∧ ∀ x, t2' = .evar x → s'.ref x = none := by
  obtain ⟨t1', s1, hrun1, hc1⟩ := compress_ok hm k t1 fun e _ => (hR e).trans_le hk
  have hm1 := hc1.quiet.solved r m hm
  obtain ⟨t2', s2, hrun2, hc2⟩ := compress_ok hm1 k t2 fun e _ => (hR e).trans_le hk
  refine ⟨t1', t2', s2, ?_, hc1.quiet.trans hc2.quiet, hc1.same r m hm, hc2.same r m hm1,
    fun x hx => (hc2.quiet.unbound x).2 (hc1.head x hx), hc2.head⟩
  rw [unifyIt, bind_of_ok hrun1, bind_of_ok hrun2]

/-- Types that have become equal unify again, and no binding changes. -/
theorem unifyIt_again (test : ScopeTest) (env : Env) (hR : ∀ e, r e < R) (u : Term Head Evar) :
    ∃ N, ∀ n ≥ N, ∀ t1 t2 : Ty, t1.term.subst m = u → t2.term.subst m = u →
      Settled (unifyIt test env n) r m t1 t2 := by
  induction u using Term.rec' with
  | hhole e =>
    refine ⟨R + 2, fun n hn t1 t2 h1 h2 s hm => ?_⟩
    obtain ⟨k, rfl⟩ : ∃ k, n = k + 2 := ⟨n - 2, by omega⟩
    obtain ⟨t1', t2', s', hrun, hq, hsame1, hsame2, hhead1, hhead2⟩ :=
      unifyIt_compressed test env hR (show R ≤ k by omega) t1 t2 hm
    have hm' := hq.solved r m hm
    obtain rfl : t1' = .evar e := eq_evar_of_subst hm' hhead1 (hsame1.trans h1)
    obtain rfl : t2' = .evar e := eq_evar_of_subst hm' hhead2 (hsame2.trans h2)
    refine ⟨s', ?_, hq⟩
    rw [hrun, unifyHeads, if_pos rfl]
    rfl
  | hnode l args ih =>
    obtain ⟨N, hN⟩ := exists_forall_mem args ih
    refine ⟨max (R + 2) (N + 1), fun n hn t1 t2 h1 h2 s hm => ?_⟩
    obtain ⟨k, rfl⟩ : ∃ k, n = k + 2 := ⟨n - 2, by omega⟩
    obtain ⟨t1', t2', s', hrun, hq, hsame1, hsame2, hhead1, hhead2⟩ :=
      unifyIt_compressed test env hR (show R ≤ k by omega) t1 t2 hm
    obtain ⟨s'', hrun', hq'⟩ := unifyHeads_settled test env hR (show R < k + 1 by omega)
      (hN (k + 1) (by omega)) (hq.solved r m hm) hhead1 hhead2 (hsame1.trans h1)
      (hsame2.trans h2)
    exact ⟨s'', hrun.trans hrun', hq.trans hq'⟩

/-! ## The call -/

/-- The same Evars are bound, to types that stand for the same, and may mention the same. -/
structure SameBindings (s s' : State) : Prop where
  unbound : ∀ e, s'.ref e = none ↔ s.ref e = none
  scope_eq : s'.scope = s.scope
  solves : ∀ m, Solves s.store m ↔ Solves s'.store m

theorem Quiet.sameBindings {s' : State} (h : Quiet s s') (hm : Solved s.store r m) :
    SameBindings s s' where
  unbound := h.unbound
  scope_eq := h.scope_eq
  solves m' := by
    have hm' := h.solved r m hm
    constructor
    · intro h'
      exact hm.unique h' ▸ hm'.solves
    · intro h'
      exact hm'.unique h' ▸ hm.solves

/-- Every Evar of the state stands for a type that it may mention. -/
def State.WellScoped (s : State) : Prop :=
  ∀ m, Solves s.store m → s.Scoped m

theorem firstInSecond_sound : firstInSecond.Sound := by
  intro tvs₁ tvs₂ h i hi
  obtain ⟨tv, htv, rfl⟩ := List.mem_map.1 hi
  exact memTvar_iff.1 (List.all_eq_true.1 h tv htv)

/-- A type without qualifiers. -/
def plainTqual : Tqual where
  printConst := false
  qVolatile := false
  qRestrict := false
  realConst := false
  real_of_print h := h

/-- A type variable of the kind of boxed types. -/
def boxedTvar (identity : Int) : Tvar where
  identity := identity
  kind := .eqKb ⟨.boxKind, .aliasable⟩

/-- The pair of two types. -/
def pairTy (t₁ t₂ : Ty) : Ty :=
  .tuple [(plainTqual, t₁), (plainTqual, t₂)]

theorem thinPointers_pair (h1 : ThinPointers (t1.term.subst m))
    (h2 : ThinPointers (t2.term.subst m)) : ThinPointers ((pairTy t1 t2).term.subst m) := by
  rw [pairTy, term_tuple, Term.subst_node]
  refine .node nofun fun u hu => ?_
  simp only [List.map_cons, List.map_nil, List.mem_cons, List.not_mem_nil, or_false] at hu
  rcases hu with rfl | rfl
  · exact h1
  · exact h2

/-- The first two Evars, of the given kinds. -/
def twoKinds (k₀ k₁ : Kind) : Env where
  evarKind e := if e = 0 then k₀ else k₁
  aggrKind _ _ := ⟨.memKind, .aliasable⟩

/-- No Evar is bound; the first one may mention `tvs₀`, the others `tvs₁`. -/
def unboundState (tvs₀ tvs₁ : List Tvar) : State where
  ref _ := none
  scope e := if e = 0 then tvs₀ else tvs₁
  finite_bound := by
    refine Set.finite_empty.subset fun e he => ?_
    exact he rfl

theorem solved_unbound (tvs0 tvs1 : List Tvar) :
    Solved (unboundState tvs0 tvs1).store (fun _ => 0) .hole := by
  constructor
  · rintro e e' ⟨t, ht, -⟩
    cases ht
  · intro e
    rfl

theorem wellScoped_unbound (tvs0 tvs1 : List Tvar) : (unboundState tvs0 tvs1).WellScoped := by
  intro m hm e
  rw [hm.eq_hole rfl]
  refine ⟨fun i hi => absurd hi Term.not_hasLabel_hole, fun x hx => ?_⟩
  rw [Term.hasHole_hole.1 hx]
  exact fun _ h => h

end ConcurrentCyclone.Unify
