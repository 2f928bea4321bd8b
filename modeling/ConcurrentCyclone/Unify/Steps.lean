import ConcurrentCyclone.Unify.Types

/-!
# Steps of a unification that bind no Evar

A type stands for a term whose holes are the Evars, and the bindings of a state for a store of such
terms. `compress` and `type_kind` keep the solution of this store (`Quiet`), and so does `occurs`,
which also shortens the lists of type variables that the Evars in its type may mention
(`occurs_spec`).
-/

set_option autoImplicit false

namespace ConcurrentCyclone.Unify

open Function Terms Transition
open Tcutil (Kind kindLeq)
open List (map_nil map_cons map_map mem_map)

/-! ## Types as terms -/

/-- The qualifiers that `unify_tqual` compares. -/
def Tqual.quals (tq : Tqual) : Bool × Bool × Bool :=
  (tq.realConst, tq.qVolatile, tq.qRestrict)

/-- What `unify_it` compares of two types, their parts apart. -/
inductive Head where
  | var (identity : Int)
  | con (i : Nat) (names : TyconName)
  | pointer (q : Bool × Bool × Bool)
  | tuple (qs : List (Bool × Bool × Bool))
  | valueof (i : Nat)

mutual
/-- A type as a term over the Evars. -/
def Ty.term : Ty → Term Head Evar
  | .app c ts => .node (.con (tycon2int c) c.names) (terms ts)
  | .evar e => .hole e
  | .var tv => .node (.var tv.identity) []
  | .pointer elt tq rgn nullable bounds zeroTerm =>
    .node (.pointer tq.quals) [elt.term, rgn.term, nullable.term, bounds.term, zeroTerm.term]
  | .tuple fs => .node (.tuple (fs.map fun f => f.1.quals)) (fieldTerms fs)
  | .valueof i => .node (.valueof i) []
/-- The terms of a list of types. -/
def terms : List Ty → List (Term Head Evar)
  | [] => []
  | t :: ts => t.term :: terms ts
/-- The terms of the components of a tuple. -/
def fieldTerms : List (Tqual × Ty) → List (Term Head Evar)
  | [] => []
  | (_, t) :: fs => t.term :: fieldTerms fs
end

theorem terms_eq_map (ts : List Ty) : terms ts = ts.map Ty.term := by
  induction ts with
  | nil => rw [terms, map_nil]
  | cons t ts ih => rw [terms, ih, map_cons]

theorem fieldTerms_eq_map (fs : List (Tqual × Ty)) : fieldTerms fs = fs.map fun f => f.2.term := by
  induction fs with
  | nil => rw [fieldTerms, map_nil]
  | cons f fs ih => rw [fieldTerms, ih, map_cons]

@[simp] theorem term_evar (e : Evar) : (Ty.evar e).term = .hole e := by
  rw [Ty.term]

@[simp] theorem term_var (tv : Tvar) : (Ty.var tv).term = .node (.var tv.identity) [] := by
  rw [Ty.term]

@[simp] theorem term_valueof (i : Nat) : (Ty.valueof i).term = .node (.valueof i) [] := by
  rw [Ty.term]

@[simp] theorem term_app (c : Tycon) (ts : List Ty) :
    (Ty.app c ts).term = .node (.con (tycon2int c) c.names) (ts.map Ty.term) := by
  rw [Ty.term, terms_eq_map]

@[simp] theorem term_pointer (elt : Ty) (tq : Tqual) (rgn nullable bounds zeroTerm : Ty) :
    (Ty.pointer elt tq rgn nullable bounds zeroTerm).term =
      .node (.pointer tq.quals)
        [elt.term, rgn.term, nullable.term, bounds.term, zeroTerm.term] := by
  rw [Ty.term]

@[simp] theorem term_tuple (fs : List (Tqual × Ty)) : (Ty.tuple fs).term =
      .node (.tuple (fs.map fun f => f.1.quals)) ((fs.map Prod.snd).map Ty.term) := by
  rw [Ty.term, fieldTerms_eq_map, map_map]
  rfl

/-- The bindings of a state. -/
def State.store (s : State) (e : Evar) : Option (Term Head Evar) :=
  (s.ref e).map Ty.term

variable {s s1 s2 s3 s' : State} {e evar : Evar} {env : List Tvar} {t : Ty}

theorem store_eq_none : s.store e = none ↔ s.ref e = none :=
  Option.map_eq_none_iff

theorem store_setRef (s : State) (e : Evar) (t : Ty) :
    (s.setRef e t).store = update s.store e (some t.term) := by
  funext x
  by_cases hx : x = e
  · subst hx
    simp [State.store, State.setRef]
  · simp [State.store, State.setRef, update_of_ne hx]

theorem finite_store (s : State) : {e | s.store e ≠ none}.Finite := by
  refine s.finite_bound.subset fun e he => ?_
  exact fun h => he (store_eq_none.2 h)

/-! ## Steps that keep the solution -/

/-- The identities of a list of type variables. -/
def ids (tvs : List Tvar) : List Int :=
  tvs.map Tvar.identity

theorem memTvar_iff {tv : Tvar} : memTvar env tv = true ↔ tv.identity ∈ ids env := by
  simp only [memTvar, fastTvarCmp, ids, List.any_eq_true, beq_iff_eq, mem_map, sub_eq_zero]

/-- The two states bind the same Evars to types that stand for the same. -/
structure SameStore (s s' : State) : Prop where
  solved : ∀ r m, Solved s.store r m → Solved s'.store r m
  unbound : ∀ e, s'.ref e = none ↔ s.ref e = none

/-- Nothing changes but the lengths of chains of bindings. -/
structure Quiet (s s' : State) : Prop extends SameStore s s' where
  scope_eq : s'.scope = s.scope

/-- The lists of some unbound Evars get shorter. -/
structure Narrows (s s' : State) : Prop extends SameStore s s' where
  narrower : ∀ e, ids (s'.scope e) ⊆ ids (s.scope e)
  kept : ∀ e, s.ref e ≠ none → s'.scope e = s.scope e

theorem SameStore.refl (s : State) : SameStore s s :=
  ⟨fun _ _ h => h, fun _ => Iff.rfl⟩

theorem SameStore.trans (h : SameStore s1 s2) (h' : SameStore s2 s3) : SameStore s1 s3 :=
  ⟨fun r m hs => h'.solved r m (h.solved r m hs), fun e => (h'.unbound e).trans (h.unbound e)⟩

theorem Quiet.refl (s : State) : Quiet s s :=
  ⟨.refl s, rfl⟩

theorem Quiet.trans (h : Quiet s1 s2) (h' : Quiet s2 s3) : Quiet s1 s3 :=
  ⟨h.toSameStore.trans h'.toSameStore, h'.scope_eq.trans h.scope_eq⟩

theorem Quiet.narrows (h : Quiet s s') : Narrows s s' :=
  ⟨h.toSameStore, fun e => by rw [h.scope_eq]; exact fun _ hi => hi,
    fun e _ => by rw [h.scope_eq]⟩

theorem Narrows.trans (h : Narrows s1 s2) (h' : Narrows s2 s3) : Narrows s1 s3 := by
  refine ⟨h.toSameStore.trans h'.toSameStore, fun e i hi => h.narrower e (h'.narrower e hi), ?_⟩
  intro e he
  have he' : s2.ref e ≠ none := fun h2 => he ((h.unbound e).1 h2)
  rw [h'.kept e he', h.kept e he]

/-! ### Following the bindings -/

theorem compress_unbound (n : Nat) (h : s.ref e = none) :
    compress (n + 1) (.evar e) s = .ok (.evar e) s := by
  rw [compress, get_bind, h]
  rfl

/-- The type that `compress` finds stands for the same, its Evars are ranked no higher, and it is no
bound Evar. -/
structure Compressed (s : State) (t t' : Ty) (s' : State) : Prop where
  quiet : Quiet s s'
  same : ∀ r m, Solved s.store r m → t'.term.subst m = t.term.subst m
  ranks : ∀ r m, Solved s.store r m →
    ∀ x, t'.term.HasHole x → ∃ e, t.term.HasHole e ∧ r x ≤ r e
  head : ∀ e, t' = .evar e → s'.ref e = none

theorem compressed_self (h : ∀ e, t = .evar e → s.ref e = none) : Compressed s t t s where
  quiet := .refl s
  same _ _ _ := rfl
  ranks _ _ _ x hx := ⟨x, hx, le_rfl⟩
  head := h

/-- On the way back of `compress`, an Evar is bound to the end of its chain. -/
theorem Compressed.shorten {ta t2 : Ty} (h : Compressed s ta t2 s')
    (hta : s.ref e = some ta) : Compressed s (.evar e) t2 (s'.setRef e t2) := by
  have hstore : s.store e = some ta.term := by
    rw [State.store, hta]
    rfl
  have hbound : s'.ref e ≠ none := by
    intro hnone
    rw [(h.quiet.unbound e).1 hnone] at hta
    cases hta
  have hsame : ∀ r m, Solved s.store r m → t2.term.subst m = m e := by
    intro r m hs
    rw [h.same r m hs, hs.solves.eq_subst hstore]
  have hranks : ∀ r m, Solved s.store r m → ∀ x, t2.term.HasHole x → r x < r e := by
    intro r m hs x hx
    obtain ⟨y, hy, hle⟩ := h.ranks r m hs x hx
    exact hle.trans_lt (hs.ranked ⟨ta.term, hstore, hy⟩)
  refine ⟨⟨⟨fun r m hs => ?_, fun x => ?_⟩, h.quiet.scope_eq⟩, fun r m hs => ?_, ?_, ?_⟩
  · rw [store_setRef]
    exact (h.quiet.solved r m hs).refill (hsame r m hs) (hranks r m hs)
  · by_cases hx : x = e
    · subst hx
      simp [State.setRef, hta]
    · simpa [State.setRef, update_of_ne hx] using h.quiet.unbound x
  · rw [hsame r m hs, term_evar, Term.subst_hole]
  · intro r m hs x hx
    refine ⟨e, ?_, (hranks r m hs x hx).le⟩
    exact .here
  · intro x hx
    have hnone := h.head x hx
    have hxe : x ≠ e := by
      rintro rfl
      exact hbound hnone
    simpa [State.setRef, update_of_ne hxe] using hnone

theorem compress_spec (n : Nat) (t : Ty) (s : State) :
    Outcome (compress n t) s (fun t' s' => Compressed s t t' s') fun _ s' => Quiet s s' := by
  induction n generalizing t s with
  | zero => exact outcome_throw (.refl s)
  | succ n ih =>
    cases t with
    | evar e =>
      cases hta : s.ref e with
      | none =>
        rw [compress, outcome_get_bind, hta]
        exact outcome_pure (compressed_self fun x hx => by cases hx; exact hta)
      | some ta =>
        rw [compress, outcome_get_bind, hta]
        refine (ih ta s).bind (fun t2 s' h => ?_) fun _ _ h => h
        exact h.shorten hta
    | app | var | pointer | tuple | valueof => exact compressed_self nofun

theorem conKind_spec (env : Env) (c : Tycon) (ts : List Ty) (s : State) :
    Outcome (conKind env c ts) s (fun _ s' => s' = s) fun _ s' => s' = s := by
  unfold conKind
  split <;> rfl

/-- `type_kind` only follows bindings. -/
theorem typeKind_spec (env : Env) (n : Nat) (t : Ty) (s : State) :
    Outcome (typeKind env n t) s (fun _ s' => Quiet s s') fun _ s' => Quiet s s' := by
  induction n generalizing t s with
  | zero => exact outcome_throw (.refl s)
  | succ n ih =>
    refine (compress_spec n t s).bind (fun t' s' h => ?_) fun _ _ h => h
    cases t' with
    | evar | var | valueof | tuple => exact outcome_pure h.quiet
    | app c ts =>
      refine (conKind_spec env c ts s').mono (fun k s'' h'' => ?_) fun _ s'' h'' => ?_
      · exact h''.symm ▸ h.quiet
      · exact h''.symm ▸ h.quiet
    | pointer elt tq rgn nullable bounds zeroTerm =>
      refine (compress_spec n bounds s').bind (fun b s1 hb => ?_)
        fun _ _ h' => h.quiet.trans h'
      have hs1 := h.quiet.trans hb.quiet
      refine (ih rgn s1).bind (fun k s2 hk => ?_) fun _ _ h' => hs1.trans h'
      split
      · exact outcome_pure (hs1.trans hk)
      · exact outcome_pure (hs1.trans hk)

/-! ### The occurs check -/

/-- The type variables of a term are in `env`, and so are those that its Evars may still
mention. -/
structure Within (s : State) (env : List Tvar) (u : Term Head Evar) : Prop where
  vars : ∀ i, u.HasLabel (.var i) → i ∈ ids env
  holes : ∀ x, u.HasHole x → ids (s.scope x) ⊆ ids env

theorem Within.narrows {u : Term Head Evar}
    (h : Within s env u) (hs : Narrows s s') : Within s' env u :=
  ⟨h.vars, fun x hx _ hi => h.holes x hx (hs.narrower x hi)⟩

/-- What `occurs` has seen of a type. -/
def Clear (evar : Evar) (env : List Tvar) (s s' : State) (t : Ty) : Prop :=
  ∀ r m, Solved s.store r m →
    ¬(t.term.subst m).HasHole evar ∧ Within s' env (t.term.subst m)

/-- What `occurs` changes: lists get shorter, but not the one of `evar`. -/
def Cuts (evar : Evar) (s s' : State) : Prop :=
  Narrows s s' ∧ s'.scope evar = s.scope evar

theorem Cuts.trans (h : Cuts evar s1 s2) (h' : Cuts evar s2 s3) : Cuts evar s1 s3 :=
  ⟨h.1.trans h'.1, h'.2.trans h.2⟩

theorem Quiet.cuts (h : Quiet s s') : Cuts evar s s' :=
  ⟨h.narrows, by rw [h.scope_eq]⟩

theorem Clear.later (h : Clear evar env s s1 t) (hs : Narrows s1 s2) : Clear evar env s s2 t :=
  fun r m hm => ⟨(h r m hm).1, (h r m hm).2.narrows hs⟩

theorem Clear.earlier (h : Clear evar env s2 s' t) (hs : Narrows s1 s2) : Clear evar env s1 s' t :=
  fun r m hm => h r m (hs.solved r m hm)

theorem narrow_spec (env : List Tvar) (hne : e ≠ evar) (he : s.ref e = none) :
    Outcome (narrow env e) s
      (fun _ s' => Cuts evar s s' ∧ ids (s'.scope e) ⊆ ids env) fun _ _ => False := by
  rw [narrow, outcome_get_bind]
  split
  next hall =>
    refine outcome_pure ⟨(Quiet.refl s).cuts, fun i hi => ?_⟩
    obtain ⟨tv, htv, rfl⟩ := mem_map.1 hi
    exact memTvar_iff.1 (List.all_eq_true.1 hall tv htv)
  next =>
    have hcut : ids ((s.scope e).filter (memTvar env)).reverse ⊆ ids (s.scope e) ∧
        ids ((s.scope e).filter (memTvar env)).reverse ⊆ ids env := by
      constructor
      all_goals
        intro i hi
        obtain ⟨tv, htv, rfl⟩ := mem_map.1 hi
        rw [List.mem_reverse, List.mem_filter] at htv
      · exact List.mem_map_of_mem htv.1
      · exact memTvar_iff.1 htv.2
    refine ⟨⟨⟨⟨fun _ _ h => h, fun _ => Iff.rfl⟩, fun x => ?_, fun x hx => ?_⟩, ?_⟩, ?_⟩
    · by_cases hxe : x = e
      · subst hxe
        simpa [State.setScope] using hcut.1
      · simp [State.setScope, update_of_ne hxe]
    · have hxe : x ≠ e := by
        rintro rfl
        exact hx he
      simp [State.setScope, update_of_ne hxe]
    · simp [State.setScope, update_of_ne hne.symm]
    · simpa [State.setScope] using hcut.2

/-- A check of every element of a list. -/
theorem forEach_spec {α : Type} {f : α → M Unit} (ty : α → Ty) (xs : List α) (s : State)
    (hf : ∀ x ∈ xs, ∀ s, Outcome (f x) s (fun _ s' => Cuts evar s s' ∧ Clear evar env s s' (ty x))
      fun _ s' => Cuts evar s s') :
    Outcome (forEach f xs) s
      (fun _ s' => Cuts evar s s' ∧ ∀ x ∈ xs, Clear evar env s s' (ty x))
      fun _ s' => Cuts evar s s' := by
  induction xs generalizing s with
  | nil => exact outcome_pure ⟨(Quiet.refl s).cuts, by simp⟩
  | cons x xs ih =>
    refine (hf x (by simp) s).bind (fun _ s1 h1 => ?_) fun _ _ h => h
    refine (ih s1 fun y hy => hf y (.tail _ hy)).mono (fun _ s2 h2 => ?_)
      fun _ _ h => h1.1.trans h
    refine ⟨h1.1.trans h2.1, fun y hy => ?_⟩
    rcases List.mem_cons.1 hy with rfl | hy
    · exact h1.2.later h2.1.1
    · exact (h2.2 y hy).earlier h1.1.1

/-- A node is clear when its arguments are and it is no type variable outside `env`. -/
theorem clear_node {l : Head} (ts : List Ty) (hterm : t.term = .node l (ts.map Ty.term))
    (hl : ∀ i, l = .var i → i ∈ ids env) (hts : ∀ t ∈ ts, Clear evar env s s' t) :
    Clear evar env s s' t := by
  intro r m hm
  rw [hterm]
  simp only [Term.subst_node, map_map, Term.hasHole_node, mem_map,
    comp_apply, exists_exists_and_eq_and]
  refine ⟨?_, fun i hi => ?_, fun x hx => ?_⟩
  · rintro ⟨a, ha, h⟩
    exact (hts a ha r m hm).1 h
  · rcases Term.hasLabel_node.1 hi with hi | ⟨u, hu, hi⟩
    · exact hl i hi.symm
    · obtain ⟨a, ha, rfl⟩ := mem_map.1 hu
      exact (hts a ha r m hm).2.vars i hi
  · obtain ⟨u, hu, hx⟩ := Term.hasHole_node.1 hx
    obtain ⟨a, ha, rfl⟩ := mem_map.1 hu
    exact (hts a ha r m hm).2.holes x hx

theorem occurs_spec (evar : Evar) (env : List Tvar) (n : Nat) (t : Ty) (s : State) :
    Outcome (occurs evar env n t) s (fun _ s' => Cuts evar s s' ∧ Clear evar env s s' t)
      fun _ s' => Cuts evar s s' := by
  induction n generalizing t s with
  | zero => exact outcome_throw (Quiet.refl s).cuts
  | succ n ih =>
    refine (compress_spec n t s).bind (fun t' s1 h => ?_) fun _ _ h => h.cuts
    -- it is enough to look at the end of the chain
    have hend : ∀ {s2}, Cuts evar s1 s2 ∧ Clear evar env s1 s2 t' →
        Cuts evar s s2 ∧ Clear evar env s s2 t := by
      rintro s2 ⟨hcuts, hclear⟩
      refine ⟨h.quiet.cuts.trans hcuts, fun r m hm => ?_⟩
      rw [← h.same r m hm]
      exact hclear r m (h.quiet.solved r m hm)
    have herr : ∀ {s2}, Cuts evar s1 s2 → Cuts evar s s2 := fun h' => h.quiet.cuts.trans h'
    cases t' with
    | var tv =>
      show Outcome (ite _ _ _) s1 _ _
      split
      next htv =>
        refine outcome_pure (hend ⟨(Quiet.refl s1).cuts, ?_⟩)
        refine clear_node [] (term_var tv) (fun i hi => ?_) (by simp)
        cases hi
        exact memTvar_iff.1 htv
      next => exact outcome_throw (herr (Quiet.refl s1).cuts)
    | evar e =>
      show Outcome (ite _ _ _) s1 _ _
      have hnone : s1.ref e = none := h.head e rfl
      split
      next => exact outcome_throw (herr (Quiet.refl s1).cuts)
      next hne =>
        rw [outcome_get_bind, hnone]
        refine (narrow_spec env hne hnone).mono (fun _ s2 h2 => hend ⟨h2.1, ?_⟩)
          fun _ _ h => h.elim
        intro r m hm
        rw [term_evar, Term.subst_hole, hm.solves.eq_hole (store_eq_none.2 hnone)]
        refine ⟨fun h' => hne (Term.hasHole_hole.1 h').symm, fun i hi => ?_, fun x hx => ?_⟩
        · exact absurd hi Term.not_hasLabel_hole
        · rw [Term.hasHole_hole.1 hx]
          exact h2.2
    | pointer elt tq rgn nullable bounds zeroTerm =>
      refine (forEach_spec id [elt, rgn, nullable, bounds, zeroTerm] s1
        fun t _ s => ih t s).mono (fun _ s2 h2 => hend ⟨h2.1, ?_⟩) fun _ _ h => herr h
      exact clear_node [elt, rgn, nullable, bounds, zeroTerm]
        (term_pointer elt tq rgn nullable bounds zeroTerm) nofun h2.2
    | tuple fs =>
      refine (forEach_spec Prod.snd fs s1 fun f _ s => ih f.2 s).mono
        (fun _ s2 h2 => hend ⟨h2.1, ?_⟩) fun _ _ h => herr h
      refine clear_node (fs.map Prod.snd) (term_tuple fs) nofun ?_
      intro t ht
      obtain ⟨f, hf, rfl⟩ := mem_map.1 ht
      exact h2.2 f hf
    | app c ts =>
      refine (forEach_spec id ts s1 fun t _ s => ih t s).mono
        (fun _ s2 h2 => hend ⟨h2.1, ?_⟩) fun _ _ h => herr h
      exact clear_node ts (term_app c ts) nofun h2.2
    | valueof i =>
      refine outcome_pure (hend ⟨(Quiet.refl s1).cuts, ?_⟩)
      exact clear_node [] (term_valueof i) nofun (by simp)

end ConcurrentCyclone.Unify
