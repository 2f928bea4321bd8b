import Mathlib.Data.List.Basic
import Mathlib.Data.Bool.Basic
import Mathlib.Data.String.Basic

/-!
# Sub-effects

The effect of a function says what it may access: a join of accesses to regions (`Access`), accesses
to extended regions (`CAccess`), effect variables and the regions of type variables (`Rgns`).
`subset_effect` (`src/tcutil.cyc`) decides whether an effect allows all that another one does, by a
search of the second effect for each atom of the first. The file has these searches for effects
without unification variables, as they run when they may not constrain any
(`may_constrain_evars = false`).

The search for a type variable normalizes the effect that it searches, in place, so that the next
searches see the normalized one. What a search finds does not change by it
(`subsetEffect_same`).
-/

set_option autoImplicit false

namespace ConcurrentCyclone.Tcutil

/-- `enum KindQual`. -/
inductive KindQual where
  | anyKind | memKind | boxKind | xRgnKind | rgnKind | effKind | intKind | boolKind | ptrBndKind
  deriving DecidableEq

/-- `enum AliasQual`. -/
inductive AliasQual where
  | aliasable
  | unique
  | top
  deriving DecidableEq

/-- `struct Kind`. -/
structure Kind where
  kind : KindQual
  aliasqual : AliasQual
  deriving DecidableEq

/-- `kind_leq`. -/
def kindLeq (ka₁ ka₂ : Kind) : Bool :=
  (ka₁.kind == ka₂.kind ||
    match ka₁.kind, ka₂.kind with
    | .boxKind, .memKind => true
    | .boxKind, .anyKind => true
    | .memKind, .anyKind => true
    | .xRgnKind, .rgnKind => true
    | _, _ => false) &&
  (ka₁.aliasqual == ka₂.aliasqual ||
    match ka₁.aliasqual, ka₂.aliasqual with
    | .aliasable, .top => true
    | .unique, .top => true
    | _, _ => false)

/-- `struct Tvar`: a type variable with its kind. -/
structure Tvar where
  name : String
  identity : Int
  kind : KindQual
  deriving DecidableEq

/-- Region types. -/
inductive Rgn where
  | heap
  | unique
  | refcnt
  | var (tv : Tvar)
  deriving DecidableEq

/-- An effect that is not a join. -/
inductive Atom where
  /-- `AccessCon`: an access to a region. -/
  | access (r : Rgn)
  /-- `CAccessCon`: an access to an extended region, which is a variable. -/
  | caccess (r : Tvar)
  /-- An effect variable. -/
  | var (v : Tvar)
  /-- `RgnsCon`: the regions of a type variable. -/
  | rgns (t : Tvar)
  deriving DecidableEq

/-- Effects. -/
inductive Effect where
  | atom (a : Atom)
  /-- `JoinCon`. -/
  | join (es : List Effect)

/-! ## The searches -/

/-- `tvar_cmp`, which ignores the kinds. -/
def tvarCmp (tv₁ tv₂ : Tvar) : Int :=
  if tv₁.name < tv₂.name then -1
  else if tv₂.name < tv₁.name then 1
  else tv₁.identity - tv₂.identity

/-- The regions that every effect allows. -/
def Rgn.special : Rgn → Bool
  | .heap | .unique | .refcnt => true
  | .var _ => false

/-- `compare_tyvars`, without constraining. -/
def compareTyvars : Rgn → Rgn → Bool
  | .var tv₁, .var tv₂ => tvarCmp tv₁ tv₂ == 0
  | r, r₂ => r == r₂

/-- `rgns_of` of a type variable; `none` is the empty effect. -/
def rgnsOf (t : Tvar) : Option Atom :=
  match t.kind with
  | .rgnKind | .xRgnKind => some (.access (.var t))
  | .effKind => some (.var t)
  | .intKind => none
  | _ => some (.rgns t)

mutual

/-- The search of an effect through its joins. -/
def Effect.search (p : Atom → Bool) : Effect → Bool
  | .atom a => p a
  | .join es => Effect.searchList p es

/-- The loop over the members of a join. -/
def Effect.searchList (p : Atom → Bool) : List Effect → Bool
  | [] => false
  | e :: es => e.search p || Effect.searchList p es

end

/-- `region_in_effect` on an effect that is not a join. -/
def regionInAtom (r : Rgn) : Atom → Bool
  | .access r₂ => compareTyvars r r₂
  | .rgns t =>
    match rgnsOf t with
    | some (.access r₂) => compareTyvars r r₂
    | _ => false
  -- `case &AppType(&CAccessCon,r2): return true;`
  | .caccess _ => true
  | .var _ => false

/-- `region_in_effect`. -/
def regionInEffect (r : Rgn) (e : Effect) : Bool := r.special || e.search (regionInAtom r)

/-- `variable_in_effect` on an effect that is not a join. -/
def variableInAtom (v : Tvar) : Atom → Bool
  | .var v₂ => tvarCmp v v₂ == 0
  | .rgns t =>
    match rgnsOf t with
    | some (.var v₂) => tvarCmp v v₂ == 0
    | _ => false
  | .caccess r₂ => tvarCmp v r₂ == 0
  | .access _ => false

/-- `variable_in_effect`. -/
def variableInEffect (v : Tvar) (e : Effect) : Bool := e.search (variableInAtom v)

/-- An atom that `normalize_effect` drops from a join. -/
def Atom.special : Atom → Bool
  | .access r => r.special
  | _ => false

/-- What `normalize_effect` tells apart among the members of a join. -/
inductive Member (E : Type) where
  | join (es : List E)
  /-- An access to the heap, the unique region or the reference-counted one. -/
  | special
  | other

section Member

variable {E : Type}

/-- A member for which `normalize_effect` builds the join again. -/
def Member.redoJoin : Member E → Bool
  | .join _ | .special => true
  | .other => false

/-- What a member adds to the join that is built again. -/
def Member.splice (e : E) : Member E → List E
  | .join es => es
  | .special => []
  | .other => [e]

/-- The loops of `normalize_effect` over the members of a join, once they are normalized. -/
def rejoin (member : E → Member E) (effs : List E) : List E :=
  if effs.any fun e => (member e).redoJoin then effs.flatMap fun e => (member e).splice e else effs

/-- What holds for a join if it holds for one of its members, and never for a member that is
dropped, is kept. -/
theorem exists_mem_rejoin {member : E → Member E} {effs : List E} {p : E → Prop}
    (hjoin : ∀ e es, member e = .join es → (p e ↔ ∃ e' ∈ es, p e'))
    (hspecial : ∀ e, member e = .special → ¬ p e) :
    (∃ e ∈ rejoin member effs, p e) ↔ ∃ e ∈ effs, p e := by
  rw [rejoin]
  split_ifs
  · have hsplice : ∀ e, (∃ e' ∈ (member e).splice e, p e') ↔ p e := by
      intro e
      cases h : member e with
      | join es => exact (hjoin e es h).symm
      | special => simp [Member.splice, hspecial e h]
      | other => simp [Member.splice]
    constructor
    · rintro ⟨e', he', hp⟩
      obtain ⟨e, he, hmem⟩ := List.mem_flatMap.1 he'
      exact ⟨e, he, (hsplice e).1 ⟨e', hmem, hp⟩⟩
    · rintro ⟨e, he, hp⟩
      obtain ⟨e', hmem, hp'⟩ := (hsplice e).2 hp
      exact ⟨e', List.mem_flatMap.2 ⟨e, he, hmem⟩, hp'⟩
  · rfl

end Member

/-- An effect as a member of a join. -/
def Effect.member : Effect → Member Effect
  | .join es => .join es
  | .atom a => if a.special then .special else .other

mutual

/-- `normalize_effect`. -/
def normalizeEffect : Effect → Effect
  | .atom a => .atom a
  | .join es => .join (rejoin Effect.member (normalizeEffects es))

/-- The members of a join are normalized in place. -/
def normalizeEffects : List Effect → List Effect
  | [] => []
  | e :: es => normalizeEffect e :: normalizeEffects es

end

/-- `type_in_effect` on an effect that is not a join. Two type variables unify if they have the same
identity. -/
def typeInAtom (t : Tvar) : Atom → Bool
  | .rgns t₂ =>
    t == t₂ ||
      match rgnsOf t with
      | some (.rgns _) => t.identity == t₂.identity
      | _ => false
  | _ => false

/-- `type_in_effect`. The members of a normalized join are normalized. -/
def typeInEffect (t : Tvar) (e : Effect) : Bool := (normalizeEffect e).search (typeInAtom t)

/-- `subset_effect` for a first effect that is not a join: the answer, and the second effect as it
is left. -/
def subsetAtom : Atom → Effect → Bool × Effect
  | .access r, e₂ => (regionInEffect r e₂, e₂)
  | .var v, e₂ => (variableInEffect v e₂, e₂)
  | .rgns t, e₂ =>
    match rgnsOf t with
    | some (.rgns t₂) => (typeInEffect t₂ e₂, normalizeEffect e₂)
    | some (.access r) => (regionInEffect r e₂, e₂)
    | some (.var v) => (variableInEffect v e₂, e₂)
    | _ => (true, e₂)
  | .caccess r, e₂ => (variableInEffect r e₂, e₂)

mutual

/-- `subset_effect(false, e1, e2)`. -/
def subsetEffect : Effect → Effect → Bool × Effect
  | .atom a, e₂ => subsetAtom a e₂
  | .join es, e₂ => subsetEffects es e₂

/-- The loop over the members of the first effect. -/
def subsetEffects : List Effect → Effect → Bool × Effect
  | [], e₂ => (true, e₂)
  | e :: es, e₂ =>
    let x := subsetEffect e e₂
    if x.1 then subsetEffects es x.2 else (false, x.2)

end

/-! ## Atoms -/

mutual

/-- The atoms of an effect. -/
def Effect.atoms : Effect → List Atom
  | .atom a => [a]
  | .join es => Effect.atomsList es

/-- The atoms of a list of effects. -/
def Effect.atomsList : List Effect → List Atom
  | [] => []
  | e :: es => e.atoms ++ Effect.atomsList es

end

@[elab_as_elim]
theorem Effect.induction {P : Effect → Prop} (atom : ∀ a, P (.atom a))
    (join : ∀ es, (∀ e ∈ es, P e) → P (.join es)) (e : Effect) : P e :=
  @Effect.rec P (fun es => ∀ e ∈ es, P e) atom join (fun _ h => absurd h List.not_mem_nil)
    (fun _ _ h hs => List.forall_mem_cons.2 ⟨h, hs⟩) e

variable {a : Atom} {es : List Effect} {p : Atom → Bool} {e e' : Effect}

theorem mem_atomsList : a ∈ Effect.atomsList es ↔ ∃ e ∈ es, a ∈ e.atoms := by
  induction es with
  | nil => simp [Effect.atomsList]
  | cons e es ih => simp [Effect.atomsList, ih]

theorem mem_atoms_join : a ∈ (Effect.join es).atoms ↔ ∃ e ∈ es, a ∈ e.atoms := by
  rw [Effect.atoms, mem_atomsList]

theorem searchList_iff : Effect.searchList p es = true ↔ ∃ e ∈ es, e.search p = true := by
  induction es with
  | nil => simp [Effect.searchList]
  | cons e es ih => simp [Effect.searchList, ih]

/-- A search finds what is among the atoms. -/
theorem search_iff : e.search p = true ↔ ∃ a ∈ e.atoms, p a = true := by
  induction e using Effect.induction with
  | atom a => simp [Effect.search, Effect.atoms]
  | join es ih =>
    rw [Effect.search, searchList_iff, exists_congr fun e => and_congr_right (ih e)]
    simp only [mem_atoms_join, ← exists_and_left, ← exists_and_right, and_assoc]
    exact exists_comm

theorem mem_normalizeEffects : e' ∈ normalizeEffects es ↔ ∃ e ∈ es, normalizeEffect e = e' := by
  induction es with
  | nil => simp [normalizeEffects]
  | cons e es ih => simp [normalizeEffects, ih, eq_comm]

/-- The two effects have the same atoms, apart from the regions that every effect allows. -/
def Effect.Same (e e' : Effect) : Prop :=
  ∀ a : Atom, a.special = false → (a ∈ e.atoms ↔ a ∈ e'.atoms)

/-- Building a join again keeps its atoms. -/
theorem mem_atoms_rejoin (ha : a.special = false) :
    (∃ e ∈ rejoin Effect.member es, a ∈ e.atoms) ↔ ∃ e ∈ es, a ∈ e.atoms := by
  refine exists_mem_rejoin (fun e es he => ?_) fun e he hmem => ?_
  · cases e with
    | join => cases he; exact mem_atoms_join
    | atom b => rw [Effect.member] at he; split_ifs at he
  · cases e with
    | join => cases he
    | atom b =>
      rw [List.mem_singleton.1 hmem] at ha
      rw [Effect.member, ha] at he
      cases he

theorem same_normalizeEffect (e : Effect) : e.Same (normalizeEffect e) := by
  induction e using Effect.induction with
  | atom a => exact fun _ _ => Iff.rfl
  | join es ih =>
    intro a ha
    -- the members of the normalized list have the atoms of the members
    have hmembers : (∃ e ∈ normalizeEffects es, a ∈ e.atoms) ↔ ∃ e ∈ es, a ∈ e.atoms := by
      simp only [mem_normalizeEffects, exists_exists_and_eq_and]
      exact exists_congr fun e => and_congr_right fun he => (ih e he a ha).symm
    rw [mem_atoms_join, normalizeEffect, mem_atoms_join, mem_atoms_rejoin ha, hmembers]

theorem Effect.Same.trans {e1 e2 e3 : Effect} (h1 : e1.Same e2) (h2 : e2.Same e3) : e1.Same e3 :=
  fun a ha => (h1 a ha).trans (h2 a ha)

/-- A search for something else than those regions finds the same in both effects. -/
theorem Effect.Same.search_eq (h : e.Same e')
    (hp : ∀ a : Atom, a.special = true → p a = false) : e.search p = e'.search p := by
  have hother : ∀ a, p a = true → a.special = false := by
    intro a hpa
    cases ha : a.special with
    | false => rfl
    | true => rw [hp a ha] at hpa; exact hpa.symm
  rw [Bool.eq_iff_iff, search_iff, search_iff]
  refine exists_congr fun a => and_congr_left fun hpa => h a (hother a hpa)

theorem regionInAtom_special {r : Rgn} (hr : r.special = false)
    (ha : a.special = true) : regionInAtom r a = false := by
  cases r <;> cases a with
  | access r2 => cases r2 <;> simp_all [Atom.special, Rgn.special, regionInAtom, compareTyvars]
  | _ => simp_all [Atom.special]

theorem regionInEffect_same (h : e.Same e') (r : Rgn) :
    regionInEffect r e = regionInEffect r e' := by
  rw [regionInEffect, regionInEffect]
  cases hr : r.special with
  | true => rfl
  | false => rw [h.search_eq fun a => regionInAtom_special hr]

theorem variableInEffect_same (h : e.Same e') (v : Tvar) :
    variableInEffect v e = variableInEffect v e' := by
  refine h.search_eq fun a ha => ?_
  cases a with
  | access r => rfl
  | _ => simp [Atom.special] at ha

/-- The search for a type variable finds it among the atoms. -/
theorem typeInEffect_eq (t : Tvar) (e : Effect) : typeInEffect t e = e.search (typeInAtom t) := by
  refine ((same_normalizeEffect e).search_eq fun a ha => ?_).symm
  cases a with
  | rgns t2 => simp [Atom.special] at ha
  | _ => rfl

theorem typeInEffect_same (h : e.Same e') (t : Tvar) : typeInEffect t e = typeInEffect t e' := by
  rw [typeInEffect_eq, typeInEffect_eq]
  refine h.search_eq fun a ha => ?_
  cases a with
  | rgns t2 => simp [Atom.special] at ha
  | _ => rfl

/-! ## What `subset_effect` decides -/

/-- The atom is found in the same effects, whichever of two such effects is searched. -/
theorem subsetAtom_same (h : e.Same e') (a : Atom) : (subsetAtom a e).1 = (subsetAtom a e').1 := by
  cases a with
  | access r => exact regionInEffect_same h r
  | caccess r => exact variableInEffect_same h r
  | var v => exact variableInEffect_same h v
  | rgns t =>
    rw [subsetAtom, subsetAtom]
    split
    · exact typeInEffect_same h _
    · exact regionInEffect_same h _
    · exact variableInEffect_same h _
    · rfl

/-- The search leaves the second effect as it is, or normalized. -/
theorem same_subsetAtom (a : Atom) (e : Effect) : e.Same (subsetAtom a e).2 := by
  cases a with
  | rgns t =>
    rw [subsetAtom]
    split
    · exact same_normalizeEffect e
    all_goals exact fun _ _ => Iff.rfl
  | _ => exact fun _ _ => Iff.rfl

/-- One effect is answered to be in another one if each of its atoms is found there. -/
theorem subsetEffect_same (e1 e2 : Effect) : e2.Same (subsetEffect e1 e2).2 ∧
      ((subsetEffect e1 e2).1 = true ↔ ∀ a ∈ e1.atoms, (subsetAtom a e2).1 = true) := by
  induction e1 using Effect.induction generalizing e2 with
  | atom a =>
    rw [subsetEffect]
    exact ⟨same_subsetAtom a e2, by simp [Effect.atoms]⟩
  | join es ih =>
    rw [subsetEffect, Effect.atoms]
    induction es generalizing e2 with
    | nil => exact ⟨fun _ _ => Iff.rfl, by simp [subsetEffects, Effect.atomsList]⟩
    | cons e es ihs =>
      obtain ⟨ihe, ih⟩ := List.forall_mem_cons.1 ih
      obtain ⟨hsame, hiff⟩ := ihe e2
      obtain ⟨hsames, hiffs⟩ := ihs ih (subsetEffect e e2).2
      rw [subsetEffects, Effect.atomsList, List.forall_mem_append, ← hiff]
      -- the rest of the join is looked for in what the first search has left
      have hrest : (∀ a ∈ Effect.atomsList es, (subsetAtom a (subsetEffect e e2).2).1 = true) ↔
          ∀ a ∈ Effect.atomsList es, (subsetAtom a e2).1 = true := by
        refine forall₂_congr fun a _ => ?_
        rw [subsetAtom_same hsame a]
      cases hfound : (subsetEffect e e2).1 with
      | false => exact ⟨hsame, by simp⟩
      | true =>
        refine ⟨hsame.trans hsames, ?_⟩
        rw [← hrest]
        simpa using hiffs

/-- The variable that an atom names. -/
def Atom.tvar : Atom → Option Tvar
  | .access (.var tv) => some tv
  | .access _ => none
  | .caccess r => some r
  | .var v => some v
  | .rgns t => some t

/-- A variable of a kind of types. -/
def Tvar.IsType (t : Tvar) : Prop :=
  t.kind = .anyKind ∨ t.kind = .memKind ∨ t.kind = .boxKind

/-- The variables of the two effects are resolved, so that their identities tell them apart; each is
named by one sort of atom, and those of `Rgns` stand for types. -/
structure Scoped (e₁ e₂ : Effect) : Prop where
  named : ∀ a ∈ e₁.atoms ++ e₂.atoms, ∀ b ∈ e₁.atoms ++ e₂.atoms, ∀ x y,
    a.tvar = some x → b.tvar = some y → x.identity = y.identity → a = b
  types : ∀ t, .rgns t ∈ e₁.atoms ++ e₂.atoms → t.IsType

/-- The atoms of the first effect are atoms of the second one, apart from accesses to the heap, the
unique and the reference-counted region. -/
def Effect.SubsetOf (e₁ e₂ : Effect) : Prop := ∀ a ∈ e₁.atoms, a.special = true ∨ a ∈ e₂.atoms

/-- The effect has an access to an extended region. -/
def Effect.HasCAccess (e : Effect) : Prop := ∃ r, .caccess r ∈ e.atoms

/-- An access to an ordinary region. -/
def Atom.isAccess : Atom → Bool
  | .access _ => true
  | _ => false

theorem tvarCmp_self (x : Tvar) : tvarCmp x x = 0 := by
  rw [tvarCmp, if_neg (lt_irrefl _), if_neg (lt_irrefl _), Int.sub_self]

theorem identity_of_tvarCmp {x y : Tvar} (h : tvarCmp x y = 0) : x.identity = y.identity := by
  rw [tvarCmp] at h
  split_ifs at h <;> omega

theorem rgnsOf_of_isType {t : Tvar} (ht : t.IsType) : rgnsOf t = some (.rgns t) := by
  rw [rgnsOf]
  rcases ht with h | h | h <;> rw [h]

section Scoped

variable {e1 e2 : Effect} (h : Scoped e1 e2)

include h

variable {a : Atom} {t : Tvar}

/-- An atom of the second effect that names the variable of an atom of the first one is that
atom. -/
theorem Scoped.eq_of_identity {b : Atom} (ha : a ∈ e1.atoms) (hb : b ∈ e2.atoms) {x y : Tvar}
    (hx : a.tvar = some x) (hy : b.tvar = some y) (hxy : x.identity = y.identity) : a = b :=
  h.named a (List.mem_append_left _ ha) b (List.mem_append_right _ hb) x y hx hy hxy

theorem Scoped.rgnsOf_left (ht : .rgns t ∈ e1.atoms) : rgnsOf t = some (.rgns t) :=
  rgnsOf_of_isType (h.types t (List.mem_append_left _ ht))

theorem Scoped.rgnsOf_right (ht : .rgns t ∈ e2.atoms) : rgnsOf t = some (.rgns t) :=
  rgnsOf_of_isType (h.types t (List.mem_append_right _ ht))

/-- A search that finds the atom itself and only atoms with its variable finds the atom. -/
theorem Scoped.search_iff_mem (ha : a ∈ e1.atoms) {x : Tvar} (hx : a.tvar = some x)
    {p : Atom → Bool} (hself : p a = true)
    (hp : ∀ b ∈ e2.atoms, p b = true → ∃ y, b.tvar = some y ∧ x.identity = y.identity) :
    e2.search p = true ↔ a ∈ e2.atoms := by
  rw [search_iff]
  constructor
  · rintro ⟨b, hb, hpb⟩
    obtain ⟨y, hy, hxy⟩ := hp b hb hpb
    rw [h.eq_of_identity ha hb hx hy hxy]
    exact hb
  · intro hmem
    exact ⟨a, hmem, hself⟩

theorem Scoped.variableInEffect_iff (ha : a ∈ e1.atoms) {v : Tvar}
    (hv : a.tvar = some v) (hself : variableInAtom v a = true) :
    variableInEffect v e2 = true ↔ a ∈ e2.atoms := by
  refine h.search_iff_mem ha hv hself fun b hb hvb => ?_
  cases b with
  | access r => cases hvb
  | rgns t =>
    rw [variableInAtom, h.rgnsOf_right hb] at hvb
    cases hvb
  | caccess r => exact ⟨r, rfl, identity_of_tvarCmp (eq_of_beq hvb)⟩
  | var v2 => exact ⟨v2, rfl, identity_of_tvarCmp (eq_of_beq hvb)⟩

theorem Scoped.typeInEffect_iff (ht : .rgns t ∈ e1.atoms) :
    typeInEffect t e2 = true ↔ .rgns t ∈ e2.atoms := by
  rw [typeInEffect_eq]
  refine h.search_iff_mem ht rfl (by simp [typeInAtom]) fun b hb htb => ?_
  cases b with
  | rgns t2 =>
    rw [typeInAtom, h.rgnsOf_left ht, Bool.or_eq_true] at htb
    refine ⟨t2, rfl, ?_⟩
    rcases htb with htb | htb
    · rw [eq_of_beq htb]
    · exact eq_of_beq htb
  | _ => cases htb

/-- Any access to an extended region lets the search for an ordinary region succeed. -/
theorem Scoped.regionInEffect_iff {r : Rgn} (hr : .access r ∈ e1.atoms) :
    regionInEffect r e2 = true ↔ r.special = true ∨ .access r ∈ e2.atoms ∨ e2.HasCAccess := by
  rw [regionInEffect, Bool.or_eq_true]
  cases r with
  | var tv =>
    refine or_congr_right ?_
    rw [search_iff]
    constructor
    · rintro ⟨b, hb, hrb⟩
      cases b with
      | access r2 =>
        cases r2 with
        | var tv2 =>
          have hid := identity_of_tvarCmp (eq_of_beq hrb)
          exact .inl (h.eq_of_identity hr hb rfl rfl hid ▸ hb)
        | _ => cases hrb
      | caccess x => exact .inr ⟨x, hb⟩
      | var v => cases hrb
      | rgns t =>
        rw [regionInAtom, h.rgnsOf_right hb] at hrb
        cases hrb
    · rintro (hmem | ⟨x, hx⟩)
      · refine ⟨_, hmem, ?_⟩
        rw [regionInAtom, compareTyvars, tvarCmp_self]
        rfl
      · exact ⟨_, hx, rfl⟩
  | _ => exact iff_of_true (.inl rfl) (.inl rfl)

/-- When an atom of the first effect is found in the second one. -/
theorem Scoped.subsetAtom_iff (ha : a ∈ e1.atoms) : (subsetAtom a e2).1 = true ↔
      a.special = true ∨ a ∈ e2.atoms ∨ (a.isAccess = true ∧ e2.HasCAccess) := by
  cases a with
  | access r =>
    rw [subsetAtom]
    simpa [Atom.special, Atom.isAccess] using h.regionInEffect_iff ha
  | caccess | var =>
    rw [subsetAtom]
    have hiff := h.variableInEffect_iff ha rfl (by simp [variableInAtom, tvarCmp_self])
    simpa [Atom.special, Atom.isAccess] using hiff
  | rgns t =>
    rw [subsetAtom, h.rgnsOf_left ha]
    simpa [Atom.special, Atom.isAccess] using h.typeInEffect_iff ha

end Scoped

/-- `subset_effect` decides the inclusion of atoms unless the second effect has an access to an
extended region, every other atom of the first effect is in the second one, and an access to an
ordinary region is not. -/
theorem subsetEffect_exact_iff (e₁ e₂ : Effect) (h : Scoped e₁ e₂) :
    ((subsetEffect e₁ e₂).1 = true ↔ e₁.SubsetOf e₂) ↔
      (e₂.HasCAccess → e₁.SubsetOf e₂ ∨ ∃ a ∈ e₁.atoms, a.isAccess = false ∧ a ∉ e₂.atoms) := by
  have hanswer : (subsetEffect e₁ e₂).1 = true ↔ ∀ a ∈ e₁.atoms,
      a.special = true ∨ a ∈ e₂.atoms ∨ (a.isAccess = true ∧ e₂.HasCAccess) := by
    rw [(subsetEffect_same e₁ e₂).2]
    exact forall₂_congr fun a ha => h.subsetAtom_iff ha
  rw [hanswer]
  constructor
  · intro hexact hcaccess
    by_cases hmissing : ∃ a ∈ e₁.atoms, a.isAccess = false ∧ a ∉ e₂.atoms
    · exact .inr hmissing
    · refine .inl (hexact.1 fun a ha => ?_)
      cases haccess : a.isAccess with
      | true => exact .inr (.inr ⟨rfl, hcaccess⟩)
      | false =>
        by_contra hne
        exact hmissing ⟨a, ha, haccess, fun hmem => hne (.inr (.inl hmem))⟩
  · intro hholds
    refine ⟨fun hfound => ?_, fun hsub a ha => (hsub a ha).imp_right .inl⟩
    by_cases hcaccess : e₂.HasCAccess
    · rcases hholds hcaccess with hsub | ⟨a, ha, haccess, hmem⟩
      · exact hsub
      · rcases hfound a ha with hspecial | hin | ⟨hacc, -⟩
        · cases a <;> simp_all [Atom.special, Atom.isAccess]
        · exact absurd hin hmem
        · exact absurd (haccess.symm.trans hacc) Bool.noConfusion
    · intro a ha
      rcases hfound a ha with hspecial | hin | ⟨-, hhas⟩
      · exact .inl hspecial
      · exact .inr hin
      · exact absurd hhas hcaccess

/-- An ordinary region. -/
def ordinaryRgn : Tvar := ⟨"`r", 1, .rgnKind⟩

/-- An extended region. -/
def extendedRgn : Tvar := ⟨"`x", 2, .xRgnKind⟩

theorem scoped_ordinary_extended :
    Scoped (.atom (.access (.var ordinaryRgn))) (.join [.atom (.caccess extendedRgn)]) where
  named := by
    simp [Effect.atoms, Effect.atomsList, Atom.tvar, ordinaryRgn, extendedRgn]
  types := by
    simp [Effect.atoms, Effect.atomsList]

/-- The effect of a function that accesses both regions is in itself. -/
theorem subsetEffect_exact_iff_declared :
    (subsetEffect (.join [.atom (.access (.var ordinaryRgn)), .atom (.caccess extendedRgn)])
        (.join [.atom (.caccess extendedRgn), .atom (.access (.var ordinaryRgn))])).1 = true := by
  have hscoped : Scoped (.join [.atom (.access (.var ordinaryRgn)), .atom (.caccess extendedRgn)])
      (.join [.atom (.caccess extendedRgn), .atom (.access (.var ordinaryRgn))]) := by
    constructor <;> simp [Effect.atoms, Effect.atomsList, Atom.tvar, ordinaryRgn, extendedRgn]
  have hsub : Effect.SubsetOf
      (.join [.atom (.access (.var ordinaryRgn)), .atom (.caccess extendedRgn)])
      (.join [.atom (.caccess extendedRgn), .atom (.access (.var ordinaryRgn))]) := by
    simp [Effect.SubsetOf, Effect.atoms, Effect.atomsList]
  exact ((subsetEffect_exact_iff _ _ hscoped).2 fun _ => .inl hsub).2 hsub

/-- An access to an ordinary region passes for an effect that only allows an extended region. -/
theorem not_subsetEffect_exact :
    ¬ ∀ e₁ e₂, Scoped e₁ e₂ → ((subsetEffect e₁ e₂).1 = true ↔ e₁.SubsetOf e₂) := by
  intro hexact
  have hsub := (hexact _ _ scoped_ordinary_extended).1 rfl
  simp [Effect.SubsetOf, Effect.atoms, Effect.atomsList, Atom.special, Rgn.special] at hsub

end ConcurrentCyclone.Tcutil
