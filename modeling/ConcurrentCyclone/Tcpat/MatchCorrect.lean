import ConcurrentCyclone.Tcpat.Values

/-!
# The decision tree finds the first rule that matches

A decision tree is run on a value by testing the parts at its paths. The compiler keeps a
description of the value: the hole (`Hole`) of the current part in a description of the whole, or,
between two arguments of a constructor, a row (`Row`). For every state of the three functions the
tree they return takes each described value to the right-hand side it should get, and every leaf of
the tree is reached by some described value (`Spec`). The second half is what makes the reports of
`check_exhaust_overlap` exact.
-/

set_option autoImplicit false

namespace ConcurrentCyclone.Tcpat

open Lib ConcurrentCyclone.Runtime

universe u v

/-! ## Running a tree -/

/-- Where a run of a decision tree ends. -/
inductive Outcome (ρ : Type u) where
  | failure
  | success (rhs : ρ)
  deriving DecidableEq

section Run

variable {ρ : Type u}

mutual

/-- Run a decision tree on a value; `none` for a path the value does not have. -/
def Decision.run : Decision ρ → Value → Option (Outcome ρ)
  | .failure _, _ => some .failure
  | .success r, _ => some (.success r)
  | .switchDec p clauses dflt, v =>
    (select p v).bind fun u => (clauses.run u v).getD (dflt.run v)

/-- Run the first clause whose constructor is that of `u`. -/
def Clauses.run : Clauses ρ → Value → Value → Option (Option (Outcome ρ))
  | .nil, _, _ => none
  | .cons c d rest, u, v => if u.name = c.name then some (d.run v) else rest.run u v

end

mutual

/-- The leaves of a tree. -/
def Decision.leaves : Decision ρ → List (Outcome ρ)
  | .failure _ => [.failure]
  | .success r => [.success r]
  | .switchDec _ clauses dflt => clauses.leaves ++ dflt.leaves

/-- The leaves of the clauses. -/
def Clauses.leaves : Clauses ρ → List (Outcome ρ)
  | .nil => []
  | .cons _ d rest => d.leaves ++ rest.leaves

end

/-- The right-hand side of the first rule that matches. -/
def firstMatch : List (SimplePat × ρ) → Value → Outcome ρ
  | [], _ => .failure
  | (p, r) :: rules, v => if p.matches v then .success r else firstMatch rules v

mutual

/-- A run ends at a leaf. -/
theorem Decision.run_mem_leaves : ∀ (d : Decision ρ) {v : Value} {o : Outcome ρ},
    d.run v = some o → o ∈ d.leaves
  | .failure _, v, o, h | .success _, v, o, h => by
    obtain rfl := Option.some.inj h
    exact List.mem_singleton_self _
  | .switchDec p clauses dflt, v, o, h => by
    obtain ⟨u, _, h⟩ := Option.bind_eq_some_iff.1 h
    cases hc : clauses.run u v with
    | none =>
      rw [hc, Option.getD_none] at h
      exact List.mem_append_right _ (dflt.run_mem_leaves h)
    | some r =>
      rw [hc, Option.getD_some] at h
      exact List.mem_append_left _ (clauses.run_mem_leaves (hc.trans (congrArg some h)))

theorem Clauses.run_mem_leaves : ∀ (cs : Clauses ρ) {u v : Value} {o : Outcome ρ},
    cs.run u v = some (some o) → o ∈ cs.leaves
  | .nil, u, v, o, h => by cases h
  | .cons c d rest, u, v, o, h => by
    rw [Clauses.run] at h
    split_ifs at h
    · exact List.mem_append_left _ (d.run_mem_leaves (Option.some.inj h))
    · exact List.mem_append_right _ (rest.run_mem_leaves h)

end

theorem leaves_addTest (obj : Path) (c : Con) (s f : Decision ρ) :
    (addTest obj c s f).leaves = s.leaves ++ f.leaves := by
  cases f with
  | failure | success => simp [addTest, Decision.leaves, Clauses.leaves]
  | switchDec q clauses dflt =>
    rw [addTest]
    split_ifs <;> simp [Decision.leaves, Clauses.leaves]

variable {obj : Path} {c : Con} {s f : Decision ρ}

/-- A test of the part at a path. -/
theorem run_test {v u : Value} (hu : select obj v = some u) :
    (Decision.switchDec obj (.cons c s .nil) f).run v =
      if u.name = c.name then s.run v else f.run v := by
  rw [Decision.run, hu, Option.bind_some, Clauses.run]
  split_ifs
  · rfl
  · rfl

/-- `ifeq` makes a test of the part at the path, also where it puts the test into a switch. -/
theorem run_addTest {v u : Value} (hu : select obj v = some u)
    (hsame : ∀ q clauses dflt, f = .switchDec q clauses dflt → samePath obj q = true →
      select q v = select obj v) :
    (addTest obj c s f).run v = if u.name = c.name then s.run v else f.run v := by
  cases f with
  | failure | success => exact run_test hu
  | switchDec q clauses dflt =>
    by_cases hmerge : (samePath obj q && c.origPat.isPattern) = true
    · have hq := hsame q clauses dflt rfl (Bool.and_eq_true_iff.1 hmerge).1
      rw [hu] at hq
      simp only [addTest, if_pos hmerge, Decision.run, hq, Option.bind_some, Clauses.run]
      split_ifs
      · rfl
      · rfl
    · rw [addTest, if_neg hmerge]
      exact run_test hu

end Run

/-! ## What the compiler returns -/

section Spec

variable {Ty : Type u} {ρ : Type v} (S : Signature Ty) (K : Ty → Con → Prop) (P : Prop) (τ₀ : Ty)
  (R : ρ → Prop)

mutual

/-- The switches of a tree are on parts of types that have to be tested, their tests are for
constructors of the type, and the right-hand sides satisfy `R`. -/
inductive Decision.Typed : Decision ρ → Prop where
  | failure {td : TermDesc} : Decision.Typed (.failure td)
  | success {r : ρ} (hr : R r) : Decision.Typed (.success r)
  | switchDec {p : Path} {τ : Ty} {clauses : Clauses ρ} {dflt : Decision ρ}
      (hp : PathTo S τ₀ p τ) (hτ : S.span τ ≠ some 1) (hclauses : Clauses.Typed τ clauses)
      (hdflt : Decision.Typed dflt) : Decision.Typed (.switchDec p clauses dflt)

/-- The tests of the clauses are for constructors of the type `τ`. -/
inductive Clauses.Typed : Ty → Clauses ρ → Prop where
  | nil {τ : Ty} : Clauses.Typed τ .nil
  | cons {τ : Ty} {c : Con} {τs : List Ty} {d : Decision ρ} {rest : Clauses ρ}
      (hc : ConOk S K τ c τs) (hd : Decision.Typed d) (hrest : Clauses.Typed τ rest) :
      Clauses.Typed τ (.cons c d rest)

end

/-- The tree is typed and takes each value of `dom` to its outcome; where the sets of constructors
are kept exactly, each leaf is reached by a value of `dom`. -/
structure Spec (dom : Value → Prop) (out : Value → Outcome ρ) (t : Decision ρ) : Prop where
  typed : t.Typed S K τ₀ R
  run : ∀ v, dom v → t.run v = some (out v)
  reached : (∀ σ, S.Exact K P σ) → ∀ o ∈ t.leaves, ∃ v, dom v ∧ out v = o

/-- The values of type `τ₀` that are described. -/
def Whole (D : TermDesc) (v : Value) : Prop := HasType S τ₀ v ∧ Describes D v

/-- The paths to `n` arguments of the part at `par`, from argument `k` on. -/
def pathsFrom (c : Con) (par : Path) (k n : Nat) : List Path :=
  (List.range' k n).map fun i => ⟨c, i⟩ :: par

/-- The part at `obj`, of type `τ`, in the whole value; `fill d` describes the whole if `d`
describes the part. -/
inductive Hole : Context → WorkStack → Path → Ty → (TermDesc → TermDesc) → Prop where
  | root : Hole [] [] [] τ₀ id
  | arg {ctx : Context} {work : WorkStack} {par : Path} {σ : Ty} {fill : TermDesc → TermDesc}
      {c : Con} {args : List TermDesc} {pats : List SimplePat} {dscs : List TermDesc}
      {τl : List Ty} {τ : Ty} {τr : List Ty} (hpar : Hole ctx work par σ fill)
      (hc : ConOk S K σ c (τl ++ τ :: τr))
      (hargs : List.Forall₂ (TermDesc.WF S K P) τl args.reverse)
      (hdscs : List.Forall₂ (TermDesc.WF S K P) τr dscs)
      (hpats : List.Forall₂ (SimplePat.Typed S K) τr pats) :
      Hole ((c, args) :: ctx)
        (⟨pats, pathsFrom c par (args.length + 1) dscs.length, dscs⟩ :: work)
        (⟨c, args.length⟩ :: par) τ fun d => fill (.pos c (args.reverse ++ d :: dscs))

/-- The state between two arguments of a constructor, or at the end; `D` describes the whole. -/
inductive Row : Context → WorkStack → TermDesc → Prop where
  | done {D : TermDesc} (hD : D.WF S K P τ₀) : Row [] [] D
  | frame {ctx : Context} {work : WorkStack} {par : Path} {σ : Ty} {fill : TermDesc → TermDesc}
      {c : Con} {args : List TermDesc} {pats : List SimplePat} {dscs : List TermDesc}
      {τl τr : List Ty} (hpar : Hole S K P τ₀ ctx work par σ fill) (hc : ConOk S K σ c (τl ++ τr))
      (hargs : List.Forall₂ (TermDesc.WF S K P) τl args.reverse)
      (hdscs : List.Forall₂ (TermDesc.WF S K P) τr dscs)
      (hpats : List.Forall₂ (SimplePat.Typed S K) τr pats) :
      Row ((c, args) :: ctx) (⟨pats, pathsFrom c par args.length dscs.length, dscs⟩ :: work)
        (fill (.pos c (args.reverse ++ dscs)))

end Spec

section Compile

variable {Ty : Type u} {ρ : Type v} {S : Signature Ty} {K : Ty → Con → Prop} {P : Prop} {τ₀ τ : Ty}
  {R : ρ → Prop} {ctx : Context} {work : WorkStack} {obj : Path} {fill : TermDesc → TermDesc}
  {d d' : TermDesc} {v u : Value}

theorem Spec.congr {dom dom' : Value → Prop} {out out' : Value → Outcome ρ} {t : Decision ρ}
    (h : Spec S K P τ₀ R dom out t) (hdom : ∀ v, dom' v ↔ dom v)
    (hout : ∀ v, dom v → out' v = out v) : Spec S K P τ₀ R dom' out' t where
  typed := h.typed
  run v hv := by
    rw [hout v ((hdom v).1 hv)]
    exact h.run v ((hdom v).1 hv)
  reached hex o ho := by
    obtain ⟨v, hv, rfl⟩ := h.reached hex o ho
    exact ⟨v, (hdom v).2 hv, hout v hv⟩

variable {c : Con} {τs : List Ty} {s f : Decision ρ}

/-- A test that a typed tree gets for one more constructor. -/
theorem Decision.Typed.addTest (hS : S.WellFormed)
    (hobj : PathTo S τ₀ obj τ) (hτ : S.span τ ≠ some 1) (hc : ConOk S K τ c τs)
    (hs : s.Typed S K τ₀ R) (hf : f.Typed S K τ₀ R) : (addTest obj c s f).Typed S K τ₀ R := by
  cases hf with
  | failure => exact .switchDec hobj hτ (.cons hc hs .nil) .failure
  | success hr => exact .switchDec hobj hτ (.cons hc hs .nil) (.success hr)
  | switchDec hq hτ' hclauses hdflt =>
    rw [Tcpat.addTest]
    split_ifs with hmerge
    · -- the switch that gets the test is on a part of the same type
      obtain ⟨rfl, _⟩ :=
        hobj.select_eq hS hq (.inl ⟨hτ, hτ'⟩) (Bool.and_eq_true_iff.1 hmerge).1
      exact .switchDec hq hτ' (.cons hc hs hclauses) hdflt
    · exact .switchDec hobj hτ (.cons hc hs .nil) (.switchDec hq hτ' hclauses hdflt)

/-- A test that splits the values of the domain. -/
theorem Spec.addTest (hS : S.WellFormed) {dom domS domF : Value → Prop}
    {out : Value → Outcome ρ} (hobj : PathTo S τ₀ obj τ)
    (hτ : S.span τ ≠ some 1) (hc : ConOk S K τ c τs) (hs : Spec S K P τ₀ R domS out s)
    (hf : Spec S K P τ₀ R domF out f) (hdom : ∀ v, dom v → ∃ u, select obj v = some u ∧
      (u.name = c.name → domS v) ∧ (u.name ≠ c.name → domF v))
    (hdomS : (∀ σ, S.Exact K P σ) → ∀ v, domS v → dom v) (hdomF : ∀ v, domF v → dom v) :
    Spec S K P τ₀ R dom out (addTest obj c s f) where
  typed := hs.typed.addTest hS hobj hτ hc hf.typed
  run v hv := by
    obtain ⟨u, hu, hS', hF⟩ := hdom v hv
    -- a switch that gets the test as one more clause is on the same part
    have hsame : ∀ q clauses dflt, f = .switchDec q clauses dflt → samePath obj q = true →
        select q v = select obj v := by
      rintro q clauses dflt rfl hpath
      cases hf.typed with
      | switchDec hq hτ' _ _ =>
        exact ((hobj.select_eq hS hq (.inl ⟨hτ, hτ'⟩) hpath).2 v).symm
    rw [run_addTest hu hsame]
    split_ifs with hname
    · exact hs.run v (hS' hname)
    · exact hf.run v (hF hname)
  reached hex o ho := by
    rw [leaves_addTest, List.mem_append] at ho
    rcases ho with ho | ho
    · obtain ⟨v, hv, hout⟩ := hs.reached hex o ho
      exact ⟨v, hdomS hex v hv, hout⟩
    · obtain ⟨v, hv, hout⟩ := hf.reached hex o ho
      exact ⟨v, hdomF v hv, hout⟩

/-- Split related lists at an element. -/
theorem forall₂_append_cons {α β : Type*} {R : α → β → Prop} {l r : List α} {x : α} {ys : List β}
    (h : List.Forall₂ R (l ++ x :: r) ys) :
    ∃ yl y yr, ys = yl ++ y :: yr ∧ yl.length = l.length ∧ R x y ∧
      ∀ x', R x' y → List.Forall₂ R (l ++ x' :: r) ys := by
  induction l generalizing ys with
  | nil =>
    obtain _ | ⟨hxy, hr⟩ := h
    exact ⟨[], _, _, rfl, rfl, hxy, fun x' hx' => .cons hx' hr⟩
  | cons a l ih =>
    obtain _ | ⟨hab, hrest⟩ := h
    obtain ⟨yl, y, yr, rfl, hlen, hxy, hchange⟩ := ih hrest
    exact ⟨_ :: yl, y, yr, rfl, congrArg (· + 1) hlen, hxy,
      fun x' hx' => .cons hab (hchange x' hx')⟩

section

variable (h : Hole S K P τ₀ ctx work obj τ fill)

include h

theorem Hole.build : buildDesc ctx d work = some (fill d) := by
  induction h generalizing d with
  | root => rfl
  | arg _ _ _ _ _ ih =>
    exact ih

theorem Hole.wf (hd : d.WF S K P τ) : (fill d).WF S K P τ₀ := by
  induction h generalizing d with
  | root => exact hd
  | arg _ hc hargs hdscs _ ih =>
    exact ih (.pos hc.args (List.rel_append hargs (.cons hd hdscs)))

theorem Hole.pathTo : PathTo S τ₀ obj τ := by
  induction h with
  | root => exact .nil
  | @arg ctx work par σ fill c args pats dscs τl τ τr _ hc hargs _ _ ih =>
    have hlen : τl.length = args.length := by simpa using hargs.length_eq
    have hlt : args.length < c.arity := by
      rw [hc.arity, List.length_append, List.length_cons]
      omega
    refine .cons ih hc.args ?_ (hc.access _ hlt)
    simp [← hlen]

/-- The part at the path, when the whole is described. -/
theorem Hole.select (hv : Describes (fill d) v) :
    ∃ u, select obj v = some u ∧ Describes d u ∧ ∀ d', Describes d' u → Describes (fill d') v := by
  induction h generalizing d with
  | root => exact ⟨v, rfl, hv, fun _ h => h⟩
  | @arg ctx work par σ fill c args pats dscs τl τ τr _ _ _ _ _ ih =>
    obtain ⟨w, hw, hdw, hchange⟩ := ih hv
    obtain ⟨hname, hargs⟩ := describes_pos_iff.1 hdw
    obtain ⟨yl, y, yr, hsplit, hlen, hdy, hargs'⟩ := forall₂_append_cons hargs
    refine ⟨y, ?_, hdy, fun d' hd' => hchange _ (describes_pos_iff.2 ⟨hname, hargs' d' hd'⟩)⟩
    rw [List.length_reverse] at hlen
    simp [Tcpat.select, hw, hname, hsplit, ← hlen]

end

theorem PathTo.hasType (h : PathTo S τ₀ obj τ) (hv : HasType S τ₀ v)
    (hu : Tcpat.select obj v = some u) : HasType S τ u := by
  induction h generalizing u with
  | nil =>
    obtain rfl := Option.some.inj hu
    exact hv
  | @cons p σ τ σs n hp hcon hidx _ ih =>
    obtain ⟨w, hw, hu⟩ := Option.bind_eq_some_iff.1 hu
    split_ifs at hu with hname
    have hargs := (ih hw).args_of_name (hname ▸ hcon)
    obtain ⟨hi, rfl⟩ := List.getElem?_eq_some_iff.1 hu
    obtain ⟨hi', rfl⟩ := List.getElem?_eq_some_iff.1 hidx
    exact List.Forall₂.get hargs hi' hi

/-- Put a description of the part into the context. -/
theorem Hole.augment (h : Hole S K P τ₀ ctx work obj τ fill) (hd : d.WF S K P τ) :
    Row S K P τ₀ (augment ctx d) work (fill d) := by
  cases h with
  | root => exact .done hd
  | @arg ctx work par σ fill c args pats dscs τl _ τr hpar hc hargs hdscs hpats =>
    have hargs' : List.Forall₂ (TermDesc.WF S K P) (τl ++ [τ]) (d :: args).reverse := by
      rw [List.reverse_cons]
      exact List.rel_append hargs (.cons hd .nil)
    have hc' : ConOk S K σ c ((τl ++ [τ]) ++ τr) := by
      rwa [List.append_assoc]
    have hrow := Row.frame hpar hc' hargs' hdscs hpats
    rwa [List.reverse_cons, List.append_assoc] at hrow

/-- Change the description of the part. -/
theorem Hole.whole_of_whole (h : Hole S K P τ₀ ctx work obj τ fill)
    (himp : ∀ u, HasType S τ u → Tcpat.select obj v = some u → Describes d u → Describes d' u)
    (hv : Whole S τ₀ (fill d) v) : Whole S τ₀ (fill d') v := by
  obtain ⟨u, hu, hdu, hchange⟩ := h.select hv.2
  exact ⟨hv.1, hchange _ (himp u (h.pathTo.hasType hv.1 hu) hu hdu)⟩

/-- What `and_match` finds on the work stack. -/
theorem Row.cases {D : TermDesc} (h : Row S K P τ₀ ctx work D) : work = [] ∨
    (∃ ctx' workr, work = ⟨[], [], []⟩ :: workr ∧ normContext ctx = some ctx' ∧
      Row S K P τ₀ ctx' workr D) ∨
    ∃ p ps obj objs d ds workr τ fill, work = ⟨p :: ps, obj :: objs, d :: ds⟩ :: workr ∧
      Hole S K P τ₀ ctx (⟨ps, objs, ds⟩ :: workr) obj τ fill ∧ d.WF S K P τ ∧ p.Typed S K τ ∧
      D = fill d := by
  cases h with
  | done => exact .inl rfl
  | @frame ctx work par σ fill c args pats dscs τl τr hpar hc hargs hdscs hpats =>
    cases hdscs with
    | nil =>
      cases hpats
      rw [List.append_nil] at hc ⊢
      exact .inr (.inl ⟨_, work, rfl, rfl, hpar.augment (.pos hc.args hargs)⟩)
    | @cons τ d τr ds hd hds =>
      obtain _ | ⟨hp, hps⟩ := hpats
      exact .inr (.inr ⟨_, _, _, _, d, ds, work, τ, _, rfl, .arg hpar hc hargs hds hps, hd, hp,
        rfl⟩)

theorem Row.wf {D : TermDesc} (h : Row S K P τ₀ ctx work D) : D.WF S K P τ₀ := by
  cases h with
  | done hD => exact hD
  | frame hpar hc hargs hdscs _ =>
    exact hpar.wf (.pos hc.args (List.rel_append hargs hdscs))

theorem allNear_append {l l' : List (Con × Con)} : AllNear (l ++ l') ↔ AllNear l ∧ AllNear l' :=
  List.forall_mem_append

/-! ## The patterns that are left -/

/-- The part of a value at a path matches a pattern. -/
def matchesAt (v : Value) (p : SimplePat) (obj : Path) : Bool := (select obj v).any p.matches

/-- The patterns on the work stack match the parts of the value. -/
def pending (work : WorkStack) (v : Value) : Bool :=
  work.all fun w => (List.zipWith (matchesAt v) w.pats w.objs).all id

theorem pending_cons (p : SimplePat) (ps : List SimplePat) (obj : Path) (objs : List Path)
    (ds ds' : List TermDesc) (work : WorkStack) (v : Value) :
    pending (⟨p :: ps, obj :: objs, ds⟩ :: work) v =
      (matchesAt v p obj && pending (⟨ps, objs, ds'⟩ :: work) v) := by
  simp [pending, Bool.and_assoc]

/-- The patterns for the arguments of a part. -/
theorem all_pathsFrom {c : Con} {par : Path} {v w : Value} (hw : select par v = some w)
    (hname : w.name = c.name) (ps : List SimplePat) (k : Nat) (hk : w.args.length = k + ps.length) :
    (List.zipWith (matchesAt v) ps (pathsFrom c par k ps.length)).all id =
      matchesAll ps (w.args.drop k) := by
  induction ps generalizing k with
  | nil =>
    have hle : w.args.length ≤ k := Nat.le_of_eq hk
    rw [List.drop_of_length_le hle]
    rfl
  | cons p ps ih =>
    rw [List.length_cons] at hk
    have hlt : k < w.args.length := by omega
    have hat : matchesAt v p (⟨c, k⟩ :: par) = p.matches w.args[k] := by
      simp [matchesAt, select, hw, hname, hlt]
    rw [List.drop_eq_getElem_cons hlt, matchesAll, ← ih (k + 1) (by omega), ← hat]
    simp [pathsFrom, List.range'_succ]

variable {ps : List SimplePat} {dsc : TermDesc}

theorem ConOk.getoargs (hc : ConOk S K τ c τs) (obj : Path) :
    getoargs c obj = some (pathsFrom c obj 0 c.arity) := by
  have hmap : ∀ is : List Nat, (∀ i ∈ is, i < c.arity) →
      is.mapM (getoarg obj c) = some (is.map fun i => ⟨c, i⟩ :: obj) := by
    intro is his
    induction is with
    | nil => rfl
    | cons i is ih =>
      have hi : getoarg obj c i = some (⟨c, i⟩ :: obj) := by
        rw [getoarg, hc.access i (his i (List.mem_cons_self ..))]
        rfl
      rw [List.mapM_cons, hi, ih fun j hj => his j (.tail _ hj)]
      rfl
  rw [pathsFrom, ← List.range_eq_range']
  exact hmap _ fun i hi => List.mem_range.1 hi

/-- The patterns for the arguments of a constructor are put on the work stack. -/
theorem pending_args (hc : ConOk S K τ c τs) (hps : List.Forall₂ (SimplePat.Typed S K) τs ps)
    (ds : List TermDesc) (hobj : select obj v = some u) (hu : HasType S τ u)
    (hname : u.name = c.name) : pending (⟨ps, pathsFrom c obj 0 c.arity, ds⟩ :: work) v =
      (matchesAt v (.con c ps) obj && pending work v) := by
  have hargs := (hu.args_of_name (hname ▸ hc.args)).length_eq
  have hlen : c.arity = ps.length := hc.arity.trans hps.length_eq
  have hall := all_pathsFrom hobj hname ps 0 (by rw [Nat.zero_add, ← hargs, hps.length_eq])
  have hmatch : matchesAt v (.con c ps) obj = matchesAll ps u.args := by
    rw [Bool.eq_iff_iff, matchesAt, hobj, Option.any_some, matches_con_iff]
    simp [hname]
  rw [hmatch, pending, List.all_cons, hlen, hall]
  rfl

theorem SimplePat.Typed.conOk (hp : (SimplePat.con c ps).Typed S K τ) :
    ∃ τs, ConOk S K τ c τs ∧ List.Forall₂ (SimplePat.Typed S K) τs ps := by
  obtain _ | ⟨hc, hargs⟩ := hp
  exact ⟨_, hc, hargs⟩

/-- A part that starts with another constructor. -/
theorem matchesAt_of_ne (hobj : select obj v = some u) (hname : u.name ≠ c.name) :
    matchesAt v (.con c ps) obj = false := by
  rw [matchesAt, hobj, Option.any_some, Bool.eq_false_iff, ne_eq, matches_con_iff]
  exact fun h => hname h.1

variable {ds : List TermDesc}

section

variable (h : Hole S K P τ₀ ctx work obj τ fill)

include h

/-- Go into the arguments of the part. -/
theorem Hole.row (hc : ConOk S K τ c τs)
    (hps : List.Forall₂ (SimplePat.Typed S K) τs ps)
    (hds : List.Forall₂ (TermDesc.WF S K P) τs ds) :
    Row S K P τ₀ ((c, []) :: ctx) (⟨ps, pathsFrom c obj 0 c.arity, ds⟩ :: work)
      (fill (.pos c ds)) := by
  have hc' : ConOk S K τ c ([] ++ τs) := hc
  rw [hc.arity.trans hds.length_eq]
  exact .frame h hc' .nil hds hps

/-- What is left to match once the part is known to start with the constructor. -/
theorem Hole.pending_con (hc : ConOk S K τ c τs)
    (hps : List.Forall₂ (SimplePat.Typed S K) τs ps) (hv : Whole S τ₀ (fill (.pos c ds)) v) :
    pending (⟨ps, pathsFrom c obj 0 c.arity, ds⟩ :: work) v =
      (matchesAt v (.con c ps) obj && pending work v) := by
  obtain ⟨u, hu, hdu, _⟩ := h.select hv.2
  exact pending_args hc hps ds hu (h.pathTo.hasType hv.1 hu) (describes_pos_iff.1 hdu).1

/-- A part whose description excludes the constructor. -/
theorem Hole.matchesAt_con
    (hne : ∀ u, Describes dsc u → u.name ≠ c.name) (hv : Whole S τ₀ (fill dsc) v) :
    matchesAt v (.con c ps) obj = false := by
  obtain ⟨u, hu, hdu, _⟩ := h.select hv.2
  exact matchesAt_of_ne hu (hne u hdu)

end

variable (hS : S.WellFormed)

include hS

mutual

/-- The tree for the rules. -/
theorem orMatch_spec (dsc : TermDesc) (rules : List (SimplePat × ρ)) (hdsc : dsc.WF S K P τ₀)
    (hcmps : P → AllNear (orCmps dsc rules)) (hrules : ∀ r ∈ rules, r.1.Typed S K τ₀ ∧ R r.2) :
    ∃ t, orMatch dsc rules = some t ∧ Spec S K P τ₀ R (Whole S τ₀ dsc) (firstMatch rules) t := by
  match rules with
  | [] =>
    refine ⟨.failure dsc, by rw [orMatch], .failure, fun v _ => rfl, fun hex o ho => ?_⟩
    obtain rfl := List.mem_singleton.1 ho
    obtain ⟨v, hv, hd⟩ := exists_value hS hex dsc hdsc
    exact ⟨v, ⟨hv, hd⟩, rfl⟩
  | (p, r) :: rules =>
    rw [orCmps] at hcmps
    obtain ⟨t, ht, hspec⟩ := matchPat_spec p [] dsc [] [] r rules id τ₀ .root hdsc hcmps
      (hrules (p, r) (List.mem_cons_self ..)).1 (hrules (p, r) (List.mem_cons_self ..)).2
      fun r' hr' => hrules r' (.tail _ hr')
    refine ⟨t, by rw [orMatch, ht], hspec.congr (fun _ => Iff.rfl) fun v _ => ?_⟩
    simp [firstMatch, matchesAt, select, pending]
termination_by rulesSize rules
decreasing_by
  simp only [rulesSize, workSize]
  omega

/-- The tree for the patterns on the work stack, and for the rules if they do not match. -/
theorem andMatch_spec (ctx : Context) (work : WorkStack) (rhs : ρ) (rules : List (SimplePat × ρ))
    (D : TermDesc) (hrow : Row S K P τ₀ ctx work D) (hcmps : P → AllNear (andCmps ctx work rules))
    (hrhs : R rhs)
    (hrules : ∀ r ∈ rules, r.1.Typed S K τ₀ ∧ R r.2) :
    ∃ t, andMatch ctx work rhs rules = some t ∧ Spec S K P τ₀ R (Whole S τ₀ D)
      (fun v => if pending work v then .success rhs else firstMatch rules v) t := by
  obtain hwork | ⟨ctx', workr, hwork, hctx, hrow'⟩ |
    ⟨p, ps, obj, objs, d, ds, workr, τ, fill, hwork, hhole, hd, hp, rfl⟩ := hrow.cases
  · refine ⟨.success rhs, by rw [hwork, andMatch], .success hrhs, fun v _ => ?_, fun hex o ho => ?_⟩
    · simp [hwork, pending, Decision.run]
    · obtain rfl := List.mem_singleton.1 ho
      obtain ⟨v, hv, hd⟩ := exists_value hS hex D hrow.wf
      exact ⟨v, ⟨hv, hd⟩, by simp [hwork, pending]⟩
  · rw [hwork, andCmps, hctx] at hcmps
    obtain ⟨t, ht, hspec⟩ := andMatch_spec ctx' workr rhs rules D hrow' hcmps hrhs hrules
    refine ⟨t, by rw [hwork, andMatch, hctx, Option.bind_some, ht],
      hspec.congr (fun _ => Iff.rfl) fun v _ => ?_⟩
    simp [hwork, pending]
  · rw [hwork, andCmps] at hcmps
    obtain ⟨t, ht, hspec⟩ := matchPat_spec p obj d ctx (⟨ps, objs, ds⟩ :: workr) rhs rules fill τ
      hhole hd hcmps hp hrhs hrules
    refine ⟨t, by rw [hwork, andMatch, ht], hspec.congr (fun _ => Iff.rfl) fun v _ => ?_⟩
    rw [hwork, pending_cons]
termination_by 2 * workSize work + 1 + rulesSize rules
decreasing_by
  all_goals simp only [hwork, workSize, sizes]
  all_goals omega

/-- The tree for a pattern at a path, the patterns on the work stack and the rules. -/
theorem matchPat_spec (p : SimplePat) (obj : Path) (dsc : TermDesc) (ctx : Context)
    (work : WorkStack) (rhs : ρ) (rules : List (SimplePat × ρ)) (fill : TermDesc → TermDesc)
    (τ : Ty) (hhole : Hole S K P τ₀ ctx work obj τ fill) (hdsc : dsc.WF S K P τ)
    (hcmps : P → AllNear (matchCmps p obj dsc ctx work rules)) (hp : p.Typed S K τ) (hrhs : R rhs)
    (hrules : ∀ r ∈ rules, r.1.Typed S K τ₀ ∧ R r.2) :
    ∃ t, matchPat p obj dsc ctx work rhs rules = some t ∧ Spec S K P τ₀ R (Whole S τ₀ (fill dsc))
      (fun v => if matchesAt v p obj && pending work v then .success rhs
        else firstMatch rules v) t := by
  match p with
  | .any =>
    rw [matchCmps] at hcmps
    obtain ⟨t, ht, hspec⟩ := andMatch_spec (augment ctx dsc) work rhs rules _ (hhole.augment hdsc)
      hcmps hrhs hrules
    refine ⟨t, by rw [matchPat, ht], hspec.congr (fun _ => Iff.rfl) ?_⟩
    rintro v ⟨_, hd⟩
    obtain ⟨u, hu, _⟩ := hhole.select hd
    simp [matchesAt, hu, SimplePat.matches]
  | .con c ps =>
    obtain ⟨τs, hc, hps⟩ := hp.conOk
    rw [matchPat, hc.getoargs]
    simp only [matchCmps, hc.getoargs, Option.elim_some, allNear_append] at hcmps
    have hcon := fun hP => (hcmps hP).1
    cases hstatic : staticMatch c dsc with
    | yes =>
      simp only [hstatic] at hcmps
      obtain ⟨hargs, hiff⟩ := staticMatch_yes hS hc hdsc hcon hstatic
      obtain ⟨t, ht, hspec⟩ := andMatch_spec ((c, []) :: ctx)
        (⟨ps, pathsFrom c obj 0 c.arity, getdargs c dsc⟩ :: work) rhs rules _
        (hhole.row hc hps hargs) (fun hP => (hcmps hP).2) hrhs hrules
      refine ⟨t, ht, hspec.congr (fun v => ⟨?_, ?_⟩) fun v hv => ?_⟩
      · exact hhole.whole_of_whole fun u hu _ => (hiff u hu).1
      · exact hhole.whole_of_whole fun u hu _ => (hiff u hu).2
      · rw [hhole.pending_con hc hps hv]
    | no =>
      simp only [hstatic, hhole.build, Option.elim_some] at hcmps
      obtain ⟨t, ht, hspec⟩ :=
        orMatch_spec (fill dsc) rules (hhole.wf hdsc) (fun hP => (hcmps hP).2) hrules
      refine ⟨t, by rw [hhole.build]; exact ht, hspec.congr (fun _ => Iff.rfl) fun v hv => ?_⟩
      simp [hhole.matchesAt_con (fun u => staticMatch_no hS hc hdsc hstatic) hv]
    | maybe =>
      obtain ⟨hτ, hargs, hpos, hposD, dsc', hadd, hdsc', hneg⟩ :=
        staticMatch_maybe hS hc hdsc hcon hstatic
      simp only [hstatic, hadd, hhole.build, Option.elim_some, allNear_append] at hcmps
      obtain ⟨s, hs, hspecS⟩ := andMatch_spec ((c, []) :: ctx)
        (⟨ps, pathsFrom c obj 0 c.arity, getdargs c dsc⟩ :: work) rhs rules _
        (hhole.row hc hps hargs) (fun hP => (hcmps hP).2.1) hrhs hrules
      obtain ⟨f, hf, hspecF⟩ :=
        orMatch_spec (fill dsc') rules (hhole.wf hdsc') (fun hP => (hcmps hP).2.2) hrules
      obtain ⟨test, htest⟩ := Option.isSome_iff_exists.1 (hc.test hτ)
      refine ⟨addTest obj c s f, ?_, ?_⟩
      · simp only [Option.bind_some, hs, hadd, hhole.build, hf, ifeq, htest, Option.map_some]
      · refine .addTest hS hhole.pathTo hτ hc
          (hspecS.congr (fun _ => Iff.rfl) fun v hv => ?_)
          (hspecF.congr (fun _ => Iff.rfl) fun v hv => ?_) ?_ ?_ ?_
        · rw [hhole.pending_con hc hps hv]
        · simp [hhole.matchesAt_con (fun u hdu => ((hneg u).2 hdu).2) hv]
        · rintro v ⟨hv, hd⟩
          obtain ⟨u, hu, hdu, hchange⟩ := hhole.select hd
          refine ⟨u, hu, fun heq => ⟨hv, hchange _ ?_⟩, fun hne => ⟨hv, hchange _ ?_⟩⟩
          · exact hpos u (hhole.pathTo.hasType hv hu) heq
          · exact (hneg u).1 ⟨hdu, hne⟩
        · exact fun hex v => hhole.whole_of_whole fun u _ _ => hposD (hex τ) u
        · exact fun v => hhole.whole_of_whole fun u _ _ hdu => ((hneg u).2 hdu).1
termination_by 2 * (p.size + workSize work) + rulesSize rules
decreasing_by
  all_goals simp only [workSize, SimplePat.size]
  all_goals omega

end

/-- The tree of `match_compile`, for all values of the type. -/
theorem matchCompile_spec {rules : List (SimplePat × ρ)}
    (hcmps : P → AllNear (matchCompileCmps rules))
    (hrules : ∀ r ∈ rules, r.1.Typed S K τ₀ ∧ R r.2) :
    ∃ t, matchCompile rules = some t ∧ Spec S K P τ₀ R (HasType S τ₀) (firstMatch rules) t := by
  obtain ⟨t, ht, hspec⟩ :=
    orMatch_spec hS (.neg .empty) rules (.neg (negOk_empty hS τ₀)) hcmps hrules
  exact ⟨t, ht, hspec.congr (fun v => ⟨fun hv => ⟨hv, describes_any v⟩, And.left⟩) fun _ _ => rfl⟩

end Compile

end ConcurrentCyclone.Tcpat
