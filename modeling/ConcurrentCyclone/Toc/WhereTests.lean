import ConcurrentCyclone.Toc.DecisionTree
import ConcurrentCyclone.Tcpat.Exhaustive

/-!
# Where-clauses in the decision tree

`compile_decision_tree` expects that a switch of the tree with a where-test has no other clause, and
that the test leads to `Success`. The two components of the tuple of `get_match` have one access, so
that `ifeq` puts a test of the value itself into the switch of a where-test if the tree of the later
clauses starts with one. Tests of parts of the value have longer paths.

Which clauses this happens for can be seen by walking through them with the set of the constructors
that the value has been tested for (`whereApart`).
-/

set_option autoImplicit false

namespace ConcurrentCyclone.Toc

open Tcpat
open Lib (CSet)
open Option (bind_some map_some bind_eq_some_iff)

/-! ## Which form of a test is chosen -/

section Forms

variable {ss : List PatTest} {c : Nat} {k : TestKind}

theorem all_asCase_of_admitsLoop
    (h : (admitsLoop ss c k).1 ≠ 0) : ss.all PatTest.asCase = true := by
  fun_induction admitsLoop ss c k <;> simp_all [PatTest.asCase]

theorem all_asCase_of_admitsSwitch (h : 1 < (admitsSwitch ss.reverse).1) :
    ss.all PatTest.asCase = true := by
  rw [← List.all_reverse]
  exact all_asCase_of_admitsLoop (c := 0) (k := .otherTest) (Nat.ne_zero_of_lt h)

theorem mem_of_admitsLoop {e : Nat} (h : (admitsLoop ss c k).2 = .whereTest e) :
    k = .whereTest e ∨ .whereTest (some e) ∈ ss := by
  fun_induction admitsLoop ss c k with
  | case5 f ss c k ih =>
    rcases ih h with hk | hmem
    · split_ifs at hk
      exact .inl hk
    · exact .inr (.tail _ hmem)
  | _ => simp_all

theorem getPatTest_pattern (o : OrigPat) (e : Option Nat) :
    getPatTest (.pattern o) ≠ some (.whereTest e) := by
  cases o with
  | datatype extensible => cases extensible <;> simp [getPatTest]
  | pointer nullable => cases nullable <;> simp [getPatTest]
  | _ => simp [getPatTest]

end Forms

/-! ## Trees -/

/-- Some clause is for a where-clause. -/
def hasWhere : Clauses Nat → Bool
  | .nil => false
  | .cons c _ rest => !c.origPat.isPattern || hasWhere rest

mutual

/-- A switch with a where-test, on a path of one step, has that clause only, which leads to
`Success`. The right-hand sides are below `n`. -/
def WhereAlone (n : Nat) : Decision Nat → Prop
  | .failure _ => True
  | .success k => k < n
  | .switchDec path switches other =>
    (hasWhere switches = true → path.length = 1 ∧ ∃ c k, switches = .cons c (.success k) .nil) ∧
    ClausesAlone n switches ∧ WhereAlone n other

def ClausesAlone (n : Nat) : Clauses Nat → Prop
  | .nil => True
  | .cons _ d rest => WhereAlone n d ∧ ClausesAlone n rest

end

variable {n k : Nat} {p q : SimplePat} {obj : Path} {dsc : TermDesc} {ctx : Context}
  {work : WorkStack} {rules : List (SimplePat × Nat)} {c : Con} {t s f : Decision Nat}
  {swcs : List SwitchClause}

theorem hasWhere_of_mem {e : Option Nat} : ∀ {cs : Clauses Nat}, .whereTest e ∈ tests cs →
    hasWhere cs = true
  | .nil, h => absurd h List.not_mem_nil
  | .cons c _ rest, h => by
    rw [hasWhere, Bool.or_eq_true]
    rcases List.mem_append.1 h with h | h
    · refine .inl ?_
      cases hp : c.origPat with
      | whereClause => rfl
      | pattern o => exact absurd (hp ▸ Option.mem_toList.1 h) (getPatTest_pattern o e)
    · exact .inr (hasWhere_of_mem h)

mutual

/-- No internal error is reached in such a tree. -/
theorem WhereAlone.compile_isSome : ∀ {t : Decision Nat} (em : List Nat), WhereAlone n t →
    ∃ r, compileDecisionTree n t em = some r
  | .failure _, em, _ => ⟨_, rfl⟩
  | .success k, em, (h : k < n) => by
    rw [compileDecisionTree, compileSuccess, if_pos h]
    split_ifs
    · exact ⟨_, rfl⟩
    · exact ⟨_, rfl⟩
  | .switchDec path switches other, em, ⟨halone, hclauses, hother⟩ => by
    obtain ⟨r, hr⟩ := WhereAlone.compile_isSome em hother
    obtain ⟨cs, hcs⟩ := ClausesAlone.compile_isSome r.2 hclauses
    by_cases hadmits : 1 < (admitsSwitch (tests switches).reverse).1
    · exact ⟨_, by
        simp only [compileDecisionTree, hr, bind_some, hadmits, if_true, hcs, map_some,
          all_asCase_of_admitsSwitch hadmits]
        rfl⟩
    · simp only [compileDecisionTree, hr, bind_some, hadmits, if_false]
      cases hk : (admitsSwitch (tests switches).reverse).2 with
      | whereTest e =>
        -- the kind is that of a where-test, which is alone
        have hmem := (mem_of_admitsLoop hk).resolve_left nofun
        obtain ⟨-, c, k, rfl⟩ := halone (hasWhere_of_mem (List.mem_reverse.1 hmem))
        have hlt : k < n := hclauses.1
        simp only [compileWhere, if_pos hlt]
        split_ifs
        · exact ⟨_, rfl⟩
        · exact ⟨_, rfl⟩
      | _ => exact ⟨_, by simp only [hcs, map_some]; rfl⟩

theorem ClausesAlone.compile_isSome : ∀ {cs : Clauses Nat} (em : List Nat), ClausesAlone n cs →
    ∃ r, compileClauses n cs em = some r
  | .nil, em, _ => ⟨_, rfl⟩
  | .cons c d rest, em, ⟨hd, hrest⟩ => by
    obtain ⟨cs, hcs⟩ := ClausesAlone.compile_isSome em hrest
    obtain ⟨r, hr⟩ := WhereAlone.compile_isSome cs.2 hd
    exact ⟨_, by rw [compileClauses, hcs, bind_some, hr, map_some]⟩

end

/-! ## Adding a test -/

theorem length_eq_of_samePath : ∀ {p1 p2 : Path}, samePath p1 p2 = true → p1.length = p2.length
  | [], [], _ => rfl
  | _ :: _, _ :: _, h => by
    rw [samePath, Bool.and_eq_true] at h
    exact congrArg (· + 1) (length_eq_of_samePath h.2)

/-- The tree starts with a where-test. -/
def startsWhere : Decision Nat → Bool
  | .switchDec _ switches _ => hasWhere switches
  | _ => false

/-- A test of a part joins no where-test, and one of the value does not if the tree of the later
clauses does not start with one. -/
theorem WhereAlone.addTest_pattern (hs : WhereAlone n s) (hc : c.origPat.isPattern = true)
    (hobj : 2 ≤ obj.length ∨ startsWhere f = false) (hf : WhereAlone n f) :
    WhereAlone n (addTest obj c s f) ∧ startsWhere (addTest obj c s f) = false := by
  have hone : hasWhere (.cons c s .nil) = false := by simp [hasWhere, hc]
  have hnew : WhereAlone n (.switchDec obj (.cons c s .nil) f) :=
    ⟨fun h => absurd (hone.symm.trans h) Bool.false_ne_true, ⟨hs, trivial⟩, hf⟩
  cases f with
  | failure | success => exact ⟨hnew, hone⟩
  | switchDec access clauses dflt =>
    rw [addTest]
    split_ifs with hsame
    · have hnone : hasWhere (.cons c s clauses) = false := by
        rw [hasWhere, hc, Bool.not_true, Bool.false_or, ← Bool.not_eq_true]
        intro hwhere
        rcases hobj with hobj | hobj
        · rw [length_eq_of_samePath (Bool.and_eq_true_iff.1 hsame).1, (hf.1 hwhere).1] at hobj
          omega
        · exact absurd (hobj.symm.trans hwhere) Bool.false_ne_true
      exact ⟨⟨fun h => absurd (hnone.symm.trans h) Bool.false_ne_true, ⟨hs, hf.2.1⟩, hf.2.2⟩, hnone⟩
    · exact ⟨hnew, hone⟩

theorem WhereAlone.addTest_where (hc : c.origPat.isPattern = false) (hobj : obj.length = 1)
    (hk : k < n) (hf : WhereAlone n f) : WhereAlone n (addTest obj c (.success k) f) := by
  have hnew : WhereAlone n (.switchDec obj (.cons c (.success k) .nil) f) :=
    ⟨fun _ => ⟨hobj, c, k, rfl⟩, ⟨hk, trivial⟩, hf⟩
  cases f with
  | failure | success => exact hnew
  | switchDec => simpa [addTest, hc] using hnew

/-! ## Clauses -/

mutual

/-- The constructors are made from patterns. -/
def FromPats : SimplePat → Prop
  | .any => True
  | .con c args => c.origPat.isPattern = true ∧ ArgsFromPats args

def ArgsFromPats : List SimplePat → Prop
  | [] => True
  | p :: ps => FromPats p ∧ ArgsFromPats ps

end

mutual

/-- The pattern is not tested for a value of which nothing is known. -/
def untested : SimplePat → Bool
  | .any => true
  | .con c args => staticMatch c (.neg .empty) = .yes && argsUntested args

def argsUntested : List SimplePat → Bool
  | [] => true
  | p :: ps => untested p && argsUntested ps

end

/-- For a value with none of the constructors of `cs`, the first clause that can match starts with
its where-clause. -/
def startsWithWhere (cs : CSet Con) : List SwitchClause → Bool
  | [] => false
  | swc :: swcs =>
    match swc.pattern with
    | .any => swc.whereClause.isSome
    | .con c args =>
      match staticMatch c (.neg cs) with
      | .yes => argsUntested args && swc.whereClause.isSome
      | .no => startsWithWhere cs swcs
      | .maybe => false

/-- For a value with none of the constructors of `cs`, no clause that tests the value is followed by
clauses that start with a where-clause then. Behind a clause that always matches, or one whose
constructor is the only one left, the value is not tested any more. -/
def whereApart (cs : CSet Con) : List SwitchClause → Bool
  | [] => true
  | swc :: swcs =>
    match swc.pattern with
    | .any => swc.whereClause.isNone || whereApart cs swcs
    | .con c _ =>
      match staticMatch c (.neg cs) with
      | .yes => true
      | .no => whereApart cs swcs
      | .maybe => !startsWithWhere (cs.insert compareCon c) swcs &&
          whereApart (cs.insert compareCon c) swcs

/-- The second component of the tuple of `get_match`. -/
def WherePat (e : Option Nat) (q : SimplePat) : Prop :=
  e = none ∧ q = .any ∨ e.isSome = true ∧ ∃ i w, q = .con (intCon i (.whereClause w)) []

/-- The rules of clauses. -/
inductive RulesFor (n : Nat) : List SwitchClause → List (SimplePat × Nat) → Prop
  | nil : RulesFor n [] []
  | cons {swc : SwitchClause} {swcs : List SwitchClause} {rules : List (SimplePat × Nat)} {k : Nat}
      {w : Option Nat} {q : SimplePat} (hp : FromPats swc.pattern) (hq : WherePat swc.whereClause q)
      (hk : k < n) (h : RulesFor n swcs rules) :
      RulesFor n (swc :: swcs) ((.con (tupleCon 2 (.whereClause w)) [swc.pattern, q], k) :: rules)

/-- What is known of the tuple: nothing, or what its first component is; the clauses are apart for
that. -/
def RootDesc (swcs : List SwitchClause) (dsc : TermDesc) : Prop :=
  (dsc = .neg .empty ∧ whereApart .empty swcs = true) ∨
    ∃ w d₀ d₁, dsc = .pos (tupleCon 2 w) [d₀, d₁] ∧ ∀ cs, d₀ = .neg cs → whereApart cs swcs = true

theorem length_of_getoargs {is : List Nat} {os : List Path}
    (h : is.mapM (getoarg obj c) = some os) : ∀ o ∈ os, o.length = obj.length + 1 := by
  induction is generalizing os with
  | nil =>
    cases h
    exact nofun
  | cons i is ih =>
    simp only [List.mapM_cons, Option.bind_eq_bind, bind_eq_some_iff] at h
    obtain ⟨o, ho, os', hos, h⟩ := h
    obtain ⟨_, -, rfl⟩ := Option.map_eq_some_iff.1 ho
    cases h
    exact List.forall_mem_cons.2 ⟨rfl, ih hos⟩

/-- Behind the where-clause nothing is left to match. -/
theorem andMatch_done {ds : List TermDesc}
    (h : andMatch ctx (⟨[], [], ds⟩ :: work) k rules = some t) :
    ds = [] ∧ ∃ ctx', normContext ctx = some ctx' ∧ andMatch ctx' work k rules = some t := by
  cases ds with
  | nil =>
    rw [andMatch] at h
    exact ⟨rfl, bind_eq_some_iff.1 h⟩
  | cons => simp [andMatch] at h

theorem staticMatch_empty (c : Con) : staticMatch c (.neg .empty) ≠ .no := by
  have hmem : CSet.empty.member compareCon c = false := rfl
  simp only [staticMatch, hmem, Bool.false_eq_true, if_false]
  split_ifs
  · intro h
    cases h
  · intro h
    cases h

/-! ## The patterns of one clause -/

/-- The states in which the parts of the value are matched; below is the place of the
where-clause. -/
inductive Inside (e : Option Nat) : Context → WorkStack → Prop
  | value {c : Con} {as : List TermDesc} {w : PatOrWhere} {ps : List SimplePat} {os : List Path}
      {ds : List TermDesc} {q : SimplePat} {o : Path} {d : TermDesc} (hps : ArgsFromPats ps)
      (hos : ∀ o ∈ os, 2 ≤ o.length) (hq : WherePat e q) (ho : o.length = 1) :
      Inside e [(c, as), (tupleCon 2 w, [])] [⟨ps, os, ds⟩, ⟨[q], [o], [d]⟩]
  | part {c : Con} {as : List TermDesc} {ps : List SimplePat} {os : List Path}
      {ds : List TermDesc} {ctx : Context} {work : WorkStack} (hps : ArgsFromPats ps)
      (hos : ∀ o ∈ os, 2 ≤ o.length) (h : Inside e ctx work) :
      Inside e ((c, as) :: ctx) (⟨ps, os, ds⟩ :: work)

/-- The parts that are left to match are not tested. -/
def framesUntested : WorkStack → Bool
  | x :: y :: work => argsUntested x.pats && framesUntested (y :: work)
  | _ => true

/-- Nothing is known of the parts that are left to match. -/
def Fresh : WorkStack → Prop
  | x :: y :: work => (∀ d ∈ x.dscs, d = .neg .empty) ∧ Fresh (y :: work)
  | _ => True

section Clause

variable {e : Option Nat} {rest : List SwitchClause} {d0 d1 : TermDesc} {o : Path}
  {ps : List SimplePat} {os : List Path} {ds : List TermDesc} {w : PatOrWhere}

theorem Inside.tail (h : Inside e ctx (⟨p :: ps, obj :: os, dsc :: ds⟩ :: work)) (d : TermDesc) :
    FromPats p ∧ 2 ≤ obj.length ∧ Inside e ctx (⟨ps, os, ds⟩ :: work) ∧
      Inside e (Tcpat.augment ctx d) (⟨ps, os, ds⟩ :: work) := by
  cases h with
  | value hps hos hq ho =>
    obtain ⟨hobj, hos⟩ := List.forall_mem_cons.1 hos
    exact ⟨hps.1, hobj, .value hps.2 hos hq ho, .value hps.2 hos hq ho⟩
  | part hps hos h =>
    obtain ⟨hobj, hos⟩ := List.forall_mem_cons.1 hos
    exact ⟨hps.1, hobj, .part hps.2 hos h, .part hps.2 hos h⟩

theorem Inside.augment (h : Inside e ctx work) (d : TermDesc) :
    Inside e (Tcpat.augment ctx d) work := by
  cases h with
  | value hps hos hq ho => exact .value hps hos hq ho
  | part hps hos h => exact .part hps hos h

theorem Inside.exists_cons (h : Inside e ctx work) : ∃ x work', work = x :: work' := by
  cases h with
  | value | part => exact ⟨_, _, rfl⟩

theorem Inside.frames {x : WorkFrame} (h : Inside e ctx (x :: work)) :
    ∃ y work', work = y :: work' := by
  cases h with
  | value => exact ⟨_, _, rfl⟩
  | part _ _ h => exact h.exists_cons

/-- The arguments of a constructor are parts of the part. -/
theorem Inside.args {args : List SimplePat} {os' : List Path} (h : Inside e ctx work)
    (hargs : ArgsFromPats args) (hobj : 1 ≤ obj.length) (hos : getoargs c obj = some os')
    (ds' : List TermDesc) : Inside e ((c, []) :: ctx) (⟨args, os', ds'⟩ :: work) := by
  refine .part hargs (fun o ho => ?_) h
  have := length_of_getoargs hos o ho
  omega

/-- If a part does not match, the constructor of the value is known. -/
theorem Inside.rootDesc {d : TermDesc} (h : Inside e ctx work)
    (hd : buildDesc ctx dsc work = some d) : RootDesc rest d := by
  induction h generalizing dsc with
  | value =>
    cases hd
    exact .inr ⟨_, _, _, rfl, nofun⟩
  | part _ _ _ ih => exact ih hd

variable (hrest : ∀ d t, RootDesc rest d → orMatch d rules = some t → WhereAlone n t) (hk : k < n)

include hrest hk

/-- The where-clause itself, with the description of the value. -/
theorem andMatch_place (hq : WherePat e q) (ho : o.length = 1)
    (hd0 : e.isSome = true → ∀ cs, d0 = .neg cs → whereApart cs rest = true)
    (ht : andMatch [(tupleCon 2 w, [d0])] [⟨[q], [o], [d1]⟩] k rules = some t) :
    WhereAlone n t ∧ (startsWhere t = true → e.isSome = true) := by
  -- behind the where-clause is the right-hand side
  have hdone : ∀ {ctx : Context} {ds : List TermDesc} {t : Decision Nat},
      andMatch ctx [⟨[], [], ds⟩] k rules = some t → t = .success k := by
    intro ctx ds t h
    obtain ⟨-, _, -, h⟩ := andMatch_done h
    rw [andMatch] at h
    cases h
    rfl
  rw [andMatch] at ht
  rcases hq with ⟨-, rfl⟩ | ⟨he, i, w', rfl⟩
  · rw [matchPat] at ht
    obtain rfl := hdone ht
    exact ⟨hk, nofun⟩
  · refine ⟨?_, fun _ => he⟩
    have hroot : ∀ d, RootDesc rest (.pos (tupleCon 2 w) [d0, d]) := fun d =>
      .inr ⟨w, d0, d, rfl, hd0 he⟩
    rw [matchPat] at ht
    cases hstatic : staticMatch (intCon i (.whereClause w')) d1 with
    | yes =>
      simp only [hstatic, bind_eq_some_iff] at ht
      obtain ⟨os', hos, ht⟩ := ht
      cases hos
      obtain ⟨-, _, -, ht⟩ := andMatch_done ht
      obtain rfl := hdone ht
      exact hk
    | no =>
      simp only [hstatic, bind_eq_some_iff] at ht
      obtain ⟨d, hd, ht⟩ := ht
      cases hd
      exact hrest _ t (hroot d1) ht
    | maybe =>
      simp only [hstatic, bind_eq_some_iff] at ht
      obtain ⟨os', hos, s, hs, d', -, d, hd, f, hf, ht⟩ := ht
      obtain ⟨test, -, rfl⟩ := Option.map_eq_some_iff.1 ht
      cases hos
      cases hd
      obtain ⟨-, _, -, hs⟩ := andMatch_done hs
      obtain rfl := hdone hs
      exact .addTest_where rfl ho hk (hrest _ f (hroot d') hf)

mutual

/-- In the parts of the value. If nothing is known of them, a where-test comes first only if they
are not tested. -/
theorem andMatch_inside (ctx : Context) (work : WorkStack) (t : Decision Nat)
    (h : Inside e ctx work) (ht : andMatch ctx work k rules = some t) : WhereAlone n t ∧
      (Fresh work → startsWhere t = true → framesUntested work = true ∧ e.isSome = true) := by
  match work with
  | [] => cases h
  | ⟨[], [], ds⟩ :: work =>
    obtain ⟨-, ctx', hnorm, ht⟩ := andMatch_done ht
    cases h with
    | value _ _ hq ho =>
      cases hnorm
      obtain ⟨halone, hwhere⟩ := andMatch_place hrest hk hq ho (fun _ _ h => by cases h) ht
      exact ⟨halone, fun _ hstarts => ⟨rfl, hwhere hstarts⟩⟩
    | part _ _ h =>
      cases hnorm
      obtain ⟨halone, hwhere⟩ := andMatch_inside _ work t (h.augment _) ht
      obtain ⟨y, work, rfl⟩ := h.exists_cons
      exact ⟨halone, fun hfresh hstarts => hwhere hfresh.2 hstarts⟩
  | ⟨p :: ps, o :: os, d :: ds⟩ :: work =>
    rw [andMatch] at ht
    obtain ⟨halone, hwhere⟩ := matchPat_inside p o d ctx ps os ds work t h ht
    refine ⟨halone, fun hfresh hstarts => ?_⟩
    obtain ⟨y, work, rfl⟩ := h.frames
    obtain ⟨hd, hds⟩ := List.forall_mem_cons.1 hfresh.1
    obtain ⟨hp, hframes, he⟩ := hwhere hd ⟨hds, hfresh.2⟩ hstarts
    refine ⟨?_, he⟩
    rw [framesUntested, Bool.and_eq_true] at hframes ⊢
    exact ⟨Bool.and_eq_true_iff.2 ⟨hp, hframes.1⟩, hframes.2⟩
  | ⟨[], _ :: _, _⟩ :: _ | ⟨_ :: _, [], _⟩ :: _ | ⟨_ :: _, _ :: _, []⟩ :: _ => simp [andMatch] at ht
termination_by 2 * workSize work + 1
decreasing_by
  all_goals simp only [workSize, sizes]
  all_goals omega

theorem matchPat_inside (p : SimplePat) (obj : Path) (dsc : TermDesc) (ctx : Context)
    (ps : List SimplePat) (os : List Path) (ds : List TermDesc) (work : WorkStack)
    (t : Decision Nat) (h : Inside e ctx (⟨p :: ps, obj :: os, dsc :: ds⟩ :: work))
    (ht : matchPat p obj dsc ctx (⟨ps, os, ds⟩ :: work) k rules = some t) : WhereAlone n t ∧
      (dsc = .neg .empty → Fresh (⟨ps, os, ds⟩ :: work) → startsWhere t = true →
        untested p = true ∧ framesUntested (⟨ps, os, ds⟩ :: work) = true ∧ e.isSome = true) := by
  obtain ⟨hp, hobj, hinside, haugment⟩ := h.tail dsc
  match p with
  | .any =>
    rw [matchPat] at ht
    obtain ⟨halone, hwhere⟩ := andMatch_inside _ _ t haugment ht
    exact ⟨halone, fun _ hfresh hstarts => ⟨rfl, hwhere hfresh hstarts⟩⟩
  | .con c args =>
    have hargs : ∀ os', getoargs c obj = some os' → Inside e ((c, []) :: ctx)
        (⟨args, os', getdargs c dsc⟩ :: ⟨ps, os, ds⟩ :: work) :=
      fun os' hos => hinside.args hp.2 (Nat.le_of_succ_le hobj) hos _
    rw [matchPat] at ht
    cases hstatic : staticMatch c dsc with
    | yes =>
      simp only [hstatic, bind_eq_some_iff] at ht
      obtain ⟨os', hos, ht⟩ := ht
      obtain ⟨halone, hwhere⟩ := andMatch_inside _ _ t (hargs os' hos) ht
      refine ⟨halone, ?_⟩
      rintro rfl hfresh hstarts
      obtain ⟨hframes, he⟩ := hwhere ⟨fun d hd => List.eq_of_mem_replicate hd, hfresh⟩ hstarts
      rw [framesUntested, Bool.and_eq_true] at hframes
      refine ⟨?_, hframes.2, he⟩
      rw [untested, Bool.and_eq_true]
      exact ⟨decide_eq_true hstatic, hframes.1⟩
    | no =>
      simp only [hstatic, bind_eq_some_iff] at ht
      obtain ⟨d, hd, ht⟩ := ht
      refine ⟨hrest d t (hinside.rootDesc hd) ht, ?_⟩
      rintro rfl
      exact absurd hstatic (staticMatch_empty c)
    | maybe =>
      simp only [hstatic, bind_eq_some_iff] at ht
      obtain ⟨os', hos, s, hs, dsc', -, d, hd, f, hf, ht⟩ := ht
      obtain ⟨test, -, rfl⟩ := Option.map_eq_some_iff.1 ht
      have hs' := (andMatch_inside _ _ s (hargs os' hos) hs).1
      have hf' := hrest d f (hinside.rootDesc hd) hf
      obtain ⟨halone, hnone⟩ := hs'.addTest_pattern hp.1 (.inl hobj) hf'
      exact ⟨halone, fun _ _ hstarts => absurd (hnone.symm.trans hstarts) Bool.false_ne_true⟩
termination_by 2 * (p.size + workSize (⟨ps, os, ds⟩ :: work))
decreasing_by
  all_goals simp only [workSize, SimplePat.size]
  all_goals omega

end

/-- The pattern of a clause. A where-test comes first only if the value is not tested before it. -/
theorem matchPat_start {swc : SwitchClause} {o' : Path} (hp : FromPats swc.pattern)
    (hq : WherePat swc.whereClause q) (ho : o.length = 1) (ho' : o'.length = 1)
    (hd0 : ∀ cs, d0 = .neg cs → whereApart cs (swc :: rest) = true)
    (hroot : ∀ d t cs d1, d = .pos (tupleCon 2 w) [.neg cs, d1] → whereApart cs rest = true →
      orMatch d rules = some t → startsWhere t = true → startsWithWhere cs rest = true)
    (ht : matchPat swc.pattern o d0 [(tupleCon 2 w, [])] [⟨[q], [o'], [d1]⟩] k rules = some t) :
    WhereAlone n t ∧ ∀ cs, d0 = .neg cs → startsWhere t = true →
      startsWithWhere cs (swc :: rest) = true := by
  obtain ⟨p, e⟩ := swc
  match p with
  | .any =>
    rw [matchPat] at ht
    have hapart : e.isSome = true → ∀ cs, d0 = .neg cs → whereApart cs rest = true := by
      intro he cs hcs
      obtain ⟨x, rfl⟩ := Option.isSome_iff_exists.1 he
      simpa [whereApart] using hd0 cs hcs
    obtain ⟨halone, hwhere⟩ := andMatch_place hrest hk hq ho' hapart ht
    exact ⟨halone, fun cs _ hstarts => hwhere hstarts⟩
  | .con c args =>
    have hargs : ∀ os', getoargs c o = some os' → Inside e ((c, []) :: [(tupleCon 2 w, [])])
        (⟨args, os', getdargs c d0⟩ :: [⟨[q], [o'], [d1]⟩]) := by
      intro os' hos
      refine .value hp.2 (fun x hx => ?_) hq ho'
      have := length_of_getoargs hos x hx
      omega
    rw [matchPat] at ht
    cases hstatic : staticMatch c d0 with
    | yes =>
      simp only [hstatic, bind_eq_some_iff] at ht
      obtain ⟨os', hos, ht⟩ := ht
      obtain ⟨halone, hwhere⟩ := andMatch_inside hrest hk _ _ t (hargs os' hos) ht
      refine ⟨halone, ?_⟩
      rintro cs rfl hstarts
      obtain ⟨hframes, he⟩ := hwhere ⟨fun d hd => List.eq_of_mem_replicate hd, trivial⟩ hstarts
      rw [framesUntested, Bool.and_eq_true] at hframes
      simp only [startsWithWhere, hstatic, hframes.1, he, Bool.and_self]
    | no =>
      simp only [hstatic, bind_eq_some_iff] at ht
      obtain ⟨d, hd, ht⟩ := ht
      cases hd
      have hapart : ∀ cs, d0 = .neg cs → whereApart cs rest = true := by
        rintro cs rfl
        simpa only [whereApart, hstatic] using hd0 cs rfl
      refine ⟨hrest _ t (.inr ⟨w, d0, d1, rfl, hapart⟩) ht, ?_⟩
      rintro cs rfl hstarts
      simp only [startsWithWhere, hstatic]
      exact hroot _ t cs d1 rfl (hapart cs rfl) ht hstarts
    | maybe =>
      simp only [hstatic, bind_eq_some_iff] at ht
      obtain ⟨os', hos, s, hs, dsc', hneg, d, hd, f, hf, ht⟩ := ht
      obtain ⟨test, -, rfl⟩ := Option.map_eq_some_iff.1 ht
      cases d0 with
      | pos => cases hneg
      | neg cs =>
        cases hneg
        cases hd
        -- the tree of the later clauses does not start with a where-test
        have hboth := hd0 cs rfl
        simp only [whereApart, hstatic, Bool.and_eq_true, Bool.not_eq_true'] at hboth
        have hf' := hrest _ f (.inr ⟨w, _, d1, rfl, fun cs' h => by cases h; exact hboth.2⟩) hf
        have hnot : startsWhere f = false := by
          rw [← Bool.not_eq_true]
          intro hstarts
          have := hroot _ f _ d1 rfl hboth.2 hf hstarts
          exact absurd (hboth.1.symm.trans this) Bool.false_ne_true
        have hs' := (andMatch_inside hrest hk _ _ s (hargs os' hos) hs).1
        obtain ⟨halone, hnone⟩ := hs'.addTest_pattern hp.1 (.inr hnot) hf'
        exact ⟨halone, fun _ _ hstarts => absurd (hnone.symm.trans hstarts) Bool.false_ne_true⟩

end Clause

/-! ## The clauses of a switch -/

/-- The tree of clauses that are apart, and what it starts with. -/
theorem orMatch_whereAlone (hrules : RulesFor n swcs rules) (hdsc : RootDesc swcs dsc)
    (ht : orMatch dsc rules = some t) : WhereAlone n t ∧
      ∀ w cs d1, dsc = .pos (tupleCon 2 w) [.neg cs, d1] → startsWhere t = true →
        startsWithWhere cs swcs = true := by
  induction hrules generalizing dsc t with
  | nil =>
    rw [orMatch] at ht
    cases ht
    exact ⟨trivial, nofun⟩
  | @cons swc swcs rules k w q hp hq hk _ ih =>
    -- what is known of the two components
    obtain ⟨d0, d1, hstatic, hargs, hd0, hdsc'⟩ : ∃ d0 d1,
        staticMatch (tupleCon 2 (.whereClause w)) dsc = .yes ∧
        getdargs (tupleCon 2 (.whereClause w)) dsc = [d0, d1] ∧
        (∀ cs, d0 = .neg cs → whereApart cs (swc :: swcs) = true) ∧
        ∀ w' cs d1, dsc = .pos (tupleCon 2 w') [.neg cs, d1] → d0 = .neg cs := by
      rcases hdsc with ⟨rfl, hapart⟩ | ⟨w', d0, d1, rfl, hapart⟩
      · exact ⟨.neg .empty, .neg .empty, rfl, rfl, fun cs h => by cases h; exact hapart, nofun⟩
      · refine ⟨d0, d1, ?_, rfl, hapart, fun _ _ _ h => by cases h; rfl⟩
        simp [staticMatch, compareCon, tupleCon, strcmp]
    rw [orMatch, matchPat, hstatic] at ht
    simp only [hargs, bind_eq_some_iff] at ht
    obtain ⟨os, hos, ht⟩ := ht
    obtain rfl : [[⟨tupleCon 2 (.whereClause w), 0⟩], [⟨tupleCon 2 (.whereClause w), 1⟩]] = os :=
      Option.some.inj hos
    rw [andMatch] at ht
    obtain ⟨halone, hwhere⟩ := matchPat_start (fun d t hd ht => (ih hd ht).1) hk hp hq rfl rfl hd0
      (fun d t cs d1 hd hapart ht => (ih (.inr ⟨_, _, _, hd, fun _ h => by cases h; exact hapart⟩)
        ht).2 _ cs d1 hd) ht
    exact ⟨halone, fun w' cs d1 hd => hwhere cs (hdsc' w' cs d1 hd)⟩

theorem rulesFor_getMatches (hpats : ∀ c ∈ swcs, FromPats c.pattern) (ctr : Nat)
    (hn : k + swcs.length ≤ n) : RulesFor n swcs (getMatches ctr k swcs) := by
  induction swcs generalizing k ctr with
  | nil => exact .nil
  | cons c swcs ih =>
    obtain ⟨hc, hpats⟩ := List.forall_mem_cons.1 hpats
    rw [List.length_cons] at hn
    cases hwhere : c.whereClause with
    | none =>
      simp only [getMatches, getMatch, hwhere]
      exact .cons hc (.inl ⟨hwhere, rfl⟩) (by omega) (ih hpats _ (by omega))
    | some e =>
      simp only [getMatches, getMatch, hwhere]
      exact .cons hc (.inr ⟨by rw [hwhere]; rfl, _, _, rfl⟩) (by omega) (ih hpats _ (by omega))

/-- If no test of the value is followed by clauses that start with a where-clause, then every
where-test of the tree is alone before `Success`, and the tree is compiled without an internal
error. -/
theorem whereAlone_matchCompile (hpats : ∀ c ∈ swcs, FromPats c.pattern)
    (hapart : whereApart .empty swcs = true)
    (ht : matchCompile (getMatches 0 0 swcs) = some t) :
    WhereAlone swcs.length t ∧ ∃ r, compileDecisionTree swcs.length t [] = some r := by
  have hrules : RulesFor swcs.length swcs (getMatches 0 0 swcs) :=
    rulesFor_getMatches hpats 0 (Nat.zero_add _).le
  have halone := (orMatch_whereAlone hrules (.inl ⟨rfl, hapart⟩) ht).1
  exact ⟨halone, halone.compile_isSome []⟩

/-- The clauses `1`, `2 && e` and `_`. -/
def laterSwitch : List SwitchClause :=
  [⟨intPat 1, none⟩, ⟨intPat 2, some 0⟩, ⟨.any, none⟩]

/-- The clauses `1`, `_ && e` and `_`. -/
def intSwitch : List SwitchClause :=
  [⟨intPat 1, none⟩, ⟨.any, some 0⟩, ⟨.any, none⟩]

/-- The where-test behind the test for `2` is not put into the switch for `1`. -/
theorem whereAlone_laterSwitch : ∃ t, matchCompile (getMatches 0 0 laterSwitch) = some t ∧
    WhereAlone 3 t ∧ ∃ r, compileDecisionTree 3 t [] = some r := by
  have hsome : (matchCompile (getMatches 0 0 laterSwitch)).isSome = true := by decide +kernel
  obtain ⟨t, ht⟩ := Option.isSome_iff_exists.1 hsome
  refine ⟨t, ht, whereAlone_matchCompile ?_ (by decide) ht⟩
  simp [laterSwitch, intPat, FromPats, ArgsFromPats, intCon, PatOrWhere.isPattern]

/-- The tests of the switch at the root of a tree. -/
def rootTests : Decision Nat → List PatTest
  | .switchDec _ switches _ => tests switches
  | _ => []

/-- On `1`, `_ && e` and `_` one switch of the tree has the test for `1` and the where-test, and
`compile_decision_tree` ends in an internal error. -/
theorem intSwitch_not_whereAlone : (matchCompile (getMatches 0 0 intSwitch)).map rootTests =
    some [.eqConst, .whereTest (some 0)] ∧ compileSwitch intSwitch = none := by
  decide +kernel

end ConcurrentCyclone.Toc
