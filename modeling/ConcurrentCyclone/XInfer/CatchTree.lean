import Mathlib.Data.List.Nodup

/-!
# Decision trees of catch blocks

A `try` block has a decision tree for its `catch` patterns: a switch over the constructor of the
exception, nested switches over its arguments, and a handler at each leaf; the handler
`throw exn`, which the compiler adds as a last case, throws the exception again. `analyze_tree`
collects the handlers below each constructor, and the constructors with a leaf that throws the
exception again. Constructors are the names by which `my_qvar_cmp` compares them.

The second part runs a tree on an exception (`Decision.run`). The leaves that `analyze_tree`
collects have the outcome of every exception whose constructor is tested, and nothing about the
others, which are left to the default handler (`root_run`, `root_leaves`).
-/

set_option autoImplicit false

namespace ConcurrentCyclone.XInfer.Exn

variable {Q T P H V : Type}

/-! ## The source -/

/-- The names of constructors, with `default_case_qvar` and `any_qvar`. -/
inductive Qvar (Q : Type) where
  | named (q : Q)
  | default
  | any
  deriving DecidableEq

/-- `pat_test_t`: the constructor of an exception, or another test. -/
inductive PatTest (Q T : Type) where
  | eqExtensibleDatatype (f : Q)
  | other (t : T)

mutual

/-- `datatype Decision`, with the path to the part that is tested. -/
inductive Decision (Q T P H : Type) where
  | failure
  | success (rhs : H)
  | switchDec (path : P) (cases : Cases Q T P H) (dflt : Decision Q T P H)

/-- The cases of a switch. -/
inductive Cases (Q T P H : Type) where
  | nil
  | cons (pt : PatTest Q T) (d : Decision Q T P H) (cases : Cases Q T P H)

end

/-- `catches_t` and `nocatches_t`: handlers below a constructor, and constructors that are thrown
again. -/
structure Leaves (Q H : Type) where
  catches : List (Qvar Q × H)
  nocatches : List (Qvar Q)

/-- The leaves of two parts of a tree. -/
def Leaves.append (a b : Leaves Q H) : Leaves Q H :=
  ⟨a.catches ++ b.catches, a.nocatches ++ b.nocatches⟩

/-- The constructor for which a case of a switch is analyzed: on the exception itself, the one that
is tested; below, the one it is about. -/
def caseQvar (n : Qvar Q) (pt : PatTest Q T) (depth : Nat) : Option (Qvar Q) :=
  if depth = 0 then
    match pt with
    | .eqExtensibleDatatype f => some (.named f)
    | .other _ => none
  else some n

mutual

/-- `analyze_tree`; `none` is its `env_err`. -/
def analyzeTree (isExnStmt : H → Bool) (n : Qvar Q) : Decision Q T P H → Nat → Option (Leaves Q H)
  | .failure, _ => none
  | .success rhs, depth =>
    if depth > 0 then
      if isExnStmt rhs then some ⟨[], [n]⟩ else some ⟨[(n, rhs)], []⟩
    else if isExnStmt rhs then some ⟨[], []⟩
    else some ⟨[(.default, rhs)], []⟩
  | .switchDec _ cases dflt, depth =>
    (analyzeCases isExnStmt n cases depth).bind fun a =>
      (analyzeTree isExnStmt n dflt depth).map a.append

/-- The loops of `analyze_tree` over the cases of a switch. -/
def analyzeCases (isExnStmt : H → Bool) (n : Qvar Q) :
    Cases Q T P H → Nat → Option (Leaves Q H)
  | .nil, _ => some ⟨[], []⟩
  | .cons pt d cases, depth =>
    (caseQvar n pt depth).bind fun m =>
      (analyzeTree isExnStmt m d 1).bind fun a =>
        (analyzeCases isExnStmt n cases depth).map a.append

end

/-! ## How a tree handles an exception -/

/-- What a block does with an exception. -/
inductive Outcome (H : Type) where
  | caught (h : H)
  | rethrown
  | failed

section Semantics

variable [DecidableEq Q] (isExnStmt : H → Bool) (con : V → Q) (passes : P → PatTest Q T → V → Bool)

/-- The test of a case: on the exception itself it is one of the constructor; below, the tests are
arbitrary. -/
def testHolds (path : P) (pt : PatTest Q T) (depth : Nat) (v : V) : Bool :=
  if depth = 0 then
    match pt with
    | .eqExtensibleDatatype f => con v = f
    | .other _ => false
  else passes path pt v

mutual

/-- Runs a tree on an exception. -/
def Decision.run : Decision Q T P H → Nat → V → Outcome H
  | .failure, _, _ => .failed
  | .success rhs, _, _ => if isExnStmt rhs then .rethrown else .caught rhs
  | .switchDec path cases dflt, depth, v =>
    match cases.select path depth v with
    | some o => o
    | none => dflt.run depth v

/-- The first case whose test holds. -/
def Cases.select (path : P) : Cases Q T P H → Nat → V → Option (Outcome H)
  | .nil, _, _ => none
  | .cons pt d cases, depth, v =>
    if testHolds con passes path pt depth v then some (d.run 1 v)
    else cases.select path depth v

end

end Semantics

/-- The default handler of a block: the handler for exceptions whose constructor is not tested. -/
def Decision.defaultHandler (isExnStmt : H → Bool) : Decision Q T P H → Option H
  | .failure => none
  | .success rhs => if isExnStmt rhs then none else some rhs
  | .switchDec _ _ dflt => dflt.defaultHandler isExnStmt

/-! ## The leaves of a tree -/

/-- The leaves tell the outcome of an exception of constructor `n`. -/
def Leaves.Covers (l : Leaves Q H) (n : Qvar Q) : Outcome H → Prop
  | .caught h => (n, h) ∈ l.catches
  | .rethrown => n ∈ l.nocatches
  | .failed => False

/-- The leaves have nothing about constructor `n`. -/
def Leaves.Omits (l : Leaves Q H) (n : Qvar Q) : Prop :=
  (∀ h, (n, h) ∉ l.catches) ∧ n ∉ l.nocatches

variable {a b : Leaves Q H} {o : Outcome H} {pt : PatTest Q T} {d : Decision Q T P H}

variable {n : Qvar Q}

theorem Leaves.Covers.append_left (h : a.Covers n o)
    (b : Leaves Q H) : (a.append b).Covers n o := by
  cases o with
  | caught | rethrown => exact List.mem_append_left _ h
  | failed => exact h

theorem Leaves.Covers.append_right
    (h : b.Covers n o) (a : Leaves Q H) : (a.append b).Covers n o := by
  cases o with
  | caught | rethrown => exact List.mem_append_right _ h
  | failed => exact h

theorem Leaves.Omits.append (ha : a.Omits n) (hb : b.Omits n) : (a.append b).Omits n := by
  simp_all [Leaves.Omits, Leaves.append]

theorem omits_nil (n : Qvar Q) : (⟨[], []⟩ : Leaves Q H).Omits n :=
  ⟨fun _ => List.not_mem_nil, List.not_mem_nil⟩

variable {cases : Cases Q T P H} {l : Leaves Q H}

variable {isExnStmt : H → Bool}

/-- The parts of the analysis of a switch, and of cases below a constructor. -/
theorem append_parts {x y : Option (Leaves Q H)} (h : (x.bind fun a => y.map a.append) = some l) :
    ∃ a b, x = some a ∧ y = some b ∧ l = a.append b := by
  obtain ⟨a, ha, h⟩ := Option.bind_eq_some_iff.1 h
  obtain ⟨b, hb, rfl⟩ := Option.map_eq_some_iff.1 h
  exact ⟨a, b, ha, hb, rfl⟩

/-- The parts of the analysis of cases on the constructor. -/
theorem analyzeCases_root
    (h : analyzeCases isExnStmt n (.cons pt d cases) 0 = some l) :
    ∃ f a b, pt = .eqExtensibleDatatype f ∧ analyzeTree isExnStmt (.named f) d 1 = some a ∧
      analyzeCases isExnStmt n cases 0 = some b ∧ l = a.append b := by
  obtain ⟨m, hm, h⟩ := Option.bind_eq_some_iff.1 h
  obtain ⟨a, b, ha, hb, rfl⟩ := append_parts h
  cases pt with
  | eqExtensibleDatatype f =>
    cases hm
    exact ⟨f, a, b, rfl, ha, hb, rfl⟩
  | other t => cases hm

section Below

variable (isExnStmt : H → Bool) (n : Qvar Q)

section Run

variable [DecidableEq Q] (con : V → Q) (passes : P → PatTest Q T → V → Bool)

mutual

/-- Below a constructor, the leaves have the outcome of every exception. -/
theorem covers_run (v : V) : ∀ (d : Decision Q T P H) {l : Leaves Q H},
    analyzeTree isExnStmt n d 1 = some l → l.Covers n (d.run isExnStmt con passes 1 v)
  | .failure, _, h => by cases h
  | .success rhs, _, h => by
    rw [analyzeTree, if_pos Nat.one_pos] at h
    rw [Decision.run]
    cases hcase : isExnStmt rhs with
    | true | false =>
      rw [hcase] at h
      cases h
      exact List.mem_singleton_self _
  | .switchDec path cases dflt, _, h => by
    obtain ⟨a, b, ha, hb, rfl⟩ := append_parts h
    rw [Decision.run]
    cases hselect : cases.select isExnStmt con passes path 1 v with
    | some o => exact (covers_select v path cases ha hselect).append_left b
    | none => exact (covers_run v dflt hb).append_right a

theorem covers_select (v : V) (path : P) : ∀ (cases : Cases Q T P H) {l : Leaves Q H}
    {o : Outcome H}, analyzeCases isExnStmt n cases 1 = some l →
    cases.select isExnStmt con passes path 1 v = some o → l.Covers n o
  | .nil, _, _, _, hselect => by cases hselect
  | .cons pt d cases, _, _, h, hselect => by
    obtain ⟨a, b, ha, hb, rfl⟩ := append_parts h
    rw [Cases.select] at hselect
    split at hselect
    · cases hselect
      exact (covers_run v d ha).append_left b
    · exact (covers_select v path cases hb hselect).append_right a

end

end Run

mutual

/-- Below a constructor, all leaves are for this constructor. -/
theorem below_leaves : ∀ (d : Decision Q T P H) {l : Leaves Q H},
    analyzeTree isExnStmt n d 1 = some l → ∀ m ≠ n, l.Omits m
  | .failure, _, h => by cases h
  | .success rhs, _, h => by
    rw [analyzeTree, if_pos Nat.one_pos] at h
    cases hcase : isExnStmt rhs with
    | true | false =>
      rw [hcase] at h
      cases h
      simp +contextual [Leaves.Omits]
  | .switchDec _ cases dflt, _, h => by
    obtain ⟨a, b, ha, hb, rfl⟩ := append_parts h
    exact fun m hm => (below_cases cases ha m hm).append (below_leaves dflt hb m hm)

theorem below_cases : ∀ (cases : Cases Q T P H) {l : Leaves Q H},
    analyzeCases isExnStmt n cases 1 = some l → ∀ m ≠ n, l.Omits m
  | .nil, _, h => by
    cases h
    exact fun m _ => omits_nil m
  | .cons _ d cases, _, h => by
    obtain ⟨a, b, ha, hb, rfl⟩ := append_parts h
    exact fun m hm => (below_leaves d ha m hm).append (below_cases cases hb m hm)

end

end Below

section Default

variable (isExnStmt : H → Bool)

/-- The cases on the constructor have nothing for the default. -/
theorem root_leaves_cases : ∀ (cases : Cases Q T P H) {l : Leaves Q H},
    analyzeCases isExnStmt .default cases 0 = some l → l.Omits .default
  | .nil, _, hrun => by
    cases hrun
    exact omits_nil _
  | .cons pt d cases, _, hrun => by
    obtain ⟨f, a, b, rfl, ha, hb, rfl⟩ := analyzeCases_root hrun
    have homits := below_leaves isExnStmt (.named f) d ha .default (by simp)
    exact homits.append (root_leaves_cases cases hb)

/-- The leaf for the default is the default handler. -/
theorem root_leaves : ∀ (d : Decision Q T P H) {l : Leaves Q H},
    analyzeTree isExnStmt .default d 0 = some l →
    ∀ h, (.default, h) ∈ l.catches ↔ d.defaultHandler isExnStmt = some h
  | .failure, _, hrun => by cases hrun
  | .success rhs, _, hrun => by
    rw [analyzeTree] at hrun
    rw [Decision.defaultHandler]
    cases hcase : isExnStmt rhs with
    | true | false =>
      rw [hcase] at hrun
      cases hrun
      exact fun h => by simp [@eq_comm _ h]
  | .switchDec _ cases dflt, _, hrun => by
    obtain ⟨a, b, ha, hb, rfl⟩ := append_parts hrun
    intro h
    have hcases := (root_leaves_cases isExnStmt cases ha).1 h
    rw [Decision.defaultHandler, ← root_leaves dflt hb h, Leaves.append, List.mem_append]
    exact or_iff_right hcases

end Default

section Root

variable [DecidableEq Q] (isExnStmt : H → Bool) (con : V → Q) (passes : P → PatTest Q T → V → Bool)

/-- The cases on the constructor: an exception whose constructor is tested has its outcome among the
leaves; the leaves have nothing about other exceptions. -/
theorem root_cases (v : V) (path : P) : ∀ (cases : Cases Q T P H) {l : Leaves Q H},
    analyzeCases isExnStmt .default cases 0 = some l →
    (∀ o, cases.select isExnStmt con passes path 0 v = some o → l.Covers (.named (con v)) o) ∧
      (cases.select isExnStmt con passes path 0 v = none → l.Omits (.named (con v)))
  | .nil, _, h => by
    cases h
    refine ⟨fun o ho => ?_, fun _ => omits_nil _⟩
    cases ho
  | .cons pt d cases, _, h => by
    obtain ⟨f, a, b, rfl, ha, hb, rfl⟩ := analyzeCases_root h
    obtain ⟨hcovers, homits⟩ := root_cases v path cases hb
    have htest : testHolds con passes path (.eqExtensibleDatatype f) 0 v = decide (con v = f) :=
      rfl
    simp only [Cases.select, htest, decide_eq_true_eq]
    split_ifs with hf
    · subst hf
      refine ⟨fun o ho => ?_, fun hnone => by cases hnone⟩
      cases ho
      exact (covers_run isExnStmt _ con passes v d ha).append_left b
    · refine ⟨fun o ho => (hcovers o ho).append_right a, fun hnone => ?_⟩
      have hother := below_leaves isExnStmt (.named f) d ha (.named (con v)) (by simp [hf])
      exact hother.append (homits hnone)

/-- A block: the outcome of an exception is among the leaves of its constructor, or its constructor
is not tested and it is left to the default. -/
theorem root_run (v : V) : ∀ (d : Decision Q T P H) {l : Leaves Q H},
    analyzeTree isExnStmt .default d 0 = some l →
    l.Covers (.named (con v)) (d.run isExnStmt con passes 0 v) ∨
      (l.Omits (.named (con v)) ∧ d.run isExnStmt con passes 0 v =
        match d.defaultHandler isExnStmt with
        | some h => .caught h
        | none => .rethrown)
  | .failure, _, h => by cases h
  | .success rhs, _, h => by
    rw [analyzeTree] at h
    rw [Decision.run, Decision.defaultHandler]
    cases hcase : isExnStmt rhs with
    | true | false =>
      rw [hcase] at h
      cases h
      exact .inr ⟨by simp [Leaves.Omits], rfl⟩
  | .switchDec path cases dflt, _, h => by
    obtain ⟨a, b, ha, hb, rfl⟩ := append_parts h
    obtain ⟨hcovers, homits⟩ := root_cases isExnStmt con passes v path cases ha
    rw [Decision.run]
    cases hselect : cases.select isExnStmt con passes path 0 v with
    | some o => exact .inl ((hcovers o hselect).append_left b)
    | none =>
      rcases root_run v dflt hb with hrun | ⟨hrest, hrun⟩
      · exact .inl (hrun.append_right a)
      · exact .inr ⟨(homits hselect).append hrest, hrun⟩

end Root

end ConcurrentCyclone.XInfer.Exn
