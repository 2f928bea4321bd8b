import ConcurrentCyclone.Lib.Set
import ConcurrentCyclone.Runtime.CInt

/-!
# The match compiler

The compilation of the rules of a `switch` to a decision tree (`src/tcpat.cyc`, `match_compile`).
A rule is a simple pattern and a right-hand side. `match`, `and_match` and `or_match` walk over the
patterns with a description of what is known about the value: a term description says that a value
starts with a constructor, or with none of a set of constructors. A test is put into the tree only
where the description does not decide it.

A call of `impos` ends the compiler: the functions return `none`.
-/

set_option autoImplicit false

namespace ConcurrentCyclone.Tcpat

open Lib ConcurrentCyclone.Runtime

universe u

/-! ## Constructors and simple patterns -/

/-- `union Name_value`. -/
inductive NameValue where
  | name (s : String)
  | int (i : Int)
  deriving DecidableEq

/-- The form of the pattern a constructor was made from. -/
inductive OrigPat where
  | null
  | int
  | char
  | float
  | enum
  | anonEnum
  | pointer (nullable : Bool)
  | tuple
  /-- A datatype pattern: whether the datatype is extensible, its declaration and its field. -/
  | datatype (extensible : Bool) (tud tuf : Nat)
  /-- A pattern for a field of a tagged union. -/
  | union (f : String)
  /-- A struct pattern, with the names of the fields. -/
  | struct (fields : List String)
  deriving DecidableEq

/-- `union PatOrWhere`; a where-clause is an optional expression. -/
inductive PatOrWhere where
  | pattern (p : OrigPat)
  | whereClause (e : Option Nat)
  deriving DecidableEq

/-- `struct Con_s`. -/
structure Con where
  name : NameValue
  arity : Nat
  span : Option Nat
  origPat : PatOrWhere
  deriving DecidableEq

/-- `Simple_pat`. -/
inductive SimplePat where
  | any
  | con (c : Con) (args : List SimplePat)

/-- `int_con`. -/
def intCon (i : Int) (p : PatOrWhere) : Con := ⟨.int i, 0, none, p⟩

/-- `tuple_con`. -/
def tupleCon (n : Nat) (p : PatOrWhere) : Con := ⟨.name "$", n, some 1, p⟩

/-- `strcmp`, of which only the sign matters. -/
def strcmp (n₁ n₂ : String) : Int := if n₁ < n₂ then -1 else if n₁ = n₂ then 0 else 1

/-- `compare_con`. -/
def compareCon (c₁ c₂ : Con) : Int :=
  match c₁.name, c₂.name with
  | .name n₁, .name n₂ => strcmp n₁ n₂
  | .name _, .int _ => -1
  | .int _, .name _ => 1
  | .int i₁, .int i₂ => int32 (i₁ - i₂)

/-! ## Descriptions of values, contexts and work stacks -/

/-- `Term_desc`. -/
inductive TermDesc where
  | pos (c : Con) (args : List TermDesc)
  | neg (cs : CSet Con)

/-- `access_t`. -/
inductive Access where
  | dummy
  | deref
  | tupleField (i : Nat)
  | datatypeField (tud tuf i : Nat)
  | aggrField (tagged : Bool) (f : String)
  deriving DecidableEq

/-- A step of a path: argument `idx` of the constructor `con` (`struct PathNode`, whose access is
`get_access` of the two). -/
structure PathNode where
  con : Con
  idx : Nat
  deriving DecidableEq

/-- `path_t`, the last step first. -/
abbrev Path := List PathNode

/-- `context_t`. -/
abbrev Context := List (Con × List TermDesc)

/-- `work_stack_frame_t`. -/
structure WorkFrame where
  pats : List SimplePat
  objs : List Path
  dscs : List TermDesc

/-- `work_stack_t`. -/
abbrev WorkStack := List WorkFrame

/-- `get_access`; `none` for a pattern without arguments. -/
def getAccess : PatOrWhere → Nat → Option Access
  | .whereClause _, _ => some .dummy
  | .pattern (.pointer _), i => if i ≠ 0 then none else some .deref
  | .pattern .tuple, i => some (.tupleField i)
  | .pattern (.datatype _ tud tuf), i => some (.datatypeField tud tuf i)
  | .pattern (.union f), _ => some (.aggrField true f)
  | .pattern (.struct fields), i => (fields[i]?).map (.aggrField false)
  | .pattern _, _ => none

/-- `getoarg`. -/
def getoarg (obj : Path) (pcon : Con) (i : Nat) : Option Path :=
  (getAccess pcon.origPat i).map fun _ => ⟨pcon, i⟩ :: obj

/-- `getoargs`. -/
def getoargs (pcon : Con) (obj : Path) : Option (List Path) :=
  (List.range pcon.arity).mapM (getoarg obj pcon)

/-- `getdargs`. -/
def getdargs (pcon : Con) : TermDesc → List TermDesc
  | .neg _ => List.replicate pcon.arity (.neg .empty)
  | .pos _ dargs => dargs

/-- `add_neg`. -/
def addNeg : TermDesc → Con → Option TermDesc
  | .neg cs, c => some (.neg (cs.insert compareCon c))
  | .pos _ _, _ => none

/-- `enum Answer`. -/
inductive Answer where
  | yes
  | no
  | maybe
  deriving DecidableEq

/-- `static_match`. -/
def staticMatch (c : Con) : TermDesc → Answer
  | .pos c₂ _ => if compareCon c c₂ = 0 then .yes else .no
  | .neg cs =>
    if cs.member compareCon c then .no
    else if c.span = some (cs.cardinality + 1) then .yes
    else .maybe

/-- `augment`. -/
def augment (ctxt : Context) (dsc : TermDesc) : Context :=
  match ctxt with
  | [] => []
  | (c, args) :: rest => (c, dsc :: args) :: rest

/-- `norm_context`. -/
def normContext : Context → Option Context
  | [] => none
  | (c, args) :: rest => some (augment rest (.pos c args.reverse))

/-- `build_desc`. -/
def buildDesc : Context → TermDesc → WorkStack → Option TermDesc
  | [], dsc, [] => some dsc
  | (c, args) :: rest, dsc, w :: work =>
    buildDesc rest (.pos c (args.reverse ++ dsc :: w.dscs)) work
  | _, _, _ => none

/-! ## Decision trees -/

mutual

/-- `Decision`. -/
inductive Decision (ρ : Type u) where
  | failure (td : TermDesc)
  | success (rhs : ρ)
  | switchDec (path : Path) (clauses : Clauses ρ) (dflt : Decision ρ)

/-- The clauses of a `SwitchDec`; the test of a clause is `getPatTest` of its constructor. -/
inductive Clauses (ρ : Type u) where
  | nil
  | cons (test : Con) (d : Decision ρ) (rest : Clauses ρ)

end

/-- `same_access`. -/
def sameAccess : Option Access → Option Access → Bool
  | some .dummy, some .dummy => true
  | some .deref, some .deref => true
  | some (.tupleField i₁), some (.tupleField i₂) => i₁ == i₂
  | some (.datatypeField _ df₁ i₁), some (.datatypeField _ df₂ i₂) => df₁ == df₂ && i₁ == i₂
  | some (.aggrField b₁ f₁), some (.aggrField b₂ f₂) => b₁ == b₂ && f₁ == f₂
  | _, _ => false

/-- The access of a step. -/
def PathNode.access (n : PathNode) : Option Access := getAccess n.con.origPat n.idx

/-- `same_path`. -/
def samePath : Path → Path → Bool
  | [], [] => true
  | n₁ :: p₁, n₂ :: p₂ => sameAccess n₁.access n₂.access && samePath p₁ p₂
  | _, _ => false

/-- `tagcheck(con->orig_pat.pattern)`. -/
def PatOrWhere.isPattern : PatOrWhere → Bool
  | .pattern _ => true
  | .whereClause _ => false

/-- `PatTest`; what a test compares with is in the constructor it was made for. -/
inductive PatTest where
  | whereTest (e : Option Nat)
  | eqNull
  | neqNull
  | eqEnum
  | eqAnonEnum
  | eqFloat
  | eqConst
  | eqDatatypeTag
  | eqTaggedUnion (f : String)
  | eqExtensibleDatatype
  deriving DecidableEq

/-- `get_pat_test`; `none` for a pattern that is not tested. -/
def getPatTest : PatOrWhere → Option PatTest
  | .whereClause e => some (.whereTest e)
  | .pattern .null => some .eqNull
  | .pattern .int => some .eqConst
  | .pattern .char => some .eqConst
  | .pattern .float => some .eqFloat
  | .pattern .enum => some .eqEnum
  | .pattern .anonEnum => some .eqAnonEnum
  | .pattern (.pointer nullable) => if nullable then some .neqNull else none
  | .pattern (.datatype extensible _ _) =>
    some (if extensible then .eqExtensibleDatatype else .eqDatatypeTag)
  | .pattern (.union f) => some (.eqTaggedUnion f)
  | .pattern (.struct _) => none
  | .pattern .tuple => none

section Compile

variable {ρ : Type u}

/-- The switch of `ifeq`. -/
def addTest (access : Path) (con : Con) (d₁ : Decision ρ) : Decision ρ → Decision ρ
  | .switchDec access₂ clauses dflt =>
    if samePath access access₂ && con.origPat.isPattern then
      .switchDec access₂ (.cons con d₁ clauses) dflt
    else .switchDec access (.cons con d₁ .nil) (.switchDec access₂ clauses dflt)
  | d₂ => .switchDec access (.cons con d₁ .nil) d₂

/-- `ifeq`. -/
def ifeq (access : Path) (con : Con) (d₁ d₂ : Decision ρ) : Option (Decision ρ) :=
  (getPatTest con.origPat).map fun _ => addTest access con d₁ d₂

mutual

/-- The size of a pattern. -/
def SimplePat.size : SimplePat → Nat
  | .any => 1
  | .con _ args => 2 + sizes args

/-- The size of a list of patterns. -/
def sizes : List SimplePat → Nat
  | [] => 0
  | p :: ps => p.size + sizes ps

end

/-- A bound for the steps of the compiler on a list of rules. -/
def rulesSize : List (SimplePat × ρ) → Nat
  | [] => 1
  | r :: rules => 2 + 2 * r.1.size + rulesSize rules

/-- The size of the patterns of a work stack. -/
def workSize : WorkStack → Nat
  | [] => 0
  | w :: work => 1 + sizes w.pats + workSize work

mutual

/-- `or_match`. -/
def orMatch (dsc : TermDesc) (allmrules : List (SimplePat × ρ)) : Option (Decision ρ) :=
  match allmrules with
  | [] => some (.failure dsc)
  | (pat₁, rhs₁) :: rulerest => matchPat pat₁ [] dsc [] [] rhs₁ rulerest
termination_by rulesSize allmrules
decreasing_by
  simp only [rulesSize, workSize]
  omega

/-- `and_match`. -/
def andMatch (ctx : Context) (work : WorkStack) (rhs : ρ) (rules : List (SimplePat × ρ)) :
    Option (Decision ρ) :=
  match work with
  | [] => some (.success rhs)
  | ⟨[], [], []⟩ :: workr => (normContext ctx).bind fun ctx' => andMatch ctx' workr rhs rules
  | ⟨pat₁ :: patr, obj₁ :: objr, dsc₁ :: dscr⟩ :: workr =>
    matchPat pat₁ obj₁ dsc₁ ctx (⟨patr, objr, dscr⟩ :: workr) rhs rules
  -- "malformed work frame"
  | _ :: _ => none
termination_by 2 * workSize work + 1 + rulesSize rules
decreasing_by
  all_goals simp only [workSize, sizes]
  all_goals omega

/-- `match`. -/
def matchPat (p : SimplePat) (obj : Path) (dsc : TermDesc) (ctx : Context) (work : WorkStack)
    (rhs : ρ) (rules : List (SimplePat × ρ)) : Option (Decision ρ) :=
  match p with
  | .any => andMatch (augment ctx dsc) work rhs rules
  | .con pcon pargs =>
    match staticMatch pcon dsc with
    | .yes =>
      (getoargs pcon obj).bind fun oargs =>
      andMatch ((pcon, []) :: ctx) (⟨pargs, oargs, getdargs pcon dsc⟩ :: work) rhs rules
    | .no => (buildDesc ctx dsc work).bind fun d => orMatch d rules
    | .maybe =>
      (getoargs pcon obj).bind fun oargs =>
      (andMatch ((pcon, []) :: ctx) (⟨pargs, oargs, getdargs pcon dsc⟩ :: work) rhs
        rules).bind fun s =>
      (addNeg dsc pcon).bind fun dsc' =>
      (buildDesc ctx dsc' work).bind fun d =>
      (orMatch d rules).bind fun f => ifeq obj pcon s f
termination_by 2 * (p.size + workSize work) + rulesSize rules
decreasing_by
  all_goals simp only [workSize, SimplePat.size]
  all_goals omega

end

/-- `match_compile`. -/
def matchCompile (allmrules : List (SimplePat × ρ)) : Option (Decision ρ) :=
  orMatch (.neg .empty) allmrules

/-! ## Comparisons of constructors -/

/-- The difference of the names is an `int`, if they are integers. -/
def Con.near (c c' : Con) : Bool :=
  match c.name, c'.name with
  | .int i, .int j => -2147483648 ≤ i - j && i - j < 2147483648
  | _, _ => true

/-- None of the comparisons overflows. -/
def AllNear (cmps : List (Con × Con)) : Prop := ∀ q ∈ cmps, q.1.near q.2 = true

/-- The comparisons with the constructors of a set: `static_match` looks for the constructor, and
`add_neg` inserts it if the answer was `Maybe`. -/
def conCmps (c : Con) : TermDesc → List (Con × Con)
  | .pos _ _ => []
  | .neg cs => CSet.memberCmps compareCon c cs.nodes ++
    if staticMatch c (.neg cs) = .maybe then CSet.insertCmps compareCon c cs.nodes else []

mutual

/-- The comparisons of `or_match`. -/
def orCmps (dsc : TermDesc) (allmrules : List (SimplePat × ρ)) : List (Con × Con) :=
  match allmrules with
  | [] => []
  | (pat₁, _) :: rulerest => matchCmps pat₁ [] dsc [] [] rulerest
termination_by rulesSize allmrules
decreasing_by
  simp only [rulesSize, workSize]
  omega

/-- The comparisons of `and_match`. -/
def andCmps (ctx : Context) (work : WorkStack) (rules : List (SimplePat × ρ)) : List (Con × Con) :=
  match work with
  | [] => []
  | ⟨[], [], []⟩ :: workr => (normContext ctx).elim [] fun ctx' => andCmps ctx' workr rules
  | ⟨pat₁ :: patr, obj₁ :: objr, dsc₁ :: dscr⟩ :: workr =>
    matchCmps pat₁ obj₁ dsc₁ ctx (⟨patr, objr, dscr⟩ :: workr) rules
  | _ :: _ => []
termination_by 2 * workSize work + 1 + rulesSize rules
decreasing_by
  all_goals simp only [workSize, sizes]
  all_goals omega

/-- The comparisons of `match`. -/
def matchCmps (p : SimplePat) (obj : Path) (dsc : TermDesc) (ctx : Context) (work : WorkStack)
    (rules : List (SimplePat × ρ)) : List (Con × Con) :=
  match p with
  | .any => andCmps (augment ctx dsc) work rules
  | .con pcon pargs =>
    let args := (getoargs pcon obj).elim [] fun oargs =>
      andCmps ((pcon, []) :: ctx) (⟨pargs, oargs, getdargs pcon dsc⟩ :: work) rules
    let rest := fun dsc => (buildDesc ctx dsc work).elim [] fun d => orCmps d rules
    conCmps pcon dsc ++
      match staticMatch pcon dsc with
      | .yes => args
      | .no => rest dsc
      | .maybe => args ++ (addNeg dsc pcon).elim [] rest
termination_by 2 * (p.size + workSize work) + rulesSize rules
decreasing_by
  all_goals simp only [workSize, SimplePat.size]
  all_goals omega

end

/-- The comparisons of `match_compile`. -/
def matchCompileCmps (allmrules : List (SimplePat × ρ)) : List (Con × Con) :=
  orCmps (.neg .empty) allmrules

/-! ## `check_exhaust_overlap` -/

/-- What `check_exhaust_overlap` has found: the first failure, which it reports, and the right-hand
sides that appear. -/
structure Found (ρ : Type u) where
  notExhaust : Option TermDesc
  appears : List ρ

mutual

/-- `check_exhaust_overlap`. -/
def checkExhaustOverlap : Decision ρ → Found ρ → Found ρ
  | .failure td, f => { f with notExhaust := f.notExhaust.or (some td) }
  | .success r, f => { f with appears := f.appears ++ [r] }
  | .switchDec _ clauses dflt, f => checkExhaustOverlap dflt (checkClauses clauses f)

/-- The loop over the clauses. -/
def checkClauses : Clauses ρ → Found ρ → Found ρ
  | .nil, f => f
  | .cons _ d rest, f => checkClauses rest (checkExhaustOverlap d f)

end

end Compile

end ConcurrentCyclone.Tcpat
