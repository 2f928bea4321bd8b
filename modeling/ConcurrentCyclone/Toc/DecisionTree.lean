import ConcurrentCyclone.Tcpat.Values

/-!
# The translation of a switch to C

A `switch` becomes match rules (`src/tcpat.cyc`, `get_match`), the rules a decision tree, and the
tree a C statement (`src/toc.cyc`, `compile_decision_tree`). A right-hand side can be at several
leaves of the tree. Its body is emitted once, behind a label, and the other leaves become `goto`s; a
flag for each clause says whether the body has been emitted.
-/

set_option autoImplicit false

namespace ConcurrentCyclone.Toc

open Tcpat

/-! ## From clauses to match rules -/

/-- `switch_clause_t`. -/
structure SwitchClause where
  pattern : SimplePat
  whereClause : Option Nat

/-- `get_match`, for clause `k`; a where-clause becomes an integer pattern beside the pattern of the
clause. -/
def getMatch (ctr k : Nat) (swc : SwitchClause) : (SimplePat × Nat) × Nat :=
  match swc.whereClause with
  | some e =>
    let w := PatOrWhere.whereClause (some e)
    ((.con (tupleCon 2 w) [swc.pattern, .con (intCon ctr w) []], k), ctr + 1)
  | none => ((.con (tupleCon 2 (.whereClause none)) [swc.pattern, .any], k), ctr)

/-- The match rules of the clauses, from clause `k` on. -/
def getMatches : Nat → Nat → List SwitchClause → List (SimplePat × Nat)
  | _, _, [] => []
  | ctr, k, swc :: swcs =>
    let m := getMatch ctr k swc
    m.1 :: getMatches m.2 (k + 1) swcs

/-! ## Statements -/

/-- The labels of a clause. -/
inductive Label where
  /-- Where the pattern variables are extracted. -/
  | init (k : Nat)
  /-- Where the body starts. -/
  | code (k : Nat)
  deriving DecidableEq

/-- Conditions; the path is that of a C expression. -/
inductive Cond where
  /-- The part at the path has the constructor. -/
  | test (p : Path) (c : Con)
  /-- The part at the path, as a condition. -/
  | value (p : Path)
  /-- A where-clause. -/
  | whereExp (e : Nat)

mutual

/-- The statements that are made for a decision tree. -/
inductive Stmt where
  | throwMatch
  /-- Extract the pattern variables of clause `k`. -/
  | extract (k : Nat)
  /-- The body of clause `k`, behind the declarations of its pattern variables. -/
  | body (k : Nat)
  | label (l : Label) (s : Stmt)
  | goto (l : Label)
  | seq (s₁ s₂ : Stmt)
  | ifThenElse (c : Cond) (s₁ s₂ : Stmt)
  | switch (p : Path) (cases : Cases) (dflt : Stmt)

/-- The cases of a `switch`. -/
inductive Cases where
  | nil
  | cons (c : Con) (s : Stmt) (rest : Cases)

end

/-! ## `compile_decision_tree` -/

/-- `compile_path`: dummy accesses are those of the tuple that `get_match` adds. -/
def compilePath (p : Path) : Path := p.filter fun n => n.access ≠ some .dummy

/-- `compile_pat_test`. -/
def compilePatTest (p : Path) (c : Con) : Cond :=
  match c.origPat with
  | .whereClause (some e) => .whereExp e
  | .whereClause none => .value p
  | .pattern _ => .test p c

/-- `TestKind`. -/
inductive TestKind where
  | otherTest
  | datatypeTagTest
  | whereTest (e : Nat)
  | taggedUnionTest (f : String)
  deriving DecidableEq

/-- The loop of `admits_switch`. -/
def admitsLoop : List PatTest → Nat → TestKind → Nat × TestKind
  | [], c, k => (c, k)
  | .eqEnum :: ss, c, k => admitsLoop ss (c + 1) k
  | .eqAnonEnum :: ss, c, k => admitsLoop ss (c + 1) k
  | .eqConst :: ss, c, k => admitsLoop ss (c + 1) k
  | .eqTaggedUnion f :: ss, c, k =>
    admitsLoop ss (c + 1) (if k = .otherTest then .taggedUnionTest f else k)
  | .eqDatatypeTag :: ss, c, _ => admitsLoop ss (c + 1) .datatypeTagTest
  | .whereTest (some e) :: _, _, _ => (0, .whereTest e)
  | _ :: _, _, k => (0, k)

/-- The tests of the clauses. -/
def tests : Clauses Nat → List PatTest
  | .nil => []
  | .cons c _ rest => (getPatTest c.origPat).toList ++ tests rest

/-- `admits_switch`. -/
def admitsSwitch (ss : List PatTest) : Nat × TestKind := admitsLoop ss 0 .otherTest

/-- The tests that `compile_pat_test_as_case` has a constant for. -/
def PatTest.asCase : PatTest → Bool
  | .eqEnum => true
  | .eqAnonEnum => true
  | .eqConst => true
  | .eqDatatypeTag => true
  | .eqTaggedUnion _ => true
  | _ => false

/-- The sequence of nested ifs. -/
def Cases.ifs (p : Path) (res : Stmt) : Cases → Stmt
  | .nil => res
  | .cons c s rest => .ifThenElse (compilePatTest p c) s (rest.ifs p res)

/-- The code of clause `k`, behind its first label. -/
def clauseCode (k : Nat) : Stmt := .seq (.extract k) (.label (.code k) (.body k))

/-- The case for `Success`; `n` is the number of clauses and `em` has those already emitted. -/
def compileSuccess (n k : Nat) (em : List Nat) : Option (Stmt × List Nat) :=
  if k < n then
    if k ∈ em then some (.goto (.init k), em) else some (.label (.init k) (clauseCode k), k :: em)
  else none

/-- The case for a where-clause, which has to be alone and to lead to `Success`. -/
def compileWhere (n e : Nat) (res : Stmt) (em : List Nat) :
    Clauses Nat → Option (Stmt × List Nat)
  | .cons _ (.success k) .nil =>
    if k < n then
      if k ∈ em then some (.goto (.init k), em)
      else
        some (.label (.init k) (.seq (.extract k)
          (.ifThenElse (.whereExp e) (.label (.code k) (.body k)) res)), k :: em)
    else none
  -- "bad where clause in match compiler"
  | _ => none

mutual

/-- `compile_decision_tree`; `none` for a call of `toc_impos`. -/
def compileDecisionTree (n : Nat) : Decision Nat → List Nat → Option (Stmt × List Nat)
  | .failure _, em => some (.throwMatch, em)
  | .success k, em => compileSuccess n k em
  | .switchDec path switches other, em =>
    (compileDecisionTree n other em).bind fun r =>
    let p := compilePath path
    let admits := admitsSwitch (tests switches).reverse
    if 1 < admits.1 then
      if (tests switches).all PatTest.asCase then
        (compileClauses n switches r.2).map fun cs => (.switch p cs.1 r.1, cs.2)
      else none
    else
      match admits.2 with
      | .whereTest e => compileWhere n e r.1 r.2 switches
      | _ => (compileClauses n switches r.2).map fun cs => (cs.1.ifs p r.1, cs.2)

/-- The loop over the clauses, the last one first. -/
def compileClauses (n : Nat) : Clauses Nat → List Nat → Option (Cases × List Nat)
  | .nil, em => some (.nil, em)
  | .cons c d rest, em =>
    (compileClauses n rest em).bind fun cs =>
    (compileDecisionTree n d cs.2).map fun r => (.cons c r.1 cs.1, r.2)

end

/-- The statement for the clauses of a switch. -/
def compileSwitch (swcs : List SwitchClause) : Option Stmt :=
  (matchCompile (getMatches 0 0 swcs)).bind fun t =>
  (compileDecisionTree swcs.length t []).map Prod.fst

end ConcurrentCyclone.Toc
