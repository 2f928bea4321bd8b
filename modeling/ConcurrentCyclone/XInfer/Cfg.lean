import ConcurrentCyclone.Transition.Stateful
import Mathlib.Logic.Function.Basic

/-!
# Control-flow graph construction

The analysis walks over a control-flow graph that `concfg_s` and `concfg_e` build backwards: each
call gets the leftmost nodes of what comes next, adds the edges of its own statement or expression,
and returns its leftmost nodes, its rightmost nodes and whether it ends in a jump. Jumps are linked
through a table from the jump analysis, which names the statement each jump goes to.

The node lists are C lists that `add_unique` extends in place, and several of the lists that are
returned are one and the same list (the left list of a `Skip_s`, both lists of a `Break_s`). They
are therefore kept in a heap here: what one part of the construction appends to a list is seen by
everything that holds the list.

The fragment is the structured one: sequences, expressions, cap statements, skips, conditionals,
`while` and `do` loops, `break`, `continue` and `return`. No expression of it contains a statement
or throws, so the jump flag that `concfg_e` returns is always false and is left out, with the
branches that it would select.
-/

set_option autoImplicit false

namespace ConcurrentCyclone.XInfer

open Transition

/-! ## Source terms -/

/-- The node of an expression, of a cap statement, of a jump, or of another statement. Expressions
and statements have one node each, found by their address; the number stands for the address. -/
inductive Node where
  | exp (n : Nat)
  | cap (n : Nat)
  | jump (n : Nat)
  | stmt (n : Nat)
deriving DecidableEq, Repr

/-- `node_is_jump`. -/
def Node.isJump : Node → Bool
  | .jump _ => true
  | _ => false

/-- Expressions: `And_e` and `Or_e` may leave out their second operand, `Conditional_e` evaluates
one of two, every other form evaluates its operands from left to right. -/
inductive Exp where
  | op (n : Nat) (args : List Exp)
  | andOr (n : Nat) (e₁ e₂ : Exp)
  | conditional (n : Nat) (e₁ e₂ e₃ : Exp)

/-- The node of an expression. -/
def Exp.node : Exp → Node
  | .op n _ => .exp n
  | .andOr n _ _ => .exp n
  | .conditional n _ _ _ => .exp n

/-- Statements. A loop comes with the skip statement that stands for the place where `continue`
goes; `skip` is its address. -/
inductive Stmt where
  | skip (n : Nat)
  | exp (n : Nat) (e : Exp)
  | cap (n : Nat) (es : List Exp)
  | seq (n : Nat) (s₁ s₂ : Stmt)
  | ifThenElse (n : Nat) (e : Exp) (s₁ s₂ : Stmt)
  | whileLoop (n : Nat) (e : Exp) (skip : Nat) (s : Stmt)
  | doLoop (n : Nat) (s : Stmt) (e : Exp) (skip : Nat)
  | brk (n : Nat)
  | cont (n : Nat)
  | ret (n : Nat) (e : Option Exp)

/-- The address of a statement. -/
def Stmt.addr : Stmt → Nat
  | .skip n => n
  | .exp n _ => n
  | .cap n _ => n
  | .seq n _ _ => n
  | .ifThenElse n _ _ _ => n
  | .whileLoop n _ _ _ => n
  | .doLoop n _ _ _ => n
  | .brk n => n
  | .cont n => n
  | .ret n _ => n

/-! ## Jump analysis -/

/-- What `anal_stmt` carries: the statement that runs after the current one, and the ones that
`continue` and `break` go to. There is none at the end of a function or outside a loop. -/
structure Targets where
  next : Option Nat
  cont : Option Nat
  brk : Option Nat

/-- The entry of the successor table for the jump at `n`, if it goes to a statement. -/
def jumper (n : Nat) (target : Option Nat) : List (Node × Nat) :=
  target.toList.map fun t => (.jump n, t)

/-- `anal_stmt`: which statement each jump goes to. A `return` goes to none: its edge is added by
`concfg_s` itself. -/
def analStmt : Targets → Stmt → List (Node × Nat)
  | te, .seq _ s₁ s₂ => analStmt { te with next := some s₂.addr } s₁ ++ analStmt te s₂
  | te, .ifThenElse _ _ s₁ s₂ => analStmt te s₁ ++ analStmt te s₂
  | te, .whileLoop _ _ skip s => analStmt ⟨some skip, some skip, te.next⟩ s
  | te, .doLoop _ s _ skip => analStmt ⟨some skip, some skip, te.next⟩ s
  | te, .brk n => jumper n te.brk
  | te, .cont n => jumper n te.cont
  | _, .skip _ => []
  | _, .exp _ _ => []
  | _, .cap _ _ => []
  | _, .ret _ _ => []

/-! ## Node lists and edges -/

/-- A list of nodes: its place in the heap, or `NULL`. -/
abbrev NList := Option Nat

/-- The edges added so far and the heap of node lists. `next` is the first free place. -/
structure Graph where
  edges : List (Node × Node)
  cells : Nat → List Node
  next : Nat

/-- The nodes that a list holds now. -/
def Graph.read (g : Graph) : NList → List Node
  | none => []
  | some i => g.cells i

/-- `add_succ`. The edge is a new successor unless it is there already. -/
def Graph.addSucc (g : Graph) (n₁ n₂ : Node) : Graph :=
  if (n₁, n₂) ∈ g.edges then g else { g with edges := (n₁, n₂) :: g.edges }

abbrev Build (α : Type) := StateM Graph α

/-- `add_succs`. -/
def addSuccs (n : Node) (nl : NList) : Build Unit :=
  modify fun g => (g.read nl).foldl (fun g m => g.addSucc n m) g

/-- `nsig`: a new list of one node. -/
def nsig (n : Node) : Build NList := fun g =>
  (some g.next, { g with cells := Function.update g.cells g.next [n], next := g.next + 1 })

/-- `add_unique`: a list that lacks the node is extended in place. -/
def addUnique (nl : NList) (n : Node) : Build NList :=
  match nl with
  | none => nsig n
  | some i => do
    modify fun g =>
      if n ∈ g.cells i then g
      else { g with cells := Function.update g.cells i (g.cells i ++ [n]) }
    pure (some i)

/-- `append_unique`. -/
def appendUnique (n₀ n₁ : NList) : Build NList := do
  (← get).read n₁ |>.foldlM addUnique n₀

/-- `add_nojump_succs`. -/
def addNojumpSuccs (nskip : Node) (right : NList) : Build Unit :=
  modify fun g =>
    (g.read right).foldl (fun g n => if n.isJump then g else g.addSucc n nskip) g

/-! ## The construction -/

/-- What a call returns: leftmost nodes, rightmost nodes, and whether it ends in a jump. -/
structure Ends where
  left : NList
  right : NList
  jumps : Bool

mutual

/-- `concfg_e`. -/
def concfgE : Exp → NList → Build Ends
  | .op n args, left => do
    let nl ← nsig (.exp n)
    addSuccs (.exp n) left
    let left₁ ← concfgArgs args nl
    pure ⟨left₁, left, false⟩
  | .andOr n e₁ e₂, left => do
    let nl ← nsig (.exp n)
    addSuccs (.exp n) left
    -- the second operand may be left out, so the first one leads to both
    let r₂ ← concfgE e₂ nl
    let both ← appendUnique r₂.left nl
    let r₁ ← concfgE e₁ both
    pure ⟨r₁.left, r₂.right, false⟩
  | .conditional n e₁ e₂ e₃, left => do
    let nl ← nsig (.exp n)
    addSuccs (.exp n) left
    let r₃ ← concfgE e₃ nl
    let r₂ ← concfgE e₂ nl
    let both ← appendUnique r₃.left r₂.left
    let r₁ ← concfgE e₁ both
    let right ← appendUnique r₃.right r₂.right
    pure ⟨r₁.left, right, false⟩

/-- The loop of `concfg_e` and of `Cap_s` over the operands, last one first. -/
def concfgArgs : List Exp → NList → Build NList
  | [], left => pure left
  | e :: es, left => do
    let left₁ ← concfgArgs es left
    let r ← concfgE e left₁
    pure r.left

end

/-- What the construction knows of the function: for each statement the jumps to it (`inverse`, as
pairs of a jump's node and a statement), and the exit statement. -/
structure CfgEnv where
  inverse : List (Node × Nat)
  exitStmt : Nat

/-- The jumps to a statement. -/
def CfgEnv.preds (env : CfgEnv) (s : Nat) : List Node :=
  (env.inverse.filter fun p => p.2 == s).map Prod.fst

/-- `env_update_pred_succs`: the jumps to `s` go to its leftmost nodes. -/
def updatePredSuccs (env : CfgEnv) (s : Nat) (left : NList) : Build Unit :=
  (env.preds s).forM fun pred => addSuccs pred left

/-- `concfg_s` on a skip statement. -/
def concfgSkip (env : CfgEnv) (n : Nat) (left : NList) : Build Ends := do
  addSuccs (.stmt n) left
  let nl ← nsig (.stmt n)
  updatePredSuccs env n nl
  pure ⟨nl, left, false⟩

/-- The end of `concfg_s`: link the jumps to the statement. -/
def linked (env : CfgEnv) (s : Nat) (r : Ends) : Build Ends := do
  updatePredSuccs env s r.left
  pure r

/-- `concfg_s`. -/
def concfgS (env : CfgEnv) : Stmt → NList → Build Ends
  | .skip n, left => concfgSkip env n left
  | .exp n e, left => do
    addSuccs (.stmt n) left
    let nl ← nsig (.stmt n)
    let r ← concfgE e nl
    linked env n r
  | .cap n es, left => do
    addSuccs (.cap n) left
    let nl ← nsig (.cap n)
    let left₂ ← concfgArgs es nl
    linked env n ⟨left₂, nl, false⟩
  | .seq n s₁ s₂, left => do
    let r₂ ← concfgS env s₂ left
    let r₁ ← concfgS env s₁ r₂.left
    -- built backwards; a first part that jumps hides the rightmost nodes of the second
    linked env n (if r₁.jumps then ⟨r₁.left, r₁.right, true⟩ else ⟨r₁.left, r₂.right, r₂.jumps⟩)
  | .ifThenElse n e s₁ s₂, left => do
    let r₁ ← concfgS env s₁ left
    let r₂ ← concfgS env s₂ left
    let left₁ ← appendUnique r₁.left r₂.left
    let r₃ ← concfgE e left₁
    -- only the flag of the else branch is looked at
    if r₂.jumps then
      linked env n ⟨r₃.left, r₂.right, true⟩
    else
      let right₁ ← appendUnique r₁.right r₂.right
      linked env n ⟨r₃.left, right₁, r₁.jumps && r₂.jumps⟩
  | .whileLoop n e skip s, left => do
    let r₁ ← concfgS env s left
    let left₁ ← appendUnique r₁.left left
    let r₂ ← concfgSkip env skip left₁
    let r₃ ← concfgE e r₂.left
    -- The way back from the body goes to the skip, which `e` comes before.
    addNojumpSuccs (.stmt skip) r₁.right
    linked env n ⟨r₃.left, r₁.right, false⟩
  | .doLoop n s e skip, left => do
    let r₁ ← concfgE e left
    let r₂ ← concfgSkip env skip r₁.left
    let r₃ ← concfgS env s r₂.left
    -- a body that is taken for a jump gets no way back
    if r₃.jumps then
      linked env n ⟨r₃.left, r₃.right, true⟩
    else
      addSuccs e.node r₃.left
      linked env n ⟨r₃.left, r₁.right, false⟩
  | .brk n, _ => do
    let nl ← nsig (.jump n)
    linked env n ⟨nl, nl, true⟩
  | .cont n, _ => do
    let nl ← nsig (.jump n)
    linked env n ⟨nl, nl, true⟩
  | .ret n eo, _ => do
    -- the way to the exit, added at once
    modify fun g => g.addSucc (.jump n) (.stmt env.exitStmt)
    let nl ← nsig (.jump n)
    match eo with
    | none => linked env n ⟨nl, nl, true⟩
    | some e =>
      let r ← concfgE e nl
      linked env n r

/-- The graph of a function with the given body, built from the exit statement backwards. The jump
table is that of the jump analysis of the body. -/
def cfgOf (s : Stmt) (exitStmt : Nat) : Graph :=
  let build : Build Ends := do
    let nl ← nsig (.stmt exitStmt)
    concfgS ⟨analStmt ⟨none, none, none⟩ s, exitStmt⟩ s nl
  (build ⟨[], fun _ => [], 0⟩).2

end ConcurrentCyclone.XInfer
