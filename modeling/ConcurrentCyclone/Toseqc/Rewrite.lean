import Mathlib.Logic.Function.Basic
import ConcurrentCyclone.Absyn.Evexp
import ConcurrentCyclone.EvalOrder.Safe

/-!
# The pass that fixes the order of evaluation

C leaves the order open in which the operands of an operator and the arguments of a call are
evaluated. The pass `toseqc` (`src/toseqc.cyc`) rewrites the expressions of the translated program
so that they are evaluated from left to right, and assignments from right to left. It summarizes the
side effects of operands (`exp_effect`); if their order matters, the operands but the last one are
evaluated in declarations of fresh variables, one after the other, in a statement expression
(`exps_to_seqc`).

The file has the pass for expressions of constants, variables, operators, subscripts, calls,
assignments, increments, conditionals and sequences, and what expressions mean: computations whose
operands are evaluated in any order (`denote`). The meaning of functions and operators is arbitrary,
but for the functions of the runtime system that the pass takes to be without side effects.
-/

set_option autoImplicit false

namespace ConcurrentCyclone.Toseqc

open Absyn (Primop)
open EvalOrder

/-! ## Side effects -/

/-- `enum SideEffect`. -/
inductive SideEffect where
  | const | noEffect | exnEffect | anyEffect
  deriving DecidableEq

/-- `join_side_effect`. -/
def joinSideEffect : SideEffect → SideEffect → SideEffect
  | .anyEffect, _ => .anyEffect
  | _, .anyEffect => .anyEffect
  -- two exceptions mean that the order matters
  | .exnEffect, .exnEffect => .anyEffect
  | .exnEffect, _ => .exnEffect
  | _, .exnEffect => .exnEffect
  | .noEffect, _ => .noEffect
  | _, .noEffect => .noEffect
  | .const, .const => .const

/-- `pure_funs`. -/
def pureFuns : List String :=
  ["_get_fat_size", "_get_zero_arr_size_char", "_get_zero_arr_size_short",
    "_get_zero_arr_size_int", "_get_zero_arr_size_float", "_get_zero_arr_size_double",
    "_get_zero_arr_size_longdouble", "_get_zero_arr_size_voidstar"]

/-- `exn_effect_funs`. -/
def exnEffectFuns : List String :=
  ["_check_null", "_check_known_subscript_null", "_check_known_subscript_notnull",
    "_check_fat_subscript", "_untag_fat_ptr", "_region_malloc"]

/-- `fun_effect`. -/
def funEffect (fn : String) : SideEffect :=
  if fn ∈ pureFuns then .noEffect
  else if fn ∈ exnEffectFuns then .exnEffect
  else .anyEffect

/-- The loop of `exps_effect`. -/
def joinLoop : List SideEffect → SideEffect → SideEffect
  | [], res => res
  | eres :: effects, res =>
    let res := joinSideEffect eres res
    if res = .anyEffect then res else joinLoop effects res

/-- `exps_effect`, given the effects of the expressions. -/
def joinEffects (effects : List SideEffect) : SideEffect := joinLoop effects .const

/-! ## Expressions -/

/-- Where a variable is stored. -/
inductive Storage where
  | global | static | auto
  deriving DecidableEq

/-- Variables, as far as the pass tells them apart. -/
inductive Var where
  /-- A function: `Funname_b`, or `Global_b` with a function type. -/
  | fn (name : String)
  /-- An array, which stands for its address. -/
  | array (storage : Storage) (name : String)
  /-- Another variable: `Global_b`, `Local_b` and so on. -/
  | data (storage : Storage) (name : String)
  /-- `Unresolved_b`: a name of the runtime system. -/
  | toc (name : String)
  deriving DecidableEq

/-- `enum Incrementor`. -/
inductive Incrementor where
  | preInc | postInc | preDec | postDec
  deriving DecidableEq

/-- Expressions of the translated program. -/
inductive Exp where
  | const (n : Int)
  | var (x : Var)
  /-- A variable from `temp_var`; it is an `Unresolved_b` too. -/
  | temp (t : Nat)
  | primop (p : Primop) (es : List Exp)
  | subscript (e₁ e₂ : Exp)
  | call (f : Exp) (es : List Exp)
  | assign (e₁ : Exp) (p : Option Primop) (e₂ : Exp)
  | increment (e : Exp) (k : Incrementor)
  | cond (e₁ e₂ e₃ : Exp)
  | and (e₁ e₂ : Exp)
  | or (e₁ e₂ : Exp)
  | seq (e₁ e₂ : Exp)
  /-- The statement expression `({ T t = e; body; })`. -/
  | decl (t : Nat) (e body : Exp)

/-- The name that `exp_effect` looks up for a called variable. -/
def Var.funName : Var → Option String
  | .fn name | .toc name | .array .global name | .data .global name => some name
  | _ => none

/-- The side effect of a call. -/
def callEffect : Exp → SideEffect
  | .var x => (x.funName.map funEffect).getD .anyEffect
  | _ => .anyEffect

mutual

/-- `exp_effect`. -/
def Exp.effect : Exp → SideEffect
  | .const _ => .const
  | .var _ | .temp _ => .noEffect
  | .assign _ _ _ => .anyEffect
  -- the arguments do not count
  | .call f _ => callEffect f
  | .primop _ es => joinEffects (effects es)
  | .cond e₁ e₂ e₃ => joinEffects [e₁.effect, e₂.effect, e₃.effect]
  | .subscript e₁ e₂ | .and e₁ e₂ | .or e₁ e₂ | .seq e₁ e₂ => joinEffects [e₁.effect, e₂.effect]
  | .increment e _ => e.effect
  -- `stmt_effect` of a declaration
  | .decl _ _ _ => .anyEffect

/-- The side effects of some expressions. -/
def effects : List Exp → List SideEffect
  | [] => []
  | e :: es => e.effect :: effects es

end

/-- `exps_effect`. -/
def expsEffect (es : List Exp) : SideEffect := joinEffects (effects es)

mutual

/-- `Tcutil::is_const_exp`. -/
def isConstExp : Exp → Bool
  | .const _ => true
  | .var (.fn _) | .var (.array .global _) | .var (.array .static _) => true
  | .cond e₁ e₂ e₃ => isConstExp e₁ && isConstExp e₂ && isConstExp e₃
  | .seq e₁ e₂ => isConstExp e₁ && isConstExp e₂
  | .primop _ es => areConstExps es
  | _ => false

/-- The loop over operands. -/
def areConstExps : List Exp → Bool
  | [] => true
  | e :: es => isConstExp e && areConstExps es

end

/-- `is_toc_var`. -/
def isTocVar : Exp → Bool
  | .var (.toc _) | .temp _ => true
  | _ => false

/-- An operand for which no variable is declared in any case. -/
def stays (e : Exp) : Bool := isConstExp e || isTocVar e

/-! ## The pass -/

/-- What the loop of `exps_to_seqc` makes of operands. -/
structure Sequenced where
  decls : List (Nat × Exp)
  operands : List Exp
  didSkip : Bool
  /-- The next variable of `temp_var`. -/
  next : Nat

/-- The loop of `exps_to_seqc`, which goes through the operands from right to left. -/
def replaceOperands : List Exp → Nat → Sequenced
  | [], n => ⟨[], [], false, n⟩
  | e :: es, n =>
    let r := replaceOperands es n
    if stays e then { r with operands := e :: r.operands }
    else if !r.didSkip then { r with operands := e :: r.operands, didSkip := true }
    else ⟨(r.next, e) :: r.decls, .temp r.next :: r.operands, true, r.next + 1⟩

/-- The declarations around an expression. -/
def declare (decls : List (Nat × Exp)) (e : Exp) : Exp :=
  decls.foldr (fun d body => .decl d.1 d.2 body) e

/-- The expression with other operands, which are updated in place. -/
def Exp.rebuild : Exp → List Exp → Exp
  | .primop p _, es => .primop p es
  | .subscript _ _, [e₁, e₂] => .subscript e₁ e₂
  | .call _ _, f :: es => .call f es
  | .assign _ p _, [e₂, e₁] => .assign e₁ p e₂
  | e, _ => e

/-- `exps_to_seqc`, once the operands are converted. -/
def sequence (e : Exp) (es : List Exp) (n : Nat) : Exp × Nat :=
  if es.length ≤ 1 ∨ expsEffect es ≠ .anyEffect then (e.rebuild es, n)
  else
    let r := replaceOperands es n
    (declare r.decls (e.rebuild r.operands), r.next)

/-- A variable, in which case only the right side of a plain assignment is converted. -/
def Exp.isVar : Exp → Bool
  | .var _ | .temp _ => true
  | _ => false

mutual

/-- `exp_to_seqc`; `n` counts the variables of `temp_var`. -/
def expToSeqc : Exp → Nat → Exp × Nat
  | .const c, n => (.const c, n)
  | .var x, n => (.var x, n)
  | .temp t, n => (.temp t, n)
  | .call f es, n =>
    let f' := expToSeqc f n
    let es' := convertAll es f'.2
    sequence (.call f es) (f'.1 :: es'.1) es'.2
  | .primop p es, n =>
    let es' := convertAll es n
    sequence (.primop p es) es'.1 es'.2
  | .subscript e₁ e₂, n =>
    let e₁' := expToSeqc e₁ n
    let e₂' := expToSeqc e₂ e₁'.2
    sequence (.subscript e₁ e₂) [e₁'.1, e₂'.1] e₂'.2
  | .assign e₁ p e₂, n =>
    let e₂' := expToSeqc e₂ n
    if p = none ∧ e₁.isVar then (.assign e₁ p e₂'.1, e₂'.2)
    else
      let e₁' := expToSeqc e₁ e₂'.2
      sequence (.assign e₁ p e₂) [e₂'.1, e₁'.1] e₁'.2
  | .cond e₁ e₂ e₃, n =>
    let e₃' := expToSeqc e₃ n
    let e₂' := expToSeqc e₂ e₃'.2
    let e₁' := expToSeqc e₁ e₂'.2
    (.cond e₁'.1 e₂'.1 e₃'.1, e₁'.2)
  | .and e₁ e₂, n =>
    let e₂' := expToSeqc e₂ n
    let e₁' := expToSeqc e₁ e₂'.2
    (.and e₁'.1 e₂'.1, e₁'.2)
  | .or e₁ e₂, n =>
    let e₂' := expToSeqc e₂ n
    let e₁' := expToSeqc e₁ e₂'.2
    (.or e₁'.1 e₂'.1, e₁'.2)
  | .seq e₁ e₂, n =>
    let e₂' := expToSeqc e₂ n
    let e₁' := expToSeqc e₁ e₂'.2
    (.seq e₁'.1 e₂'.1, e₁'.2)
  | .increment e k, n =>
    let e' := expToSeqc e n
    (.increment e'.1 k, e'.2)
  | .decl t e body, n =>
    let e' := expToSeqc e n
    let body' := expToSeqc body e'.2
    (.decl t e'.1 body'.1, body'.2)

/-- `List::iter(exp_to_seqc,es)`. -/
def convertAll : List Exp → Nat → List Exp × Nat
  | [], n => ([], n)
  | e :: es, n =>
    let e' := expToSeqc e n
    let es' := convertAll es e'.2
    (e'.1 :: es'.1, es'.2)

end

/-! ## What expressions mean -/

/-- Memory: what is stored at the addresses. -/
abbrev Mem := Int → Int

/-- The parts of the meaning of a program that are arbitrary: where the variables and functions are,
what the operators compute and what calls do. The functions that `fun_effect` lists change nothing,
and those that are pure do not throw. -/
structure Machine (X : Type) where
  addr : String → Int
  prim : Primop → List Int → Int
  call : Int → List Int → EStateM X Mem Int
  call_pure : ∀ {f}, funEffect f = .noEffect → ∀ args, Keeps .read (call (addr f) args)
  call_exn : ∀ {f}, funEffect f = .exnEffect → ∀ args, Keeps .throw (call (addr f) args)

/-- Values of operands: a number, or a place with what was stored there. -/
inductive Value where
  | num (n : Int)
  | place (addr old : Int)
  deriving DecidableEq

def Value.toInt : Value → Int
  | .num n => n
  | .place _ old => old

def Value.addr : Value → Int
  | .num n => n
  | .place addr _ => addr

/-- The operations of expressions. -/
inductive Act where
  /-- The address of a function, an array or a name of the runtime system. -/
  | name (x : String)
  /-- The value of a variable. -/
  | read (x : String)
  /-- The place of a variable, with its value. -/
  | fetchVar (x : String)
  | prim (p : Primop)
  | toBool
  /-- The value of an element, its address, or its place with its value. -/
  | load
  | address
  | fetch
  /-- A call of a function by its name, or of a function whose address is the first operand. -/
  | callNamed (f : String)
  | callPtr
  /-- `x = e` for a variable, and `a = e` for the address `a`. -/
  | store (x : String)
  | storeAt
  /-- `a op= e`. -/
  | update (p : Primop)
  | incr (k : Incrementor)

/-- An operand. -/
def arg (ws : List Value) (i : Nat) : Value := ws.getD i (.num 0)

/-- What is stored by an increment, and its value. -/
def Incrementor.apply (k : Incrementor) (old : Int) : Int × Int :=
  match k with
  | .preInc => (old + 1, old + 1)
  | .postInc => (old + 1, old)
  | .preDec => (old - 1, old - 1)
  | .postDec => (old - 1, old)

section Meaning

variable {X : Type} (M : Machine X)

/-- Write to memory. -/
def store (a v : Int) : EStateM X Mem Unit := fun m => .ok () (Function.update m a v)

/-- What an operation does once the operands are evaluated. -/
def Machine.act : Act → List Value → EStateM X Mem Value
  | .name x, _ => pure (.num (M.addr x))
  | .read x, _ => fun m => .ok (.num (m (M.addr x))) m
  | .fetchVar x, _ => fun m => .ok (.place (M.addr x) (m (M.addr x))) m
  | .prim p, ws => pure (.num (M.prim p (ws.map Value.toInt)))
  | .toBool, ws => pure (.num (if (arg ws 0).toInt = 0 then 0 else 1))
  | .load, ws => fun m => .ok (.num (m ((arg ws 0).toInt + (arg ws 1).toInt))) m
  | .address, ws => pure (.num ((arg ws 0).toInt + (arg ws 1).toInt))
  | .fetch, ws => fun m =>
    let a := (arg ws 0).toInt + (arg ws 1).toInt
    .ok (.place a (m a)) m
  | .callNamed f, ws => Value.num <$> M.call (M.addr f) (ws.map Value.toInt)
  | .callPtr, ws => Value.num <$> M.call (arg ws 0).toInt (ws.tail.map Value.toInt)
  | .store x, ws => do
    store (M.addr x) (arg ws 0).toInt
    pure (.num (arg ws 0).toInt)
  | .storeAt, ws => do
    store (arg ws 1).toInt (arg ws 0).toInt
    pure (.num (arg ws 0).toInt)
  | .update p, ws => do
    let v := M.prim p [(arg ws 1).toInt, (arg ws 0).toInt]
    store (arg ws 1).addr v
    pure (.num v)
  | .incr k, ws => do
    let v := k.apply (arg ws 0).toInt
    store (arg ws 0).addr v.1
    pure (.num v.2)

end Meaning

/-- The name of a function that is called by its name. -/
def Exp.calleeName : Exp → Option String
  | .var (.fn name) | .var (.toc name) => some name
  | _ => none

mutual

/-- The computation that an expression stands for; `ρ` has the values of the variables that the pass
declares. The right side of an assignment is the first operand. -/
def denote (ρ : Nat → Value) : Exp → Comp Act Value
  | .const n => .val (.num n)
  | .var (.data _ x) => .op (.read x) []
  | .var (.fn x) | .var (.array _ x) | .var (.toc x) => .op (.name x) []
  | .temp t => .val (ρ t)
  | .primop p es => .op (.prim p) (denoteList ρ es)
  | .subscript e₁ e₂ => .op .load [denote ρ e₁, denote ρ e₂]
  | .call f es =>
    match f.calleeName with
    | some name => .op (.callNamed name) (denoteList ρ es)
    | none => .op .callPtr (denote ρ f :: denoteList ρ es)
  | .assign e₁ none e₂ =>
    match e₁ with
    | .var (.data _ x) => .op (.store x) [denote ρ e₂]
    | e₁ => .op .storeAt [denote ρ e₂, denoteAddr ρ e₁]
  | .assign e₁ (some p) e₂ => .op (.update p) [denote ρ e₂, denotePlace ρ e₁]
  | .increment e k => .op (.incr k) [denotePlace ρ e]
  | .cond e₁ e₂ e₃ =>
    .bind (denote ρ e₁) fun w => if w.toInt = 0 then denote ρ e₃ else denote ρ e₂
  | .and e₁ e₂ =>
    .bind (denote ρ e₁) fun w =>
      if w.toInt = 0 then .val (.num 0) else .op .toBool [denote ρ e₂]
  | .or e₁ e₂ =>
    .bind (denote ρ e₁) fun w =>
      if w.toInt = 0 then .op .toBool [denote ρ e₂] else .val (.num 1)
  | .seq e₁ e₂ => .bind (denote ρ e₁) fun _ => denote ρ e₂
  | .decl t e body => .bind (denote ρ e) fun w => denote (Function.update ρ t w) body

/-- The address of an element that is assigned. -/
def denoteAddr (ρ : Nat → Value) : Exp → Comp Act Value
  | .subscript e₁ e₂ => .op .address [denote ρ e₁, denote ρ e₂]
  | _ => .val (.num 0)

/-- The place of a variable or an element that is updated. -/
def denotePlace (ρ : Nat → Value) : Exp → Comp Act Value
  | .var (.data _ x) => .op (.fetchVar x) []
  | .subscript e₁ e₂ => .op .fetch [denote ρ e₁, denote ρ e₂]
  | _ => .val (.num 0)

/-- The computations of operands. -/
def denoteList (ρ : Nat → Value) : List Exp → List (Comp Act Value)
  | [] => []
  | e :: es => denote ρ e :: denoteList ρ es

end

end ConcurrentCyclone.Toseqc
