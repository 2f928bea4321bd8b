import Mathlib.Data.BitVec

/-!
# Constant expressions

The expressions of `src/absyn.h`, as far as `src/evexp.cyc` tells them apart, and the evaluation of
constant expressions. `eval_const_exp` answers with a constant and says whether it is known; a known
constant also replaces the expression, so it is the constant for which code is made
(`Folded.exp`).

`Folds e c` says by rules what the evaluation finds; `Folds.eval` and `folds_of_known` connect the
two.
-/

set_option autoImplicit false

namespace ConcurrentCyclone.Absyn

/-- `enum Sign`. -/
inductive Sign where
  | signed
  | unsigned
  | none
  deriving DecidableEq

/-- `enum Size_of`. -/
inductive SizeOf where
  | char
  | short
  | int
  | long
  | longLong
  deriving DecidableEq

/-- The number of bytes on the 32-bit targets. -/
def SizeOf.bytes : SizeOf → Nat
  | .char => 1
  | .short => 2
  | .int => 4
  | .long => 4
  | .longLong => 8

/-- `union Cnst`. -/
inductive Cnst where
  | null
  | char (sn : Sign) (c : BitVec 8)
  | wchar (s : String)
  | short (sn : Sign) (s : BitVec 16)
  | int (sn : Sign) (i : BitVec 32)
  | longLong (sn : Sign) (x : BitVec 64)
  | float (s : String) (i : Int)
  | string (s : String)
  | wstring (s : String)
  deriving DecidableEq

/-- `enum Primop`. -/
inductive Primop where
  | plus
  | times
  | minus
  | div
  | mod
  | eq
  | neq
  | gt
  | lt
  | gte
  | lte
  | not
  | bitnot
  | bitand
  | bitor
  | bitxor
  | bitlshift
  | bitlrshift
  | numelts
  deriving DecidableEq

/-- `datatype Binding`: what `cnst_exp` and `nonesc_vardecl` read of a variable. -/
inductive Binding (X : Type) where
  | unresolved
  | funname (f : X)
  /-- A global, a parameter, a local or a pattern variable; `fixed` says that it is global or static
  and an array or a function. -/
  | vardecl (x : X) (fixed escapes : Bool)

mutual

/-- `datatype Type`, compressed; `other` are the types that are not told apart here. -/
inductive Typ (X T : Type) where
  | int (sn : Sign) (sz : SizeOf)
  | tag (t : T)
  | valueof (e : Exp X T)
  | other (t : T)

/-- `struct Exp` with its type `topt`. Primitive operations have one or two arguments. -/
inductive Exp (X T : Type) where
  | const (c : Cnst) (τ : Typ X T)
  | var (b : Binding X) (τ : Typ X T)
  | pragma (s : String) (τ : Typ X T)
  | primop₁ (p : Primop) (e : Exp X T) (τ : Typ X T)
  | primop₂ (p : Primop) (e₁ e₂ : Exp X T) (τ : Typ X T)
  | conditional (e₁ e₂ e₃ : Exp X T) (τ : Typ X T)
  | and (e₁ e₂ : Exp X T) (τ : Typ X T)
  | or (e₁ e₂ : Exp X T) (τ : Typ X T)
  | seqExp (e₁ e₂ : Exp X T) (τ : Typ X T)
  | cast (t : Typ X T) (e : Exp X T) (τ : Typ X T)
  | address (e : Exp X T) (τ : Typ X T)
  | sizeoftype (t τ : Typ X T)
  | sizeofexp (e : Exp X T) (τ : Typ X T)
  | offsetof (t : Typ X T) (fields : List Nat) (τ : Typ X T)
  /-- `Enum_e` and `AnonEnum_e`, with the tag of the field. -/
  | enum (tag : Exp X T) (τ : Typ X T)
  | valueof (t τ : Typ X T)
  /-- `Extension_e`, `NoInstantiate_e` and `Instantiate_e`. -/
  | wrapped (e : Exp X T) (τ : Typ X T)
  /-- Arrays, structures, tuples and comprehensions; `parts` says whether all parts are constant. -/
  | compound (parts : Bool) (k : Nat) (τ : Typ X T)
  /-- Calls, assignments, accesses to memory and all other forms. -/
  | other (k : Nat) (τ : Typ X T)

end

variable {X T : Type}

/-- The field `topt`. -/
def Exp.topt : Exp X T → Typ X T
  | .const _ τ | .var _ τ | .pragma _ τ | .primop₁ _ _ τ | .primop₂ _ _ _ τ | .conditional _ _ _ τ
  | .and _ _ τ | .or _ _ τ | .seqExp _ _ τ | .cast _ _ τ | .address _ τ | .sizeoftype _ τ
  | .sizeofexp _ τ | .offsetof _ _ τ | .enum _ τ | .valueof _ τ | .wrapped _ τ | .compound _ _ τ
  | .other _ τ => τ

/-! ## Constness -/

/-- `cnst_exp`. -/
def cnstExp : Bool → Exp X T → Bool
  | _, .const _ _ | _, .pragma _ _ | _, .sizeoftype _ _ | _, .sizeofexp _ _ | _, .offsetof _ _ _
  | _, .enum _ _ => true
  | varOkay, .var b _ =>
    match b with
    | .unresolved => false
    | .funname _ => true
    | .vardecl _ fixed _ => fixed || varOkay
  | _, .conditional e₁ e₂ e₃ _ => cnstExp false e₁ && cnstExp false e₂ && cnstExp false e₃
  | _, .seqExp e₁ e₂ _ => cnstExp false e₁ && cnstExp false e₂
  | varOkay, .wrapped e _ | varOkay, .cast _ e _ => cnstExp varOkay e
  | _, .address e _ => cnstExp true e
  | _, .compound parts _ _ => parts
  | _, .primop₁ _ e _ => cnstExp false e
  | _, .primop₂ _ e₁ e₂ _ => cnstExp false e₁ && cnstExp false e₂
  | _, .and _ _ _ | _, .or _ _ _ | _, .valueof _ _ | _, .other _ _ => false

/-- `is_const_exp`. -/
def isConstExp (e : Exp X T) : Bool := cnstExp false e

/-! ## Operations on constants -/

/-- The errors of the evaluation. -/
inductive EvalErr where
  /-- `expecting unsigned int found %s`. -/
  | expectingUint
  /-- `expecting bool`. -/
  | expectingBool
  /-- `division by zero in constant expression`. -/
  | divisionByZero
  /-- `bad constant expression`. -/
  | badConstant
  /-- `cannot cast negative number to a tag type`. -/
  | negativeTag
  /-- `cannot cast to %s`. -/
  | cannotCast
  deriving DecidableEq

/-- `promote_const`. -/
def promoteConst : Cnst → Cnst
  | .char sn c => .int sn (c.signExtend 32)
  | .short sn s => .int sn (s.signExtend 32)
  | c => c

/-- `Int_c(Signed, b ? 1 : 0)`. -/
def boolConst (b : Bool) : Cnst := .int .signed (if b then 1 else 0)

/-- The truth value of a constant in `eval_const_bool_exp`; `none` when it is not known. -/
def constBool (c : Cnst) : Option Bool :=
  match promoteConst c with
  | .int _ b => some (b ≠ 0)
  | .longLong _ b => some (b ≠ 0)
  | .float _ _ => some false
  | _ => none

/-- The error of `eval_const_bool_exp` for a constant. -/
def constBoolErrs (c : Cnst) : List EvalErr :=
  match promoteConst c with
  | .int _ _ | .longLong _ _ | .float _ _ | .null => []
  | _ => [.expectingBool]

/-- The table of `eval_const_unprimop`; `none` when the result is not known. -/
def evalUnprimop : Primop → Cnst → Option Cnst
  | .plus, c => some c
  | .minus, .int _ i => some (.int .signed (-i))
  | .minus, .short _ i => some (.short .signed (-i))
  | .minus, .char _ i => some (.char .signed (-i))
  | .minus, .longLong _ i => some (.longLong .signed (-i))
  | .bitnot, .int _ i => some (.int .unsigned (~~~i))
  | .bitnot, .short _ i => some (.short .unsigned (~~~i))
  | .bitnot, .char _ i => some (.char .unsigned (~~~i))
  | .bitnot, .longLong _ i => some (.longLong .unsigned (~~~i))
  | .not, .int _ i => some (.int .signed (if i = 0 then 1 else 0))
  | .not, .short _ i => some (.short .signed (if i = 0 then 1 else 0))
  | .not, .char _ i => some (.char .signed (if i = 0 then 1 else 0))
  | .not, .longLong _ i => some (.longLong .signed (if i = 0 then 1 else 0))
  | .not, .null => some (.int .signed 1)
  | _, _ => none

/-- The table of `eval_const_binprimop` for two integers; `none` is `bad constant expression`. -/
def evalBinInts (p : Primop) (hasUArg : Bool) (i₁ i₂ : BitVec 32) : Option Cnst :=
  match p, hasUArg with
  | .plus, false => some (.int .signed (i₁ + i₂))
  | .times, false => some (.int .signed (i₁ * i₂))
  | .minus, false => some (.int .signed (i₁ - i₂))
  | .div, false => some (.int .signed (i₁.sdiv i₂))
  | .mod, false => some (.int .signed (i₁.srem i₂))
  | .plus, true => some (.int .unsigned (i₁ + i₂))
  | .times, true => some (.int .unsigned (i₁ * i₂))
  | .minus, true => some (.int .unsigned (i₁ - i₂))
  | .div, true => some (.int .unsigned (i₁ / i₂))
  | .mod, true => some (.int .unsigned (i₁ % i₂))
  | .eq, _ => some (boolConst (i₁ = i₂))
  | .neq, _ => some (boolConst (i₁ ≠ i₂))
  | .gt, false => some (boolConst (i₂.slt i₁))
  | .lt, false => some (boolConst (i₁.slt i₂))
  | .gte, false => some (boolConst (i₂.sle i₁))
  | .lte, false => some (boolConst (i₁.sle i₂))
  | .gt, true => some (boolConst (i₂.ult i₁))
  | .lt, true => some (boolConst (i₁.ult i₂))
  | .gte, true => some (boolConst (i₂.ule i₁))
  | .lte, true => some (boolConst (i₁.ule i₂))
  | .bitand, _ => some (.int .unsigned (i₁ &&& i₂))
  | .bitor, _ => some (.int .unsigned (i₁ ||| i₂))
  | .bitxor, _ => some (.int .unsigned (i₁ ^^^ i₂))
  -- the processor takes shift counts modulo 32
  | .bitlshift, _ => some (.int .unsigned (i₁ <<< (i₂.toNat % 32)))
  | .bitlrshift, _ => some (.int .unsigned (i₁ >>> (i₂.toNat % 32)))
  | .not, _ | .bitnot, _ | .numelts, _ => none

/-- `eval_const_binprimop` for two known constants; `none` when the result is not known. -/
def evalBinprimop (p : Primop) (c₁ c₂ : Cnst) : Option (Cnst × List EvalErr) :=
  match promoteConst c₁, promoteConst c₂ with
  | .int s₁ i₁, .int s₂ i₂ =>
    if (p = .div ∨ p = .mod) ∧ i₂ = 0 then some (.int s₁ i₁, [.divisionByZero])
    else
      match evalBinInts p (s₁ = .unsigned ∨ s₂ = .unsigned) i₁ i₂ with
      | some c => some (c, [])
      | none => some (.int s₁ i₁, [.badConstant])
  | _, _ => none

/-- The cast of a known constant in `eval_const_exp`. An integer keeps its value, whatever the size
of the type. -/
def evalCast (t : Typ X T) (c : Cnst) : Cnst × List EvalErr :=
  let cast (sn₂ : Sign) (x : BitVec 32) : Cnst × List EvalErr :=
    match t with
    | .int sn _ => (if sn ≠ sn₂ then .int sn x else c, [])
    | .tag _ => (.int .unsigned x, if x.slt 0 then [.negativeTag] else [])
    | _ => (c, [.cannotCast])
  match c with
  | .char sn₂ x => cast sn₂ (x.signExtend 32)
  | .short sn₂ x => cast sn₂ (x.signExtend 32)
  | .int sn₂ x => cast sn₂ x
  | _ => (c, [.cannotCast])

/-! ## Evaluation -/

/-- The answer of `eval_const_exp`, the expression afterwards and the reported errors. -/
structure Folded (X T : Type) where
  c : Cnst
  known : Bool
  exp : Exp X T
  errs : List EvalErr

/-- An answer `$(Int_c(Signed,0), false)`. -/
def Folded.unknown (e : Exp X T) (errs : List EvalErr) : Folded X T :=
  ⟨.int .signed 0, false, e, errs⟩

/-- The end of `eval_const_exp`: a known constant replaces the expression. -/
def Folded.memo (τ : Typ X T) (r : Folded X T) : Folded X T :=
  if r.known then { r with exp := .const r.c τ } else r

/-- `eval_const_bool_exp` after the evaluation; `none` when the truth value is not known. -/
def Folded.bool (r : Folded X T) : Option Bool := if r.known then constBool r.c else none

/-- The errors of `eval_const_bool_exp`. -/
def Folded.boolErrs (r : Folded X T) : List EvalErr :=
  r.errs ++ if r.known then constBoolErrs r.c else []

/-- `eval_const_exp`. -/
def evalConstExp : Exp X T → Folded X T
  | .var b τ => .unknown (.var b τ) []
  | .const c τ => ⟨c, true, .const c τ, []⟩
  | .pragma s τ => ⟨.int .signed 0, true, .pragma s τ, []⟩
  | .conditional e₁ e₂ e₃ τ =>
    let r₁ := evalConstExp e₁
    let r₂ := evalConstExp e₂
    let r₃ := evalConstExp e₃
    match r₁.bool with
    | none =>
      .unknown (.conditional r₁.exp r₂.exp r₃.exp τ) (r₁.boolErrs ++ r₂.errs ++ r₃.errs)
    | some true =>
      .memo τ ⟨r₂.c, r₂.known, .conditional r₁.exp r₂.exp e₃ τ, r₁.boolErrs ++ r₂.errs⟩
    | some false =>
      .memo τ ⟨r₃.c, r₃.known, .conditional r₁.exp e₂ r₃.exp τ, r₁.boolErrs ++ r₃.errs⟩
  | .and e₁ e₂ τ =>
    let r₁ := evalConstExp e₁
    let r₂ := evalConstExp e₂
    match r₁.bool with
    | none => .unknown (.and r₁.exp r₂.exp τ) (r₁.boolErrs ++ r₂.errs)
    | some true => .memo τ ⟨r₂.c, r₂.known, .and r₁.exp r₂.exp τ, r₁.boolErrs ++ r₂.errs⟩
    | some false => .memo τ ⟨boolConst false, true, .and r₁.exp e₂ τ, r₁.boolErrs⟩
  | .or e₁ e₂ τ =>
    let r₁ := evalConstExp e₁
    let r₂ := evalConstExp e₂
    match r₁.bool with
    | none => .unknown (.or r₁.exp r₂.exp τ) (r₁.boolErrs ++ r₂.errs)
    | some false => .memo τ ⟨r₂.c, r₂.known, .or r₁.exp r₂.exp τ, r₁.boolErrs ++ r₂.errs⟩
    | some true => .memo τ ⟨boolConst true, true, .or r₁.exp e₂ τ, r₁.boolErrs⟩
  | .primop₁ p e τ =>
    let r := evalConstExp e
    match (if r.known then evalUnprimop p r.c else none) with
    | none => ⟨r.c, false, .primop₁ p r.exp τ, r.errs⟩
    | some c => .memo τ ⟨c, true, .primop₁ p r.exp τ, r.errs⟩
  | .primop₂ p e₁ e₂ τ =>
    let r₁ := evalConstExp e₁
    let r₂ := evalConstExp e₂
    match (if r₁.known && r₂.known then evalBinprimop p r₁.c r₂.c else none) with
    | none => ⟨r₁.c, false, .primop₂ p r₁.exp r₂.exp τ, r₁.errs ++ r₂.errs⟩
    | some (c, errs) =>
      .memo τ ⟨c, true, .primop₂ p r₁.exp r₂.exp τ, r₁.errs ++ r₂.errs ++ errs⟩
  -- the form of `e` is copied before it is evaluated, so what is replaced is the original
  | .valueof (.valueof e) _ => { evalConstExp e with exp := e }
  | .cast t e τ =>
    let r := evalConstExp e
    if r.known then
      .memo τ ⟨(evalCast t r.c).1, true, .cast t r.exp τ, r.errs ++ (evalCast t r.c).2⟩
    else ⟨r.c, false, .cast t r.exp τ, r.errs⟩
  | .enum tag τ =>
    let r := evalConstExp tag
    .memo τ ⟨r.c, r.known, .enum r.exp τ, r.errs⟩
  | .valueof t τ => .unknown (.valueof t τ) []
  | .sizeoftype t τ => .unknown (.sizeoftype t τ) []
  | .sizeofexp e τ => .unknown (.sizeofexp e τ) []
  | .offsetof t fields τ => .unknown (.offsetof t fields τ) []
  | .seqExp e₁ e₂ τ => .unknown (.seqExp e₁ e₂ τ) []
  | .address e τ => .unknown (.address e τ) []
  | .wrapped e τ => .unknown (.wrapped e τ) []
  | .compound parts k τ => .unknown (.compound parts k τ) []
  | .other k τ => .unknown (.other k τ) []

/-- `eval_const_uint_exp`: the number, whether it is known, the expression afterwards and the
errors. -/
structure UintExp (X T : Type) where
  i : BitVec 32
  known : Bool
  exp : Exp X T
  errs : List EvalErr

/-- The number that `eval_const_uint_exp` makes of a known constant; `none` is the error. -/
def uintOfConst (c : Cnst) : Option (BitVec 32 × Bool) :=
  match promoteConst c with
  | .int _ i => some (i, true)
  | .longLong _ x =>
    let y := (x >>> 32).setWidth 32
    if y ≠ 0xffffffff ∧ y ≠ 0 then some (0, false) else some (x.setWidth 32, true)
  | .float _ _ => some (0, false)
  | .null => some (0, true)
  | _ => none

/-- `eval_const_uint_exp`. -/
def evalConstUintExp (e : Exp X T) : UintExp X T :=
  let r := evalConstExp e
  if !r.known then ⟨0, false, r.exp, r.errs⟩
  else
    match uintOfConst r.c with
    | some (i, known) => ⟨i, known, r.exp, r.errs⟩
    | none => ⟨0, true, r.exp, r.errs ++ [.expectingUint]⟩

/-! ## What the evaluation finds -/

/-- The expression is evaluated to the constant. -/
inductive Folds : Exp X T → Cnst → Prop where
  | const {c τ} : Folds (.const c τ) c
  | pragma {s τ} : Folds (.pragma s τ) (.int .signed 0)
  | condTrue {e₁ e₂ e₃ τ c₁ c} :
      Folds e₁ c₁ → constBool c₁ = some true → Folds e₂ c → Folds (.conditional e₁ e₂ e₃ τ) c
  | condFalse {e₁ e₂ e₃ τ c₁ c} :
      Folds e₁ c₁ → constBool c₁ = some false → Folds e₃ c → Folds (.conditional e₁ e₂ e₃ τ) c
  | andTrue {e₁ e₂ τ c₁ c} :
      Folds e₁ c₁ → constBool c₁ = some true → Folds e₂ c → Folds (.and e₁ e₂ τ) c
  | andFalse {e₁ e₂ τ c₁} :
      Folds e₁ c₁ → constBool c₁ = some false → Folds (.and e₁ e₂ τ) (boolConst false)
  | orTrue {e₁ e₂ τ c₁} :
      Folds e₁ c₁ → constBool c₁ = some true → Folds (.or e₁ e₂ τ) (boolConst true)
  | orFalse {e₁ e₂ τ c₁ c} :
      Folds e₁ c₁ → constBool c₁ = some false → Folds e₂ c → Folds (.or e₁ e₂ τ) c
  | unprimop {p e τ c c'} :
      Folds e c → evalUnprimop p c = some c' → Folds (.primop₁ p e τ) c'
  | binprimop {p e₁ e₂ τ c₁ c₂ c errs} :
      Folds e₁ c₁ → Folds e₂ c₂ → evalBinprimop p c₁ c₂ = some (c, errs) →
      Folds (.primop₂ p e₁ e₂ τ) c
  | cast {t e τ c} : Folds e c → Folds (.cast t e τ) (evalCast t c).1
  | enum {tag τ c} : Folds tag c → Folds (.enum tag τ) c
  | valueof {e τ c} : Folds e c → Folds (.valueof (.valueof e) τ) c

@[simp] theorem memo_known (τ : Typ X T) (r : Folded X T) : (r.memo τ).known = r.known := by
  unfold Folded.memo
  split <;> rfl

@[simp] theorem memo_c (τ : Typ X T) (r : Folded X T) : (r.memo τ).c = r.c := by
  unfold Folded.memo
  split <;> rfl

theorem memo_exp {τ : Typ X T} {r : Folded X T} (h : r.known = true) :
    (r.memo τ).exp = .const r.c τ := by
  rw [Folded.memo, if_pos h]

theorem bool_eq_some {r : Folded X T} {b : Bool} :
    r.bool = some b ↔ r.known = true ∧ constBool r.c = some b := by
  unfold Folded.bool
  split <;> simp_all

variable {e : Exp X T} {c : Cnst}

theorem Folds.eval (h : Folds e c) : (evalConstExp e).known = true ∧ (evalConstExp e).c = c := by
  induction h with
  | const | pragma => exact ⟨rfl, rfl⟩
  | condTrue _ hb _ ih1 ih2 | condFalse _ hb _ ih1 ih2 | andTrue _ hb _ ih1 ih2
  | orFalse _ hb _ ih1 ih2 =>
    have hbool := bool_eq_some.2 ⟨ih1.1, ih1.2.symm ▸ hb⟩
    simp only [evalConstExp, hbool, memo_known, memo_c]
    exact ih2
  | andFalse _ hb ih1 | orTrue _ hb ih1 =>
    have hbool := bool_eq_some.2 ⟨ih1.1, ih1.2.symm ▸ hb⟩
    simp only [evalConstExp, hbool, memo_known, memo_c, and_self]
  | unprimop _ hop ih =>
    simp only [evalConstExp, ih.1, ih.2, if_true, hop, memo_known, memo_c, and_self]
  | binprimop _ _ hop ih1 ih2 =>
    simp only [evalConstExp, ih1.1, ih1.2, ih2.1, ih2.2, Bool.and_self, if_true, hop, memo_known,
      memo_c, and_self]
  | cast _ ih => simp only [evalConstExp, ih.1, ih.2, if_true, memo_known, memo_c, and_self]
  | enum _ ih => simpa only [evalConstExp, memo_known, memo_c] using ih
  | valueof _ ih => exact ih

/-- A known constant is found by the rules. -/
theorem folds_of_known (e : Exp X T) (h : (evalConstExp e).known = true) :
    Folds e (evalConstExp e).c := by
  -- the cases are the branches of `evalConstExp`
  fun_induction evalConstExp e
  all_goals simp only [memo_known, memo_c, Folded.unknown] at h ⊢
  case case2 => exact .const
  case case3 => exact .pragma
  case case5 hb ih1 ih2 _ =>
    exact .condTrue (ih1 (bool_eq_some.1 hb).1) (bool_eq_some.1 hb).2 (ih2 h)
  case case6 hb ih1 _ ih3 =>
    exact .condFalse (ih1 (bool_eq_some.1 hb).1) (bool_eq_some.1 hb).2 (ih3 h)
  case case8 hb ih1 ih2 =>
    exact .andTrue (ih1 (bool_eq_some.1 hb).1) (bool_eq_some.1 hb).2 (ih2 h)
  case case9 hb ih1 _ => exact .andFalse (ih1 (bool_eq_some.1 hb).1) (bool_eq_some.1 hb).2
  case case11 hb ih1 ih2 =>
    exact .orFalse (ih1 (bool_eq_some.1 hb).1) (bool_eq_some.1 hb).2 (ih2 h)
  case case12 hb ih1 _ => exact .orTrue (ih1 (bool_eq_some.1 hb).1) (bool_eq_some.1 hb).2
  case case14 hop ih =>
    obtain ⟨hknown, hop⟩ := Option.ite_none_right_eq_some.1 hop
    exact .unprimop (ih hknown) hop
  case case16 hop ih1 ih2 =>
    obtain ⟨hknown, hop⟩ := Option.ite_none_right_eq_some.1 hop
    obtain ⟨h1, h2⟩ := Bool.and_eq_true_iff.1 hknown
    exact .binprimop (ih1 h1) (ih2 h2) hop
  case case17 ih => exact .valueof (ih h)
  case case18 hknown ih => exact .cast (ih hknown)
  case case20 ih => exact .enum (ih h)
  all_goals cases h

/-- Pragmas are not replaced by their constant, and neither is `valueof`. -/
def Exp.isReplaced : Exp X T → Bool
  | .pragma _ _ | .valueof _ _ => false
  | _ => true

/-- A known constant replaces the expression. -/
theorem evalConstExp_exp (hknown : (evalConstExp e).known = true)
    (hrep : e.isReplaced = true) : (evalConstExp e).exp = .const (evalConstExp e).c e.topt := by
  have hfolds := folds_of_known e hknown
  generalize (evalConstExp e).c = c at hfolds
  cases hfolds with
  | const => rfl
  | pragma | valueof => cases hrep
  | condTrue h1 hb h2 | condFalse h1 hb h2 | andTrue h1 hb h2 | orFalse h1 hb h2 =>
    have hbool := bool_eq_some.2 ⟨h1.eval.1, h1.eval.2.symm ▸ hb⟩
    simp only [evalConstExp, hbool, h2.eval.1, h2.eval.2, memo_exp, Exp.topt]
  | andFalse h1 hb | orTrue h1 hb =>
    have hbool := bool_eq_some.2 ⟨h1.eval.1, h1.eval.2.symm ▸ hb⟩
    simp only [evalConstExp, hbool, memo_exp, Exp.topt]
  | unprimop h hop =>
    simp only [evalConstExp, h.eval.1, h.eval.2, if_true, hop, memo_exp, Exp.topt]
  | binprimop h1 h2 hop =>
    simp only [evalConstExp, h1.eval.1, h1.eval.2, h2.eval.1, h2.eval.2, Bool.and_self, if_true,
      hop, memo_exp, Exp.topt]
  | cast h => simp only [evalConstExp, h.eval.1, h.eval.2, if_true, memo_exp, Exp.topt]
  | enum h => simp only [evalConstExp, h.eval.1, h.eval.2, memo_exp, Exp.topt]

/-! ## Constants as numbers -/

/-- The `int` that C makes of a constant; there is none to tell for strings and floating point. -/
def constWord : Cnst → Option (BitVec 32)
  | .null => some 0
  | .char _ c => some (c.signExtend 32)
  | .short _ s => some (s.signExtend 32)
  | .int _ i => some i
  | .longLong _ x => some (x.setWidth 32)
  | .float _ _ | .wchar _ | .string _ | .wstring _ => none

/-- The constant is an integer whose upper half, if it has one, is `0` or `-1`. -/
def Fits32 : Cnst → Prop
  | .null | .char _ _ | .short _ _ | .int _ _ => True
  | .longLong _ x => (x >>> 32).setWidth 32 = (0xffffffff : BitVec 32) ∨
      (x >>> 32).setWidth 32 = (0 : BitVec 32)
  | .float _ _ | .wchar _ | .string _ | .wstring _ => False

theorem uintOfConst_of_fits (h : Fits32 c) :
    ∃ w, constWord c = some w ∧ uintOfConst c = some (w, true) := by
  cases c with
  | null | char | short | int => exact ⟨_, rfl, rfl⟩
  | longLong sn x =>
    refine ⟨_, rfl, ?_⟩
    have hnot : ¬ ((x >>> 32).setWidth 32 ≠ (0xffffffff : BitVec 32) ∧
        (x >>> 32).setWidth 32 ≠ (0 : BitVec 32)) := by
      rw [not_and_or, not_not, not_not]
      exact h
    simp only [uintOfConst, promoteConst, if_neg hnot]
  | float | wchar | string | wstring => exact h.elim

theorem uintOfConst_of_not_fits (h : ¬ Fits32 c) :
    uintOfConst c = some (0, false) ∨ uintOfConst c = none := by
  cases c with
  | null | char | short | int => exact (h trivial).elim
  | longLong sn x =>
    left
    have hnot : (x >>> 32).setWidth 32 ≠ (0xffffffff : BitVec 32) ∧
        (x >>> 32).setWidth 32 ≠ (0 : BitVec 32) := not_or.1 h
    simp only [uintOfConst, promoteConst, if_pos hnot]
  | float => exact .inl rfl
  | wchar | string | wstring => exact .inr rfl

@[simp] theorem evalConstUintExp_exp (e : Exp X T) :
    (evalConstUintExp e).exp = (evalConstExp e).exp := by
  simp only [evalConstUintExp]
  split
  · rfl
  · split <;> rfl

/-- A known number is that of the constant that the rules find. -/
theorem evalConstUintExp_known (hknown : (evalConstUintExp e).known = true)
    (herrs : (evalConstUintExp e).errs = []) :
    ∃ c, Folds e c ∧ (evalConstExp e).known = true ∧ (evalConstExp e).c = c ∧
      constWord c = some (evalConstUintExp e).i := by
  cases hk : (evalConstExp e).known with
  | false => simp [evalConstUintExp, hk] at hknown
  | true =>
    refine ⟨_, folds_of_known e hk, rfl, rfl, ?_⟩
    by_cases hfits : Fits32 (evalConstExp e).c
    · obtain ⟨w, hword, huint⟩ := uintOfConst_of_fits hfits
      simp [evalConstUintExp, hk, huint, hword]
    · rcases uintOfConst_of_not_fits hfits with huint | huint
      · simp [evalConstUintExp, huint] at hknown
      · simp [evalConstUintExp, hk, huint] at herrs

end ConcurrentCyclone.Absyn
