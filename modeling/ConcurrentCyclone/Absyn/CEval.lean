import ConcurrentCyclone.CLang.Integers
import ConcurrentCyclone.Absyn.Evexp

/-!
# Constant expressions in C

What C makes of an integer constant expression on a 32-bit target: its type (`Exp.cTy`) and, where
the evaluation is defined, its value (`Exp.cVal`). The constant evaluator keeps a constant with a
sign in the place of type and value, and computes some operations by other rules: it takes `&&` and
`||` for the value of their second operand and casts for reading the bits with another sign, and it
gives the bit operations an unsigned and the negation a signed result. `Exp.bitsRight` says for each
operation when the evaluator computes C's bits all the same, and `Exp.exact` when the constant has
C's value and signedness.
-/

set_option autoImplicit false

namespace ConcurrentCyclone.Absyn

open CLang

variable {X T : Type}

/-! ## Types and values of C -/

/-- The type of a literal. -/
def Cnst.intTy : Cnst → Option IntTy
  | .char sn _ => some ⟨sn = .unsigned, 8⟩
  | .short sn _ => some ⟨sn = .unsigned, 16⟩
  | .int sn _ => some ⟨sn = .unsigned, 32⟩
  | .longLong sn _ => some ⟨sn = .unsigned, 64⟩
  | _ => none

/-- The value of a literal. -/
def Cnst.intVal : Cnst → Option Int
  | .char sn x => some (ofBits (sn = .unsigned) x)
  | .short sn x => some (ofBits (sn = .unsigned) x)
  | .int sn x => some (ofBits (sn = .unsigned) x)
  | .longLong sn x => some (ofBits (sn = .unsigned) x)
  | _ => none

/-- The type of an operation with one operand of the promoted type. -/
def unopTy (p : Primop) (τ : IntTy) : Option IntTy :=
  match p with
  | .plus | .minus | .bitnot => some τ
  | .not => some .int
  | _ => none

/-- The type of an operation with two operands of the promoted types. -/
def binopTy (p : Primop) (τ₁ τ₂ : IntTy) : Option IntTy :=
  match p with
  | .plus | .times | .minus | .div | .mod | .bitand | .bitor | .bitxor => some (τ₁.usual τ₂)
  | .bitlshift | .bitlrshift => some τ₁
  | .eq | .neq | .gt | .lt | .gte | .lte => some .int
  | _ => none

/-- The integer type of a type. -/
def Typ.intTy : Typ X T → Option IntTy
  | .int sn sz => some ⟨sn = .unsigned, 8 * sz.bytes⟩
  | _ => none

/-- The type of an integer constant expression. -/
def Exp.cTy : Exp X T → Option IntTy
  | .const c _ => c.intTy
  | .primop₁ p e _ => e.cTy.bind fun τ => unopTy p τ.promote
  | .primop₂ p e₁ e₂ _ =>
    e₁.cTy.bind fun τ₁ => e₂.cTy.bind fun τ₂ => binopTy p τ₁.promote τ₂.promote
  | .conditional e₁ e₂ e₃ _ =>
    e₁.cTy.bind fun _ => e₂.cTy.bind fun τ₂ => e₃.cTy.bind fun τ₃ =>
      some (τ₂.promote.usual τ₃.promote)
  | .and e₁ e₂ _ | .or e₁ e₂ _ => e₁.cTy.bind fun _ => e₂.cTy.bind fun _ => some .int
  | .cast t e _ => e.cTy.bind fun _ => t.intTy
  | _ => none

/-- `0` or `1`. -/
def truth (b : Bool) : Int := if b then 1 else 0

/-- The value of an operation with one operand of the promoted type. -/
def unopVal (p : Primop) (τ : IntTy) (v : Int) : Option Int :=
  match p with
  | .plus => some v
  | .minus => τ.arith (-v)
  | .bitnot => some (τ.convert (-v - 1))
  | .not => some (truth (v = 0))
  | _ => none

/-- A bit operation in the type. -/
def bitVal (τ : IntTy) (f : BitVec τ.width → BitVec τ.width → BitVec τ.width) (v₁ v₂ : Int) : Int :=
  ofBits τ.unsigned (f (BitVec.ofInt τ.width v₁) (BitVec.ofInt τ.width v₂))

/-- The value of an operation in the common type of its operands. -/
def commonVal (p : Primop) (τ : IntTy) (v₁ v₂ : Int) : Option Int :=
  match p with
  | .plus => τ.arith (v₁ + v₂)
  | .times => τ.arith (v₁ * v₂)
  | .minus => τ.arith (v₁ - v₂)
  | .div => if v₂ = 0 then none else τ.arith (v₁.tdiv v₂)
  | .mod => if v₂ = 0 ∨ ¬ τ.InRange (v₁.tdiv v₂) then none else some (v₁.tmod v₂)
  | .eq => some (truth (v₁ = v₂))
  | .neq => some (truth (v₁ ≠ v₂))
  | .gt => some (truth (v₂ < v₁))
  | .lt => some (truth (v₁ < v₂))
  | .gte => some (truth (v₂ ≤ v₁))
  | .lte => some (truth (v₁ ≤ v₂))
  | .bitand => some (bitVal τ (· &&& ·) v₁ v₂)
  | .bitor => some (bitVal τ (· ||| ·) v₁ v₂)
  | .bitxor => some (bitVal τ (· ^^^ ·) v₁ v₂)
  | _ => none

/-- The value of an operation with two operands of the promoted types. A shift is defined for counts
below the width; a negative number is not shifted to the left, and is shifted to the right with its
sign. -/
def binopVal (p : Primop) (τ₁ τ₂ : IntTy) (v₁ v₂ : Int) : Option Int :=
  let counts := 0 ≤ v₂ ∧ v₂ < τ₁.width
  match p with
  | .bitlshift => if counts ∧ 0 ≤ v₁ then τ₁.arith (v₁ * 2 ^ v₂.toNat) else none
  | .bitlrshift => if counts then some (v₁ / 2 ^ v₂.toNat) else none
  | p => commonVal p (τ₁.usual τ₂) ((τ₁.usual τ₂).convert v₁) ((τ₁.usual τ₂).convert v₂)

/-- The value of an integer constant expression; `none` if the evaluation is not defined. Operands
that C does not evaluate need not be defined. -/
def Exp.cVal : Exp X T → Option Int
  | .const c _ => c.intVal
  | .primop₁ p e _ => e.cTy.bind fun τ => e.cVal.bind fun v => unopVal p τ.promote v
  | .primop₂ p e₁ e₂ _ =>
    e₁.cTy.bind fun τ₁ => e₂.cTy.bind fun τ₂ => e₁.cVal.bind fun v₁ => e₂.cVal.bind fun v₂ =>
      binopVal p τ₁.promote τ₂.promote v₁ v₂
  | .conditional e₁ e₂ e₃ _ =>
    e₂.cTy.bind fun τ₂ => e₃.cTy.bind fun τ₃ => e₁.cVal.bind fun v₁ =>
      (if v₁ ≠ 0 then e₂.cVal else e₃.cVal).map (τ₂.promote.usual τ₃.promote).convert
  | .and e₁ e₂ _ =>
    e₁.cVal.bind fun v₁ => if v₁ = 0 then some 0 else e₂.cVal.map fun v₂ => truth (v₂ ≠ 0)
  | .or e₁ e₂ _ =>
    e₁.cVal.bind fun v₁ => if v₁ ≠ 0 then some 1 else e₂.cVal.map fun v₂ => truth (v₂ ≠ 0)
  | .cast t e _ => t.intTy.bind fun τ => e.cVal.map τ.convert
  | _ => none

/-! ## Constants that the evaluator has

Type and value of a constant are its bits, its sign and its size. The sign and the size follow from
the form of the expression. -/

/-- The sign and the size of a constant. -/
def Cnst.shape : Cnst → Option (Sign × Nat)
  | .char sn _ => some (sn, 8)
  | .short sn _ => some (sn, 16)
  | .int sn _ => some (sn, 32)
  | .longLong sn _ => some (sn, 64)
  | _ => none

def unopShape (p : Primop) (κ : Sign × Nat) : Sign × Nat :=
  match p with
  | .plus => κ
  | .bitnot => (.unsigned, κ.2)
  | _ => (.signed, κ.2)

/-- One of the operands is unsigned. -/
def hasUArg (κ₁ κ₂ : Sign × Nat) : Bool := κ₁.1 = .unsigned ∨ κ₂.1 = .unsigned

def binopShape (p : Primop) (u : Bool) : Sign × Nat :=
  match p with
  | .eq | .neq | .gt | .lt | .gte | .lte => (.signed, 32)
  | .bitand | .bitor | .bitxor | .bitlshift | .bitlrshift => (.unsigned, 32)
  | _ => (if u then .unsigned else .signed, 32)

def castShape (sn : Sign) (κ : Sign × Nat) : Sign × Nat :=
  if κ.2 ≤ 32 ∧ sn ≠ κ.1 then (sn, 32) else κ

/-- The sign and the size of the constant that is found for an expression. -/
def Exp.shape : Exp X T → Option (Sign × Nat)
  | .const c _ => c.shape
  | .primop₁ p e _ => e.shape.map (unopShape p)
  | .primop₂ p e₁ e₂ _ =>
    e₁.shape.bind fun κ₁ => e₂.shape.map fun κ₂ => binopShape p (hasUArg κ₁ κ₂)
  | .conditional e₁ e₂ e₃ _ => e₁.cVal.bind fun v₁ => if v₁ ≠ 0 then e₂.shape else e₃.shape
  | .and e₁ e₂ _ => e₁.cVal.bind fun v₁ => if v₁ = 0 then some (.signed, 32) else e₂.shape
  | .or e₁ e₂ _ => e₁.cVal.bind fun v₁ => if v₁ ≠ 0 then some (.signed, 32) else e₂.shape
  | .cast (.int sn _) e _ => e.shape.map (castShape sn)
  | _ => none

/-! ## Operations that the evaluator computes right

For each operation, what has to be asked of its operands so that its constant has the bits of C's
value. A constant has 32 bits when it is used, or 64. -/

/-- Unsigned characters and shorts are extended with their sign. -/
def Cnst.extendsRight : Cnst → Bool
  | .char sn x => sn ≠ .unsigned || !x.msb
  | .short sn x => sn ≠ .unsigned || !x.msb
  | .int _ _ | .longLong _ _ => true
  | _ => false

/-- The conversion to the type keeps the bits of the value. -/
def keepsBits (m : Nat) (τ : IntTy) (v : Int) : Bool :=
  BitVec.ofInt m (τ.convert v) = BitVec.ofInt m v

/-- The bits are zero only for zero. -/
def truthRight (κ : Sign × Nat) (v : Int) : Bool := v = 0 || BitVec.ofInt (max 32 κ.2) v ≠ 0

/-- An operand of the promoted type `τ`. Characters and shorts are negated in their own size. -/
def unopRight (p : Primop) (κ : Sign × Nat) (τ : IntTy) (v : Int) : Bool :=
  match p with
  | .plus => true
  | .minus => keepsBits (max 32 κ.2) τ (-v) && (32 ≤ κ.2 || BitVec.ofInt κ.2 v ≠ .intMin κ.2)
  | .bitnot => keepsBits (max 32 κ.2) τ (-v - 1)
  | .not => truthRight κ v
  | _ => false

/-- Two operands of the promoted types. Sums, products and bit operations are right for all; where
the sign matters, the evaluator has to read the operands as C does in the common type. A negative
number is not shifted to the right with its sign. -/
def binopRight (p : Primop) (u : Bool) (τ₁ τ₂ : IntTy) (v₁ v₂ : Int) : Bool :=
  let τ := τ₁.usual τ₂
  let reads v := IntTy.convert ⟨u, 32⟩ v = τ.convert v
  match p with
  | .plus | .times | .minus | .bitand | .bitor | .bitxor => true
  | .div | .mod | .gt | .lt | .gte | .lte => reads v₁ ∧ reads v₂
  | .eq | .neq => τ.width = 32 ∨ reads v₁ ∧ reads v₂
  | .bitlshift => v₂ < 32
  | .bitlrshift => v₂ < 32 ∧ (v₂ = 0 ∨ 0 ≤ v₁ ∧ v₁ < 2 ^ 32)
  | _ => false

/-- The constant has the bits of C's value. The value of a conditional is converted to its type; the
second operand of `&&` and `||`, if it is evaluated, has to be `0` or `1`. -/
def Exp.bitsRight : Exp X T → Bool
  | .const c _ => c.extendsRight
  | .primop₁ p e _ =>
    e.bitsRight && e.shape.any fun κ => e.cTy.any fun τ => e.cVal.any fun v =>
      unopRight p κ τ.promote v
  | .primop₂ p e₁ e₂ _ =>
    e₁.bitsRight && e₂.bitsRight && e₁.shape.any fun κ₁ => e₂.shape.any fun κ₂ =>
      e₁.cTy.any fun τ₁ => e₂.cTy.any fun τ₂ => e₁.cVal.any fun v₁ => e₂.cVal.any fun v₂ =>
        binopRight p (hasUArg κ₁ κ₂) τ₁.promote τ₂.promote v₁ v₂
  | .conditional e₁ e₂ e₃ τ =>
    e₁.bitsRight && e₁.shape.any fun κ₁ => e₁.cVal.any fun v₁ => truthRight κ₁ v₁ &&
      (Exp.conditional e₁ e₂ e₃ τ).cTy.any fun τ =>
        if v₁ ≠ 0 then
          e₂.bitsRight && e₂.shape.any fun κ => e₂.cVal.any (keepsBits (max 32 κ.2) τ)
        else e₃.bitsRight && e₃.shape.any fun κ => e₃.cVal.any (keepsBits (max 32 κ.2) τ)
  | .and e₁ e₂ _ =>
    e₁.bitsRight && e₁.shape.any fun κ₁ => e₁.cVal.any fun v₁ => truthRight κ₁ v₁ &&
      (v₁ = 0 || e₂.bitsRight && e₂.cVal.any fun v₂ => v₂ = 0 || v₂ = 1)
  | .or e₁ e₂ _ =>
    e₁.bitsRight && e₁.shape.any fun κ₁ => e₁.cVal.any fun v₁ => truthRight κ₁ v₁ &&
      (v₁ ≠ 0 || e₂.bitsRight && e₂.cVal.any fun v₂ => v₂ = 0 || v₂ = 1)
  | .cast t e _ =>
    e.bitsRight && t.intTy.any fun τ => e.shape.any fun κ => e.cVal.any (keepsBits (max 32 κ.2) τ)
  | _ => false

/-- A constant of this sign and size that has the bits of the value has the value. -/
def shapeFits (κ : Sign × Nat) (v : Int) : Bool :=
  if κ.1 = .unsigned then IntTy.InRange ⟨true, κ.2⟩ v else IntTy.InRange ⟨false, max 32 κ.2⟩ v

/-- The constant has the right bits, C's sign and a size that the value fits. -/
def Exp.fits (e : Exp X T) : Bool :=
  e.bitsRight && e.shape.any fun κ =>
    e.cTy.any (fun τ => decide (κ.1 = .unsigned) = τ.unsigned) && e.cVal.any (shapeFits κ)

/-- The constant has C's value and signedness. A literal has them in any case, and a cast to a type
of the same sign that can represent the value leaves them as they are. -/
def Exp.exact : Exp X T → Bool
  | .const _ _ => true
  | .cast t e τ =>
    (Exp.cast t e τ).fits || e.exact && t.intTy.any fun τ' =>
      e.cTy.any (fun τ₁ => τ₁.unsigned = τ'.unsigned) && e.cVal.any fun v => τ'.convert v = v
  | e => e.fits

/-- The constant has the value, and is unsigned or not. -/
def Cnst.Is (c : Cnst) (unsigned : Bool) (v : Int) : Prop :=
  c.intTy.map IntTy.unsigned = some unsigned ∧ c.intVal = some v

end ConcurrentCyclone.Absyn
