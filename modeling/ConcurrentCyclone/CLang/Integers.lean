import Mathlib.Data.BitVec
import Mathlib.Algebra.Ring.Int.Defs

/-!
# Integer types of C

An integer type is given by its width and its signedness. The file has the integer promotions and
the usual arithmetic conversions for a target whose `int` has 32 bits, the conversion of a value to
a type, and the result of an arithmetic operation: it is taken modulo `2 ^ width` for an unsigned
type, and undefined for a signed type when the type cannot represent it. A conversion to a signed
type keeps the low bits, which C leaves to the implementation.

`ofBits u x` is the value of the bits `x` read as an unsigned or a signed number. A value of a type
is determined by its bits (`convert_eq_ofBits`, `arith_eq_some`).
-/

set_option autoImplicit false

namespace ConcurrentCyclone.CLang

/-- An integer type. -/
structure IntTy where
  unsigned : Bool
  width : Nat
  deriving DecidableEq

namespace IntTy

/-- The type can represent the value. -/
def InRange (τ : IntTy) (v : Int) : Prop :=
  if τ.unsigned then 0 ≤ v ∧ v < 2 ^ τ.width else -2 ^ (τ.width - 1) ≤ v ∧ v < 2 ^ (τ.width - 1)

instance (τ : IntTy) (v : Int) : Decidable (τ.InRange v) :=
  inferInstanceAs (Decidable (ite (τ.unsigned = true) (0 ≤ v ∧ v < 2 ^ τ.width)
    (-2 ^ (τ.width - 1) ≤ v ∧ v < 2 ^ (τ.width - 1))))

/-- `int`. -/
def int : IntTy := ⟨false, 32⟩

/-- The integer promotions: `int` can represent the values of every narrower type. -/
def promote (τ : IntTy) : IntTy := if τ.width < 32 then int else τ

/-- The usual arithmetic conversions of two promoted types. A wider type can represent the values of
a narrower one. -/
def usual (τ₁ τ₂ : IntTy) : IntTy :=
  if τ₁.width = τ₂.width then ⟨τ₁.unsigned || τ₂.unsigned, τ₁.width⟩
  else if τ₁.width < τ₂.width then τ₂ else τ₁

/-- The conversion of a value to the type. -/
def convert (τ : IntTy) (v : Int) : Int :=
  if τ.unsigned then v % 2 ^ τ.width else v.bmod (2 ^ τ.width)

/-- The result of an arithmetic operation in the type. -/
def arith (τ : IntTy) (v : Int) : Option Int :=
  if τ.unsigned then some (v % 2 ^ τ.width) else if τ.InRange v then some v else none

end IntTy

/-- The value of the bits. -/
def ofBits (unsigned : Bool) {w : Nat} (x : BitVec w) : Int := if unsigned then x.toNat else x.toInt

@[simp] theorem ofBits_true {w : Nat} (x : BitVec w) : ofBits true x = x.toNat := rfl

@[simp] theorem ofBits_false {w : Nat} (x : BitVec w) : ofBits false x = x.toInt := rfl

variable {u : Bool} {w : Nat}

theorem ofInt_ofBits (x : BitVec w) : BitVec.ofInt w (ofBits u x) = x := by
  cases u with
  | true | false => simp

theorem ofBits_eq_zero_iff {x : BitVec w} : ofBits u x = 0 ↔ x = 0 := by
  constructor
  · intro h
    rw [← ofInt_ofBits (u := u) x, h]
    simp
  · rintro rfl
    cases u <;> simp

theorem ofBits_inj {x y : BitVec w} : ofBits u x = ofBits u y ↔ x = y := by
  constructor
  · intro h
    rw [← ofInt_ofBits (u := u) x, h, ofInt_ofBits]
  · rintro rfl
    rfl

theorem convert_eq_ofBits (v : Int) : IntTy.convert ⟨u, w⟩ v = ofBits u (BitVec.ofInt w v) := by
  cases u with
  | true =>
    have hpos : (0 : Int) < 2 ^ w := Int.pow_pos (by decide)
    rw [IntTy.convert]
    exact (Int.toNat_of_nonneg (Int.emod_nonneg v hpos.ne')).symm
  | false => rw [IntTy.convert, if_neg Bool.false_ne_true, ofBits_false, BitVec.toInt_ofInt]

theorem setWidth_ofInt {m : Nat} (hm : m ≤ w) (v : Int) :
    (BitVec.ofInt w v).setWidth m = BitVec.ofInt m v := by
  refine BitVec.eq_of_toInt_eq ?_
  have hpos : ((2 ^ w : Nat) : Int) ≠ 0 := Int.natCast_ne_zero.2 (Nat.two_pow_pos w).ne'
  rw [BitVec.toInt_setWidth, BitVec.toInt_ofInt, BitVec.toNat_ofInt,
    Int.toNat_of_nonneg (Int.emod_nonneg _ hpos)]
  simp only [Int.bmod, Int.emod_emod_of_dvd v (Int.natCast_dvd_natCast.2 (Nat.pow_dvd_pow 2 hm))]

/-- The low bits of a value of a type. -/
theorem ofInt_ofBits_of_le {m : Nat} (hm : m ≤ w) (x : BitVec w) :
    BitVec.ofInt m (ofBits u x) = x.setWidth m := by
  rw [← setWidth_ofInt hm, ofInt_ofBits]

/-- A conversion keeps the low bits. -/
theorem ofInt_convert {m : Nat} {τ : IntTy} (hm : m ≤ τ.width) (v : Int) :
    BitVec.ofInt m (τ.convert v) = BitVec.ofInt m v := by
  obtain ⟨u, w⟩ := τ
  rw [convert_eq_ofBits, ofInt_ofBits_of_le hm, setWidth_ofInt hm]

/-- A value that the type can represent is unchanged by the conversion. -/
theorem convert_of_inRange {v : Int} (hw : 0 < w) (h : IntTy.InRange ⟨u, w⟩ v) :
    IntTy.convert ⟨u, w⟩ v = v := by
  cases u with
  | true =>
    exact Int.emod_eq_of_lt h.1 h.2
  | false =>
    rw [IntTy.InRange, if_neg Bool.false_ne_true] at h
    obtain ⟨n, rfl⟩ : ∃ n, w = n + 1 := ⟨w - 1, by omega⟩
    simp only [Nat.add_sub_cancel] at h
    have hpow : ((2 ^ (n + 1) : Nat) : Int) = 2 * 2 ^ n := by
      rw [Int.mul_comm]
      norm_cast
    refine Int.bmod_eq_of_le_mul_two ?_ ?_ <;> rw [hpow] <;> omega

/-- A defined result has the low bits of the exact one. -/
theorem arith_eq_some {v r : Int} (hw : 0 < w) (h : IntTy.arith ⟨u, w⟩ v = some r) :
    r = ofBits u (BitVec.ofInt w v) := by
  rw [← convert_eq_ofBits]
  cases u with
  | true =>
    exact (Option.some.inj h).symm
  | false =>
    rw [IntTy.arith, if_neg Bool.false_ne_true] at h
    split_ifs at h with hrange
    rw [convert_of_inRange hw hrange]
    exact (Option.some.inj h).symm

end ConcurrentCyclone.CLang
