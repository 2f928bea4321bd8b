import Mathlib.Data.Int.Basic
import Mathlib.Tactic.Ring

/-!
# C integer conversions

The counts of a key are `unsigned short` fields that part of the code reads and writes through a
`short *`. A field is a `BitVec 16`: `toNat` is the value read as `unsigned short`, `toInt` the
value read as `short`. `addShort x d` is the assignment `*p += d` of an `int` to such a field, and
`int32` the value an `int` expression has after wrapping to 32 bits. Code that computes with
addresses is modelled on words of 32 bits.
-/

set_option autoImplicit false

namespace ConcurrentCyclone.Runtime

/-- An address, an `unsigned` or an `int` of a 32-bit target. -/
abbrev Word := BitVec 32

/-- The value of an `int` expression whose exact value is `x`. -/
def int32 (x : Int) : Int := Int.bmod x (2 ^ 32)

/-- `*p += d` on a 16-bit field. -/
def addShort (x : BitVec 16) (d : Int) : BitVec 16 := x + BitVec.ofInt 16 d

theorem int32_of_range {x : Int} (h1 : -2147483648 ≤ x) (h2 : x < 2147483648) : int32 x = x := by
  exact Int.bmod_eq_of_le (by omega) (by omega)

/-- A difference of two `int`s wraps to zero only if it is zero. -/
theorem int32_eq_zero {x : Int} (h1 : -4294967296 < x) (h2 : x < 4294967296) :
    int32 x = 0 ↔ x = 0 := by
  rw [int32, Int.bmod]
  split_ifs
  · omega
  · omega

theorem toInt_addShort (x : BitVec 16) (d : Int) :
    (addShort x d).toInt = (x.toInt + d).bmod (2 ^ 16) := by
  rw [addShort]
  simp

@[simp] theorem addShort_zero (x : BitVec 16) : addShort x 0 = x := by
  simp [addShort]

variable {x : BitVec 16} {d : Int}

/-- A sum that fits in a `short` is stored exactly. -/
theorem toInt_addShort_of_range (h1 : -32768 ≤ x.toInt + d)
    (h2 : x.toInt + d < 32768) : (addShort x d).toInt = x.toInt + d := by
  rw [toInt_addShort]
  exact Int.bmod_eq_of_le (by omega) (by omega)

theorem toInt_eq_zero_iff : x.toInt = 0 ↔ x = 0 := by
  rw [← BitVec.toInt_inj]
  simp

/-- A stored sum is zero exactly when the exact sum is a multiple of `2 ^ 16`; in the range of a
`short` that is the sum zero. -/
theorem addShort_eq_zero_iff (h1 : -32768 ≤ x.toInt + d)
    (h2 : x.toInt + d < 32768) : addShort x d = 0 ↔ x.toInt + d = 0 := by
  rw [← toInt_eq_zero_iff, toInt_addShort_of_range h1 h2]

/-- A non-negative `short` reads the same as an `unsigned short`. -/
theorem toInt_eq_toNat_of_nonneg (h : 0 ≤ x.toInt) : x.toInt = x.toNat := by
  rw [BitVec.toInt_eq_toNat_cond] at h ⊢
  split at h <;> omega

/-- A sum that fits in an `unsigned short` is stored exactly. -/
theorem toNat_addShort_of_range (h1 : 0 ≤ x.toNat + d)
    (h2 : x.toNat + d < 65536) : ((addShort x d).toNat : Int) = x.toNat + d := by
  rw [addShort, BitVec.toNat_add, BitVec.toNat_ofInt]
  omega

/-- Adding the negated `unsigned short` value of a field clears it. -/
theorem addShort_neg_toNat (x : BitVec 16) : addShort x (-(x.toNat : Int)) = 0 := by
  rw [addShort, BitVec.ofInt_neg, BitVec.ofInt_natCast, BitVec.ofNat_toNat]
  exact BitVec.add_right_neg x

end ConcurrentCyclone.Runtime
