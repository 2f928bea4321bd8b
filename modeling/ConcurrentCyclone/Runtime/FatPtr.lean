import ConcurrentCyclone.Runtime.CInt
import Mathlib.Data.Int.ModEq
import Mathlib.Data.Int.GCD

/-!
# Fat pointers

A fat pointer is a current address with the bounds of its object (`struct _fat_ptr`). Arithmetic
moves only the current address and is checked when the pointer is used: `_check_fat_subscript` and
`_untag_fat_ptr` compare addresses with the bounds (`lib/cyc_include.h`, `lib/runtime_zeroterm.c`).

Addresses and `unsigned` are 32-bit words, and all arithmetic wraps. A product of an element size
and an index can therefore end up inside of the bounds and between two elements: the multiples of an
element size, taken modulo `2 ^ 32`, repeat only after `period` steps, and hit every multiple of
`gcd (2 ^ 32) size` before that.
-/

set_option autoImplicit false

namespace ConcurrentCyclone.Runtime

open BitVec (toNat_add toNat_mul le_def not_lt)

/-- `struct _fat_ptr`. -/
structure FatPtr where
  curr : Word
  base : Word
  lastPlusOne : Word
  deriving DecidableEq

/-- `_tag_fat`. -/
def tagFat (tcurr eltSz numElts : Word) : FatPtr where
  curr := tcurr
  base := tcurr
  lastPlusOne := if tcurr ≠ 0 then tcurr + eltSz * numElts else 0

/-- `_fat_ptr_plus`. -/
def fatPtrPlus (arr : FatPtr) (eltSz change : Word) : FatPtr :=
  { arr with curr := arr.curr + eltSz * change }

/-- `_fat_ptr_decrease_size`. -/
def fatPtrDecreaseSize (x : FatPtr) (sz numelts : Word) : FatPtr :=
  let delta := sz * numelts
  if delta ≤ x.lastPlusOne - x.base then { x with lastPlusOne := x.lastPlusOne - delta }
  else { x with lastPlusOne := x.base }

/-- `_check_fat_subscript`; `none` is the exception. -/
def checkFatSubscript (arr : FatPtr) (eltSz index : Word) : Option Word :=
  let ans := arr.curr + eltSz * index
  if ans < arr.base ∨ arr.lastPlusOne ≤ ans then none else some ans

/-- `_untag_fat_ptr`. -/
def untagFatPtr (arr : FatPtr) (eltSz numElts : Word) : Option Word :=
  if (arr.curr < arr.base ∨ arr.lastPlusOne < arr.curr + eltSz * numElts) ∧ arr.curr ≠ 0 then none
  else some arr.curr

/-- The operations that make a fat pointer from a fat pointer. -/
inductive FatOp where
  | plus (change : Word)
  | decreaseSize (numelts : Word)
  deriving DecidableEq

/-- One operation, for a given element size. -/
def FatOp.run (sz : Word) : FatOp → FatPtr → FatPtr
  | .plus change, p => fatPtrPlus p sz change
  | .decreaseSize numelts, p => fatPtrDecreaseSize p sz numelts

/-- The number of elements an operation moves the pointer by. -/
def FatOp.shift : FatOp → Int
  | .plus change => change.toInt
  | .decreaseSize _ => 0

/-- The index of the element the pointer is meant to be at, without wrapping. -/
def position (ops : List FatOp) : Int := (ops.map FatOp.shift).sum

/-! ## Multiples of an element size -/

/-- The number of different multiples of an element size modulo `2 ^ 32`. -/
def period (sz : Word) : Nat := 2 ^ 32 / Nat.gcd (2 ^ 32) sz.toNat

section Period

variable {sz : Word}

theorem gcd_mul_period (sz : Word) : Nat.gcd (2 ^ 32) sz.toNat * period sz = 2 ^ 32 :=
  Nat.mul_div_cancel' (Nat.gcd_dvd_left _ _)

theorem period_pos (sz : Word) : 0 < period sz := by
  apply Nat.pos_of_ne_zero
  intro hzero
  have h := gcd_mul_period sz
  rw [hzero, Nat.mul_zero] at h
  exact absurd h (by decide)

/-- Two multiples are equal modulo `2 ^ 32` if the factors are equal modulo the period. -/
theorem mul_modEq_iff {x y : Int} :
    sz.toNat * x ≡ sz.toNat * y [ZMOD 2 ^ 32] ↔ x ≡ y [ZMOD period sz] := by
  have hperiod : (2 ^ 32 : Int) / (Int.gcd (2 ^ 32) sz.toNat : Int) = period sz := by
    simp [period, Int.gcd]
  constructor
  · intro h
    have hcancel := h.cancel_left_div_gcd (by decide)
    rwa [hperiod] at hcancel
  · intro h
    refine (h.mul_left' (c := (sz.toNat : Int))).of_dvd ?_
    -- `2 ^ 32` is the gcd times the period
    rw [show (2 ^ 32 : Int) = (Nat.gcd (2 ^ 32) sz.toNat * period sz : Nat) by
      rw [gcd_mul_period]; rfl]
    push_cast
    exact mul_dvd_mul_right (Int.natCast_dvd_natCast.2 (Nat.gcd_dvd_right _ _)) _

/-- A multiple below `2 ^ 32` has its factor below the period. -/
theorem lt_period {j : Nat} (hpos : 0 < sz.toNat) (hlt : sz.toNat * j < 2 ^ 32) :
    j < period sz := by
  have hle : Nat.gcd (2 ^ 32) sz.toNat ≤ sz.toNat := Nat.gcd_le_right _ hpos
  by_contra hge
  have hmul : Nat.gcd (2 ^ 32) sz.toNat * period sz ≤ sz.toNat * j :=
    Nat.mul_le_mul hle (Nat.le_of_not_lt hge)
  rw [gcd_mul_period] at hmul
  omega

end Period

/-! ## Objects -/

/-- An array of `n` elements, with an address one past its end. -/
structure FatObj where
  base : Word
  sz : Word
  n : Word
  nonnull : base ≠ 0
  fits : base.toNat + sz.toNat * n.toNat < 2 ^ 32

namespace FatObj

variable (o : FatObj)

/-- The fat pointer after tagging the object and some operations. -/
def fat (ops : List FatOp) : FatPtr :=
  ops.foldl (fun p op => op.run o.sz p) (tagFat o.base o.sz o.n)

/-- `k` whole elements of the object start at the address. -/
structure Holds (a : Word) (k : Nat) : Prop where
  aligned : ∃ j : Nat, a.toNat = o.base.toNat + o.sz.toNat * j
  inside : a.toNat + o.sz.toNat * k ≤ o.base.toNat + o.sz.toNat * o.n.toNat

/-- The bounds are those of the object or tighter, and the current address is that of the element
`pos`, wrapped. -/
structure Bounds (pos : Int) (p : FatPtr) : Prop where
  base : p.base = o.base
  above : o.base.toNat ≤ p.lastPlusOne.toNat
  below : p.lastPlusOne.toNat ≤ o.base.toNat + o.sz.toNat * o.n.toNat
  curr : p.curr.toNat ≡ o.base.toNat + o.sz.toNat * pos [ZMOD 2 ^ 32]

end FatObj

section Steps

variable {o : FatObj} {pos : Int} {p : FatPtr}

/-- Adding a product to an address, modulo `2 ^ 32`. -/
theorem toNat_add_mul_modEq (a sz c : Word) :
    ((a + sz * c).toNat : Int) ≡ a.toNat + sz.toNat * c.toInt [ZMOD 2 ^ 32] := by
  have hc : (c.toNat : Int) ≡ c.toInt [ZMOD 2 ^ 32] := by
    rw [BitVec.toInt_eq_toNat_bmod]
    exact Int.bmod_emod.symm
  rw [toNat_add, toNat_mul]
  push_cast
  refine (Int.mod_modEq _ _).trans (Int.ModEq.add_left _ ?_)
  exact (Int.mod_modEq _ _).trans (hc.mul_left _)

theorem FatObj.bounds_tag (o : FatObj) : o.Bounds 0 (tagFat o.base o.sz o.n) := by
  have hfits := o.fits
  have hmul : (o.sz * o.n).toNat = o.sz.toNat * o.n.toNat := by
    exact Nat.mod_eq_of_lt (by omega)
  have hlast : (o.base + o.sz * o.n).toNat = o.base.toNat + o.sz.toNat * o.n.toNat := by
    rw [toNat_add, hmul]
    exact Nat.mod_eq_of_lt hfits
  refine ⟨rfl, ?_, ?_, ?_⟩
  · simp only [tagFat, ne_eq, o.nonnull, not_false_iff, if_true]
    omega
  · simp only [tagFat, ne_eq, o.nonnull, not_false_iff, if_true, hlast]
    exact le_refl _
  · rw [mul_zero]
    exact Int.ModEq.refl _

theorem FatObj.Bounds.plus (hp : o.Bounds pos p) (change : Word) :
    o.Bounds (pos + change.toInt) (fatPtrPlus p o.sz change) := by
  refine { hp with curr := (toNat_add_mul_modEq _ _ _).trans ?_ }
  rw [mul_add, ← add_assoc]
  exact hp.curr.add_right _

/-- Decreasing the size keeps the upper bound between the start and the end of the object, whether
the product wraps or not. -/
theorem FatObj.Bounds.decreaseSize (hp : o.Bounds pos p) (numelts : Word) :
    o.Bounds pos (fatPtrDecreaseSize p o.sz numelts) := by
  have habove := hp.above
  have hbelow := hp.below
  rw [← hp.base] at habove
  unfold fatPtrDecreaseSize
  dsimp only
  split_ifs with hdelta
  · have hdiff : (p.lastPlusOne - p.base).toNat = p.lastPlusOne.toNat - p.base.toNat :=
      BitVec.toNat_sub_of_le habove
    have hle : (o.sz * numelts).toNat ≤ p.lastPlusOne.toNat - p.base.toNat := by
      rw [← hdiff]
      exact hdelta
    have hlast : (p.lastPlusOne - o.sz * numelts).toNat =
        p.lastPlusOne.toNat - (o.sz * numelts).toNat :=
      BitVec.toNat_sub_of_le (le_def.2 (by omega))
    refine ⟨hp.base, ?_, ?_, hp.curr⟩
    · rw [← hp.base, hlast]
      omega
    · rw [hlast]
      omega
  · refine ⟨hp.base, ?_, ?_, hp.curr⟩
    · rw [hp.base]
    · rw [hp.base]
      exact Nat.le_add_right _ _

theorem FatObj.Bounds.run (hp : o.Bounds pos p) (op : FatOp) :
    o.Bounds (pos + op.shift) (op.run o.sz p) := by
  cases op with
  | plus change => exact hp.plus change
  | decreaseSize numelts =>
    rw [FatOp.shift, add_zero]
    exact hp.decreaseSize numelts

/-- The bounds and the position after any sequence of operations. -/
theorem FatObj.bounds_fat (o : FatObj) (ops : List FatOp) :
    o.Bounds (position ops) (o.fat ops) := by
  have hrun : ∀ (pos : Int) (p : FatPtr), o.Bounds pos p →
      o.Bounds (pos + position ops) (ops.foldl (fun p op => op.run o.sz p) p) := by
    induction ops with
    | nil =>
      intro pos p hp
      rwa [position, List.map_nil, List.sum_nil, add_zero]
    | cons op ops ih =>
      intro pos p hp
      have h := ih _ _ (hp.run op)
      rwa [add_assoc] at h
  have h := hrun 0 _ o.bounds_tag
  rwa [zero_add] at h

end Steps

/-! ## The checks -/

section Checks

variable {o : FatObj} {pos : Int} {a : Word}

section

variable (ha : a.toNat ≡ o.base.toNat + o.sz.toNat * pos [ZMOD 2 ^ 32])

include ha

/-- The start of an element that is the address of element `pos`, wrapped: the two indices agree
modulo the period. -/
theorem FatObj.index_eq
    (hsz : 0 < o.sz.toNat) {j : Nat} (hj : a.toNat = o.base.toNat + o.sz.toNat * j) :
    pos % period o.sz = j := by
  have hlt : j < period o.sz := lt_period hsz (by have := a.isLt; omega)
  have hsame : (j : Int) ≡ pos [ZMOD period o.sz] := by
    rw [← mul_modEq_iff]
    rw [hj] at ha
    push_cast at ha
    exact ha.add_left_cancel' _
  rw [← hsame.eq]
  exact Int.emod_eq_of_lt (by omega) (by omega)

/-- If `pos` is the index of an element, modulo the period, the address is that of the element. -/
theorem FatObj.aligned_of_le
    (hle : pos % period o.sz ≤ o.n.toNat) : ∃ j : Nat, a.toNat = o.base.toNat + o.sz.toNat * j := by
  have hfits := o.fits
  have hmod : pos % period o.sz ≡ pos [ZMOD period o.sz] := Int.mod_modEq _ _
  have hnonneg : 0 ≤ pos % period o.sz :=
    Int.emod_nonneg _ (Int.natCast_ne_zero.2 (period_pos o.sz).ne')
  obtain ⟨j, hj⟩ := Int.eq_ofNat_of_zero_le hnonneg
  rw [hj] at hle hmod
  have hmul : o.sz.toNat * j ≤ o.sz.toNat * o.n.toNat := Nat.mul_le_mul_left _ (by omega)
  have hcong : ((o.base.toNat + o.sz.toNat * j : Nat) : Int) ≡ a.toNat [ZMOD 2 ^ 32] := by
    push_cast
    exact ((mul_modEq_iff.2 hmod).add_left _).trans ha.symm
  rw [Int.ModEq] at hcong
  exact ⟨j, by omega⟩

/-- For an element size that divides `2 ^ 32`, wrapping does not leave the elements. -/
theorem FatObj.aligned_of_dvd
    (hlow : o.base.toNat ≤ a.toNat) (hdvd : o.sz.toNat ∣ 2 ^ 32) :
    ∃ j : Nat, a.toNat = o.base.toNat + o.sz.toNat * j := by
  have hdvd' : (o.sz.toNat : Int) ∣ 2 ^ 32 := by exact_mod_cast Int.natCast_dvd_natCast.2 hdvd
  have hdiff : (o.sz.toNat : Int) ∣ (a.toNat - o.base.toNat : Nat) := by
    have h := (ha.of_dvd hdvd').dvd
    have hsub := (Int.dvd_sub (Dvd.intro pos rfl) h)
    push_cast [hlow]
    convert hsub using 1
    ring
  obtain ⟨j, hj⟩ := Int.natCast_dvd_natCast.1 hdiff
  exact ⟨j, by omega⟩

end

/-- An element that starts before the end is in the object. -/
theorem FatObj.holds_one (haligned : ∃ j : Nat, a.toNat = o.base.toNat + o.sz.toNat * j)
    (hhigh : a.toNat < o.base.toNat + o.sz.toNat * o.n.toNat) : o.Holds a 1 := by
  obtain ⟨j, hj⟩ := haligned
  have hlt : j < o.n.toNat := Nat.lt_of_mul_lt_mul_left (a := o.sz.toNat) (by omega)
  have hmul : o.sz.toNat * (j + 1) ≤ o.sz.toNat * o.n.toNat := Nat.mul_le_mul_left _ hlt
  rw [Nat.mul_succ] at hmul
  exact ⟨⟨j, hj⟩, by omega⟩

variable {k i : Word}

/-- An end that does not wrap was compared exactly. -/
theorem FatObj.holds_of_end (haligned : ∃ j : Nat, a.toNat = o.base.toNat + o.sz.toNat * j)
    (hend : (a + o.sz * k).toNat ≤ o.base.toNat + o.sz.toNat * o.n.toNat)
    (hwrap : a.toNat + o.sz.toNat * k.toNat < 2 ^ 32) : o.Holds a k.toNat := by
  refine ⟨haligned, ?_⟩
  have hmul : (o.sz * k).toNat = o.sz.toNat * k.toNat := by
    exact Nat.mod_eq_of_lt (by omega)
  rwa [toNat_add, hmul, Nat.mod_eq_of_lt hwrap] at hend

variable {p : FatPtr}

section

variable (hp : o.Bounds pos p)

include hp

/-- An address the check of a subscript lets pass. -/
theorem FatObj.Bounds.subscript
    (hcheck : checkFatSubscript p o.sz i = some a) :
    a.toNat ≡ o.base.toNat + o.sz.toNat * (pos + i.toInt) [ZMOD 2 ^ 32] ∧
      o.base.toNat ≤ a.toNat ∧ a.toNat < o.base.toNat + o.sz.toNat * o.n.toNat := by
  unfold checkFatSubscript at hcheck
  dsimp only at hcheck
  split_ifs at hcheck with hout
  obtain rfl := Option.some.inj hcheck
  rw [not_or, not_lt, BitVec.not_le, hp.base] at hout
  exact ⟨(hp.plus i).curr, hout.1, hout.2.trans_le hp.below⟩

/-- An address that is untagged and not null: the upper bound was compared with the wrapped end. -/
theorem FatObj.Bounds.untag
    (hcheck : untagFatPtr p o.sz k = some a) (hnull : a ≠ 0) :
    a.toNat ≡ o.base.toNat + o.sz.toNat * pos [ZMOD 2 ^ 32] ∧ o.base.toNat ≤ a.toNat ∧
      (a + o.sz * k).toNat ≤ o.base.toNat + o.sz.toNat * o.n.toNat := by
  unfold untagFatPtr at hcheck
  split_ifs at hcheck with hout
  obtain rfl := Option.some.inj hcheck
  have hin : ¬(p.curr < p.base ∨ p.lastPlusOne < p.curr + o.sz * k) := fun h => hout ⟨h, hnull⟩
  rw [not_or, not_lt, not_lt, hp.base] at hin
  exact ⟨hp.curr, hin.1, hin.2.trans hp.below⟩

/-- What a subscript returns is an element if and only if its index is that of an element, modulo
the period. -/
theorem FatObj.Bounds.subscript_iff
    (hcheck : checkFatSubscript p o.sz i = some a) :
    o.Holds a 1 ↔ (pos + i.toInt) % period o.sz < o.n.toNat := by
  obtain ⟨hcong, hlow, hhigh⟩ := hp.subscript hcheck
  have hsz : 0 < o.sz.toNat := by
    apply Nat.pos_of_ne_zero
    intro hzero
    rw [hzero] at hhigh
    omega
  constructor
  · rintro ⟨⟨j, hj⟩, _⟩
    have hlt : j < o.n.toNat := Nat.lt_of_mul_lt_mul_left (a := o.sz.toNat) (by omega)
    rw [FatObj.index_eq hcong hsz hj]
    exact_mod_cast hlt
  · intro hindex
    exact FatObj.holds_one (FatObj.aligned_of_le hcong hindex.le) hhigh

/-- The elements that untagging promises are there if and only if the index is that of an element,
modulo the period, and the end of the elements does not wrap. -/
theorem FatObj.Bounds.untag_iff
    (hcheck : untagFatPtr p o.sz k = some a) (hnull : a ≠ 0) : o.Holds a k.toNat ↔
      pos % period o.sz ≤ o.n.toNat ∧ a.toNat + o.sz.toNat * k.toNat < 2 ^ 32 := by
  obtain ⟨hcong, _, hend⟩ := hp.untag hcheck hnull
  have hfits := o.fits
  constructor
  · rintro ⟨⟨j, hj⟩, hinside⟩
    refine ⟨?_, by omega⟩
    by_cases hsz : o.sz.toNat = 0
    · -- all elements are at one address
      have hone : period o.sz = 1 := by simp [period, hsz]
      simp [hone]
    · have hpos := Nat.pos_of_ne_zero hsz
      have hle : o.sz.toNat * j ≤ o.sz.toNat * o.n.toNat := by omega
      rw [FatObj.index_eq hcong hpos hj]
      exact_mod_cast Nat.le_of_mul_le_mul_left hle hpos
  · rintro ⟨hindex, hwrap⟩
    exact FatObj.holds_of_end (FatObj.aligned_of_le hcong hindex) hend hwrap

end

end Checks

/-- After any operations on a tagged object: a subscript that passes is an element of the object if
and only if its index is that of an element modulo the period; `k` elements of an untagged pointer
are in the object if and only if its index is that of an element modulo the period and the end of
the `k` elements does not wrap. For element sizes that divide `2 ^ 32` the indices always are. -/
theorem fat_checks_iff (o : FatObj) (ops : List FatOp) :
    (∀ i a, checkFatSubscript (o.fat ops) o.sz i = some a →
      (o.Holds a 1 ↔ (position ops + i.toInt) % period o.sz < o.n.toNat)) ∧
    (∀ k a, untagFatPtr (o.fat ops) o.sz k = some a → a ≠ 0 →
      (o.Holds a k.toNat ↔
        position ops % period o.sz ≤ o.n.toNat ∧ a.toNat + o.sz.toNat * k.toNat < 2 ^ 32)) ∧
    (o.sz.toNat ∣ 2 ^ 32 →
      (∀ i a, checkFatSubscript (o.fat ops) o.sz i = some a → o.Holds a 1) ∧
      ∀ k a, untagFatPtr (o.fat ops) o.sz k = some a → a ≠ 0 →
        (o.Holds a k.toNat ↔ a.toNat + o.sz.toNat * k.toNat < 2 ^ 32)) := by
  have hp := o.bounds_fat ops
  refine ⟨fun i a hcheck => hp.subscript_iff hcheck,
    fun k a hcheck hnull => hp.untag_iff hcheck hnull, fun hdvd => ⟨fun i a hcheck => ?_,
      fun k a hcheck hnull => ?_⟩⟩
  · obtain ⟨hcong, hlow, hhigh⟩ := hp.subscript hcheck
    exact FatObj.holds_one (FatObj.aligned_of_dvd hcong hlow hdvd) hhigh
  · obtain ⟨hcong, hlow, hend⟩ := hp.untag hcheck hnull
    refine ⟨fun hholds => hholds.inside.trans_lt o.fits, fun hwrap => ?_⟩
    exact FatObj.holds_of_end (FatObj.aligned_of_dvd hcong hlow hdvd) hend hwrap

/-- Ten elements of 12 bytes at address 4096. -/
def tenTriples : FatObj := ⟨4096, 12, 10, by decide, by decide⟩

theorem fat_checks_iff_tenTriples :
    checkFatSubscript (tenTriples.fat [.plus 3]) 12 4 = some 4180 ∧ tenTriples.Holds 4180 1 ∧
      untagFatPtr (tenTriples.fat [.plus 3]) 12 7 = some 4132 ∧ tenTriples.Holds 4132 7 := by
  have hsub : checkFatSubscript (tenTriples.fat [.plus 3]) 12 4 = some 4180 := by decide
  have huntag : untagFatPtr (tenTriples.fat [.plus 3]) 12 7 = some 4132 := by decide
  obtain ⟨hsubscript, hwhole, _⟩ := fat_checks_iff tenTriples [.plus 3]
  exact ⟨hsub, (hsubscript 4 4180 hsub).2 (by decide), huntag,
    (hwhole 7 4132 huntag (by decide)).2 (by decide)⟩

/-- An index whose product with the element size wraps to 4 passes the check, and the address is
between two elements; a number of elements whose product with the size wraps to 0 passes too. -/
theorem not_fat_checks_tenTriples :
    checkFatSubscript (tenTriples.fat []) 12 715827883 = some 4100 ∧ ¬ tenTriples.Holds 4100 1 ∧
      untagFatPtr (tenTriples.fat []) 12 0x40000000 = some 4096 ∧
      ¬ tenTriples.Holds 4096 0x40000000 := by
  refine ⟨by decide, ?_, by decide, ?_⟩
  · rintro ⟨⟨j, hj⟩, _⟩
    have hoff : 4100 = 4096 + 12 * j := hj
    omega
  · rintro ⟨_, hinside⟩
    exact absurd hinside (by decide)

end ConcurrentCyclone.Runtime
