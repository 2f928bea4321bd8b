import ConcurrentCyclone.Absyn.CEval

/-!
# The constant evaluator against C

A constant of the evaluator holds a value if its bits are those of the value (`Holds`). Each
operation that the evaluator computes right makes of constants that hold C's values one that holds
C's result (`Holds.unop`, `Holds.binop`, `Holds.cast`), so by induction on the rules of the
evaluation the constant that is found for an expression holds the value that C gives to it
(`holds_of_folds`). With the sign of C's type it has this value (`evalConstExp_right`).
-/

set_option autoImplicit false

namespace ConcurrentCyclone.Absyn

open CLang
open Bool (and_eq_true or_eq_true)
open Option (bind_eq_some_iff map_eq_some_iff any_some any_eq_true)

variable {X T : Type}

/-! ## Constants that hold a value -/

/-- The constant has this sign and size, and the bits of the value when it is used. -/
inductive Holds : Cnst → Sign × Nat → Int → Prop where
  | char {sn : Sign} {x : BitVec 8} {v : Int} (h : x.signExtend 32 = BitVec.ofInt 32 v) :
      Holds (.char sn x) (sn, 8) v
  | short {sn : Sign} {x : BitVec 16} {v : Int} (h : x.signExtend 32 = BitVec.ofInt 32 v) :
      Holds (.short sn x) (sn, 16) v
  | int {sn : Sign} {i : BitVec 32} {v : Int} (h : i = BitVec.ofInt 32 v) :
      Holds (.int sn i) (sn, 32) v
  | longLong {sn : Sign} {x : BitVec 64} {v : Int} (h : x = BitVec.ofInt 64 v) :
      Holds (.longLong sn x) (sn, 64) v

section Holds

variable {c c' : Cnst} {κ : Sign × Nat} {τ : IntTy} {v v' : Int} {w : Nat} {x : BitVec w}

/-- Only the bits of the value matter. -/
theorem Holds.congr (h : Holds c κ v)
    (hv : BitVec.ofInt (max 32 κ.2) v' = BitVec.ofInt (max 32 κ.2) v) : Holds c κ v' := by
  cases h with
  | char h => exact .char (h.trans hv.symm)
  | short h => exact .short (h.trans hv.symm)
  | int h => exact .int (h.trans hv.symm)
  | longLong h => exact .longLong (h.trans hv.symm)

/-- The promoted constant. -/
theorem Holds.promote (h : Holds c κ v) (hκ : κ.2 ≤ 32) :
    promoteConst c = .int κ.1 (BitVec.ofInt 32 v) := by
  cases h with
  | char h | short h => rw [promoteConst, h]
  | int h => exact congrArg _ h
  | longLong => simp at hκ

theorem holds_boolConst (b : Bool) : Holds (boolConst b) (.signed, 32) (truth b) := by
  cases b with
  | true | false => exact .int rfl

/-- The bits of an extended character or short. -/
theorem word_extend (sn : Sign) (x : BitVec w) (h : sn ≠ .unsigned ∨ x.msb = false) :
    x.signExtend 32 = BitVec.ofInt 32 (ofBits (sn = .unsigned) x) := by
  by_cases hsn : sn = .unsigned
  · have hmsb : x.msb = false := h.resolve_left (not_not_intro hsn)
    rw [BitVec.signExtend_eq_setWidth_of_msb_false hmsb]
    simp [hsn]
  · simp [hsn, BitVec.signExtend]

/-- A literal that is extended right holds its value. -/
theorem holds_literal (hright : c.extendsRight = true) (hv : c.intVal = some v) :
    ∃ κ, c.shape = some κ ∧ Holds c κ v := by
  cases c with
  | char sn x =>
    cases hv
    exact ⟨_, rfl, .char (word_extend sn x (by simpa [Cnst.extendsRight] using hright))⟩
  | short sn x =>
    cases hv
    exact ⟨_, rfl, .short (word_extend sn x (by simpa [Cnst.extendsRight] using hright))⟩
  | int sn i =>
    cases hv
    exact ⟨_, rfl, .int (ofInt_ofBits i).symm⟩
  | longLong sn x =>
    cases hv
    exact ⟨_, rfl, .longLong (ofInt_ofBits x).symm⟩
  | _ => cases hv

/-- The truth value of a constant is that of its value. -/
theorem Holds.constBool_eq (h : Holds c κ v) (htruth : truthRight κ v = true) :
    constBool c = some (decide (v ≠ 0)) := by
  have hbits : ∀ m, max 32 κ.2 = m → (BitVec.ofInt m v = 0#m ↔ v = 0) := by
    rintro m rfl
    simp only [truthRight, or_eq_true, decide_eq_true_eq] at htruth
    refine ⟨fun hzero => htruth.resolve_right (not_not_intro hzero), ?_⟩
    rintro rfl
    simp
  rcases Nat.lt_or_ge 32 κ.2 with hwide | hκ
  · cases h with
    | longLong h => simp [constBool, promoteConst, h, hbits 64 rfl]
    | _ => simp at hwide
  · simp [constBool, h.promote hκ, hbits 32 (Nat.max_eq_left hκ)]

/-! ## One operation -/

theorem arith_eq_convert {r : Int} (hτ : 0 < τ.width) (h : τ.arith v = some r) :
    r = τ.convert v := by
  obtain ⟨u, w⟩ := τ
  rw [arith_eq_some hτ h, convert_eq_ofBits]

/-- A character or short is determined by its extension. -/
theorem eq_ofInt_of_extend (hw : w ≤ 32) (h : x.signExtend 32 = BitVec.ofInt 32 v) :
    x = BitVec.ofInt w v := by
  rw [← setWidth_ofInt hw, ← h, ← BitVec.ofInt_toInt (x := x.signExtend 32),
    BitVec.toInt_signExtend_of_le hw, setWidth_ofInt hw, BitVec.ofInt_toInt]

theorem extend_eq_zero (hw : w ≤ 32) : x.signExtend 32 = 0 ↔ x = 0 := by
  rw [← BitVec.toInt_inj, BitVec.toInt_signExtend_of_le hw, ← BitVec.toInt_inj]
  simp

theorem extend_neg (hx : x ≠ .intMin w) :
    (-x).signExtend 32 = -x.signExtend 32 := by
  rw [BitVec.signExtend, BitVec.toInt_neg_of_ne_intMin hx, BitVec.ofInt_neg]
  rfl

theorem not_ofInt (m : Nat) (v : Int) : ~~~BitVec.ofInt m v = BitVec.ofInt m (-v - 1) := by
  rw [Int.sub_eq_add_neg, BitVec.ofInt_add, BitVec.ofInt_neg, BitVec.neg_eq_not_add,
    BitVec.ofInt_neg, BitVec.add_assoc]
  simp

theorem Holds.unop {p : Primop} (h : Holds c κ v) (hτ : 0 < τ.width)
    (hp : unopRight p κ τ v = true) (hc' : evalUnprimop p c = some c')
    (hv' : unopVal p τ v = some v') : Holds c' (unopShape p κ) v' := by
  cases p with
  | plus =>
    cases hc'
    cases hv'
    exact h
  | minus =>
    simp only [unopRight, keepsBits, and_eq_true, or_eq_true, decide_eq_true_eq] at hp
    obtain ⟨hbits, hmin⟩ := hp
    rw [arith_eq_convert hτ hv']
    suffices hneg : Holds c' (unopShape .minus κ) (-v) from hneg.congr hbits
    cases h with
    | char h | short h =>
      have hx : _ ≠ BitVec.intMin _ := hmin.resolve_left (by simp)
      rw [← eq_ofInt_of_extend (by decide) h] at hx
      cases hc'
      constructor
      rw [extend_neg hx, h, BitVec.ofInt_neg]
    | int h | longLong h =>
      cases hc'
      constructor
      rw [h, BitVec.ofInt_neg]
  | bitnot =>
    simp only [unopRight, keepsBits, decide_eq_true_eq] at hp
    cases hv'
    suffices hnot : Holds c' (unopShape .bitnot κ) (-v - 1) from hnot.congr hp
    cases h with
    | char h | short h =>
      cases hc'
      constructor
      rw [BitVec.signExtend_not (by decide), h, not_ofInt]
    | int h | longLong h =>
      cases hc'
      constructor
      rw [h, not_ofInt]
  | not =>
    have hbool := h.constBool_eq hp
    cases hv'
    cases h with
    | @char sn x v h | @short sn x v h =>
      cases hc'
      simp only [constBool, promoteConst, Option.some.injEq, decide_eq_decide, ne_eq, not_iff_not,
        extend_eq_zero (w := 8) (by decide), extend_eq_zero (w := 16) (by decide)] at hbool
      constructor
      by_cases hv : v = 0
      · rw [if_pos (hbool.2 hv), decide_eq_true hv]
        decide
      · rw [if_neg (mt hbool.1 hv), decide_eq_false hv]
        decide
    | @int sn x v h | @longLong sn x v h =>
      cases hc'
      simp only [constBool, promoteConst, Option.some.injEq, decide_eq_decide, ne_eq,
        not_iff_not] at hbool
      constructor
      by_cases hv : v = 0
      · rw [if_pos (hbool.2 hv), decide_eq_true hv]
        decide
      · rw [if_neg (mt hbool.1 hv), decide_eq_false hv]
        decide
  | _ => cases hp

end Holds

section Binary

variable {p : Primop} {u : Bool} {v₁ v₂ v : Int} {i₁ i₂ : BitVec 32} {c : Cnst} {τ : IntTy}

theorem ofInt_tdiv_true : BitVec.ofInt 32 ((ofBits true i₁).tdiv (ofBits true i₂)) = i₁ / i₂ := by
  rw [ofBits_true, ofBits_true, ← Int.ofNat_tdiv, BitVec.ofInt_natCast]
  refine BitVec.eq_of_toNat_eq ?_
  exact Nat.mod_eq_of_lt ((Nat.div_le_self _ _).trans_lt i₁.isLt)

theorem ofInt_tdiv_false :
    BitVec.ofInt 32 ((ofBits false i₁).tdiv (ofBits false i₂)) = i₁.sdiv i₂ := by
  refine BitVec.eq_of_toInt_eq ?_
  rw [BitVec.toInt_ofInt, BitVec.toInt_sdiv]
  rfl

theorem ofInt_tmod_true : BitVec.ofInt 32 ((ofBits true i₁).tmod (ofBits true i₂)) = i₁ % i₂ :=
  ofInt_ofBits (u := true) (i₁ % i₂)

theorem ofInt_tmod_false :
    BitVec.ofInt 32 ((ofBits false i₁).tmod (ofBits false i₂)) = i₁.srem i₂ := by
  have hval : (ofBits false i₁).tmod (ofBits false i₂) = ofBits false (i₁.srem i₂) := by
    rw [ofBits_false, ofBits_false, ofBits_false, BitVec.toInt_srem]
  rw [hval, ofInt_ofBits]

/-- The evaluator reads the two operands as C does in the common type. -/
def Reads (u : Bool) (τ : IntTy) (v₁ v₂ : Int) : Prop :=
  τ.convert v₁ = ofBits u (BitVec.ofInt 32 v₁) ∧ τ.convert v₂ = ofBits u (BitVec.ofInt 32 v₂)

/-- Operations that are right for all operands. -/
theorem holds_ring (hτ : 32 ≤ τ.width) (hp : p = .plus ∨ p = .times ∨ p = .minus)
    (hc : evalBinInts p u (BitVec.ofInt 32 v₁) (BitVec.ofInt 32 v₂) = some c)
    (hv : commonVal p τ (τ.convert v₁) (τ.convert v₂) = some v) :
    Holds c (binopShape p u) v := by
  rcases hp with rfl | rfl | rfl
  all_goals
    rw [arith_eq_convert (by omega) hv]
    cases u <;> cases hc <;> constructor <;>
    simp only [ofInt_convert hτ, Int.sub_eq_add_neg, BitVec.ofInt_add, BitVec.ofInt_mul,
      BitVec.ofInt_neg, BitVec.sub_eq_add_neg]

theorem holds_bits (hτ : 32 ≤ τ.width) (hp : p = .bitand ∨ p = .bitor ∨ p = .bitxor)
    (hc : evalBinInts p u (BitVec.ofInt 32 v₁) (BitVec.ofInt 32 v₂) = some c)
    (hv : commonVal p τ (τ.convert v₁) (τ.convert v₂) = some v) :
    Holds c (binopShape p u) v := by
  rcases hp with rfl | rfl | rfl
  all_goals
    cases hc
    cases hv
    constructor
    simp only [bitVal, ofInt_ofBits_of_le hτ, BitVec.setWidth_and, BitVec.setWidth_or,
      BitVec.setWidth_xor, setWidth_ofInt hτ, ofInt_convert hτ]

theorem holds_division (hτ : 32 ≤ τ.width) (hp : p = .div ∨ p = .mod) (hreads : Reads u τ v₁ v₂)
    (hc : evalBinInts p u (BitVec.ofInt 32 v₁) (BitVec.ofInt 32 v₂) = some c)
    (hv : commonVal p τ (τ.convert v₁) (τ.convert v₂) = some v) :
    Holds c (binopShape p u) v := by
  rw [hreads.1, hreads.2] at hv
  rcases hp with rfl | rfl
  · rw [commonVal] at hv
    split_ifs at hv
    rw [arith_eq_convert (by omega) hv]
    cases u <;> cases hc <;> constructor
    · rw [ofInt_convert hτ, ofInt_tdiv_false]
    · rw [ofInt_convert hτ, ofInt_tdiv_true]
  · rw [commonVal] at hv
    split_ifs at hv
    cases hv
    cases u <;> cases hc <;> constructor
    · rw [ofInt_tmod_false]
    · rw [ofInt_tmod_true]

theorem holds_order (hp : p = .gt ∨ p = .lt ∨ p = .gte ∨ p = .lte) (hreads : Reads u τ v₁ v₂)
    (hc : evalBinInts p u (BitVec.ofInt 32 v₁) (BitVec.ofInt 32 v₂) = some c)
    (hv : commonVal p τ (τ.convert v₁) (τ.convert v₂) = some v) :
    Holds c (binopShape p u) v := by
  rw [hreads.1, hreads.2] at hv
  rcases hp with rfl | rfl | rfl | rfl
  all_goals
    cases hv
    cases u with
    | true =>
      cases hc
      simp only [ofBits_true, Int.ofNat_lt, Int.ofNat_le]
      exact holds_boolConst _
    | false =>
      cases hc
      exact holds_boolConst _

theorem holds_equality (hp : p = .eq ∨ p = .neq) (hreads : τ.width = 32 ∨ Reads u τ v₁ v₂)
    (hc : evalBinInts p u (BitVec.ofInt 32 v₁) (BitVec.ofInt 32 v₂) = some c)
    (hv : commonVal p τ (τ.convert v₁) (τ.convert v₂) = some v) :
    Holds c (binopShape p u) v := by
  have hiff : τ.convert v₁ = τ.convert v₂ ↔ BitVec.ofInt 32 v₁ = BitVec.ofInt 32 v₂ := by
    rcases hreads with hw | ⟨h1, h2⟩
    · obtain ⟨u', w⟩ := τ
      cases hw
      rw [convert_eq_ofBits, convert_eq_ofBits, ofBits_inj]
    · rw [h1, h2, ofBits_inj]
  rcases hp with rfl | rfl
  all_goals
    cases hc
    cases hv
    simp only [ne_eq, hiff]
    exact holds_boolConst _

/-- The bits of a small number. -/
theorem toNat_ofInt_of_lt (h0 : 0 ≤ v) (h : v < 2 ^ 32) : (BitVec.ofInt 32 v).toNat = v.toNat := by
  rw [BitVec.toNat_ofInt]
  omega

theorem holds_shift {τ₁ τ₂ : IntTy} (hτ : 32 ≤ τ₁.width) (hp : p = .bitlshift ∨ p = .bitlrshift)
    (hright : binopRight p u τ₁ τ₂ v₁ v₂ = true)
    (hc : evalBinInts p u (BitVec.ofInt 32 v₁) (BitVec.ofInt 32 v₂) = some c)
    (hv : binopVal p τ₁ τ₂ v₁ v₂ = some v) : Holds c (binopShape p u) v := by
  have hcount : 0 ≤ v₂ → v₂ < 32 → (BitVec.ofInt 32 v₂).toNat % 32 = v₂.toNat := by
    intro h0 h
    rw [toNat_ofInt_of_lt h0 (by omega)]
    omega
  rcases hp with rfl | rfl
  · simp only [binopRight, decide_eq_true_eq] at hright
    simp only [binopVal] at hv
    split_ifs at hv with hdef
    rw [arith_eq_convert (by omega) hv]
    cases hc
    constructor
    rw [ofInt_convert hτ, hcount hdef.1.1 hright, BitVec.ofInt_mul]
    refine BitVec.eq_of_toNat_eq ?_
    rw [BitVec.toNat_shiftLeft, BitVec.toNat_mul, Nat.shiftLeft_eq]
    norm_cast
    rw [BitVec.ofInt_natCast, BitVec.toNat_ofNat, Nat.mul_mod_mod]
  · simp only [binopRight, decide_eq_true_eq] at hright
    simp only [binopVal] at hv
    split_ifs at hv with hdef
    cases hv
    cases hc
    constructor
    rw [hcount hdef.1 hright.1]
    rcases hright.2 with rfl | ⟨h0, h⟩
    · simp
    · obtain ⟨n, rfl⟩ := Int.eq_ofNat_of_zero_le h0
      have hn : n < 2 ^ 32 := Int.ofNat_lt.1 h
      have hdiv : (n : Int) / 2 ^ v₂.toNat = (n / 2 ^ v₂.toNat : Nat) := by
        rw [Int.natCast_ediv, Int.natCast_pow]
        rfl
      refine BitVec.eq_of_toNat_eq ?_
      rw [hdiv, BitVec.ofInt_natCast, BitVec.ofInt_natCast, BitVec.toNat_ushiftRight,
        Nat.shiftRight_eq_div_pow, BitVec.toNat_ofNat, BitVec.toNat_ofNat, Nat.mod_eq_of_lt hn,
        Nat.mod_eq_of_lt ((Nat.div_le_self _ _).trans_lt hn)]

variable {c₁ c₂ : Cnst} {κ₁ κ₂ : Sign × Nat} {τ₁ τ₂ : IntTy} {errs : List EvalErr}

theorem usual_width (h1 : 32 ≤ τ₁.width) (h2 : 32 ≤ τ₂.width) : 32 ≤ (τ₁.usual τ₂).width := by
  unfold IntTy.usual
  split_ifs <;> assumption

/-- There is a result only for constants of at most 32 bits. -/
theorem evalBinprimop_narrow (h1 : Holds c₁ κ₁ v₁) (h2 : Holds c₂ κ₂ v₂)
    (hc : evalBinprimop p c₁ c₂ = some (c, errs)) : κ₁.2 ≤ 32 ∧ κ₂.2 ≤ 32 := by
  have hκ1 : κ₁.2 ≤ 32 := by
    cases h1 with
    | longLong => cases hc
    | _ => simp
  refine ⟨hκ1, ?_⟩
  cases h2 with
  | longLong =>
    rw [evalBinprimop, h1.promote hκ1] at hc
    cases hc
  | _ => simp

theorem reads_of_binopRight
    (h : IntTy.convert ⟨u, 32⟩ v₁ = τ.convert v₁ ∧ IntTy.convert ⟨u, 32⟩ v₂ = τ.convert v₂) :
    Reads u τ v₁ v₂ := by
  rw [Reads, ← h.1, ← h.2, convert_eq_ofBits, convert_eq_ofBits]
  exact ⟨rfl, rfl⟩

/-- C does not divide by zero. -/
theorem ne_zero_of_division (hp : p = .div ∨ p = .mod) (hreads : Reads u τ v₁ v₂)
    (hv : commonVal p τ (τ.convert v₁) (τ.convert v₂) = some v) : BitVec.ofInt 32 v₂ ≠ 0 := by
  intro hzero
  have hconvert : τ.convert v₂ = 0 := hreads.2.trans (ofBits_eq_zero_iff.2 hzero)
  rcases hp with rfl | rfl
  · rw [commonVal, if_pos hconvert] at hv
    cases hv
  · rw [commonVal, if_pos (.inl hconvert)] at hv
    cases hv

theorem isSome_evalBinInts (hp : binopRight p u τ₁ τ₂ v₁ v₂ = true) :
    (evalBinInts p u i₁ i₂).isSome := by
  cases p <;> first | cases hp; done | (cases u <;> rfl)

theorem Holds.binop (h1 : Holds c₁ κ₁ v₁) (h2 : Holds c₂ κ₂ v₂) (hτ₁ : 32 ≤ τ₁.width)
    (hτ₂ : 32 ≤ τ₂.width) (hp : binopRight p (hasUArg κ₁ κ₂) τ₁ τ₂ v₁ v₂ = true)
    (hc : evalBinprimop p c₁ c₂ = some (c, errs)) (hv : binopVal p τ₁ τ₂ v₁ v₂ = some v) :
    Holds c (binopShape p (hasUArg κ₁ κ₂)) v := by
  obtain ⟨hκ1, hκ2⟩ := evalBinprimop_narrow h1 h2 hc
  have hτ := usual_width hτ₁ hτ₂
  have hints : (p = .div ∨ p = .mod → BitVec.ofInt 32 v₂ ≠ 0) →
      evalBinInts p (hasUArg κ₁ κ₂) (BitVec.ofInt 32 v₁) (BitVec.ofInt 32 v₂) = some c := by
    intro hzero
    have hdiv : ¬ ((p = .div ∨ p = .mod) ∧ BitVec.ofInt 32 v₂ = 0) := fun h => hzero h.1 h.2
    have hsome :
        (evalBinInts p (hasUArg κ₁ κ₂) (BitVec.ofInt 32 v₁) (BitVec.ofInt 32 v₂)).isSome :=
      isSome_evalBinInts hp
    obtain ⟨c', hc'⟩ := Option.isSome_iff_exists.1 hsome
    rw [hasUArg] at hc' ⊢
    simp only [evalBinprimop, h1.promote hκ1, h2.promote hκ2, if_neg hdiv, hc'] at hc
    cases hc
    exact hc'
  cases p with
  | plus | times | minus => exact holds_ring hτ (by decide) (hints (by simp)) hv
  | bitand | bitor | bitxor => exact holds_bits hτ (by decide) (hints (by simp)) hv
  | div | mod =>
    have hreads := reads_of_binopRight (of_decide_eq_true hp)
    exact holds_division hτ (by decide) hreads
      (hints fun hdiv => ne_zero_of_division hdiv hreads hv) hv
  | gt | lt | gte | lte =>
    exact holds_order (by decide) (reads_of_binopRight (of_decide_eq_true hp)) (hints (by simp)) hv
  | eq | neq =>
    exact holds_equality (by decide) ((of_decide_eq_true hp).imp_right reads_of_binopRight)
      (hints (by simp)) hv
  | bitlshift | bitlrshift => exact holds_shift hτ₁ (by decide) hp (hints (by simp)) hv
  | _ => cases hp

end Binary

section Cast

variable {c : Cnst} {κ : Sign × Nat} {v : Int} {sn : Sign} {sz : SizeOf}

/-- A cast keeps the bits. -/
theorem Holds.cast (h : Holds c κ v) :
    Holds (evalCast (.int sn sz : Typ X T) c).1 (castShape sn κ) v := by
  rw [castShape]
  by_cases hκ : κ.2 ≤ 32 ∧ sn ≠ κ.1
  · rw [if_pos hκ]
    have hcast : (evalCast (.int sn sz : Typ X T) c).1 = .int sn (BitVec.ofInt 32 v) := by
      cases h with
      | char h | short h | int h =>
        rw [← h]
        exact if_pos hκ.2
      | longLong => simp at hκ
    rw [hcast]
    exact .int rfl
  · rw [if_neg hκ]
    have hcast : (evalCast (.int sn sz : Typ X T) c).1 = c := by
      cases h with
      | char h | short h | int h => exact if_neg fun hsn => hκ ⟨by simp, hsn⟩
      | longLong => rfl
    rw [hcast]
    exact h

/-- A cast to a type of the same sign keeps sign and value. -/
theorem Cnst.Is.cast {c : Cnst} {v : Int} (h : c.Is (decide (sn = .unsigned)) v) :
    (evalCast (.int sn sz : Typ X T) c).1.Is (decide (sn = .unsigned)) v := by
  obtain ⟨hsign, hv⟩ := h
  cases c with
  | char sn₂ x | short sn₂ x | int sn₂ x =>
    have hiff : sn₂ = .unsigned ↔ sn = .unsigned := by simpa [Cnst.intTy] using hsign
    by_cases hsn : sn = sn₂
    · simp only [evalCast, hsn, ne_eq, not_true_eq_false, if_false]
      exact ⟨hsn ▸ hsign, hv⟩
    · have hsn₂ : sn₂ ≠ .unsigned := fun h => hsn ((hiff.1 h).trans h.symm)
      have hsn₁ : sn ≠ .unsigned := mt hiff.2 hsn₂
      simp only [evalCast, hsn, ne_eq, not_false_eq_true, if_true]
      refine ⟨rfl, ?_⟩
      rw [← hv]
      simp [Cnst.intVal, hsn₁, hsn₂, BitVec.toInt_signExtend_of_le]
  | longLong => exact ⟨hsign, hv⟩
  | _ => cases hv

end Cast

/-! ## The evaluation -/

section Folds

variable {c : Cnst} {κ : Sign × Nat} {τ : IntTy} {v : Int} {e e₁ e₂ e₃ : Exp X T} {t : Typ X T}

theorem width_promote (τ : IntTy) : 32 ≤ τ.promote.width := by
  unfold IntTy.promote
  split_ifs with h
  · exact Nat.le_refl 32
  · omega

/-- The truth value that is found is that of the value in C. -/
theorem Holds.eq_zero_iff {b : Bool} (h : Holds c κ v) (htruth : truthRight κ v = true)
    (hb : constBool c = some b) : v = 0 ↔ b = false := by
  rw [h.constBool_eq htruth] at hb
  simp [← Option.some.inj hb]

/-- The parts of the type and the value of a conditional. -/
theorem conditional_parts (hτ : (Exp.conditional e₁ e₂ e₃ t).cTy = some τ)
    (hv : (Exp.conditional e₁ e₂ e₃ t).cVal = some v) :
    ∃ τ₁ v₁, e₁.cTy = some τ₁ ∧ e₁.cVal = some v₁ ∧ (∃ τ₂, e₂.cTy = some τ₂) ∧
      (∃ τ₃, e₃.cTy = some τ₃) ∧ (if v₁ ≠ 0 then e₂.cVal else e₃.cVal).map τ.convert = some v := by
  obtain ⟨τ₁, hτ₁, hτ⟩ := bind_eq_some_iff.1 hτ
  obtain ⟨τ₂, hτ₂, hτ⟩ := bind_eq_some_iff.1 hτ
  obtain ⟨τ₃, hτ₃, hτ⟩ := bind_eq_some_iff.1 hτ
  simp only [Exp.cVal, hτ₂, hτ₃, Option.bind_some] at hv
  obtain ⟨v₁, hv₁, hv⟩ := bind_eq_some_iff.1 hv
  cases hτ
  exact ⟨τ₁, v₁, hτ₁, hv₁, ⟨τ₂, hτ₂⟩, ⟨τ₃, hτ₃⟩, hv⟩

/-- The parts of the type and the value of `&&` and `||`. -/
theorem logical_parts {f : Int → Option Int}
    (hτ : (e₁.cTy.bind fun _ => e₂.cTy.bind fun _ => some IntTy.int) = some τ)
    (hv : e₁.cVal.bind f = some v) :
    ∃ τ₁ τ₂ v₁, e₁.cTy = some τ₁ ∧ e₂.cTy = some τ₂ ∧ e₁.cVal = some v₁ ∧ f v₁ = some v := by
  obtain ⟨τ₁, hτ₁, hτ⟩ := bind_eq_some_iff.1 hτ
  obtain ⟨τ₂, hτ₂, hτ⟩ := bind_eq_some_iff.1 hτ
  obtain ⟨v₁, hv₁, hv⟩ := bind_eq_some_iff.1 hv
  exact ⟨τ₁, τ₂, v₁, hτ₁, hτ₂, hv₁, hv⟩

/-- The operand that a conditional chooses, converted to the type of the conditional. -/
theorem holds_chosen {τ₁ : IntTy}
    (ih : ∀ {τ : IntTy} {v : Int}, e.bitsRight = true → e.cTy = some τ → e.cVal = some v →
      ∃ κ, e.shape = some κ ∧ Holds c κ v)
    (hright : (e.bitsRight && e.shape.any fun κ => e.cVal.any (keepsBits (max 32 κ.2) τ)) = true)
    (hτ : e.cTy = some τ₁) (hv : e.cVal.map τ.convert = some v) :
    ∃ κ, e.shape = some κ ∧ Holds c κ v := by
  obtain ⟨v₁, hv₁, rfl⟩ := map_eq_some_iff.1 hv
  obtain ⟨hf, hkeeps⟩ := and_eq_true _ _ ▸ hright
  obtain ⟨κ, hκ, h⟩ := ih hf hτ hv₁
  simp only [hκ, hv₁, any_some, keepsBits, decide_eq_true_eq] at hkeeps
  exact ⟨κ, hκ, h.congr hkeeps⟩

/-- The second operand of `&&` and `||`. -/
theorem holds_truth {τ₁ : IntTy}
    (ih : ∀ {τ : IntTy} {v : Int}, e.bitsRight = true → e.cTy = some τ → e.cVal = some v →
      ∃ κ, e.shape = some κ ∧ Holds c κ v)
    (hright : (e.bitsRight && e.cVal.any fun v => v = 0 || v = 1) = true)
    (hτ : e.cTy = some τ₁) (hv : e.cVal.map (fun v₂ => truth (decide (v₂ ≠ 0))) = some v) :
    ∃ κ, e.shape = some κ ∧ Holds c κ v := by
  obtain ⟨v₁, hv₁, rfl⟩ := map_eq_some_iff.1 hv
  obtain ⟨hf, hbool⟩ := and_eq_true _ _ ▸ hright
  simp only [hv₁, any_some, or_eq_true, decide_eq_true_eq] at hbool
  rcases hbool with rfl | rfl
  · exact ih hf hτ hv₁
  · exact ih hf hτ hv₁

/-- The constant that is found for an expression whose operations are computed right holds C's
value. -/
theorem holds_of_folds (h : Folds e c) (hright : e.bitsRight = true) (hτ : e.cTy = some τ)
    (hv : e.cVal = some v) : ∃ κ, e.shape = some κ ∧ Holds c κ v := by
  induction h generalizing τ v with
  | const => exact holds_literal hright hv
  | pragma | enum | valueof => cases hτ
  | condTrue _ hb _ ih1 ih2 | condFalse _ hb _ ih1 ih2 =>
    obtain ⟨τ₁, v₁, hτ₁, hv₁, ⟨τ₂, hτ₂⟩, ⟨τ₃, hτ₃⟩, hchosen⟩ := conditional_parts hτ hv
    rw [Exp.bitsRight, and_eq_true] at hright
    obtain ⟨hf1, hright⟩ := hright
    obtain ⟨κ₁, hκ₁, h1⟩ := ih1 hf1 hτ₁ hv₁
    rw [hκ₁, any_some, hv₁, any_some, hτ, any_some, and_eq_true] at hright
    have htest := h1.eq_zero_iff hright.1 hb
    simp only [htest, ne_eq, reduceCtorEq, not_true_eq_false, not_false_eq_true, if_true, if_false]
      at hchosen hright
    simp only [Exp.shape, hv₁, Option.bind_some, htest, ne_eq, reduceCtorEq, not_true_eq_false,
      not_false_eq_true, if_true, if_false]
    first
      | exact holds_chosen ih2 hright.2 hτ₂ hchosen
      | exact holds_chosen ih2 hright.2 hτ₃ hchosen
  | andTrue _ hb _ ih1 ih2 | orFalse _ hb _ ih1 ih2 =>
    obtain ⟨τ₁, τ₂, v₁, hτ₁, hτ₂, hv₁, hv⟩ := logical_parts hτ hv
    rw [Exp.bitsRight, and_eq_true] at hright
    obtain ⟨hf1, hright⟩ := hright
    obtain ⟨κ₁, hκ₁, h1⟩ := ih1 hf1 hτ₁ hv₁
    rw [hκ₁, any_some, hv₁, any_some, and_eq_true] at hright
    have htest := h1.eq_zero_iff hright.1 hb
    simp only [htest, ne_eq, reduceCtorEq, not_true_eq_false, if_false, decide_false,
      Bool.false_or] at hv hright
    simp only [Exp.shape, hv₁, Option.bind_some, htest, ne_eq, reduceCtorEq, not_true_eq_false,
      if_false]
    exact holds_truth ih2 hright.2 hτ₂ hv
  | andFalse _ hb ih1 | orTrue _ hb ih1 =>
    obtain ⟨τ₁, τ₂, v₁, hτ₁, hτ₂, hv₁, hv⟩ := logical_parts hτ hv
    rw [Exp.bitsRight, and_eq_true] at hright
    obtain ⟨hf1, hright⟩ := hright
    obtain ⟨κ₁, hκ₁, h1⟩ := ih1 hf1 hτ₁ hv₁
    rw [hκ₁, any_some, hv₁, any_some, and_eq_true] at hright
    have htest := h1.eq_zero_iff hright.1 hb
    simp only [htest, ne_eq, reduceCtorEq, not_false_eq_true, if_true] at hv
    cases hv
    simp only [Exp.shape, hv₁, Option.bind_some, htest, ne_eq, reduceCtorEq, not_false_eq_true,
      if_true]
    exact ⟨_, rfl, holds_boolConst _⟩
  | unprimop _ hop ih =>
    obtain ⟨τ₁, hτ₁, hτ⟩ := bind_eq_some_iff.1 hτ
    simp only [Exp.cVal, hτ₁, Option.bind_some] at hv
    obtain ⟨v₁, hv₁, hv⟩ := bind_eq_some_iff.1 hv
    simp only [Exp.bitsRight, and_eq_true] at hright
    obtain ⟨κ, hκ, h1⟩ := ih hright.1 hτ₁ hv₁
    simp only [hκ, hτ₁, hv₁, any_some] at hright
    refine ⟨_, by rw [Exp.shape, hκ]; rfl, h1.unop ?_ hright.2 hop hv⟩
    exact (width_promote τ₁).trans' (by decide)
  | binprimop _ _ hop ih1 ih2 =>
    obtain ⟨τ₁, hτ₁, hτ⟩ := bind_eq_some_iff.1 hτ
    obtain ⟨τ₂, hτ₂, hτ⟩ := bind_eq_some_iff.1 hτ
    simp only [Exp.cVal, hτ₁, hτ₂, Option.bind_some] at hv
    obtain ⟨v₁, hv₁, hv⟩ := bind_eq_some_iff.1 hv
    obtain ⟨v₂, hv₂, hv⟩ := bind_eq_some_iff.1 hv
    simp only [Exp.bitsRight, and_eq_true] at hright
    obtain ⟨⟨hf1, hf2⟩, hright⟩ := hright
    obtain ⟨κ₁, hκ₁, h1⟩ := ih1 hf1 hτ₁ hv₁
    obtain ⟨κ₂, hκ₂, h2⟩ := ih2 hf2 hτ₂ hv₂
    simp only [hκ₁, hκ₂, hτ₁, hτ₂, hv₁, hv₂, any_some] at hright
    exact ⟨_, by rw [Exp.shape, hκ₁, hκ₂]; rfl,
      h1.binop h2 (width_promote τ₁) (width_promote τ₂) hright hop hv⟩
  | @cast t e _ c _ ih =>
    obtain ⟨τ₁, hτ₁, hτ⟩ := bind_eq_some_iff.1 hτ
    simp only [Exp.cVal, hτ] at hv
    obtain ⟨v₁, hv₁, rfl⟩ := map_eq_some_iff.1 hv
    simp only [Exp.bitsRight, and_eq_true] at hright
    obtain ⟨κ, hκ, h1⟩ := ih hright.1 hτ₁ hv₁
    simp only [hτ, hκ, hv₁, any_some, keepsBits, decide_eq_true_eq] at hright
    cases t with
    | int sn sz => exact ⟨_, by rw [Exp.shape, hκ]; rfl, (h1.congr hright.2).cast⟩
    | _ => cases hτ

/-! ## The value of a constant -/

theorem ofBits_of_extend {sn : Sign} {w : Nat} {x : BitVec w} (hw : 0 < w) (hle : w ≤ 32)
    (h : x.signExtend 32 = BitVec.ofInt 32 v) (hfits : shapeFits (sn, w) v = true) :
    ofBits (decide (sn = .unsigned)) x = v := by
  by_cases hsn : sn = .unsigned
  · simp only [shapeFits, hsn, if_true, decide_eq_true_eq] at hfits
    rw [eq_ofInt_of_extend hle h, decide_eq_true hsn, ← convert_eq_ofBits]
    exact convert_of_inRange hw hfits
  · simp only [shapeFits, hsn, if_false, decide_eq_true_eq, Nat.max_eq_left hle] at hfits
    rw [decide_eq_false hsn, ofBits_false, ← BitVec.toInt_signExtend_of_le hle, h, ← ofBits_false,
      ← convert_eq_ofBits]
    exact convert_of_inRange (by decide) hfits

theorem Holds.is (h : Holds c κ v) (hfits : shapeFits κ v = true) :
    c.Is (decide (κ.1 = .unsigned)) v := by
  refine ⟨by cases h <;> rfl, ?_⟩
  cases h with
  | char h | short h => exact congrArg some (ofBits_of_extend (by decide) (by decide) h hfits)
  | int h =>
    exact congrArg some (ofBits_of_extend (by decide) (by decide)
      ((BitVec.signExtend_eq _).trans h) hfits)
  | @longLong sn x v h =>
    refine congrArg some ?_
    rw [h, ← convert_eq_ofBits]
    refine convert_of_inRange (by decide) ?_
    by_cases hsn : sn = .unsigned
    · simpa [shapeFits, hsn] using hfits
    · simpa [shapeFits, hsn] using hfits

theorem is_of_fits (h : Folds e c) (hτ : e.cTy = some τ) (hv : e.cVal = some v)
    (hfits : e.fits = true) : c.Is τ.unsigned v := by
  rw [Exp.fits, and_eq_true] at hfits
  obtain ⟨hright, hfits⟩ := hfits
  obtain ⟨κ, hκ, hholds⟩ := holds_of_folds h hright hτ hv
  simp only [hκ, hτ, hv, any_some, and_eq_true, decide_eq_true_eq] at hfits
  rw [← hfits.1]
  exact hholds.is hfits.2

/-- The constant that is found for an exact expression has C's value and signedness. -/
theorem is_of_folds (h : Folds e c) (hτ : e.cTy = some τ) (hv : e.cVal = some v)
    (hexact : e.exact = true) : c.Is τ.unsigned v := by
  have hfolds := h
  induction h generalizing τ v with
  | @const c t =>
    have hty : c.intTy = some τ := hτ
    exact ⟨by rw [hty]; rfl, hv⟩
  | @cast t e t' c h ih =>
    rw [Exp.exact, or_eq_true] at hexact
    rcases hexact with hfits | hexact
    · exact is_of_fits hfolds hτ hv hfits
    obtain ⟨τ₁, hτ₁, hτ⟩ := bind_eq_some_iff.1 hτ
    simp only [Exp.cVal, hτ] at hv
    obtain ⟨v₁, hv₁, rfl⟩ := map_eq_some_iff.1 hv
    simp only [hτ, hτ₁, hv₁, any_some, and_eq_true, decide_eq_true_eq] at hexact
    obtain ⟨hexact, hsign, hval⟩ := hexact
    have his := ih hτ₁ hv₁ hexact h
    rw [hval]
    rw [hsign] at his
    cases t with
    | int sn sz =>
      cases hτ
      exact his.cast
    | _ => cases hτ
  | _ => exact is_of_fits hfolds hτ hv hexact

/-- A known constant has the value and the signedness that C gives to the expression, if each
operation that is evaluated is one that the evaluator computes right on its operands and the
constant has C's sign. -/
theorem evalConstExp_right (e : Exp X T) (τ : IntTy) (v : Int) (hτ : e.cTy = some τ)
    (hv : e.cVal = some v) (hexact : e.exact = true) (hknown : (evalConstExp e).known = true) :
    (evalConstExp e).c.Is τ.unsigned v :=
  is_of_folds (folds_of_known e hknown) hτ hv hexact

/-- `((5u & 3) == 1) ? -3 : 4`. -/
def maskedChoice : Exp Unit Unit :=
  .conditional
    (.primop₂ .eq
      (.primop₂ .bitand (.const (.int .unsigned 5) (.int .unsigned .int))
        (.const (.int .signed 3) (.int .signed .int)) (.int .unsigned .int))
      (.const (.int .signed 1) (.int .signed .int)) (.int .signed .int))
    (.primop₁ .minus (.const (.int .signed 3) (.int .signed .int)) (.int .signed .int))
    (.const (.int .signed 4) (.int .signed .int)) (.int .signed .int)

/-- `'\x80' + 1`. -/
def extendedSum : Exp Unit Unit :=
  .primop₂ .plus (.const (.char .signed 0x80) (.int .signed .char))
    (.const (.int .signed 1) (.int .signed .int)) (.int .signed .int)

theorem evalConstExp_right_maskedChoice :
    (evalConstExp maskedChoice).c.Is false (-3) ∧ (evalConstExp extendedSum).c.Is false (-127) :=
  ⟨evalConstExp_right maskedChoice ⟨false, 32⟩ (-3) (by decide) (by decide) (by decide) (by decide),
    evalConstExp_right extendedSum ⟨false, 32⟩ (-127) (by decide) (by decide) (by decide)
      (by decide)⟩

end Folds

/-- A cast that has to drop bits. -/
def narrowingCast : Exp Unit Unit :=
  .cast (.int .unsigned .char) (.const (.int .signed 256) (.int .signed .int))
    (.int .unsigned .char)

theorem not_evalConstExp_right :
    ¬ ∀ (e : Exp Unit Unit) (τ : IntTy) (v : Int), e.cTy = some τ → e.cVal = some v →
      (evalConstExp e).known = true → (evalConstExp e).c.Is τ.unsigned v := by
  intro hright
  have hcast := (hright narrowingCast ⟨true, 8⟩ 0 rfl rfl rfl).2
  cases hcast

end ConcurrentCyclone.Absyn
