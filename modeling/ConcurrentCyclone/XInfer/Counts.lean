import ConcurrentCyclone.Absyn.Evexp
import ConcurrentCyclone.XInfer.Constraint
import Mathlib.Data.List.GetD

/-!
# The counts of a `cap` statement or a spawn

A `cap` statement has a region handle and three counts; a spawn has such a tuple for each region it
passes. `tcSpecialTuple` asks for constants, but does not look at the last count. `exps2con` records
what `eval_const_uint_exp` answers, and does not look whether the answer is known. At run time a
`cap` statement passes the three counts as `int` arguments; a spawn stores its tuples as C
structures, with fields of the types of the expressions, and the runtime reads them as
`struct Caps`.

`counts_agree_iff` says when the recorded counts are those that are passed.
-/

set_option autoImplicit false

namespace ConcurrentCyclone.XInfer

open Absyn

variable {X T R : Type}

/-! ## The type checker -/

/-- `is_any_int_type`. -/
def isAnyIntType : Typ X T → Bool
  | .int _ _ => true
  | _ => false

/-- There is no `valueof` in the expression, apart from its types. -/
def valueofFree : Absyn.Exp X T → Bool
  | .valueof _ _ => false
  | .const _ _ | .var _ _ | .pragma _ _ | .sizeoftype _ _ | .offsetof _ _ _ | .compound _ _ _
  | .other _ _ => true
  | .primop₁ _ e _ | .cast _ e _ | .address e _ | .sizeofexp e _ | .enum e _ | .wrapped e _ =>
    valueofFree e
  | .primop₂ _ e₁ e₂ _ | .and e₁ e₂ _ | .or e₁ e₂ _ | .seqExp e₁ e₂ _ =>
    valueofFree e₁ && valueofFree e₂
  | .conditional e₁ e₂ e₃ _ => valueofFree e₁ && valueofFree e₂ && valueofFree e₃

/-- The errors of `tcSpecialTuple`. -/
inductive TupleErr where
  /-- `a region handle expression and 3 constant ints.`. -/
  | count
  /-- `Expected X-Region handle.`. -/
  | handle
  /-- `expected constant integer expression`. -/
  | constant
  /-- `valueof(-) can only occur within types`, from `tcExp`. -/
  | valueof
  deriving DecidableEq

/-- The loop of `tcSpecialTuple` over the counts. -/
def tcCounts : List (Absyn.Exp X T) → List TupleErr
  | [] => []
  | e₀ :: es =>
    (if valueofFree e₀ then [] else [.valueof]) ++
    -- the last expression is not checked
    (if !es.isEmpty ∧ (!isAnyIntType e₀.topt ∨ !isConstExp e₀) then [.constant] else []) ++
    tcCounts es

/-- `tcSpecialTuple`; `xrgn` is the region of the type of a handle. -/
def tcSpecialTuple (xrgn : Typ X T → Option R) (es : List (Absyn.Exp X T)) : List TupleErr :=
  (if es.length ≠ 4 then [.count] else []) ++
    match es with
    | [] => []
    | h :: es => (if (xrgn h.topt).isNone then [.handle] else []) ++ tcCounts es

/-- A tuple that the type checker accepts. -/
structure CountTuple (xrgn : Typ X T → Option R) where
  h : Absyn.Exp X T
  c₁ : Absyn.Exp X T
  c₂ : Absyn.Exp X T
  c₃ : Absyn.Exp X T
  accepted : tcSpecialTuple xrgn [h, c₁, c₂, c₃] = []

variable {xrgn : Typ X T → Option R}

/-- The three counts. -/
def CountTuple.counts (t : CountTuple xrgn) : List (Absyn.Exp X T) := [t.c₁, t.c₂, t.c₃]

theorem CountTuple.forall_counts {t : CountTuple xrgn} {P : Absyn.Exp X T → Prop} :
    (∀ e ∈ t.counts, P e) ↔ P t.c₁ ∧ P t.c₂ ∧ P t.c₃ := by
  simp only [CountTuple.counts, List.forall_mem_cons, List.not_mem_nil, false_implies, implies_true,
    and_true]

theorem CountTuple.valueofFree (t : CountTuple xrgn) : ∀ e ∈ t.counts, valueofFree e = true := by
  have h := t.accepted
  simp only [tcSpecialTuple, tcCounts, List.append_eq_nil_iff] at h
  have hfree : ∀ e : Absyn.Exp X T,
      (if XInfer.valueofFree e then ([] : List TupleErr) else [.valueof]) = [] →
        XInfer.valueofFree e = true := by
    intro e he
    by_contra hne
    rw [if_neg hne] at he
    cases he
  exact forall_counts.2 ⟨hfree _ h.2.2.1.1, hfree _ h.2.2.2.1.1, hfree _ h.2.2.2.2.1.1⟩

/-! ## What is recorded -/

/-- The three numbers of `exps2con` as the counts of a `Cap` constraint. -/
def XCap.ofWords (i₁ i₂ i₃ : BitVec 32) : XCap :=
  ⟨Int32.ofBitVec i₁, Int32.ofBitVec i₂, Int32.ofBitVec i₃⟩

/-- `exps2con`. -/
def CountTuple.exps2con (t : CountTuple xrgn) : XCap :=
  .ofWords (evalConstUintExp t.c₁).i (evalConstUintExp t.c₂).i (evalConstUintExp t.c₃).i

/-- The errors that `exps2con` reports for a count. -/
def countErrs (e : Absyn.Exp X T) : List EvalErr := (evalConstUintExp e).errs

/-- The expression for which code is made after `exps2con`. -/
def countCode (e : Absyn.Exp X T) : Absyn.Exp X T := (evalConstUintExp e).exp

/-! ## What is passed -/

/-- An execution of the statement: the values of its expressions, and what else is in memory. -/
structure Execution (X T : Type) where
  value : Absyn.Exp X T → Int
  value_const : ∀ c τ w, constWord c = some w → BitVec.ofInt 32 (value (.const c τ)) = w
  /-- The size and the alignment of the types that are no integer types. -/
  layout : T → Nat × Nat
  /-- The bytes between the fields of a structure. -/
  padding : Nat → Nat

namespace Execution

variable (x : Execution X T)

/-- The value of a count as an `int` argument. -/
def word (e : Absyn.Exp X T) : BitVec 32 := BitVec.ofInt 32 (x.value (countCode e))

/-- Size and alignment of a type on the 32-bit targets. -/
def sizeAlign : Typ X T → Nat × Nat
  | .int _ sz => (sz.bytes, min sz.bytes 4)
  | .tag _ | .valueof _ => (4, 4)
  | .other t => x.layout t

/-- The bytes of a number, the lowest first. -/
def bytes (n : Nat) (v : Int) : List Nat :=
  (List.range n).map fun k => (v % 256 ^ n).toNat / 256 ^ k % 256

/-- Fill up to a multiple of `a`. -/
def align (a : Nat) (m : List Nat) : List Nat :=
  m ++ (List.range ((a - m.length % a) % a)).map x.padding

/-- Store the value of an expression in the next field. -/
def field (m : List Nat) (e : Absyn.Exp X T) : List Nat :=
  let sa := x.sizeAlign e.topt
  x.align sa.2 m ++ bytes sa.1 (x.value (countCode e))

/-- The structure for one tuple of a spawn; the handle is a pointer. -/
def tupleBytes (t : CountTuple xrgn) : List Nat :=
  x.align 4 (t.counts.foldl x.field (bytes 4 (x.value t.h)))

/-- The structures of a spawn, one after the other. -/
def spawnBytes (ts : List (CountTuple xrgn)) : List Nat := ts.flatMap x.tupleBytes

end Execution

/-- Read an `int` at an offset. -/
def readInt (m : List Nat) (off : Nat) : BitVec 32 :=
  BitVec.ofNat 32 (m.getD off 0 + 256 * m.getD (off + 1) 0 + 256 ^ 2 * m.getD (off + 2) 0 +
    256 ^ 3 * m.getD (off + 3) 0)

/-- The fields `rc`, `wc` and `lc` of the `j`-th `struct Caps`. -/
def readCaps (m : List Nat) (j : Nat) : XCap :=
  .ofWords (readInt m (16 * j + 4)) (readInt m (16 * j + 8)) (readInt m (16 * j + 12))

/-- A statement with counts. -/
inductive CountStmt (xrgn : Typ X T → Option R) where
  | cap (t : CountTuple xrgn)
  | spawn (ts : List (CountTuple xrgn))

namespace CountStmt

/-- The tuples of the statement. -/
def tuples : CountStmt xrgn → List (CountTuple xrgn)
  | .cap t => [t]
  | .spawn ts => ts

/-- The counts that the analysis records, for each tuple. -/
def recorded (s : CountStmt xrgn) : List XCap := s.tuples.map CountTuple.exps2con

/-- The counts that the runtime gets, for each tuple. -/
def passed (x : Execution X T) : CountStmt xrgn → List XCap
  | .cap t => [.ofWords (x.word t.c₁) (x.word t.c₂) (x.word t.c₃)]
  | .spawn ts => (List.range ts.length).map (readCaps (x.spawnBytes ts))

/-- The analysis reports no error for the counts. -/
def Compiles (s : CountStmt xrgn) : Prop := ∀ t ∈ s.tuples, ∀ e ∈ t.counts, countErrs e = []

/-- The counts of a spawn have integer types of the size of an `int`. -/
def IntSized : CountStmt xrgn → Prop
  | .cap _ => True
  | .spawn ts => ∀ t ∈ ts, ∀ e ∈ t.counts, ∃ sn sz, e.topt = .int sn sz ∧ sz.bytes = 4

end CountStmt

/-! ## One count -/

/-- The count is a constant expression with an integer that fits, and no pragma. -/
def ConstantCount (e : Absyn.Exp X T) : Prop :=
  e.isReplaced = true ∧ ∃ c, Folds e c ∧ Fits32 c

/-- What is recorded for a count is what is passed exactly when the count is a constant, or `0` is
passed. -/
theorem count_recorded_iff (x : Execution X T) {e : Absyn.Exp X T} (hfree : valueofFree e = true)
    (herrs : countErrs e = []) :
    (evalConstUintExp e).i = x.word e ↔ ConstantCount e ∨ x.word e = 0 := by
  cases hknown : (evalConstExp e).known with
  | false =>
    have hzero : (evalConstUintExp e).i = 0 := by simp [evalConstUintExp, hknown]
    have hnot : ¬ ConstantCount e := by
      rintro ⟨-, c, hc, -⟩
      rw [hc.eval.1] at hknown
      cases hknown
    rw [hzero, or_iff_right hnot, eq_comm]
  | true =>
    have hfolds := folds_of_known e hknown
    by_cases hfits : Fits32 (evalConstExp e).c
    · obtain ⟨w, hword, huint⟩ := uintOfConst_of_fits hfits
      have hi : (evalConstUintExp e).i = w := by simp [evalConstUintExp, hknown, huint]
      have hcode : countCode e = (evalConstExp e).exp := by
        simp [countCode]
      by_cases hrep : e.isReplaced = true
      · have hpass : x.word e = w := by
          rw [Execution.word, hcode, evalConstExp_exp hknown hrep]
          exact x.value_const _ _ _ hword
        exact ⟨fun _ => .inl ⟨hrep, _, hfolds, hfits⟩, fun _ => hi.trans hpass.symm⟩
      · -- a pragma counts as `0`, and code is made for the pragma
        have hzero : w = 0 := by
          cases e with
          | pragma s τ => exact (Option.some.inj hword).symm
          | valueof t τ => cases hfree
          | _ => exact (hrep rfl).elim
        rw [hi, hzero, or_iff_right fun h : ConstantCount e => hrep h.1, eq_comm]
    · have hnot : ¬ ConstantCount e := by
        rintro ⟨-, c, hc, hfit⟩
        rw [← hc.eval.2] at hfit
        exact hfits hfit
      rcases uintOfConst_of_not_fits hfits with huint | huint
      · have hi : (evalConstUintExp e).i = 0 := by simp [evalConstUintExp, huint]
        rw [hi, or_iff_right hnot, eq_comm]
      · simp [countErrs, evalConstUintExp, hknown, huint] at herrs

/-! ## The structures of a spawn -/

section Layout

variable (x : Execution X T)

theorem length_bytes (n : Nat) (v : Int) : (Execution.bytes n v).length = n := by
  simp [Execution.bytes]

theorem readInt_append (m1 m2 : List Nat) (off : Nat) :
    readInt (m1 ++ m2) (m1.length + off) = readInt m2 off := by
  simp only [readInt, Nat.add_assoc, List.getD_append_right _ _ _ _ (Nat.le_add_right ..),
    Nat.add_sub_cancel_left]

theorem readInt_skip (v : Int) (m : List Nat) (off : Nat) :
    readInt (Execution.bytes 4 v ++ m) (off + 4) = readInt m off := by
  have h := readInt_append (Execution.bytes 4 v) m off
  rwa [length_bytes, Nat.add_comm] at h

theorem readInt_bytes (v : Int) (m : List Nat) :
    readInt (Execution.bytes 4 v ++ m) 0 = BitVec.ofInt 32 v := by
  have hget : ∀ k < 4, (Execution.bytes 4 v ++ m).getD k 0 =
      (v % 256 ^ 4).toNat / 256 ^ k % 256 := by
    intro k hk
    rw [List.getD_append _ _ _ _ (by rwa [length_bytes])]
    simp [Execution.bytes, hk]
  rw [readInt, hget 0 (by decide), hget 1 (by decide), hget 2 (by decide), hget 3 (by decide)]
  apply BitVec.eq_of_toNat_eq
  rw [BitVec.toNat_ofNat, BitVec.toNat_ofInt]
  omega

theorem field_int {m : List Nat} {e : Absyn.Exp X T} {sn : Sign} {sz : SizeOf}
    (hm : m.length % 4 = 0) (he : e.topt = .int sn sz) (hsz : sz.bytes = 4) :
    x.field m e = m ++ Execution.bytes 4 (x.value (countCode e)) := by
  have hsa : x.sizeAlign e.topt = (4, 4) := by rw [he, Execution.sizeAlign, hsz]; rfl
  simp [Execution.field, hsa, Execution.align, hm]

theorem tupleBytes_int {t : CountTuple xrgn}
    (h : ∀ e ∈ t.counts, ∃ sn sz, e.topt = .int sn sz ∧ sz.bytes = 4) :
    x.tupleBytes t = Execution.bytes 4 (x.value t.h) ++
      Execution.bytes 4 (x.value (countCode t.c₁)) ++
      Execution.bytes 4 (x.value (countCode t.c₂)) ++
      Execution.bytes 4 (x.value (countCode t.c₃)) := by
  obtain ⟨⟨_, _, h1, hs1⟩, ⟨_, _, h2, hs2⟩, ⟨_, _, h3, hs3⟩⟩ := CountTuple.forall_counts.1 h
  simp only [Execution.tupleBytes, CountTuple.counts, List.foldl_cons]
  rw [field_int x (by simp [length_bytes]) h1 hs1, field_int x (by simp [length_bytes]) h2 hs2,
    field_int x (by simp [length_bytes]) h3 hs3]
  simp [Execution.align, length_bytes]

theorem readCaps_spawnBytes {ts : List (CountTuple xrgn)}
    (h : ∀ t ∈ ts, ∀ e ∈ t.counts, ∃ sn sz, e.topt = .int sn sz ∧ sz.bytes = 4) (m : List Nat)
    (k : Nat) (hm : m.length = 16 * k) :
    (List.range ts.length).map (fun j => readCaps (m ++ x.spawnBytes ts) (k + j)) =
      ts.map fun t => .ofWords (x.word t.c₁) (x.word t.c₂) (x.word t.c₃) := by
  induction ts generalizing m k with
  | nil => rfl
  | cons t ts ih =>
    have ht := tupleBytes_int x (h t (.head _))
    have hrest := ih (fun t' ht' => h t' (.tail _ ht')) (m ++ x.tupleBytes t)
      (k + 1) (by simp [ht, length_bytes]; omega)
    have hmem : m ++ x.spawnBytes (t :: ts) = m ++ x.tupleBytes t ++ x.spawnBytes ts := by
      simp [Execution.spawnBytes]
    rw [List.length_cons, List.range_succ_eq_map, List.map_cons, List.map_cons, List.map_map,
      hmem]
    refine congrArg₂ List.cons ?_ ?_
    · -- the three counts stand after the handle of this structure
      simp only [readCaps, Nat.add_zero, ← hm, ht, List.append_assoc, readInt_append]
      rw [readInt_skip _ _ 0, readInt_skip _ _ 4, readInt_skip _ _ 8, readInt_skip _ _ 0,
        readInt_skip _ _ 4, readInt_skip _ _ 0, readInt_bytes, readInt_bytes, readInt_bytes]
      rfl
    · rw [← hrest]
      refine List.map_congr_left fun j _ => ?_
      rw [Function.comp_apply, Nat.add_assoc, Nat.add_comm 1 j]

/-- With counts of the size of an `int` the runtime reads the values of the expressions. -/
theorem passed_eq {s : CountStmt xrgn} (h : s.IntSized) :
    s.passed x =
      s.tuples.map fun t => .ofWords (x.word t.c₁) (x.word t.c₂) (x.word t.c₃) := by
  cases s with
  | cap t => rfl
  | spawn ts =>
    have hread := readCaps_spawnBytes x h [] 0 rfl
    simp only [Nat.zero_add] at hread
    exact hread

end Layout

/-! ## Recorded and passed counts -/

theorem ofWords_eq_iff {i₁ i₂ i3 j1 j2 j3 : BitVec 32} :
    XCap.ofWords i₁ i₂ i3 = XCap.ofWords j1 j2 j3 ↔ i₁ = j1 ∧ i₂ = j2 ∧ i3 = j3 := by
  simp only [XCap.ofWords, XCap.mk.injEq, Int32.ofBitVec_inj]

/-- For every accepted statement and every execution, with the counts of a spawn of the size of an
`int`: the analysis records the counts that are passed exactly when each count is a constant
expression with an integer that fits, or `0` is passed. -/
theorem counts_agree_iff (s : CountStmt xrgn) (x : Execution X T) (hcompiles : s.Compiles)
    (hsize : s.IntSized) :
    s.recorded = s.passed x ↔ ∀ t ∈ s.tuples, ∀ e ∈ t.counts, ConstantCount e ∨ x.word e = 0 := by
  rw [passed_eq x hsize, CountStmt.recorded, List.map_inj_left]
  refine forall₂_congr fun t ht => ?_
  have hcount : ∀ e ∈ t.counts,
      ((evalConstUintExp e).i = x.word e ↔ ConstantCount e ∨ x.word e = 0) :=
    fun e he => count_recorded_iff x (t.valueofFree e he) (hcompiles t ht e he)
  obtain ⟨h₁, h₂, h₃⟩ := CountTuple.forall_counts.1 hcount
  rw [CountTuple.exps2con, ofWords_eq_iff, h₁, h₂, h₃, CountTuple.forall_counts]

/-- An execution in which the variables have given values. -/
def plainExecution (vals : Nat → Int) : Execution Nat Nat where
  value
    | .const c _ => ((constWord c).getD 0).toInt
    | .var (.vardecl v _ _) _ => vals v
    | _ => 0
  value_const c τ w hw := by simp only [hw, Option.getD_some, BitVec.ofInt_toInt]
  layout _ := (4, 4)
  padding _ := 0

/-- The tuple `(h, 1, 0, c₃)`. -/
def lastCount (c₃ : Absyn.Exp Nat Nat) (hfree : valueofFree c₃ = true) :
    CountTuple fun _ : Typ Nat Nat => some () where
  h := .var (.vardecl 0 false false) (.other 0)
  c₁ := .const (.int .signed 1) (.int .signed .int)
  c₂ := .const (.int .signed 0) (.int .signed .int)
  c₃ := c₃
  accepted := by
    simp [tcSpecialTuple, tcCounts, hfree, valueofFree, isAnyIntType, isConstExp, cnstExp,
      Absyn.Exp.topt]

/-- A spawn that passes a region with the counts `(1, 0, 0)`. -/
theorem counts_agree_iff_constants :
    let t := lastCount (.const (.int .signed 0) (.int .signed .int)) rfl
    let x := plainExecution fun _ => 0
    (CountStmt.spawn [t]).recorded = (CountStmt.spawn [t]).passed x ↔
      ∀ t' ∈ [t], ∀ e ∈ t'.counts, ConstantCount e ∨ x.word e = 0 := by
  intro t x
  refine counts_agree_iff (.spawn [t]) x ?_ ?_
  · exact List.forall_mem_singleton.2 (CountTuple.forall_counts.2 ⟨rfl, rfl, rfl⟩)
  · have hint : ∃ sn sz, Typ.int .signed .int = (.int sn sz : Typ Nat Nat) ∧ sz.bytes = 4 :=
      ⟨_, _, rfl, rfl⟩
    exact List.forall_mem_singleton.2 (CountTuple.forall_counts.2 ⟨hint, hint, hint⟩)

/-- The last count of a `cap` statement may be a variable: `0` is recorded, and the value of the
variable is passed. -/
theorem not_counts_agree_variable :
    let s := CountStmt.cap (lastCount (.var (.vardecl 1 false false) (.int .signed .int)) rfl)
    let x := plainExecution fun _ => 1
    s.Compiles ∧ s.recorded = [⟨1, 0, 0⟩] ∧ s.passed x = [⟨1, 0, 1⟩] ∧
      s.recorded ≠ s.passed x := by
  intro s x
  have hrec : s.recorded = [⟨1, 0, 0⟩] := rfl
  have hpass : s.passed x = [⟨1, 0, 1⟩] := rfl
  have hcompiles : s.Compiles :=
    List.forall_mem_singleton.2 (CountTuple.forall_counts.2 ⟨rfl, rfl, rfl⟩)
  exact ⟨hcompiles, hrec, hpass, by rw [hrec]; decide⟩

end ConcurrentCyclone.XInfer
