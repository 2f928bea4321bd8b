import ConcurrentCyclone.Absyn.Evexp
import ConcurrentCyclone.Relations.Solver

/-!
# Removal of bounds checks

`need_bounds_check` decides whether a subscript needs a check at run time. It translates the index,
and the bound of the array, to operands of relations (`exp2relnop`), adds the relation that says
that the index is too large, and asks whether the relations are consistent. The solver is a
parameter here, and assumed to be right.

An operand stands for an unsigned 32-bit number. `exp2relnop` strips casts; for an index `e1 % e2`
it is `e2` that is compared with the bound. `index_in_bounds` says under which conditions on the
casts and on the remainder the check can be left out.
-/

set_option autoImplicit false

namespace ConcurrentCyclone.Relations

open Absyn

variable {X T : Type}

/-! ## Operands -/

/-- `nonesc_vardecl`. -/
def nonescVardecl : Binding X → Option X
  | .vardecl x _ false => some x
  | _ => none

/-- The answer of `exp2relnop`, the expression afterwards and the errors of its evaluation. -/
structure OpExp (X T : Type) where
  op : Option (RelnOp X T)
  exp : Exp X T
  errs : List EvalErr

/-- The end of `exp2relnop`: try to reduce the expression to a constant. -/
def constRelnop (e : Exp X T) : OpExp X T :=
  if isConstExp e then
    let r := evalConstUintExp e
    ⟨if r.known then some (.const r.i) else none, r.exp, r.errs⟩
  else ⟨none, e, []⟩

theorem sizeOf_topt (e : Exp X T) : sizeOf e.topt < sizeOf e := by
  cases e <;> simp [Exp.topt]

mutual

/-- `exp2relnop`. -/
def exp2relnop (e : Exp X T) : OpExp X T :=
  match _h : e.topt with
  | .tag t => ⟨some (.type t), e, []⟩
  -- the expression of the type is used in place of `e`
  | .valueof te => { rawRelnop te with exp := e }
  | _ => rawRelnop e
  termination_by (sizeOf e, 1)
  decreasing_by
    · have hlt := sizeOf_topt e
      rw [_h] at hlt
      simp only [Typ.valueof.sizeOf_spec] at hlt
      exact Prod.Lex.left _ _ (by omega)
    · exact Prod.Lex.right _ (by omega)

/-- The switch of `exp2relnop` over the form of the expression. -/
def rawRelnop (e : Exp X T) : OpExp X T :=
  match e with
  | .cast t e' τ =>
    let r := exp2relnop e'
    { r with exp := .cast t r.exp τ }
  | .var b _ =>
    match nonescVardecl b with
    | some x => ⟨some (.var x), e, []⟩
    | none => constRelnop e
  | .const (.int _ i) _ => ⟨some (.const i), e, []⟩
  | .primop₁ .numelts (.var b _) _ =>
    match nonescVardecl b with
    | some x => ⟨some (.numelts x), e, []⟩
    | none => constRelnop e
  | .valueof (.valueof te) _ => { exp2relnop te with exp := e }
  | .valueof (.other t) _ => ⟨some (.type t), e, []⟩
  | _ => constRelnop e
  termination_by (sizeOf e, 0)

end

/-- The inner loop of `need_bounds_check`: below its casts the index is `e1 % e2`. -/
def modRelnop : Exp X T → OpExp X T
  | .cast t e τ =>
    let r := modRelnop e
    { r with exp := .cast t r.exp τ }
  | .primop₂ .mod e₁ e₂ τ =>
    let r := exp2relnop e₂
    { r with exp := .primop₂ .mod e₁ r.exp τ }
  | e => ⟨none, e, []⟩

section Check

variable [DecidableEq X] [DecidableEq T]

/-- `add_relation`. -/
def addRelation (rop1 : RelnOp X T) (relation : Relation) (rop2 : RelnOp X T)
    (relns : List (Reln X T)) : List (Reln X T) :=
  if ⟨rop1, relation, rop2⟩ ∈ relns then relns else ⟨rop1, relation, rop2⟩ :: relns

/-- The answer of `need_bounds_check`, the index for which code is made and the errors. -/
structure CheckAnswer (X T : Type) where
  need : Bool
  index : Exp X T
  errs : List EvalErr

/-- The size of an array that is an unescaped variable. -/
def arrayOp : Exp X T → Option (RelnOp X T)
  | .var b _ => (nonescVardecl b).map .numelts
  | _ => none

/-- `rop_left`, and the relations with the one between the bound and the size. -/
def leftOp (bd a : Option (RelnOp X T)) (relns : List (Reln X T)) :
    Option (RelnOp X T × List (Reln X T)) :=
  match bd, a with
  | none, none => none
  | some bd, some a => some (a, addRelation bd .lte a relns)
  | none, some a => some (a, relns)
  | some bd, none => some (bd, relns)

/-- `need_bounds_check`, for an access that is evaluated. `consistent` is `consistent_relations` and
`bound` is `get_type_bound`. -/
def needBoundsCheck (consistent : List (Reln X T) → Bool) (bound : Typ X T → Option (Exp X T))
    (relns : List (Reln X T)) (a i : Exp X T) : CheckAnswer X T :=
  let bd := (bound a.topt).map exp2relnop
  let ri := exp2relnop i
  let rz := if ri.op.isNone then modRelnop ri.exp else ⟨none, ri.exp, []⟩
  { need :=
      match leftOp (bd.bind OpExp.op) (arrayOp a) relns with
      | none => true
      | some (left, relns) =>
        match ri.op, rz.op with
        | some i, _ => consistent (addRelation left .lte i relns)
        | none, some z => consistent (addRelation left .lt z relns)
        | none, none => true
    index := rz.exp
    errs := (bd.map OpExp.errs).getD [] ++ ri.errs ++ rz.errs }

end Check

/-- The type is a singleton type. -/
def isSingleton : Typ X T → Bool
  | .tag _ | .valueof _ => true
  | _ => false

/-! ## Runs -/

/-- The conversion of a number to an integer type; plain `char` is signed. -/
def wrap (sn : Sign) (sz : SizeOf) (v : Int) : Int :=
  match sn with
  | .unsigned => v % 256 ^ sz.bytes
  | .signed | .none => v.bmod (256 ^ sz.bytes)

/-- A state of the program: the numbers for which operands stand, the values of integer expressions
and the sizes of arrays. -/
structure Run (bound : Typ X T → Option (Exp X T)) where
  σ : Node X T → BitVec 32
  value : Exp X T → Int
  size : Exp X T → Nat
  /-- The expressions of the program, also as `exp2relnop` rewrites them. -/
  occurs : Exp X T → Prop
  occurs_cast : ∀ {t e τ}, occurs (.cast t e τ) → occurs e
  occurs_mod : ∀ {e₁ e₂ τ}, occurs (.primop₂ .mod e₁ e₂ τ) → occurs e₂
  occurs_exp : ∀ {e}, occurs e → occurs (exp2relnop e).exp
  occurs_bound : ∀ {a b}, occurs a → bound a.topt = some b → occurs b
  value_const : ∀ c τ w, constWord c = some w → BitVec.ofInt 32 (value (.const c τ)) = w
  value_pragma : ∀ s τ, value (.pragma s τ) = 0
  value_var : ∀ x fixed τ, BitVec.ofInt 32 (value (.var (.vardecl x fixed false) τ)) = σ (.var x)
  value_numelts : ∀ x fixed τ τ',
    BitVec.ofInt 32 (value (.primop₁ .numelts (.var (.vardecl x fixed false) τ) τ')) =
      σ (.numelts x)
  value_cast : ∀ sn sz e τ, value (.cast (.int sn sz) e τ) = wrap sn sz (value e)
  value_mod : ∀ e₁ e₂ sn sz, value (.primop₂ .mod e₁ e₂ (.int sn sz)) =
    (wrap sn sz (value e₁)).tmod (wrap sn sz (value e₂))
  /-- A value of a singleton type is the number of the type. -/
  value_tag : ∀ {e t}, occurs e → e.topt = .tag t → BitVec.ofInt 32 (value e) = σ (.type t)
  value_singleton : ∀ {e te o}, occurs e → e.topt = .valueof te → (rawRelnop te).op = some o →
    BitVec.ofInt 32 (value e) = o.value σ
  value_valueof : ∀ {t τ o}, (rawRelnop (.valueof t τ)).op = some o →
    BitVec.ofInt 32 (value (.valueof t τ)) = o.value σ
  size_var : ∀ x fixed τ, size (.var (.vardecl x fixed false) τ) = (σ (.numelts x)).toNat
  /-- No object is larger than half of the address space. -/
  size_lt : ∀ a, size a < 2 ^ 31
  /-- An array has the elements that its type promises. -/
  bound_le : ∀ {a b}, occurs a → bound a.topt = some b →
    (BitVec.ofInt 32 (value (exp2relnop b).exp)).toNat ≤ size a

namespace Run

variable {bound : Typ X T → Option (Exp X T)} (run : Run bound)

/-- The unsigned number of an expression. -/
def word (e : Exp X T) : BitVec 32 := BitVec.ofInt 32 (run.value e)

/-- Each cast that `exp2relnop` strips relates the number after the cast to the one before. -/
def CastsMove (rel : BitVec 32 → BitVec 32 → Prop) : Exp X T → Prop
  | .cast t e τ => isSingleton τ = true ∨
      (rel (run.word (.cast t (exp2relnop e).exp τ)) (run.word (exp2relnop e).exp) ∧
        CastsMove rel e)
  | _ => True

/-- No cast that is stripped makes the number larger. -/
def CastsShrink (e : Exp X T) : Prop := run.CastsMove (fun w₁ w₂ => w₁.toNat ≤ w₂.toNat) e

/-- No cast that is stripped makes the number smaller. -/
def CastsGrow (e : Exp X T) : Prop := run.CastsMove (fun w₁ w₂ => w₂.toNat ≤ w₁.toNat) e

/-! ## What operands stand for -/

variable {e : Exp X T} {o : RelnOp X T}

/-- A constant operand is the number of the expression for which code is made. -/
theorem word_constRelnop (hop : (constRelnop e).op = some o)
    (herrs : (constRelnop e).errs = []) (hval : ∀ t τ, e ≠ .valueof t τ) :
    run.word (constRelnop e).exp = o.value run.σ := by
  by_cases hconst : isConstExp e = true
  swap
  · simp [constRelnop, hconst] at hop
  simp only [constRelnop, hconst, if_true] at hop herrs ⊢
  split_ifs at hop with hknown
  obtain ⟨c, hfolds, hk, hc, hword⟩ := evalConstUintExp_known hknown herrs
  obtain rfl := Option.some.inj hop
  rw [evalConstUintExp_exp]
  by_cases hrep : e.isReplaced = true
  · rw [evalConstExp_exp hk hrep, hc]
    exact run.value_const _ _ _ hword
  · cases e with
    | pragma s τ =>
      -- a pragma counts as `0`, and is compiled to `0`
      cases hfolds
      show BitVec.ofInt 32 (run.value (.pragma s τ)) = _
      rw [run.value_pragma]
      rfl
    | valueof t τ => exact (hval t τ rfl).elim
    | _ => exact (hrep rfl).elim

theorem nonescVardecl_eq_some {b : Binding X} {x : X} (h : nonescVardecl b = some x) :
    ∃ fixed, b = .vardecl x fixed false := by
  cases b with
  | vardecl y fixed escapes =>
    cases escapes with
    | false => exact ⟨fixed, by rw [Option.some.inj h]⟩
    | true => cases h
  | unresolved | funname => cases h

/-- The form of an expression gives its operand, or it is reduced to a constant. -/
theorem rawRelnop_cases (e : Exp X T) :
    (∃ t e' τ, e = .cast t e' τ) ∨ (∃ t τ, e = .valueof t τ) ∨
    (∃ x fixed τ, e = .var (.vardecl x fixed false) τ ∧ rawRelnop e = ⟨some (.var x), e, []⟩) ∨
    (∃ sn i τ, e = .const (.int sn i) τ ∧ rawRelnop e = ⟨some (.const i), e, []⟩) ∨
    (∃ x fixed τ τ', e = .primop₁ .numelts (.var (.vardecl x fixed false) τ) τ' ∧
      rawRelnop e = ⟨some (.numelts x), e, []⟩) ∨
    (∀ t e' τ, e ≠ .cast t e' τ) ∧ (∀ t τ, e ≠ .valueof t τ) ∧ rawRelnop e = constRelnop e := by
  unfold rawRelnop
  split
  · exact .inl ⟨_, _, _, rfl⟩
  · split
    · next hb =>
      obtain ⟨fixed, rfl⟩ := nonescVardecl_eq_some hb
      exact .inr (.inr (.inl ⟨_, fixed, _, rfl, rfl⟩))
    · exact .inr (.inr (.inr (.inr (.inr ⟨nofun, nofun, rfl⟩))))
  · exact .inr (.inr (.inr (.inl ⟨_, _, _, rfl, rfl⟩)))
  · split
    · next hb =>
      obtain ⟨fixed, rfl⟩ := nonescVardecl_eq_some hb
      exact .inr (.inr (.inr (.inr (.inl ⟨_, fixed, _, _, rfl, rfl⟩))))
    · exact .inr (.inr (.inr (.inr (.inr ⟨nofun, nofun, rfl⟩))))
  · exact .inr (.inl ⟨_, _, rfl⟩)
  · exact .inr (.inl ⟨_, _, rfl⟩)
  · by_cases hval : ∃ t τ, e = .valueof t τ
    · exact .inr (.inl hval)
    · exact .inr (.inr (.inr (.inr (.inr
        ⟨by assumption, fun t τ h => hval ⟨t, τ, h⟩, rfl⟩))))

/-- An operand that is found without stripping a cast is the number of the expression. -/
theorem word_rawRelnop (hop : (rawRelnop e).op = some o)
    (herrs : (rawRelnop e).errs = []) (hcast : ∀ t e' τ, e ≠ .cast t e' τ) :
    run.word (rawRelnop e).exp = o.value run.σ := by
  rcases rawRelnop_cases e with ⟨t, e', τ, h⟩ | ⟨t, τ, rfl⟩ | ⟨x, fixed, τ, rfl, heq⟩ |
    ⟨sn, i, τ, rfl, heq⟩ | ⟨x, fixed, τ, τ', rfl, heq⟩ | ⟨-, hval, heq⟩
  · exact (hcast t e' τ h).elim
  · have hexp : (rawRelnop (.valueof t τ)).exp = .valueof t τ := by
      cases t <;> simp [rawRelnop, constRelnop, isConstExp, cnstExp]
    rw [hexp]
    exact run.value_valueof hop
  all_goals rw [heq] at hop herrs ⊢
  · cases hop
    exact run.value_var x fixed τ
  · cases hop
    exact run.value_const _ τ _ rfl
  · cases hop
    exact run.value_numelts x fixed τ τ'
  · exact run.word_constRelnop hop herrs hval

/-- An expression has a singleton type, or its form decides. -/
theorem exp2relnop_cases (e : Exp X T) :
    (∃ t, e.topt = .tag t ∧ exp2relnop e = ⟨some (.type t), e, []⟩) ∨
      (∃ te, e.topt = .valueof te ∧ exp2relnop e = { rawRelnop te with exp := e }) ∨
      (isSingleton e.topt = false ∧ exp2relnop e = rawRelnop e) := by
  rw [exp2relnop]
  split
  · next t ht => exact .inl ⟨t, ht, rfl⟩
  · next te hte => exact .inr (.inl ⟨te, hte, rfl⟩)
  · next htag hval =>
      refine .inr (.inr ⟨?_, rfl⟩)
      cases hτ : e.topt with
      | tag t => exact (htag t hτ).elim
      | valueof te => exact (hval te hτ).elim
      | int | other => rfl

/-- The operand of an expression, up to what the stripped casts do. -/
theorem rel_operand (rel : BitVec 32 → BitVec 32 → Prop) (hrefl : ∀ w, rel w w)
    (htrans : ∀ w1 w2 w3, rel w1 w2 → rel w2 w3 → rel w1 w3) :
    ∀ (e : Exp X T) {o : RelnOp X T}, run.occurs e → (exp2relnop e).op = some o →
      (exp2relnop e).errs = [] → run.CastsMove rel e →
      rel (run.word (exp2relnop e).exp) (o.value run.σ) := by
  intro e o hocc hop herrs hcasts
  rcases exp2relnop_cases e with ⟨t, ht, heq⟩ | ⟨te, hte, heq⟩ | ⟨hsingle, heq⟩
  · rw [heq] at hop ⊢
    obtain rfl := Option.some.inj hop
    have hword : run.word e = run.σ (.type t) := run.value_tag hocc ht
    exact hword ▸ hrefl _
  · rw [heq] at hop ⊢
    have hword : run.word e = o.value run.σ := run.value_singleton hocc hte hop
    exact hword ▸ hrefl _
  · rw [heq] at hop herrs ⊢
    by_cases hcast : ∃ t e' τ, e = .cast t e' τ
    · obtain ⟨t, e', τ, rfl⟩ := hcast
      simp only [rawRelnop] at hop herrs ⊢
      rcases hcasts with hτ | ⟨hstep, hrest⟩
      · rw [Exp.topt, hτ] at hsingle
        cases hsingle
      · exact htrans _ _ _ hstep
          (rel_operand rel hrefl htrans e' (run.occurs_cast hocc) hop herrs hrest)
    · have hword := run.word_rawRelnop hop herrs fun t e' τ h => hcast ⟨t, e', τ, h⟩
      exact hword ▸ hrefl _
  termination_by e => sizeOf e

section

variable (hocc : run.occurs e) (hop : (exp2relnop e).op = some o) (herrs : (exp2relnop e).errs = [])

include hocc hop herrs

theorem word_le_operand
    (hcasts : run.CastsShrink e) : (run.word (exp2relnop e).exp).toNat ≤ (o.value run.σ).toNat :=
  run.rel_operand (fun w1 w2 => w1.toNat ≤ w2.toNat) (fun _ => le_rfl) (fun _ _ _ => le_trans) e
    hocc hop herrs hcasts

theorem operand_le_word
    (hcasts : run.CastsGrow e) : (o.value run.σ).toNat ≤ (run.word (exp2relnop e).exp).toNat :=
  run.rel_operand (fun w1 w2 => w2.toNat ≤ w1.toNat) (fun _ => le_rfl)
    (fun _ _ _ h1 h2 => h2.trans h1) e hocc hop herrs hcasts

end

/-! ## Remainders -/

/-- The index is `e1 % e2`, below casts that do not make it larger. The remainder is defined and not
negative, and the type in which it is computed keeps the divisor as it is, or makes it smaller. -/
def RemainderOk : Exp X T → Prop
  | .cast t e τ =>
    (run.word (.cast t (modRelnop e).exp τ)).toNat ≤ (run.word (modRelnop e).exp).toNat ∧
      RemainderOk e
  | .primop₂ .mod e₁ e₂ τ =>
    ∃ sn sz, τ = .int sn sz ∧ 0 ≤ run.value (.primop₂ .mod e₁ (exp2relnop e₂).exp τ) ∧
      wrap sn sz (run.value (exp2relnop e₂).exp) ≠ 0 ∧
      (wrap sn sz (run.value (exp2relnop e₂).exp)).natAbs ≤
        (run.word (exp2relnop e₂).exp).toNat ∧ run.CastsShrink e₂
  | _ => True

theorem word_tmod_lt {a b : Int} {n : Nat} (h : 0 ≤ a.tmod b) (hb : b ≠ 0) (hn : b.natAbs ≤ n) :
    (BitVec.ofInt 32 (a.tmod b)).toNat < n := by
  have hlt : (a.tmod b).natAbs < b.natAbs := by
    rw [Int.natAbs_tmod]
    exact Nat.mod_lt _ (Int.natAbs_pos.2 hb)
  have hword : (BitVec.ofInt 32 (a.tmod b)).toNat ≤ (a.tmod b).toNat := by
    rw [BitVec.toNat_ofInt]
    omega
  omega

theorem word_modRelnop_lt : ∀ (e : Exp X T) {z : RelnOp X T}, run.occurs e →
    (modRelnop e).op = some z → (modRelnop e).errs = [] → run.RemainderOk e →
    (run.word (modRelnop e).exp).toNat < (z.value run.σ).toNat := by
  intro e z hocc hop herrs hok
  fun_induction modRelnop e with
  | case1 t e τ r ih => exact lt_of_le_of_lt hok.1 (ih (run.occurs_cast hocc) hop herrs hok.2)
  | case2 e1 e2 τ r =>
    obtain ⟨sn, sz, rfl, hrem, hdiv, hle, hcasts⟩ := hok
    have hdivisor := run.word_le_operand (run.occurs_mod hocc) hop herrs hcasts
    refine lt_of_lt_of_le ?_ hdivisor
    rw [run.value_mod] at hrem
    rw [word, run.value_mod]
    exact word_tmod_lt hrem hdiv hle
  | case3 => cases hop

/-! ## Subscripts without a check -/

variable [DecidableEq X] [DecidableEq T] {relns : List (Reln X T)}

theorem holds_addRelation {σ : Node X T → BitVec 32} {o1 o2 : RelnOp X T} {rel : Relation}
    (hrelns : ∀ r ∈ relns, r.Holds σ) (h : (⟨o1, rel, o2⟩ : Reln X T).Holds σ) :
    ∀ r ∈ addRelation o1 rel o2 relns, r.Holds σ := by
  unfold addRelation
  split_ifs with hmem
  · exact hrelns
  · exact List.forall_mem_cons.2 ⟨h, hrelns⟩

omit [DecidableEq X] [DecidableEq T] in
theorem arrayOp_eq_some {a : Exp X T} (h : arrayOp a = some o) :
    (o.value run.σ).toNat = run.size a := by
  cases a with
  | var b τ =>
    obtain ⟨x, hx, rfl⟩ := Option.map_eq_some_iff.1 h
    obtain ⟨fixed, rfl⟩ := nonescVardecl_eq_some hx
    exact (run.size_var x fixed τ).symm
  | _ => cases h

/-- The operand on the left is at most the size of the array, and the relations still hold. -/
theorem leftOp_spec {a : Exp X T} {left : RelnOp X T} {relns' : List (Reln X T)}
    {obd : Option (RelnOp X T)} (hbd : ∀ bd, obd = some bd → (bd.value run.σ).toNat ≤ run.size a)
    (hrelns : ∀ r ∈ relns, r.Holds run.σ)
    (hleft : leftOp obd (arrayOp a) relns = some (left, relns')) :
    (left.value run.σ).toNat ≤ run.size a ∧ ∀ r ∈ relns', r.Holds run.σ := by
  cases ha : arrayOp a with
  | none =>
    rw [ha] at hleft
    cases obd <;> cases hleft
    exact ⟨hbd _ rfl, hrelns⟩
  | some o =>
    have ho := run.arrayOp_eq_some ha
    rw [ha] at hleft
    cases obd <;> cases hleft
    · exact ⟨ho.le, hrelns⟩
    · refine ⟨ho.le, holds_addRelation hrelns (holds_lte.2 ?_)⟩
      exact (hbd _ rfl).trans ho.ge

/-- A solver that calls relations inconsistent only if no assignment meets them. -/
def Sound (consistent : List (Reln X T) → Bool) : Prop :=
  ∀ rs, consistent rs = false → ∀ σ, ¬ ∀ r ∈ rs, r.Holds σ

/-- An index without a check is within the array, in every state that meets the relations, if the
casts that are stripped from the index do not make its number larger, those that are stripped from
the bound do not make it smaller, and a remainder is not negative and smaller than the number of its
divisor. -/
theorem index_in_bounds {consistent : List (Reln X T) → Bool} (hsolver : Sound consistent)
    {a i : Exp X T} (ha : run.occurs a) (hi : run.occurs i) (hrelns : ∀ r ∈ relns, r.Holds run.σ)
    (hcompiles : (needBoundsCheck consistent bound relns a i).errs = [])
    (hbound : ∀ b, bound a.topt = some b → run.CastsGrow b) (hindex : run.CastsShrink i)
    (hrem : run.RemainderOk (exp2relnop i).exp)
    (hneed : (needBoundsCheck consistent bound relns a i).need = false) :
    let index := (run.word (needBoundsCheck consistent bound relns a i).index).toInt
    0 ≤ index ∧ index < run.size a := by
  intro index
  suffices hlt : (run.word (needBoundsCheck consistent bound relns a i).index).toNat < run.size a by
    have hsize := run.size_lt a
    have hindex : index = (run.word (needBoundsCheck consistent bound relns a i).index).toNat :=
      BitVec.toInt_eq_toNat_of_lt (by omega)
    omega
  simp only [needBoundsCheck, List.append_eq_nil_iff] at hneed hcompiles ⊢
  obtain ⟨⟨herrsBd, herrsI⟩, herrsZ⟩ := hcompiles
  have hbd : ∀ bd, ((bound a.topt).map exp2relnop).bind OpExp.op = some bd →
      (bd.value run.σ).toNat ≤ run.size a := by
    intro bd hop
    cases hb : bound a.topt with
    | none => simp [hb] at hop
    | some b =>
      simp only [hb] at hop herrsBd
      exact (run.operand_le_word (run.occurs_bound ha hb) hop herrsBd (hbound b hb)).trans
        (run.bound_le ha hb)
  cases hleft : leftOp (((bound a.topt).map exp2relnop).bind OpExp.op) (arrayOp a) relns with
  | none => simp [hleft] at hneed
  | some lr =>
    obtain ⟨left, relns'⟩ := lr
    obtain ⟨hle, hrelns'⟩ := run.leftOp_spec hbd hrelns hleft
    cases hop : (exp2relnop i).op with
    | some o =>
      simp only [hleft, hop, Option.isNone_some, Bool.false_eq_true, if_false] at hneed ⊢
      have hsmall : ¬ (left.value run.σ).toNat ≤ (o.value run.σ).toNat := fun h =>
        hsolver _ hneed run.σ (holds_addRelation hrelns' (holds_lte.2 h))
      have hword := run.word_le_operand hi hop herrsI hindex
      omega
    | none =>
      simp only [hleft, hop, Option.isNone_none, if_true] at hneed herrsZ ⊢
      cases hz : (modRelnop (exp2relnop i).exp).op with
      | none => simp [hz] at hneed
      | some z =>
        simp only [hz] at hneed
        have hsmall : ¬ (left.value run.σ).toNat < (z.value run.σ).toNat := fun h =>
          hsolver _ hneed run.σ (holds_addRelation hrelns' (holds_lt.2 h))
        have hword := run.word_modRelnop_lt _ (run.occurs_exp hi) hz herrsZ hrem
        omega

end Run

/-! ## A state -/

/-- The numbers for which operands stand when variables have given values and arrays given sizes. -/
def plainNode (vals : Nat → Int) (sizes : Nat → BitVec 31) : Node Nat Nat → BitVec 32
  | .var x => BitVec.ofInt 32 (vals x)
  | .numelts x => (sizes x).setWidth 32
  | _ => 0

/-- The value of an expression in such a state. -/
def plainValue (vals : Nat → Int) (sizes : Nat → BitVec 31) : Exp Nat Nat → Int
  | .const c _ => ((constWord c).getD 0).toInt
  | .var (.vardecl x _ _) _ => vals x
  | .primop₁ .numelts (.var (.vardecl x _ _) _) _ => (sizes x).toNat
  | .cast (.int sn sz) e _ => wrap sn sz (plainValue vals sizes e)
  | .primop₂ .mod e₁ e₂ (.int sn sz) =>
    (wrap sn sz (plainValue vals sizes e₁)).tmod (wrap sn sz (plainValue vals sizes e₂))
  | .valueof t τ =>
    (((rawRelnop (.valueof t τ)).op.map (RelnOp.value (plainNode vals sizes))).getD 0).toInt
  | _ => 0

/-- The state of a program whose expressions have no singleton types and whose arrays are fat
pointers. -/
def plainRun (vals : Nat → Int) (sizes : Nat → BitVec 31) (occurs : Exp Nat Nat → Prop)
    (occurs_cast : ∀ {t e τ}, occurs (.cast t e τ) → occurs e)
    (occurs_mod : ∀ {e₁ e₂ τ}, occurs (.primop₂ .mod e₁ e₂ τ) → occurs e₂)
    (occurs_exp : ∀ {e}, occurs e → occurs (exp2relnop e).exp)
    (plain : ∀ {e}, occurs e → isSingleton e.topt = false) :
    Run fun _ : Typ Nat Nat => (none : Option (Exp Nat Nat)) where
  σ := plainNode vals sizes
  value := plainValue vals sizes
  size
    | .var (.vardecl x _ _) _ => (sizes x).toNat
    | _ => 0
  occurs := occurs
  occurs_cast := occurs_cast
  occurs_mod := occurs_mod
  occurs_exp := occurs_exp
  occurs_bound _ h := by cases h
  value_const c τ w hw := by rw [plainValue, hw, Option.getD_some, BitVec.ofInt_toInt]
  value_pragma _ _ := rfl
  value_var _ _ _ := rfl
  value_numelts x fixed τ τ' := by
    apply BitVec.eq_of_toNat_eq
    simp [plainValue, plainNode]
  value_cast _ _ _ _ := rfl
  value_mod _ _ _ _ := rfl
  value_tag ho ht := by
    have hplain := plain ho
    rw [ht] at hplain
    cases hplain
  value_singleton ho hte _ := by
    have hplain := plain ho
    rw [hte] at hplain
    cases hplain
  value_valueof hop := by
    rw [plainValue, hop, Option.map_some, Option.getD_some, BitVec.ofInt_toInt]
  size_var x fixed τ := by
    have hlt := (sizes x).isLt
    simp only [plainNode, BitVec.toNat_setWidth]
    omega
  size_lt a := by
    split
    · exact BitVec.isLt _
    · decide
  bound_le _ h := by cases h

/-- A solver that only looks for a relation and its negation. -/
def clashFree (rs : List (Reln Nat Nat)) : Bool := rs.all fun r => negate r ∉ rs

theorem sound_clashFree : Run.Sound clashFree := by
  intro rs hfalse σ hholds
  obtain ⟨r, hr, hclash⟩ := List.all_eq_false.1 hfalse
  have hneg : negate r ∈ rs := by simpa using hclash
  have hboth := hholds _ hneg
  rw [Reln.Holds, negate, test_flip, hholds r hr] at hboth
  cases hboth

/-- A fat pointer. -/
def fatPointer : Exp Nat Nat := .var (.vardecl 0 false false) (.other 0)

/-- An `int` variable. -/
def intVar : Exp Nat Nat := .var (.vardecl 1 false false) (.int .signed .int)

theorem exp2relnop_fatPointer : exp2relnop fatPointer = ⟨some (.var 0), fatPointer, []⟩ := by
  simp [exp2relnop, rawRelnop, fatPointer, Exp.topt, nonescVardecl]

theorem exp2relnop_intVar : exp2relnop intVar = ⟨some (.var 1), intVar, []⟩ := by
  simp [exp2relnop, rawRelnop, intVar, Exp.topt, nonescVardecl]

/-- The variable is smaller than the size of the array. -/
def inRange : List (Reln Nat Nat) := [⟨.var 1, .lt, .numelts 0⟩]

/-- An `unsigned long long` variable. -/
def hashVar : Exp Nat Nat := .var (.vardecl 2 false false) (.int .unsigned .longLong)

/-- The `int` variable as an `unsigned long long`. -/
def wideVar : Exp Nat Nat := .cast (.int .unsigned .longLong) intVar (.int .unsigned .longLong)

/-- The remainder of the two. -/
def hashIndex : Exp Nat Nat := .primop₂ .mod hashVar wideVar (.int .unsigned .longLong)

theorem exp2relnop_wideVar : exp2relnop wideVar = ⟨some (.var 1), wideVar, []⟩ := by
  simp [wideVar, exp2relnop, rawRelnop, intVar, Exp.topt, nonescVardecl]

theorem exp2relnop_hashIndex : exp2relnop hashIndex = ⟨none, hashIndex, []⟩ := by
  simp [hashIndex, exp2relnop, rawRelnop, Exp.topt, constRelnop, isConstExp, cnstExp, hashVar]

theorem modRelnop_hashIndex : modRelnop hashIndex = ⟨some (.var 1), hashIndex, []⟩ := by
  simp [hashIndex, modRelnop, exp2relnop_wideVar]

/-- Seven elements, the divisor `7` and a dividend of more than 32 bits. -/
def hashState : Run fun _ : Typ Nat Nat => (none : Option (Exp Nat Nat)) :=
  plainRun (fun x => if x = 2 then 1000000000005 else 7) (fun _ => 7)
    (fun e => e = fatPointer ∨ e = intVar ∨ e = wideVar ∨ e = hashIndex)
    (by
      rintro t e τ (h | h | h | h) <;> cases h
      exact .inr (.inl rfl))
    (by
      rintro e₁ e₂ τ (h | h | h | h) <;> cases h
      exact .inr (.inr (.inl rfl)))
    (by
      rintro e (rfl | rfl | rfl | rfl) <;>
        simp [exp2relnop_fatPointer, exp2relnop_intVar, exp2relnop_wideVar, exp2relnop_hashIndex])
    (by rintro e (rfl | rfl | rfl | rfl) <;> rfl)

/-- A hash of 64 bits, reduced by a variable that is at most the size of the array. -/
theorem index_in_bounds_hash :
    let relns := [⟨.var 1, .lte, .numelts 0⟩]
    let answer := needBoundsCheck clashFree (fun _ => none) relns fatPointer hashIndex
    answer.need = false ∧ 0 ≤ (hashState.word answer.index).toInt ∧
      (hashState.word answer.index).toInt < hashState.size fatPointer := by
  intro relns answer
  have hneed : answer.need = false := by
    simp only [answer, needBoundsCheck, exp2relnop_hashIndex, Option.isNone_none, if_true,
      modRelnop_hashIndex]
    decide
  refine ⟨hneed, hashState.index_in_bounds sound_clashFree (.inl rfl) (.inr (.inr (.inr rfl))) ?_
    ?_ nofun trivial ?_ hneed⟩
  · exact List.forall_mem_singleton.2 rfl
  · simp [needBoundsCheck, exp2relnop_hashIndex, modRelnop_hashIndex]
  · rw [exp2relnop_hashIndex]
    refine ⟨.unsigned, .longLong, rfl, ?_⟩
    rw [exp2relnop_wideVar]
    refine ⟨by decide, by decide, by decide, .inr ⟨?_, trivial⟩⟩
    rw [exp2relnop_intVar]
    decide

/-- The variable as a `char`. -/
def charVar : Exp Nat Nat := .cast (.int .none .char) intVar (.int .none .char)

/-- The same as an index, which is an `int`. -/
def charIndex : Exp Nat Nat := .cast (.int .signed .int) charVar (.int .signed .int)

theorem exp2relnop_charVar : exp2relnop charVar = ⟨some (.var 1), charVar, []⟩ := by
  simp [charVar, exp2relnop, rawRelnop, intVar, Exp.topt, nonescVardecl]

theorem exp2relnop_charIndex : exp2relnop charIndex = ⟨some (.var 1), charIndex, []⟩ := by
  simp [charIndex, charVar, exp2relnop, rawRelnop, intVar, Exp.topt, nonescVardecl]

/-- An array of 256 elements, and the variable is `200`. -/
def charState : Run fun _ : Typ Nat Nat => (none : Option (Exp Nat Nat)) :=
  plainRun (fun _ => 200) (fun _ => 256)
    (fun e => e = fatPointer ∨ e = intVar ∨ e = charVar ∨ e = charIndex)
    (by
      rintro t e τ (h | h | h | h) <;> cases h
      · exact .inr (.inl rfl)
      · exact .inr (.inr (.inl rfl)))
    (by rintro e₁ e₂ τ (h | h | h | h) <;> cases h)
    (by
      rintro e (rfl | rfl | rfl | rfl) <;>
        simp [exp2relnop_fatPointer, exp2relnop_intVar, exp2relnop_charVar, exp2relnop_charIndex])
    (by rintro e (rfl | rfl | rfl | rfl) <;> rfl)

/-- A cast to `char` is stripped: the relations say that the variable is smaller than the size, and
no check is made, but the index is `-56`. -/
theorem not_index_in_bounds_char :
    let answer := needBoundsCheck clashFree (fun _ => none) inRange fatPointer charIndex
    Run.Sound clashFree ∧ answer.need = false ∧ answer.errs = [] ∧
      charState.occurs fatPointer ∧ charState.occurs charIndex ∧
      (∀ r ∈ inRange, r.Holds charState.σ) ∧ charState.size fatPointer = 256 ∧
      (charState.word answer.index).toInt = -56 := by
  refine ⟨sound_clashFree, ?_, by simp [needBoundsCheck, exp2relnop_charIndex], .inl rfl,
    .inr (.inr (.inr rfl)), List.forall_mem_singleton.2 rfl, rfl, ?_⟩
  · simp only [needBoundsCheck, exp2relnop_charIndex]
    decide
  · simp only [needBoundsCheck, exp2relnop_charIndex]
    rfl

end ConcurrentCyclone.Relations
