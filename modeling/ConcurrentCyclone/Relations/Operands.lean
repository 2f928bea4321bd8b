import ConcurrentCyclone.Absyn.EvalRight
import ConcurrentCyclone.Relations.BoundsCheck

/-!
# What operands stand for

`exp2relnop` turns an expression into an operand of relations: it takes the number of a singleton
type, a variable, a number of elements or a constant, and goes through casts and `valueof` on the
way. The file gives expressions their C value in a state (`Valuation.eval`) and compares it, as an
unsigned 32-bit number, with what the operand stands for in the same state.

The two agree as long as no cast on the way changes the number and the evaluator computes the
operations of a constant right. A cast to a narrower type is stripped like any other, so the operand
of such a cast stands for another number.

`reduce_relnop` replaces the number of a type or the size of an array by the operand of the
expression that the type has for it.
-/

set_option autoImplicit false

namespace ConcurrentCyclone.Relations

open ConcurrentCyclone.Absyn ConcurrentCyclone.CLang

variable {X T : Type}

/-! ## Reduced operands -/

/-- What `reduce_relnop` reads of types: the expression of `valueof_t`, and the bound of a variable
that is a thin pointer and does not have the bound `bounds_one()` itself. -/
structure TypeExps (X T : Type) where
  valueof : T → Option (Exp X T)
  bound : X → Option (Exp X T)

/-- `reduce_relnop`. -/
def reduceRelnop (types : TypeExps X T) : RelnOp X T → RelnOp X T
  | .type t => ((types.valueof t).bind fun e => (exp2relnop e).op).getD (.type t)
  | .numelts x => ((types.bound x).bind fun e => (exp2relnop e).op).getD (.numelts x)
  | rop => rop

/-! ## Values of expressions -/

/-- A state of the program: the values of variables, the numbers of elements, the numbers for which
types stand, and the values of expressions of the other forms. -/
structure Valuation (X T : Type) where
  var : X → Int
  numelts : X → BitVec 32
  type : T → BitVec 32
  rest : Exp X T → Option Int

/-- The integer type of a value after a cast; tags are `unsigned int`. -/
def castTy : Typ X T → Option IntTy
  | .tag _ | .valueof _ => some ⟨true, 32⟩
  | t => t.intTy

namespace Valuation

variable (st : Valuation X T)

/-- The numbers for which operands stand. -/
def node : Node X T → BitVec 32
  | .var x => BitVec.ofInt 32 (st.var x)
  | .numelts x => st.numelts x
  | .type t => st.type t
  | .zero | .param _ | .paramNumelts _ | .ret => 0

/-- The value of an integer expression. Constant expressions have the value that C gives them. -/
def eval : Exp X T → Option Int
  | .const .null _ => some 0
  | .const c _ => c.intVal
  | .pragma _ _ => some 0
  | .var (.vardecl x _ _) _ => some (st.var x)
  | .primop₁ .numelts (.var (.vardecl x _ _) _) _ => some (st.numelts x).toNat
  | .valueof (.valueof te) _ => eval te
  | .valueof (.other t) _ => some (st.type t).toNat
  | .cast t e _ => (castTy t).bind fun τ => (eval e).map τ.convert
  | .enum tag _ => eval tag
  | e => e.cVal <|> st.rest e

/-- An expression of a singleton type has the number of the type. -/
def HasType (e : Exp X T) : Prop :=
  ∀ v, st.eval e = some v →
    (∀ t, e.topt = .tag t → BitVec.ofInt 32 v = st.type t) ∧
      ∀ te, e.topt = .valueof te →
        ∃ w, st.eval te = some w ∧ BitVec.ofInt 32 v = BitVec.ofInt 32 w

/-- The expression is not a cast that changes the number. -/
def KeepsWord (e : Exp X T) : Prop :=
  ∀ t e' τ, e = .cast t e' τ → ∀ v w, st.eval e' = some v → st.eval e = some w →
    BitVec.ofInt 32 w = BitVec.ofInt 32 v

/-! ## Constants -/

/-- C's value of a constant expression is its value in every state. -/
theorem eval_of_cVal : ∀ (e : Exp X T) {v : Int}, e.cVal = some v → st.eval e = some v
  | .const c τ, v, h => by
    cases c with
    | null => cases h
    | _ => exact h
  | .cast t e τ, v, h => by
    obtain ⟨τ', hτ', h⟩ := Option.bind_eq_some_iff.1 h
    obtain ⟨v', hv', rfl⟩ := Option.map_eq_some_iff.1 h
    have hty : castTy t = some τ' := by
      cases t with
      | int => exact hτ'
      | _ => cases hτ'
    rw [eval, hty, eval_of_cVal e hv']
    rfl
  | .primop₁ p e τ, v, h => by
    have hrest : st.eval (.primop₁ p e τ) =
        ((Exp.primop₁ p e τ).cVal <|> st.rest (.primop₁ p e τ)) := by
      cases e with
      | var b τ' => cases h
      | _ => simp [eval]
    rw [hrest, h]
    rfl
  | .primop₂ p e1 e2 τ, v, h | .conditional e1 e2 e3 τ, v, h | .and e1 e2 τ, v, h
  | .or e1 e2 τ, v, h => by
    rw [eval, h]
    · rfl
    all_goals nofun
  | .var _ _, _, h | .pragma _ _, _, h | .seqExp _ _ _, _, h | .address _ _, _, h
  | .sizeoftype _ _, _, h | .sizeofexp _ _, _, h | .offsetof _ _ _, _, h | .enum _ _, _, h
  | .valueof _ _, _, h | .wrapped _ _, _, h | .compound _ _ _, _, h | .other _ _, _, h => by
    cases h

/-- The constant that is found for the expression has the bits of the value: it is a literal that is
extended right, or each operation is one that the evaluator computes right on its operands. -/
def foldsRight : Exp X T → Bool
  | .const .null _ | .pragma _ _ => true
  | .const c _ => c.extendsRight
  | .enum tag _ => foldsRight tag
  | e => e.bitsRight && e.cTy.isSome && e.cVal.isSome

variable {c : Cnst} {v : Int} {e : Exp X T}

/-- A constant that holds a value has the bits of the value. -/
theorem constWord_of_holds {κ : Absyn.Sign × Nat} (h : Holds c κ v) :
    constWord c = some (BitVec.ofInt 32 v) := by
  cases h with
  | char h | short h | int h => exact congrArg some h
  | longLong h => rw [constWord, h, setWidth_ofInt (by decide)]

theorem constWord_of_bitsRight (h : Folds e c)
    (hright : (e.bitsRight && e.cTy.isSome && e.cVal.isSome) = true) (hv : st.eval e = some v) :
    constWord c = some (BitVec.ofInt 32 v) := by
  simp only [Bool.and_eq_true, Option.isSome_iff_exists] at hright
  obtain ⟨⟨hbits, τ, hτ⟩, w, hw⟩ := hright
  rw [st.eval_of_cVal e hw] at hv
  cases hv
  obtain ⟨κ, -, hholds⟩ := holds_of_folds h hbits hτ hw
  exact constWord_of_holds hholds

/-- A constant that is found right has the bits of the value. -/
theorem constWord_of_folds (e : Exp X T) {c : Cnst} {v : Int} (h : Folds e c)
    (hright : foldsRight e = true) (hv : st.eval e = some v) :
    constWord c = some (BitVec.ofInt 32 v) := by
  cases e with
  | const c' τ =>
    cases h
    cases c with
    | null =>
      cases hv
      rfl
    | _ =>
      obtain ⟨κ, -, hholds⟩ := holds_literal hright hv
      exact constWord_of_holds hholds
  | pragma s τ =>
    cases h
    cases hv
    rfl
  | enum tag τ =>
    cases h with
    | enum h => exact constWord_of_folds tag h hright hv
  | _ => exact st.constWord_of_bitsRight h hright hv
  termination_by sizeOf e

/-- A constant with a number is known with that number, or not known. -/
theorem uintOfConst_of_word {w : BitVec 32} (hword : constWord c = some w) :
    uintOfConst c = some (w, true) ∨ uintOfConst c = some (0, false) := by
  cases c with
  | null | char | short | int =>
    cases hword
    exact .inl rfl
  | longLong sn x =>
    cases hword
    simp only [uintOfConst, promoteConst]
    split_ifs
    · exact .inr rfl
    · exact .inl rfl
  | float | wchar | string | wstring => cases hword

/-- A constant operand that is found right. -/
theorem word_constRelnop {o : RelnOp X T} (hop : (constRelnop e).op = some o)
    (hright : isConstExp e = true → (evalConstExp e).known = true → foldsRight e = true)
    (hv : st.eval e = some v) : BitVec.ofInt 32 v = o.value st.node := by
  by_cases hconst : isConstExp e = true
  swap
  · simp [constRelnop, hconst] at hop
  simp only [constRelnop] at hop
  split_ifs at hop with hknown
  obtain rfl := Option.some.inj hop
  cases hk : (evalConstExp e).known with
  | false => simp [evalConstUintExp, hk] at hknown
  | true =>
    have hword := st.constWord_of_folds e (folds_of_known e hk) (hright hconst hk) hv
    rcases uintOfConst_of_word hword with huint | huint
    · simp [evalConstUintExp, hk, huint, RelnOp.value, rop2node]
    · simp [evalConstUintExp, huint] at hknown

/-! ## Operands -/

/-- What `exp2relnop` looks at: an expression with its type, or only the form of an expression. -/
inductive Look (X T : Type) where
  | typed (e : Exp X T)
  | form (e : Exp X T)

/-- What `exp2relnop` looks at next. The form of an expression of a singleton type does not
matter. -/
inductive Looks : Look X T → Look X T → Prop where
  | type {e te : Exp X T} : e.topt = .valueof te → Looks (.typed e) (.form te)
  | form {e : Exp X T} : isSingleton e.topt = false → Looks (.typed e) (.form e)
  | cast {t : Typ X T} {e τ} : Looks (.form (.cast t e τ)) (.typed e)
  | valueof {te : Exp X T} {τ} : Looks (.form (.valueof (.valueof te) τ)) (.typed te)

/-- What the translation relies on: singleton types, casts and constants are as they should be where
it looks at them. -/
structure Agrees (l : Look X T) : Prop where
  typed : ∀ e, Relation.ReflTransGen Looks l (.typed e) → st.HasType e
  casts : ∀ e, Relation.ReflTransGen Looks l (.form e) → st.KeepsWord e
  consts : ∀ e, Relation.ReflTransGen Looks l (.form e) → (∀ t e' τ, e ≠ .cast t e' τ) →
    isConstExp e = true → (evalConstExp e).known = true → foldsRight e = true

variable {st} in
/-- What holds where the translation looks holds where it looks next. -/
theorem Agrees.look {l l' : Look X T} (h : st.Agrees l) (hlook : Looks l l') : st.Agrees l' :=
  ⟨fun e hlooks => h.typed e (.head hlook hlooks), fun e hlooks => h.casts e (.head hlook hlooks),
    fun e hlooks => h.consts e (.head hlook hlooks)⟩

mutual

/-- The operand that the form of the expression gives. -/
theorem word_rawRelnop (e : Exp X T) {o : RelnOp X T} {v : Int} (hagrees : st.Agrees (.form e))
    (hop : (rawRelnop e).op = some o) (hv : st.eval e = some v) :
    BitVec.ofInt 32 v = o.value st.node := by
  have hconst : rawRelnop e = constRelnop e → (∀ t e' τ, e ≠ .cast t e' τ) →
      BitVec.ofInt 32 v = o.value st.node := fun heq hcast =>
    st.word_constRelnop (heq ▸ hop) (hagrees.consts e .refl hcast) hv
  rcases Run.rawRelnop_cases e with ⟨t, e', τ, rfl⟩ | ⟨t, τ, rfl⟩ | ⟨x, fixed, τ, rfl, heq⟩ |
    ⟨sn, i, τ, rfl, heq⟩ | ⟨x, fixed, τ, τ', rfl, heq⟩ | ⟨hcast, -, heq⟩
  · have hkeeps := hagrees.casts _ .refl t e' τ rfl
    simp only [rawRelnop] at hop
    cases hv' : st.eval e' with
    | none =>
      rw [eval, hv'] at hv
      cases ht : castTy t <;> simp [ht] at hv
    | some v' =>
      rw [hkeeps v' v hv' hv]
      exact word_exp2relnop e' (hagrees.look .cast) hop hv'
  · cases t with
    | valueof te =>
      simp only [rawRelnop] at hop
      exact word_exp2relnop te (hagrees.look .valueof) hop hv
    | other t =>
      simp only [rawRelnop] at hop
      cases hop
      cases hv
      simp [RelnOp.value, rop2node, node]
    | _ => exact hconst (by simp only [rawRelnop]) nofun
  · rw [heq] at hop
    cases hop
    cases hv
    rfl
  · rw [heq] at hop
    cases hop
    cases hv
    exact ofInt_ofBits i
  · rw [heq] at hop
    cases hop
    cases hv
    simp [RelnOp.value, rop2node, node]
  · exact hconst heq hcast
  termination_by (sizeOf e, 0)

/-- The operand of an expression. -/
theorem word_exp2relnop (e : Exp X T) {o : RelnOp X T} {v : Int} (hagrees : st.Agrees (.typed e))
    (hop : (exp2relnop e).op = some o) (hv : st.eval e = some v) :
    BitVec.ofInt 32 v = o.value st.node := by
  have htyped := hagrees.typed e .refl v hv
  rcases Run.exp2relnop_cases e with ⟨t, ht, heq⟩ | ⟨te, hte, heq⟩ | ⟨hsingle, heq⟩
  · rw [heq] at hop
    cases hop
    exact htyped.1 t ht
  · rw [heq] at hop
    obtain ⟨w, hw, hword⟩ := htyped.2 te hte
    have hlt : sizeOf te < sizeOf e := by
      have hlt := sizeOf_topt e
      rw [hte, Typ.valueof.sizeOf_spec] at hlt
      omega
    rw [hword]
    exact word_rawRelnop te (hagrees.look (.type hte)) hop hw
  · rw [heq] at hop
    exact word_rawRelnop e (hagrees.look (.form hsingle)) hop hv
  termination_by (sizeOf e, 1)

end

/-- An integer type says nothing about the number. -/
theorem hasType_of_int {sn : Absyn.Sign} {sz : Absyn.SizeOf}
    (h : e.topt = .int sn sz) : st.HasType e := by
  intro v _
  constructor
  · intro t ht
    rw [h] at ht
    cases ht
  · intro te hte
    rw [h] at hte
    cases hte

/-- The conditions for an expression with its type, and for what is looked at next. -/
theorem Agrees.of_type (htype : st.HasType e)
    (hlooks : ∀ l, Looks (.typed e) l → st.Agrees l) : st.Agrees (.typed e) := by
  refine ⟨fun e' h => ?_, fun e' h => ?_, fun e' h => ?_⟩
  all_goals rcases h.cases_head with heq | ⟨l, hlook, h⟩
  · cases heq
    exact htype
  · exact (hlooks l hlook).typed e' h
  · cases heq
  · exact (hlooks l hlook).casts e' h
  · cases heq
  · exact (hlooks l hlook).consts e' h

/-- The conditions for the form of an expression, and for what is looked at next. -/
theorem Agrees.of_form (hcast : st.KeepsWord e)
    (hconst : (∀ t e' τ, e ≠ .cast t e' τ) → isConstExp e = true → (evalConstExp e).known = true →
      foldsRight e = true)
    (hlooks : ∀ l, Looks (.form e) l → st.Agrees l) : st.Agrees (.form e) := by
  refine ⟨fun e' h => ?_, fun e' h => ?_, fun e' h => ?_⟩
  all_goals rcases h.cases_head with heq | ⟨l, hlook, h⟩
  · cases heq
  · exact (hlooks l hlook).typed e' h
  · cases heq
    exact hcast
  · exact (hlooks l hlook).casts e' h
  · cases heq
    exact hconst
  · exact (hlooks l hlook).consts e' h

end Valuation

/-- Every variable is `v`, and every type stands for the number of `v`. -/
def allEqual (v : Int) : Valuation Nat Nat where
  var _ := v
  numelts _ := 0
  type _ := BitVec.ofInt 32 v
  rest _ := none

/-- `1 << 10`. -/
def shifted : Exp Nat Nat :=
  .primop₂ .bitlshift (.const (.int .signed 1) (.int .signed .int))
    (.const (.int .signed 10) (.int .signed .int)) (.int .signed .int)

/-- `(unsigned int)n`, with `n` a variable of type `valueof_t(1 << 10)`. -/
def castValueof : Exp Nat Nat :=
  .cast (.int .unsigned .int) (.var (.vardecl 0 false false) (.valueof shifted))
    (.int .unsigned .int)

/-- A variable `x` of type `int`. -/
def plainVar : Exp Nat Nat := .var (.vardecl 0 false false) (.int .signed .int)

/-- `(unsigned char)x`. -/
def castByte : Exp Nat Nat := .cast (.int .unsigned .char) plainVar (.int .unsigned .char)

/-- What is looked at for the operand of the cast. -/
theorem looks_castByte {l : Valuation.Look Nat Nat}
    (h : Relation.ReflTransGen Valuation.Looks (.typed castByte) l) :
    l = .typed castByte ∨ l = .form castByte ∨ l = .typed plainVar ∨ l = .form plainVar := by
  induction h with
  | refl => exact .inl rfl
  | tail _ hlook ih =>
    rcases ih with rfl | rfl | rfl | rfl
    · cases hlook with
      | type h => cases h
      | form => exact .inr (.inl rfl)
    · cases hlook with
      | cast => exact .inr (.inr (.inl rfl))
    · cases hlook with
      | type h => cases h
      | form => exact .inr (.inr (.inr rfl))
    · cases hlook

end ConcurrentCyclone.Relations
