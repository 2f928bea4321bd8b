import Mathlib.Data.List.Basic

/-!
# Operands without an order

A computation is a value, an operation on operands, or a computation whose value the rest depends
on. The operands of an operation are evaluated in any order, and their evaluations may be
interleaved (`Step`, `Throws`); the rest of a computation waits for the value. `eval` is the
evaluation from left to right. An operation may read and change a state, and it may throw.

There is no infinite evaluation (`acc_step`), so that every one can be brought to its end
(`exists_ends`).
-/

set_option autoImplicit false

namespace ConcurrentCyclone.EvalOrder

variable {A W M X : Type}

/-- Computations with the operations `A` and the values `W`. -/
inductive Comp (A W : Type) where
  | val (w : W)
  | op (a : A) (es : List (Comp A W))
  | bind (e : Comp A W) (k : W → Comp A W)

/-- Induction with the hypothesis for every operand. -/
@[elab_as_elim]
theorem Comp.rec' {motive : Comp A W → Prop} (val : ∀ w, motive (.val w))
    (op : ∀ a es, (∀ e ∈ es, motive e) → motive (.op a es))
    (bind : ∀ e k, motive e → (∀ w, motive (k w)) → motive (.bind e k)) (e : Comp A W) : motive e :=
  @Comp.rec A W motive (fun es => ∀ e ∈ es, motive e) val op bind
    (fun _ h => absurd h List.not_mem_nil) (fun _ _ h hs => List.forall_mem_cons.2 ⟨h, hs⟩) e

section Semantics

variable (act : A → List W → EStateM X M W)

mutual

/-- The evaluation from left to right. -/
def eval : Comp A W → EStateM X M W
  | .val w => pure w
  | .op a es => evalList es >>= act a
  | .bind e k => eval e >>= fun w => eval (k w)

/-- The evaluation of operands from left to right. -/
def evalList : List (Comp A W) → EStateM X M (List W)
  | [] => pure []
  | e :: es => eval e >>= fun w => evalList es >>= fun ws => pure (w :: ws)

end

/-- A step of an evaluation in any order. -/
inductive Step : Comp A W → M → Comp A W → M → Prop where
  | operand {a : A} {l r : List (Comp A W)} {e e' : Comp A W} {m m' : M} :
      Step e m e' m' → Step (.op a (l ++ e :: r)) m (.op a (l ++ e' :: r)) m'
  | act {a : A} {ws : List W} {w : W} {m m' : M} :
      act a ws m = .ok w m' → Step (.op a (ws.map .val)) m (.val w) m'
  | bind {e e' : Comp A W} {k : W → Comp A W} {m m' : M} :
      Step e m e' m' → Step (.bind e k) m (.bind e' k) m'
  | bound {w : W} {k : W → Comp A W} {m : M} : Step (.bind (.val w) k) m (k w) m

/-- A step that throws. -/
inductive Throws : Comp A W → M → X → M → Prop where
  | operand {a : A} {l r : List (Comp A W)} {e : Comp A W} {m m' : M} {x : X} :
      Throws e m x m' → Throws (.op a (l ++ e :: r)) m x m'
  | act {a : A} {ws : List W} {x : X} {m m' : M} :
      act a ws m = .error x m' → Throws (.op a (ws.map .val)) m x m'
  | bind {e : Comp A W} {k : W → Comp A W} {m m' : M} {x : X} :
      Throws e m x m' → Throws (.bind e k) m x m'

/-- An evaluation in some order ends with this result. -/
inductive Ends : Comp A W → M → EStateM.Result X M W → Prop where
  | val (w : W) (m : M) : Ends (.val w) m (.ok w m)
  | throw {e : Comp A W} {m m' : M} {x : X} : Throws act e m x m' → Ends e m (.error x m')
  | step {e e' : Comp A W} {m m' : M} {out : EStateM.Result X M W} :
      Step act e m e' m' → Ends e' m' out → Ends e m out

end Semantics

section Lists

variable {act : A → List W → EStateM X M W}

theorem evalList_append (l r : List (Comp A W)) : evalList act (l ++ r) =
      evalList act l >>= fun ws => evalList act r >>= fun ws' => pure (ws ++ ws') := by
  induction l with
  | nil => simp [evalList]
  | cons e l ih => simp [evalList, ih]

theorem evalList_map_val (ws : List W) : evalList act (ws.map .val) = pure ws := by
  induction ws with
  | nil => rfl
  | cons w ws ih => simp [evalList, eval, ih]

end Lists

/-! ## Every evaluation ends -/

section Termination

variable (act : A → List W → EStateM X M W)

/-- `e'` comes after `e` in an evaluation. -/
def Next (e' e : Comp A W) : Prop := ∃ m m', Step act e m e' m'

/-- One of the operands takes a step. -/
def NextList (es' es : List (Comp A W)) : Prop :=
  ∃ l e e' r, es = l ++ e :: r ∧ es' = l ++ e' :: r ∧ Next act e' e

variable {act}

variable {e : Comp A W} {es : List (Comp A W)}

theorem acc_cons (he : Acc (Next act) e)
    (hes : Acc (NextList act) es) : Acc (NextList act) (e :: es) := by
  induction he generalizing es with
  | intro e _ ihe =>
    induction hes with
    | intro es hes ihes =>
      constructor
      rintro - ⟨l, d, d', r, heq, rfl, hstep⟩
      cases l with
      | nil =>
        cases heq
        exact ihe d' hstep (Acc.intro es hes)
      | cons _ l =>
        cases heq
        exact ihes (l ++ d' :: r) ⟨l, d, d', r, rfl, rfl, hstep⟩

theorem acc_list (h : ∀ e ∈ es, Acc (Next act) e) : Acc (NextList act) es := by
  induction es with
  | nil =>
    constructor
    rintro - ⟨l, e, e', r, heq, -⟩
    exact absurd heq.symm (List.append_ne_nil_of_right_ne_nil l (List.cons_ne_nil e r))
  | cons e es ih =>
    obtain ⟨he, hes⟩ := List.forall_mem_cons.1 h
    exact acc_cons he (ih hes)

theorem acc_val (w : W) : Acc (Next act) (.val w) := by
  constructor
  rintro e' ⟨m, m', h⟩
  cases h

theorem acc_op (a : A) (h : Acc (NextList act) es) : Acc (Next act) (.op a es) := by
  induction h with
  | intro es _ ih =>
    constructor
    rintro e' ⟨m, m', h⟩
    generalize hop : Comp.op a es = e at h
    cases h with
    | @operand a l r e e' m m' hstep =>
      cases hop
      exact ih (l ++ e' :: r) ⟨l, e, e', r, rfl, rfl, m, m', hstep⟩
    | act => exact acc_val _
    | bind | bound => cases hop

theorem acc_bind {k : W → Comp A W} (he : Acc (Next act) e)
    (hk : ∀ w, Acc (Next act) (k w)) : Acc (Next act) (.bind e k) := by
  induction he with
  | intro e _ ih =>
    constructor
    rintro e' ⟨m, m', h⟩
    cases h with
    | bind hstep => exact ih _ ⟨m, m', hstep⟩
    | bound => exact hk _

variable (act)

/-- There is no infinite evaluation. -/
theorem acc_step (e : Comp A W) : Acc (Next act) e := by
  induction e using Comp.rec' with
  | val w => exact acc_val w
  | op a es ih => exact acc_op a (acc_list ih)
  | bind e k ihe ihk => exact acc_bind ihe ihk

/-- The operands are values, or one of them is not. -/
theorem values_or (es : List (Comp A W)) :
    (∃ ws : List W, es = ws.map .val) ∨ ∃ l e r, es = l ++ e :: r ∧ ∀ w, e ≠ .val w := by
  induction es with
  | nil => exact .inl ⟨[], rfl⟩
  | cons e es ih =>
    by_cases he : ∃ w, e = .val w
    · obtain ⟨w, rfl⟩ := he
      rcases ih with ⟨ws, rfl⟩ | ⟨l, d, r, rfl, hd⟩
      · exact .inl ⟨w :: ws, rfl⟩
      · exact .inr ⟨.val w :: l, d, r, rfl, hd⟩
    · exact .inr ⟨[], e, es, rfl, fun w hw => he ⟨w, hw⟩⟩

/-- A computation that is not a value can go on. -/
theorem progress (e : Comp A W) (m : M) (hval : ∀ w, e ≠ .val w) :
    (∃ e' m', Step act e m e' m') ∨ ∃ x m', Throws act e m x m' := by
  induction e using Comp.rec' with
  | val w => exact absurd rfl (hval w)
  | op a es ih =>
    rcases values_or es with ⟨ws, rfl⟩ | ⟨l, e, r, rfl, he⟩
    · cases hact : act a ws m with
      | ok w m' => exact .inl ⟨_, _, .act hact⟩
      | error x m' => exact .inr ⟨_, _, .act hact⟩
    · rcases ih e (by simp) he with ⟨e', m', hstep⟩ | ⟨x, m', hthrow⟩
      · exact .inl ⟨_, _, .operand hstep⟩
      · exact .inr ⟨_, _, .operand hthrow⟩
  | bind e k ih _ =>
    by_cases he : ∃ w, e = .val w
    · obtain ⟨w, rfl⟩ := he
      exact .inl ⟨_, _, .bound⟩
    · rcases ih (fun w hw => he ⟨w, hw⟩) with ⟨e', m', hstep⟩ | ⟨x, m', hthrow⟩
      · exact .inl ⟨_, _, .bind hstep⟩
      · exact .inr ⟨_, _, .bind hthrow⟩

theorem exists_ends (e : Comp A W) (m : M) : ∃ out, Ends act e m out := by
  induction acc_step act e generalizing m with
  | intro e _ ih =>
    by_cases he : ∃ w, e = .val w
    · obtain ⟨w, rfl⟩ := he
      exact ⟨_, .val w m⟩
    · rcases progress act e m (fun w hw => he ⟨w, hw⟩) with
        ⟨e', m', hstep⟩ | ⟨x, m', hthrow⟩
      · obtain ⟨out, hout⟩ := ih e' ⟨m, m', hstep⟩ m'
        exact ⟨out, .step hstep hout⟩
      · exact ⟨_, .throw hthrow⟩

end Termination

end ConcurrentCyclone.EvalOrder
