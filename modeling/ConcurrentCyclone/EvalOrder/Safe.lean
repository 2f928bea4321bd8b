import Mathlib.Order.Lattice
import Mathlib.Order.Max
import Mathlib.Data.List.Pairwise
import ConcurrentCyclone.EvalOrder.Steps
import ConcurrentCyclone.Transition.Throwing

/-!
# Operands that do not disturb each other

The classes of operations say how they depend on the state. A computation is safe if operands that
are evaluated together do not disturb each other: one of them does not depend on the state, or none
of them changes it and at most one throws. All evaluations of a safe computation end as that from
left to right does (`Safe.ends_iff`): a step in any order does not change what the evaluation from
left to right gives (`Safe.eval_step`).

`bindFirst` evaluates some of the operands first, one after the other. It does what the operation
does from left to right (`eval_bindFirst`), and is safe even if the operation is not
(`safe_bindFirst`).
-/

set_option autoImplicit false

namespace ConcurrentCyclone.EvalOrder

open Transition (bind_congr_run bind_of_ok bind_of_error)
open List (forall_mem_append forall_mem_cons pairwise_append pairwise_cons map_cons)

variable {A W M X : Type}

/-! ## Classes -/

/-- How an operation depends on the state: not at all, it only reads it, it may also throw, or it
may change it. -/
inductive Cls where
  | const | read | throw | write
  deriving DecidableEq

def Cls.rank : Cls → Nat
  | .const => 0
  | .read => 1
  | .throw => 2
  | .write => 3

theorem Cls.rank_injective : Function.Injective Cls.rank := by
  intro c c' h
  cases c <;> cases c' <;> first | rfl | cases h

instance : LinearOrder Cls := LinearOrder.lift' Cls.rank Cls.rank_injective

/-- The computation behaves as its class says. -/
def Keeps {β : Type} : Cls → EStateM X M β → Prop
  | .const, x => ∃ b, ∀ m, x m = .ok b m
  | .read, x => ∀ m, ∃ b, x m = .ok b m
  | .throw, x => ∀ m, (∃ b, x m = .ok b m) ∨ ∃ e, x m = .error e m
  | .write, _ => True

section Keeps

variable {β γ : Type} {c c' : Cls} {x : EStateM X M β} {f : β → EStateM X M γ}

theorem Keeps.read (h : Keeps .const x) : Keeps .read x := by
  obtain ⟨b, hb⟩ := h
  exact fun m => ⟨b, hb m⟩

theorem Keeps.throw (h : Keeps .read x) : Keeps .throw x := fun m => .inl (h m)

theorem Keeps.mono (hle : c ≤ c') (h : Keeps c x) : Keeps c' x := by
  cases c <;> cases c' <;>
    first
    | exact h
    | exact trivial
    | exact h.read
    | exact h.throw
    | exact h.read.throw
    | exact absurd hle (by decide)

theorem keeps_pure (b : β) : Keeps c (pure b : EStateM X M β) :=
  Keeps.mono (c := .const) (by cases c <;> decide) ⟨b, fun _ => rfl⟩

theorem Keeps.bind (hx : Keeps c x) (hf : ∀ b, Keeps c (f b)) : Keeps c (x >>= f) := by
  cases c with
  | const =>
    obtain ⟨b, hb⟩ := hx
    obtain ⟨d, hd⟩ := hf b
    exact ⟨d, fun m => (bind_of_ok (hb m)).trans (hd m)⟩
  | read =>
    intro m
    obtain ⟨b, hb⟩ := hx m
    obtain ⟨d, hd⟩ := hf b m
    exact ⟨d, (bind_of_ok hb).trans hd⟩
  | throw =>
    intro m
    rcases hx m with ⟨b, hb⟩ | ⟨e, he⟩
    · rcases hf b m with ⟨d, hd⟩ | ⟨e, he⟩
      · exact .inl ⟨d, (bind_of_ok hb).trans hd⟩
      · exact .inr ⟨e, (bind_of_ok hb).trans he⟩
    · exact .inr ⟨e, bind_of_error he⟩
  | write => exact trivial

end Keeps

section Within

variable (cls : A → Cls)

/-- All operations of the computation are of the class `c` or a smaller one. -/
inductive Within (c : Cls) : Comp A W → Prop where
  | val (w : W) : Within c (.val w)
  | op {a : A} {es : List (Comp A W)} : cls a ≤ c → (∀ e ∈ es, Within c e) → Within c (.op a es)
  | bind {e : Comp A W} {k : W → Comp A W} :
      Within c e → (∀ w, Within c (k w)) → Within c (.bind e k)

/-- The operations behave as their classes say. -/
def Sound (act : A → List W → EStateM X M W) : Prop := ∀ a ws, Keeps (cls a) (act a ws)

variable {cls} {act : A → List W → EStateM X M W} {c c' : Cls} {e e' : Comp A W} {m m' : M}

theorem Within.mono (hle : c ≤ c') (h : Within cls c e) : Within cls c' e := by
  induction h with
  | val w => exact .val w
  | op ha _ ih => exact .op (ha.trans hle) ih
  | bind _ _ ihe ihk => exact .bind ihe ihk

theorem Within.step (h : Within cls c e) (hstep : Step act e m e' m') : Within cls c e' := by
  induction hstep with
  | @operand a l r e e' m m' _ ih =>
    cases h with
    | op ha hes =>
      rw [forall_mem_append, forall_mem_cons] at hes
      apply Within.op ha
      rw [forall_mem_append, forall_mem_cons]
      exact ⟨hes.1, ih hes.2.1, hes.2.2⟩
  | act => exact .val _
  | bind _ ih =>
    cases h with
    | bind he hk => exact .bind (ih he) hk
  | bound =>
    cases h with
    | bind he hk => exact hk _

variable {es : List (Comp A W)}

theorem keeps_evalList (h : ∀ e ∈ es, Keeps c (eval act e)) : Keeps c (evalList act es) := by
  induction es with
  | nil =>
    exact keeps_pure []
  | cons e es ih =>
    obtain ⟨he, hes⟩ := forall_mem_cons.1 h
    exact he.bind fun w => (ih hes).bind fun ws => keeps_pure (w :: ws)

section

variable (hsound : Sound cls act)

include hsound

/-- A computation behaves as the class of its operations says. -/
theorem Within.keeps (h : Within cls c e) : Keeps c (eval act e) := by
  induction h with
  | val w =>
    exact keeps_pure w
  | op ha _ ih =>
    exact (keeps_evalList ih).bind fun ws => (hsound _ ws).mono ha
  | bind _ _ ihe ihk =>
    exact ihe.bind ihk

theorem Within.keepsList (h : ∀ e ∈ es, Within cls c e) : Keeps c (evalList act es) :=
  keeps_evalList fun e he => (h e he).keeps hsound

/-- A step of a computation that changes nothing leaves the state as it is. -/
theorem Within.step_state (h : Within cls .throw e) (hstep : Step act e m e' m') : m' = m := by
  induction hstep with
  | operand _ ih =>
    cases h with
    | op _ hes => exact ih (hes _ (by simp))
  | @act a ws w m m' hact =>
    cases h with
    | op ha _ =>
      rcases (hsound a ws).mono ha m with ⟨b, hb⟩ | ⟨x, hx⟩
      · rw [hact] at hb
        cases hb
        rfl
      · rw [hact] at hx
        cases hx
  | bind _ ih =>
    cases h with
    | bind he _ => exact ih he
  | bound => rfl

/-- A computation that only reads the state does not throw. -/
theorem Within.not_throws (h : Within cls .read e) {x : X} : ¬ Throws act e m x m' := by
  intro hthrows
  induction hthrows with
  | operand _ ih =>
    cases h with
    | op _ hes => exact ih (hes _ (by simp))
  | @act a ws x m m' hact =>
    cases h with
    | op ha _ =>
      obtain ⟨b, hb⟩ := (hsound a ws).mono ha m
      rw [hact] at hb
      cases hb
  | bind _ ih =>
    cases h with
    | bind he _ => exact ih he

end

end Within

/-! ## Safe computations -/

/-- Computations of the two classes may be evaluated together. -/
def Cls.Apart (c c' : Cls) : Prop :=
  c = .const ∨ c' = .const ∨ (c ≤ .read ∧ c' ≤ .throw) ∨ (c ≤ .throw ∧ c' ≤ .read)

section Safe

variable (cls : A → Cls)

/-- The two computations may be evaluated together: one of them does not depend on the state, or
none changes it and at most one throws. -/
def Apart (e e' : Comp A W) : Prop :=
  Within cls .const e ∨ Within cls .const e' ∨
    (Within cls .read e ∧ Within cls .throw e') ∨ (Within cls .throw e ∧ Within cls .read e')

/-- Operands that are evaluated together do not disturb each other. -/
inductive Safe : Comp A W → Prop where
  | val (w : W) : Safe (.val w)
  | op {a : A} {es : List (Comp A W)} :
      (∀ e ∈ es, Safe e) → es.Pairwise (Apart cls) → Safe (.op a es)
  | bind {e : Comp A W} {k : W → Comp A W} : Safe e → (∀ w, Safe (k w)) → Safe (.bind e k)

variable {cls} {act : A → List W → EStateM X M W} {e e' d : Comp A W} {m m' : M}

theorem Apart.of_cls {c c' : Cls} (h : c.Apart c') (he : Within cls c e)
    (he' : Within cls c' e') : Apart cls e e' := by
  rcases h with rfl | rfl | ⟨h, h'⟩ | ⟨h, h'⟩
  · exact .inl he
  · exact .inr (.inl he')
  · exact .inr (.inr (.inl ⟨he.mono h, he'.mono h'⟩))
  · exact .inr (.inr (.inr ⟨he.mono h, he'.mono h'⟩))

theorem Apart.symm (h : Apart cls e e') : Apart cls e' e := by
  rcases h with h | h | ⟨h, h'⟩ | ⟨h, h'⟩
  · exact .inr (.inl h)
  · exact .inl h
  · exact .inr (.inr (.inr ⟨h', h⟩))
  · exact .inr (.inr (.inl ⟨h', h⟩))

theorem Apart.step (h : Apart cls e d) (hstep : Step act e m e' m') : Apart cls e' d := by
  rcases h with h | h | ⟨h, h'⟩ | ⟨h, h'⟩
  · exact .inl (h.step hstep)
  · exact .inr (.inl h)
  · exact .inr (.inr (.inl ⟨h.step hstep, h'⟩))
  · exact .inr (.inr (.inr ⟨h.step hstep, h'⟩))

/-- What is evaluated together with a computation that depends on the state does not change it. -/
theorem Apart.throw (h : Apart cls d e) (he : ¬ Within cls .const e) : Within cls .throw d := by
  rcases h with h | h | ⟨h, -⟩ | ⟨h, -⟩
  · exact h.mono (by decide)
  · exact absurd h he
  · exact h.mono (by decide)
  · exact h

/-- What is evaluated together with a computation that changes the state does not depend on it. -/
theorem Apart.const (h : Apart cls d e) (he : ¬ Within cls .throw e) : Within cls .const d := by
  rcases h with h | h | ⟨-, h⟩ | ⟨-, h⟩
  · exact h
  · exact absurd (h.mono (by decide)) he
  · exact absurd h he
  · exact absurd (h.mono (by decide)) he

/-- What is evaluated together with a computation that throws does not throw. -/
theorem Apart.read (h : Apart cls d e) (he : ¬ Within cls .read e) : Within cls .read d := by
  rcases h with h | h | ⟨h, -⟩ | ⟨-, h⟩
  · exact h.mono (by decide)
  · exact absurd (h.mono (by decide)) he
  · exact h
  · exact absurd h he

theorem Safe.step (h : Safe cls e) (hstep : Step act e m e' m') : Safe cls e' := by
  induction hstep with
  | @operand a l r e e' m m' hstep ih =>
    cases h with
    | op hes hapart =>
      rw [forall_mem_append, forall_mem_cons] at hes
      rw [pairwise_append, pairwise_cons] at hapart
      obtain ⟨hl, ⟨her, hr⟩, hlr⟩ := hapart
      apply Safe.op
      · rw [forall_mem_append, forall_mem_cons]
        exact ⟨hes.1, ih hes.2.1, hes.2.2⟩
      · rw [pairwise_append, pairwise_cons]
        refine ⟨hl, ⟨fun d hd => (her d hd).step hstep, hr⟩, fun d hd => ?_⟩
        obtain ⟨hde, hdr⟩ := forall_mem_cons.1 (hlr d hd)
        exact forall_mem_cons.2 ⟨(hde.symm.step hstep).symm, hdr⟩
  | act => exact .val _
  | bind _ ih =>
    cases h with
    | bind he hk => exact .bind (ih he) hk
  | bound =>
    cases h with
    | bind he hk => exact hk _

theorem evalList_operand (l r : List (Comp A W)) : evalList act (l ++ e :: r) =
      evalList act l >>= fun ws => eval act e >>= fun w => evalList act r >>= fun ws' =>
        pure (ws ++ w :: ws') := by
  simp [evalList_append, evalList]

/-- A step of an operand that is apart from those before it does not change what they give
together. -/
theorem evalList_step (hsound : Sound cls act) {l r : List (Comp A W)}
    (hapart : ∀ d ∈ l, Apart cls d e) (hstep : Step act e m e' m')
    (heval : eval act e' m' = eval act e m) :
    evalList act (l ++ e' :: r) m' = evalList act (l ++ e :: r) m := by
  rw [evalList_operand, evalList_operand]
  by_cases hconst : Within cls .const e
  · -- both have the same value, in every state
    have hm := (hconst.mono (by decide)).step_state hsound hstep
    obtain ⟨w, hw⟩ := hconst.keeps hsound
    obtain ⟨w', hw'⟩ := (hconst.step hstep).keeps hsound
    have hsame : eval act e' = eval act e := by
      rw [hw', hw] at heval
      cases heval
      funext m
      rw [hw', hw]
    rw [hsame, hm]
  · by_cases hthrow : Within cls .throw e
    · -- the operands before it leave the state as it is
      have hm := hthrow.step_state hsound hstep
      subst hm
      have hl := Within.keepsList hsound fun d hd => (hapart d hd).throw hconst
      rcases hl m' with ⟨ws, hws⟩ | ⟨x, hx⟩
      · rw [bind_of_ok hws, bind_of_ok hws, bind_congr_run heval]
      · rw [bind_of_error hx, bind_of_error hx]
    · -- the operands before it do not depend on the state
      obtain ⟨ws, hws⟩ := Within.keepsList hsound fun d hd => (hapart d hd).const hthrow
      rw [bind_of_ok (hws m'), bind_of_ok (hws m), bind_congr_run heval]

theorem eval_op_congr {a : A} {es es' : List (Comp A W)}
    (h : evalList act es' m' = evalList act es m) :
    eval act (.op a es') m' = eval act (.op a es) m := by
  exact bind_congr_run h

theorem eval_op_map_val (a : A) (ws : List W) : eval act (.op a (ws.map .val)) = act a ws := by
  rw [eval, evalList_map_val, pure_bind]

section

variable (hsound : Sound cls act) (h : Safe cls e)

include hsound h

/-- A step of a safe computation does not change what the evaluation from left to right gives. -/
theorem Safe.eval_step (hstep : Step act e m e' m') : eval act e' m' = eval act e m := by
  induction hstep with
  | @operand a l r e e' m m' hstep ih =>
    cases h with
    | op hes hapart =>
      have hl := (pairwise_append.1 hapart).2.2
      apply eval_op_congr
      apply evalList_step hsound (fun d hd => hl d hd e (.head _)) hstep
      exact ih (hes e (by simp))
  | act hact =>
    rw [eval_op_map_val, hact]
    rfl
  | @bind e e' k m m' _ ih =>
    cases h with
    | bind he _ =>
      exact bind_congr_run (ih he)
  | bound => simp [eval]

/-- If a safe computation throws, it throws in the evaluation from left to right. -/
theorem Safe.eval_throws {x : X} (hthrows : Throws act e m x m') : eval act e m = .error x m' := by
  induction hthrows with
  | @operand a l r e m m' x hthrows ih =>
    cases h with
    | op hes hapart =>
      have hl := (pairwise_append.1 hapart).2.2
      have hread : ¬ Within cls .read e := fun he => he.not_throws hsound hthrows
      obtain ⟨ws, hws⟩ := Within.keepsList hsound
        (fun d hd => (hl d hd e (.head _)).read hread) m
      rw [eval, evalList_operand]
      apply bind_of_error
      rw [bind_of_ok hws]
      exact bind_of_error (ih (hes e (by simp)))
  | act hact => rw [eval_op_map_val, hact]
  | bind _ ih =>
    cases h with
    | bind he _ =>
      exact bind_of_error (ih he)

/-- All evaluations of a safe computation end as that from left to right does. -/
theorem Safe.ends_iff {out : EStateM.Result X M W} : Ends act e m out ↔ out = eval act e m := by
  have hends : ∀ {out}, Ends act e m out → out = eval act e m := by
    intro out hout
    induction hout with
    | val w m => rw [eval]; rfl
    | throw hthrows => exact (h.eval_throws hsound hthrows).symm
    | step hstep _ ih => exact (ih (h.step hstep)).trans (h.eval_step hsound hstep)
  constructor
  · exact hends
  · rintro rfl
    obtain ⟨out, hout⟩ := exists_ends act e m
    rwa [← hends hout]

end

end Safe

/-! ## Operands that are evaluated first -/

section BindFirst

/-- Evaluate the operands that are marked first, one after the other. -/
def bindFirst : List (Bool × Comp A W) → (List (Comp A W) → Comp A W) → Comp A W
  | [], k => k []
  | (true, e) :: es, k => .bind e fun w => bindFirst es fun ds => k (.val w :: ds)
  | (false, e) :: es, k => bindFirst es fun ds => k (e :: ds)

variable (cls : A → Cls)

/-- The operands that are not marked do not depend on the state, but for one that comes after all
marked ones. -/
def Ordered : List (Bool × Comp A W) → Prop
  | [] => True
  | (true, _) :: es => Ordered es
  | (false, e) :: es =>
    (Within cls .const e ∧ Ordered es) ∨ ∀ d ∈ es, d.1 = false ∧ Within cls .const d.2

variable {cls} {act : A → List W → EStateM X M W}

variable {es : List (Bool × Comp A W)} {k : List (Comp A W) → Comp A W}

theorem bindFirst_of_forall (h : ∀ d ∈ es, d.1 = false) :
    bindFirst es k = k (es.map Prod.snd) := by
  induction es generalizing k with
  | nil => rfl
  | cons d es ih =>
    obtain ⟨b, e⟩ := d
    obtain ⟨rfl, hes⟩ := forall_mem_cons.1 h
    rw [bindFirst, ih hes, map_cons]

/-- An operand that comes after operands that do not depend on the state can be evaluated first. -/
theorem eval_op_bind (hsound : Sound cls act) {l r : List (Comp A W)} {e : Comp A W} {a : A}
    (hl : ∀ d ∈ l, Within cls .const d) (m : M) :
    (eval act e >>= fun w => eval act (.op a (l ++ .val w :: r))) m =
      eval act (.op a (l ++ e :: r)) m := by
  obtain ⟨ws, hws⟩ := Within.keepsList hsound hl
  cases hres : eval act e m with
  | ok w m1 =>
    rw [bind_of_ok hres]
    apply eval_op_congr
    rw [evalList_operand, evalList_operand, bind_of_ok (hws m1), bind_of_ok (hws m),
      bind_of_ok hres, eval, pure_bind]
  | error x m1 =>
    rw [bind_of_error hres, eval, evalList_operand]
    symm
    apply bind_of_error
    rw [bind_of_ok (hws m)]
    exact bind_of_error hres

/-- The evaluation from left to right gives the same. -/
theorem eval_bindFirst (h : Ordered cls es)
    (hk : ∀ {l r e}, (∀ d ∈ l, Within cls .const d) → ∀ m,
      (eval act e >>= fun w => eval act (k (l ++ .val w :: r))) m = eval act (k (l ++ e :: r)) m)
    (m : M) : eval act (bindFirst es k) m = eval act (k (es.map Prod.snd)) m := by
  induction es generalizing k m with
  | nil => rfl
  | cons d es ih =>
    obtain ⟨b, e⟩ := d
    -- the operand becomes one of those that come before the others
    have hnext : ∀ e, Within cls .const e → Ordered cls es → ∀ m,
        eval act (bindFirst es fun ds => k (e :: ds)) m =
          eval act (k (e :: es.map Prod.snd)) m :=
      fun e he hes => ih hes fun hl => hk (forall_mem_cons.2 ⟨he, hl⟩)
    rw [map_cons]
    cases b with
    | true =>
      rw [← List.nil_append (e :: _), ← hk (by simp)]
      exact congrFun (congrArg _ (funext fun w => funext (hnext (.val w) (.val w) h))) m
    | false =>
      rcases h with ⟨he, hes⟩ | hes
      · exact hnext e he hes m
      · rw [bindFirst, bindFirst_of_forall fun d hd => (hes d hd).1]

theorem pairwise_apart_of_const {es : List (Comp A W)} (h : ∀ d ∈ es, Within cls .const d) :
    es.Pairwise (Apart cls) :=
  List.pairwise_iff_forall_sublist.2 fun hsub => .inl (h _ (hsub.subset (by simp)))

/-- Operands that are evaluated one after the other do not disturb each other. -/
theorem safe_bindFirst (h : Ordered cls es) (hsafe : ∀ d ∈ es, Safe cls d.2)
    (hk : ∀ {ds}, (∀ d ∈ ds, Safe cls d) → ds.Pairwise (Apart cls) → Safe cls (k ds)) :
    Safe cls (bindFirst es k) := by
  induction es generalizing k with
  | nil => exact hk (by simp) .nil
  | cons d es ih =>
    obtain ⟨b, e⟩ := d
    obtain ⟨hsafe_e, hsafe_es⟩ := forall_mem_cons.1 hsafe
    -- an operand that does not depend on the state disturbs no other one
    have hnext : ∀ e, Within cls .const e → Safe cls e → Ordered cls es →
        Safe cls (bindFirst es fun ds => k (e :: ds)) := by
      intro e he hsafe hes
      refine ih hes hsafe_es fun hds hapart => ?_
      exact hk (forall_mem_cons.2 ⟨hsafe, hds⟩) (pairwise_cons.2 ⟨fun d _ => .inl he, hapart⟩)
    cases b with
    | true => exact .bind hsafe_e fun w => hnext (.val w) (.val w) (.val w) h
    | false =>
      rcases h with ⟨he, hes⟩ | hes
      · exact hnext e he hsafe_e hes
      · rw [bindFirst, bindFirst_of_forall fun d hd => (hes d hd).1]
        have hconst := List.forall_mem_map.2 fun d hd => (hes d hd).2
        apply hk (forall_mem_cons.2 ⟨hsafe_e, List.forall_mem_map.2 hsafe_es⟩)
        exact pairwise_cons.2
          ⟨fun d hd => .inr (.inl (hconst d hd)), pairwise_apart_of_const hconst⟩

theorem within_bindFirst {c : Cls} (h : ∀ d ∈ es, Within cls c d.2)
    (hk : ∀ {ds}, (∀ d ∈ ds, Within cls c d) → Within cls c (k ds)) :
    Within cls c (bindFirst es k) := by
  induction es generalizing k with
  | nil => exact hk (by simp)
  | cons d es ih =>
    obtain ⟨b, e⟩ := d
    obtain ⟨he, hes⟩ := forall_mem_cons.1 h
    cases b with
    | true => exact .bind he fun w => ih hes fun hds => hk (forall_mem_cons.2 ⟨.val w, hds⟩)
    | false => exact ih hes fun hds => hk (forall_mem_cons.2 ⟨he, hds⟩)

end BindFirst

end ConcurrentCyclone.EvalOrder
