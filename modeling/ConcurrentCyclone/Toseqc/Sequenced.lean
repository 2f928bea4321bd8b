import ConcurrentCyclone.Toseqc.Operands

/-!
# The order of evaluation after the pass

Where `toseqc` leaves operands in place, let them not disturb each other (`Exp.Placed`). Then the
rewritten expression ends in any order of evaluation as the expression does from left to right
(`expToSeqc_sequenced`).

The pass is not right about all operands. The side effect of an increment is that of its operand, so
that `x++ + x` is left as it is (`not_expToSeqc_sequenced`). The side effect of a call is that of
the function, if it is one of the runtime system, whatever its arguments are. And an element that is
assigned becomes a statement expression, which is not an lvalue, if variables are declared for its
operands.
-/

set_option autoImplicit false

namespace ConcurrentCyclone.Toseqc

open Absyn (Primop)
open EvalOrder

variable {X : Type}

/-! ## Each kind of expression -/

section Kinds

variable {M : Machine X} {es es' : List Exp} {e e' e1 e1' e2 e2' e3 e3' : Exp}

theorem good_const (c : Int) : Good M (.const c) (.const c) := ⟨does_val (.num c), trivial⟩

theorem good_var {x : Var} (hx : x.NotReserved) : Good M (.var x) (.var x) := by
  refine ⟨?_, hx⟩
  cases x with
  | data s x => exact does_op (a := .read x) le_rfl (by simp) .nil .nil
  | fn x | array _ x | toc x => exact does_op (a := .name x) le_rfl (by simp) .nil .nil

theorem const_le (c : Cls) : .const ≤ c := by
  cases c <;> decide

theorem le_write (c : Cls) : c ≤ .write := by
  cases c <;> decide

theorem good_primop (p : Primop) (h : List.Forall₂ (Good M) es es')
    (hkept : expsEffect es' ≠ .anyEffect → (es.map Exp.cls).Pairwise Cls.Apart) (n : Nat) :
    Good M (.primop p es) (sequence (.primop p es) es' n).1 := by
  refine good_sequence (a := .prim p) (const_le _) ?_ h ?_ ?_ ?_ hkept n
  · intro d hd
    exact cls_le_clsList hd
  · intro ρ
    rw [denote, denoteList_eq_map]
  · intro ρ ds _
    rw [Exp.rebuild, denote, denoteList_eq_map]
  · intro ds _ hds
    exact ⟨trivial, hds⟩

theorem cls_le_subscript {d : Exp} (hd : d ∈ [e1, e2]) : d.cls ≤ (Exp.subscript e1 e2).cls := by
  simp only [List.mem_cons, List.not_mem_nil, or_false] at hd
  rcases hd with rfl | rfl
  · exact (le_max_left _ _).trans (le_max_right _ _)
  · exact (le_max_right _ _).trans (le_max_right _ _)

theorem good_subscript (h1 : Good M e1 e1') (h2 : Good M e2 e2')
    (hkept : expsEffect [e1', e2'] ≠ .anyEffect →
      ([e1, e2].map Exp.cls).Pairwise Cls.Apart) (n : Nat) :
    Good M (.subscript e1 e2) (sequence (.subscript e1 e2) [e1', e2'] n).1 := by
  have hpair : ∀ {ds : List Exp}, List.Forall₂ Replaces [e1', e2'] ds → ∃ d1 d2, ds = [d1, d2] := by
    rintro ds (_ | ⟨_, _ | ⟨_, _ | _⟩⟩)
    exact ⟨_, _, rfl⟩
  refine good_sequence (a := .load) ?_ (fun d => cls_le_subscript) (.cons h1 (.cons h2 .nil))
    ?_ ?_ ?_ hkept n
  · rw [Exp.cls]
    exact le_max_left _ _
  · intro ρ
    rfl
  · intro ρ ds hds
    obtain ⟨d1, d2, rfl⟩ := hpair hds
    rfl
  · intro ds hds hall
    obtain ⟨d1, d2, rfl⟩ := hpair hds
    exact ⟨trivial, hall.1, hall.2.1⟩

variable {f : Exp} {name : String}

/-- Names are left, and stay. -/
theorem stays_of_calleeName (h : f.calleeName = some name) : stays f = true := by
  unfold Exp.calleeName at h
  split at h
  · rfl
  · rfl
  · cases h

theorem expToSeqc_of_calleeName (h : f.calleeName = some name)
    (n : Nat) : expToSeqc f n = (f, n) := by
  unfold Exp.calleeName at h
  split at h
  · rw [expToSeqc]
  · rw [expToSeqc]
  · cases h

/-- A call of a function by its name, which is not an operand. -/
theorem good_call_named (hname : f.calleeName = some name)
    (hf : f.All Exp.IsC) (h : List.Forall₂ (Good M) es es')
    (hkept : expsEffect (f :: es') ≠ .anyEffect →
      ((f :: es).map Exp.cls).Pairwise Cls.Apart) (n : Nat) :
    Good M (.call f es) (sequence (.call f es) (f :: es') n).1 := by
  have hcls : (Exp.call f es).cls = max (funCls name) (clsList es) := by
    simp only [Exp.cls, hname]
  have hdenote : ∀ ρ ds, denote ρ (.call f ds) = .op (.callNamed name) (ds.map (denote ρ)) := by
    intro ρ ds
    simp only [denote, hname, denoteList_eq_map]
  rw [sequence_fst, replaceOperands, if_pos (stays_of_calleeName hname)]
  refine good_operands ?_ ?_ h (fun ρ => hdenote ρ es) (Exp.call f)
    (fun ρ ds _ => hdenote ρ ds) (fun ds _ hds => ⟨trivial, hf, hds⟩) ?_ n
  · rw [hcls]
    exact le_max_left _ _
  · intro d hd
    rw [hcls]
    exact (cls_le_clsList hd).trans (le_max_right _ _)
  · rintro (hlen | heffect)
    · rw [List.length_cons, ← h.length_eq] at hlen
      exact pairwise_of_length_le_one (by rw [List.length_map]; omega)
    · exact (List.pairwise_cons.1 (hkept heffect)).2

/-- A call of a function whose address is computed. -/
theorem good_call {f' : Exp} (hname : f.calleeName = none) (hname' : f'.calleeName = none)
    (hf : Good M f f') (h : List.Forall₂ (Good M) es es')
    (hkept : expsEffect (f' :: es') ≠ .anyEffect →
      ((f :: es).map Exp.cls).Pairwise Cls.Apart) (n : Nat) :
    Good M (.call f es) (sequence (.call f es) (f' :: es') n).1 := by
  have hcls : (Exp.call f es).cls = .write := by
    simp only [Exp.cls, hname]
  have hdenote : ∀ ρ d ds, d.calleeName = none →
      denote ρ (.call d ds) = .op .callPtr ((d :: ds).map (denote ρ)) := by
    intro ρ d ds hd
    simp only [denote, hd, denoteList_eq_map, List.map_cons]
  refine good_sequence (a := .callPtr) ?_ ?_ (.cons hf h) ?_ ?_ ?_ hkept n
  · rw [hcls]
    exact le_rfl
  · intro d _
    rw [hcls]
    exact le_write _
  · exact fun ρ => hdenote ρ f es hname
  · rintro ρ - (_ | ⟨hd, -⟩)
    apply hdenote
    rcases hd with rfl | ⟨t, rfl⟩
    · exact hname'
    · rfl
  · rintro - (_ | ⟨-, -⟩) hall
    exact ⟨trivial, hall⟩

/-! Assignments and increments -/

/-- An lvalue after the pass. -/
structure GoodLvalue (M : Machine X) (e e' : Exp) : Prop where
  addr : Does M e.cls (fun ρ => denoteAddr ρ e) fun ρ => denoteAddr ρ e'
  place : Does M e.cls (fun ρ => denotePlace ρ e) fun ρ => denotePlace ρ e'
  isLvalue : e'.isLvalue = true
  isVar : e'.isVar = e.isVar
  isC : e'.All Exp.IsC

variable {s : Storage} {x : String} {p : Option Primop} {c : Cls} {f' : Open}

theorem goodLvalue_var (hx : (Var.data s x).NotReserved) :
    GoodLvalue M (.var (.data s x)) (.var (.data s x)) where
  addr := does_val (.num 0)
  place := does_op (a := .fetchVar x) le_rfl (by simp) .nil .nil
  isLvalue := rfl
  isVar := rfl
  isC := hx

theorem goodLvalue_subscript (h1 : Good M e1 e1') (h2 : Good M e2 e2')
    (hapart : ([e1, e2].map Exp.cls).Pairwise Cls.Apart) :
    GoodLvalue M (.subscript e1 e2) (.subscript e1' e2') := by
  have hc : ∀ d ∈ [e1, e2], d.cls ≤ (Exp.subscript e1 e2).cls := fun d => cls_le_subscript
  have hread : .read ≤ (Exp.subscript e1 e2).cls := by
    exact le_max_left _ _
  refine ⟨?_, ?_, rfl, rfl, trivial, h1.isC, h2.isC⟩
  · exact does_inPlace (a := .address) (const_le _) hc (.cons h1 (.cons h2 .nil)) hapart
  · exact does_inPlace (a := .fetch) hread hc (.cons h1 (.cons h2 .nil)) hapart

/-- The operation of an assignment that is not a plain one to a variable, and its left side. -/
def assignAct : Option Primop → Act
  | none => .storeAt
  | some p => .update p

def denoteLhs (p : Option Primop) (ρ : Nat → Value) (e : Exp) : Comp Act Value :=
  match p with
  | none => denoteAddr ρ e
  | some _ => denotePlace ρ e

theorem denote_assign (ρ : Nat → Value) (h : ¬ (p = none ∧ e1.isVar = true)) :
    denote ρ (.assign e1 p e2) = .op (assignAct p) [denote ρ e2, denoteLhs p ρ e1] := by
  cases p with
  | none =>
    cases e1 with
    | var x => exact absurd ⟨rfl, rfl⟩ h
    | _ => simp [denote, assignAct, denoteLhs]
  | some p => simp [denote, assignAct, denoteLhs]

theorem GoodLvalue.lhs (h : GoodLvalue M e e') (p : Option Primop) :
    Does M e.cls (fun ρ => denoteLhs p ρ e) fun ρ => denoteLhs p ρ e' := by
  cases p with
  | none => exact h.addr
  | some p => exact h.place

theorem stays_of_isLvalue (h : e.isLvalue = true) : stays e = false := by
  unfold Exp.isLvalue at h
  split at h
  · rfl
  · simp [stays, isConstExp, isTocVar]
  · cases h

theorem eq_data (h : e.isLvalue = true) (hvar : e.isVar = true) : ∃ s x, e = .var (.data s x) := by
  unfold Exp.isLvalue at h
  split at h
  · exact ⟨_, _, rfl⟩
  · cases hvar
  · cases h

theorem good_assign_var (hx : (Var.data s x).NotReserved)
    (h : Good M e2 e2') : Good M (.assign (.var (.data s x)) none e2)
      (.assign (.var (.data s x)) none e2') := by
  refine ⟨?_, rfl, hx, h.isC⟩
  have hdoes := does_op (a := .store x) (c := .write) le_rfl (fun c _ => le_write c)
    (.cons h.does .nil) (List.pairwise_singleton _ _)
  simpa only [denote, Exp.cls, plug, List.map_cons, List.map_nil] using hdoes

/-- The right side of another assignment is evaluated first. -/
theorem good_assign (hp : ¬ (p = none ∧ e1.isVar = true))
    (h1 : GoodLvalue M e1 e1') (h2 : Good M e2 e2') (hkept : expsEffect [e2', e1'] ≠ .anyEffect →
      ([e2, e1].map Exp.cls).Pairwise Cls.Apart) (n : Nat) :
    Good M (.assign e1 p e2) (sequence (.assign e1 p e2) [e2', e1'] n).1 := by
  have hp' : ¬ (p = none ∧ e1'.isVar = true) := by rwa [h1.isVar]
  have hact : actCls (assignAct p) = .write := by cases p <;> rfl
  have hdoes : DoesAll M [e2.cls, e1.cls] [fun ρ => denote ρ e2, fun ρ => denoteLhs p ρ e1]
      [fun ρ => denote ρ e2', fun ρ => denoteLhs p ρ e1'] :=
    .cons h2.does (.cons (h1.lhs p) .nil)
  have hall : (Exp.assign e1' p e2').All Exp.IsC := ⟨h1.isLvalue, h1.isC, h2.isC⟩
  rw [sequence]
  split_ifs with hplace
  · refine ⟨?_, hall⟩
    have hapart := hkept (hplace.resolve_left (by simp))
    simpa only [Exp.rebuild, denote_assign _ hp, denote_assign _ hp', Exp.cls, plug, List.map_cons,
      List.map_nil] using does_op hact.le (fun c _ => le_write c) hdoes hapart
  · have hlast : ∀ d ∈ ([] : List (Bool × Comp Act Value)),
        d.1 = false ∧ Within actCls .const d.2 := by simp
    simp only [replaceOperands, stays_of_isLvalue h1.isLvalue]
    cases hstays : stays e2' with
    | true =>
      -- nothing is declared for a constant right side
      refine ⟨?_, hall⟩
      have hfirst := does_bindFirst hact.le (fun c _ => le_write c) hdoes [false, false] rfl
        fun ρ => .inl ⟨within_of_stays ρ hstays, .inr hlast⟩
      simpa [denote_assign _ hp, denote_assign _ hp', Exp.cls, plug, bindFirst, Exp.rebuild,
        declare] using hfirst
    | false =>
      refine ⟨?_, trivial, h2.isC, h1.isLvalue, h1.isC, trivial⟩
      have hfirst := does_bindFirst hact.le (fun c _ => le_write c) hdoes [true, false] rfl
        fun ρ => .inr hlast
      have hdenote : ∀ ρ, denote ρ (.decl n e2' (.assign e1' p (.temp n))) =
          .bind (denote ρ e2') fun w => .op (assignAct p) [.val w, denoteLhs p ρ e1'] := by
        intro ρ
        rw [denote]
        congr 1
        funext w
        rw [denote_assign _ hp', denote, Function.update_self, (h1.lhs p).closed _ ρ]
      simpa [denote_assign _ hp, hdenote, Exp.cls, plug, bindFirst, Exp.rebuild, declare]
        using hfirst

theorem good_increment (k : Incrementor) (h : GoodLvalue M e e') :
    Good M (.increment e k) (.increment e' k) := by
  refine ⟨?_, h.isLvalue, h.isC⟩
  have hdoes := does_op (a := .incr k) (c := .write) le_rfl (fun c _ => le_write c)
    (.cons h.place .nil) (List.pairwise_singleton _ _)
  simpa only [denote, Exp.cls, plug, List.map_cons, List.map_nil] using hdoes

/-! Conditionals and sequences -/

theorem does_ite {f g g' : Open} (w : Value) (hf : Does M c f f')
    (hg : Does M c g g') : Does M c (fun ρ => if w.toInt = 0 then f ρ else g ρ)
      fun ρ => if w.toInt = 0 then f' ρ else g' ρ := by
  by_cases hw : w.toInt = 0
  · simpa only [hw, if_true] using hf
  · simpa only [hw, if_false] using hg

theorem good_cond (h1 : Good M e1 e1') (h2 : Good M e2 e2') (h3 : Good M e3 e3') :
    Good M (.cond e1 e2 e3) (.cond e1' e2' e3') := by
  refine ⟨?_, trivial, h1.isC, h2.isC, h3.isC⟩
  apply does_bind (h1.does.mono (le_max_left _ _))
  intro w
  apply does_ite
  · exact h3.does.mono ((le_max_right _ _).trans (le_max_right _ _))
  · exact h2.does.mono ((le_max_left _ _).trans (le_max_right _ _))

theorem does_toBool {f : Open} (h : Does M c f f') :
    Does M c (fun ρ => .op .toBool [f ρ]) fun ρ => .op .toBool [f' ρ] :=
  does_op (const_le c) (fun _ hc => (List.mem_singleton.1 hc).le) (.cons h .nil)
    (List.pairwise_singleton _ _)

section

variable (h1 : Good M e1 e1') (h2 : Good M e2 e2')

include h1 h2

theorem good_and : Good M (.and e1 e2) (.and e1' e2') := by
  refine ⟨?_, trivial, h1.isC, h2.isC⟩
  apply does_bind (h1.does.mono (le_max_left _ _))
  intro w
  exact does_ite w (does_val (.num 0)) (does_toBool (h2.does.mono (le_max_right _ _)))

theorem good_or : Good M (.or e1 e2) (.or e1' e2') := by
  refine ⟨?_, trivial, h1.isC, h2.isC⟩
  apply does_bind (h1.does.mono (le_max_left _ _))
  intro w
  exact does_ite w (does_toBool (h2.does.mono (le_max_right _ _))) (does_val (.num 1))

theorem good_seq : Good M (.seq e1 e2) (.seq e1' e2') := by
  refine ⟨?_, trivial, h1.isC, h2.isC⟩
  exact does_bind (h1.does.mono (le_max_left _ _)) fun _ => h2.does.mono (le_max_right _ _)

end

end Kinds

/-! ## The whole pass -/

section Main

/-- All that is asked of an expression and its parts. -/
def Exp.Fine (e : Exp) : Prop := e.IsSource ∧ e.IsC ∧ e.Placed

mutual

theorem all_and {p q : Exp → Prop} : ∀ e : Exp, e.All p → e.All q → e.All fun d => p d ∧ q d
  | .const _, hp, hq | .var _, hp, hq | .temp _, hp, hq => ⟨hp, hq⟩
  | .primop _ es, hp, hq => ⟨⟨hp.1, hq.1⟩, allList_and es hp.2 hq.2⟩
  | .subscript e1 e2, hp, hq | .assign e1 _ e2, hp, hq | .and e1 e2, hp, hq | .or e1 e2, hp, hq
  | .seq e1 e2, hp, hq | .decl _ e1 e2, hp, hq =>
    ⟨⟨hp.1, hq.1⟩, all_and e1 hp.2.1 hq.2.1, all_and e2 hp.2.2 hq.2.2⟩
  | .call f es, hp, hq => ⟨⟨hp.1, hq.1⟩, all_and f hp.2.1 hq.2.1, allList_and es hp.2.2 hq.2.2⟩
  | .increment e _, hp, hq => ⟨⟨hp.1, hq.1⟩, all_and e hp.2 hq.2⟩
  | .cond e1 e2 e3, hp, hq =>
    ⟨⟨hp.1, hq.1⟩, all_and e1 hp.2.1 hq.2.1, all_and e2 hp.2.2.1 hq.2.2.1,
      all_and e3 hp.2.2.2 hq.2.2.2⟩

theorem allList_and {p q : Exp → Prop} :
    ∀ es : List Exp, AllList p es → AllList q es → AllList (fun d => p d ∧ q d) es
  | [], _, _ => trivial
  | e :: es, hp, hq => ⟨all_and e hp.1 hq.1, allList_and es hp.2 hq.2⟩

end

variable (M : Machine X)

mutual

theorem good_expToSeqc : ∀ (e : Exp) (n : Nat), e.All Exp.Fine → Good M e (expToSeqc e n).1
  | .const c, _, _ => good_const c
  | .var x, _, h => good_var h.2.1
  | .temp t, _, h => h.1.elim
  | .primop p es, n, h => good_primop p (good_convertAll es n h.2) (h.1.2.2.convertAll n) _
  | .subscript e1 e2, n, h =>
    good_subscript (good_expToSeqc e1 n h.2.1) (good_expToSeqc e2 _ h.2.2)
      (h.1.2.2.convertAll n) _
  | .call f es, n, h => by
    have hkept := h.1.2.2.convertAll n
    rw [convertAll] at hkept
    rw [expToSeqc]
    cases hname : f.calleeName with
    | some name =>
      have hf := good_expToSeqc f n h.2.1
      rw [expToSeqc_of_calleeName hname] at hf hkept ⊢
      exact good_call_named hname hf.isC (good_convertAll es n h.2.2) hkept _
    | none =>
      exact good_call hname ((calleeName_expToSeqc f n).trans hname)
        (good_expToSeqc f n h.2.1) (good_convertAll es _ h.2.2) hkept _
  | .assign e1 p e2, n, h => by
    obtain ⟨⟨-, hlvalue, hplace, hkept⟩, he1, he2⟩ := h
    rw [expToSeqc]
    split_ifs with hp
    · obtain ⟨rfl, hvar⟩ := hp
      obtain ⟨s, x, rfl⟩ := eq_data hlvalue hvar
      exact good_assign_var he1.2.1 (good_expToSeqc e2 n he2)
    · exact good_assign hp (good_lvalue e1 _ hlvalue hplace he1) (good_expToSeqc e2 n he2)
        ((hkept.resolve_left hp).convertAll n) _
  | .increment e k, n, h => good_increment k (good_lvalue e n h.1.2.1 h.1.2.2 h.2)
  | .cond e1 e2 e3, n, h =>
    good_cond (good_expToSeqc e1 _ h.2.1) (good_expToSeqc e2 _ h.2.2.1)
      (good_expToSeqc e3 n h.2.2.2)
  | .and e1 e2, n, h => good_and (good_expToSeqc e1 _ h.2.1) (good_expToSeqc e2 n h.2.2)
  | .or e1 e2, n, h => good_or (good_expToSeqc e1 _ h.2.1) (good_expToSeqc e2 n h.2.2)
  | .seq e1 e2, n, h => good_seq (good_expToSeqc e1 _ h.2.1) (good_expToSeqc e2 n h.2.2)
  | .decl _ _ _, _, h => h.1.1.elim

theorem good_lvalue : ∀ (e : Exp) (n : Nat), e.isLvalue = true → e.InPlace → e.All Exp.Fine →
    GoodLvalue M e (expToSeqc e n).1
  | .var (.data _ _), _, _, _, h => goodLvalue_var h.2.1
  | .subscript e1 e2, n, _, hplace, h => by
    have hsplits := (splits_convertAll [e1, e2] n).trans hplace
    rcases sequence_cases (.subscript e1 e2) (convertAll [e1, e2] n).1 (convertAll [e1, e2] n).2
      with ⟨-, heq⟩ | ⟨htrue, -⟩
    · rw [show (expToSeqc (.subscript e1 e2) n).1 = _ from heq]
      exact goodLvalue_subscript (good_expToSeqc e1 n h.2.1) (good_expToSeqc e2 _ h.2.2)
        (h.1.2.2.apart hplace)
    · cases hsplits.symm.trans htrue
  | .var (.fn _), _, hlvalue, _, _ | .var (.array _ _), _, hlvalue, _, _
  | .var (.toc _), _, hlvalue, _, _ | .const _, _, hlvalue, _, _ | .temp _, _, hlvalue, _, _
  | .primop _ _, _, hlvalue, _, _ | .call _ _, _, hlvalue, _, _ | .assign _ _ _, _, hlvalue, _, _
  | .increment _ _, _, hlvalue, _, _ | .cond _ _ _, _, hlvalue, _, _ | .and _ _, _, hlvalue, _, _
  | .or _ _, _, hlvalue, _, _ | .seq _ _, _, hlvalue, _, _ | .decl _ _ _, _, hlvalue, _, _ => by
    cases hlvalue

theorem good_convertAll : ∀ (es : List Exp) (n : Nat), AllList Exp.Fine es →
    List.Forall₂ (Good M) es (convertAll es n).1
  | [], _, _ => .nil
  | e :: es, n, h => .cons (good_expToSeqc e n h.1) (good_convertAll es _ h.2)

end

/-- Where the pass leaves operands in place, let them not disturb each other. Then the rewritten
expression is C, no evaluation of it is infinite, and its evaluations in any order are those that
end as the evaluation of the expression from left to right does. -/
theorem expToSeqc_sequenced (e : Exp) (n : Nat) (hsource : e.All Exp.IsSource)
    (hC : e.All Exp.IsC) (hplaced : e.All Exp.Placed) (ρ : Nat → Value) (m : Mem)
    (out : EStateM.Result X Mem Value) : (expToSeqc e n).1.All Exp.IsC ∧
      Acc (Next M.act) (denote ρ (expToSeqc e n).1) ∧
      (Ends M.act (denote ρ (expToSeqc e n).1) m out ↔ out = eval M.act (denote ρ e) m) := by
  have hgood := good_expToSeqc M e n (all_and e hsource (all_and e hC hplaced))
  refine ⟨hgood.isC, acc_step M.act _, ?_⟩
  rw [(hgood.does.safe ρ).ends_iff (sound_act M), hgood.does.eval_eq ρ]

end Main

/-! ## Two expressions -/

/-- All names are at the address 0, operators add and calls return 0. -/
def plainMachine : Machine Unit where
  addr _ := 0
  prim _ ns := ns.sum
  call _ _ := pure 0
  call_pure _ _ := keeps_pure 0
  call_exn _ _ := keeps_pure 0

/-- A global variable. -/
def globalVar : Exp := .var (.data .global "x")

theorem isC_globalVar : globalVar.All Exp.IsC := by
  show funEffect "x" = .anyEffect
  decide

/-- `f()`. -/
def callNone : Exp := .call (.var (.fn "f")) []

/-- `f() + x`. -/
def callPlus : Exp := .primop .plus [callNone, globalVar]

/-- `a[f()] = f() + x`. -/
def elementAssign : Exp :=
  .assign (.subscript (.var (.array .global "a")) callNone) none callPlus

/-- `x++ + x`. -/
def incrementPlus : Exp := .primop .plus [.increment globalVar .postInc, globalVar]

/-- The index has a side effect and stays in place, as nothing else in the element is evaluated. A
variable is declared for the right side. -/
theorem expToSeqc_sequenced_elementAssign :
    Ends plainMachine.act (denote (fun _ => .num 0) (expToSeqc elementAssign 0).1) (fun _ => 5)
      (.ok (.num 5) (Function.update (fun _ => 5) 0 5)) := by
  have hplaced : elementAssign.All Exp.Placed := by
    have hnone : callNone.All Exp.Placed :=
      ⟨fun _ => List.pairwise_singleton _ _, trivial, trivial⟩
    refine ⟨⟨rfl, .inr fun h => absurd ?_ h⟩, ⟨fun h => absurd ?_ h, trivial, hnone⟩,
      fun h => absurd ?_ h, hnone, trivial, trivial⟩
    all_goals decide
  exact (expToSeqc_sequenced plainMachine elementAssign 0
    ⟨trivial, ⟨trivial, trivial, trivial, trivial, trivial⟩, trivial,
      ⟨trivial, trivial, trivial⟩, trivial, trivial⟩
    ⟨rfl, ⟨trivial, (by decide : funEffect "a" = .anyEffect), trivial, trivial, trivial⟩, trivial,
      ⟨trivial, trivial, trivial⟩, isC_globalVar, trivial⟩ hplaced _ _ _).2.2.2 rfl

/-- The value of `x++ + x` may be twice that of `x` before, if the second operand is evaluated
first. From left to right it is greater. -/
theorem not_expToSeqc_sequenced : incrementPlus.All Exp.IsSource ∧ incrementPlus.All Exp.IsC ∧
      Ends plainMachine.act (denote (fun _ => .num 0) (expToSeqc incrementPlus 0).1) (fun _ => 1)
        (.ok (.num 2) (Function.update (fun _ => 1) 0 2)) ∧
      eval plainMachine.act (denote (fun _ => .num 0) incrementPlus) (fun _ => 1) =
        .ok (.num 3) (Function.update (fun _ => 1) 0 2) := by
  refine ⟨⟨trivial, ⟨trivial, trivial⟩, trivial, trivial⟩,
    ⟨trivial, ⟨rfl, isC_globalVar⟩, isC_globalVar, trivial⟩, ?_, rfl⟩
  -- the second operand is read before the first one is incremented
  have hact : ∀ (a : Act) (ws : List Value) {w : Value} {m m' : Mem},
      plainMachine.act a ws m = .ok w m' →
        Step plainMachine.act (.op a (ws.map .val)) m (.val w) m' := fun _ _ => .act
  refine .step (.operand (l := [denote _ (.increment globalVar .postInc)]) (r := [])
    (hact (.read "x") [] rfl)) ?_
  refine .step (.operand (l := []) (.operand (l := []) (hact (.fetchVar "x") [] rfl))) ?_
  refine .step (.operand (l := []) (hact (.incr .postInc) [.place 0 1] rfl)) ?_
  exact .step (hact (.prim .plus) [.num 1, .num 1] rfl) (.val _ _)

end ConcurrentCyclone.Toseqc
