import ConcurrentCyclone.XInfer.Cfg

/-!
# Runs of statements

A run of a statement is the list of nodes that it visits, with the way it ends. Conditions are left
open: at every branch both ways are taken by some run, and a loop may stop after any round. What is
proved of every run therefore holds of every execution, whatever the values of its conditions.

`RunsNext` is what the analysis needs to know of a run: which effectful node comes next after which.
-/

set_option autoImplicit false

namespace ConcurrentCyclone.XInfer

open Bool (and_eq_true and_eq_true_iff not_eq_true')

/-! ## Traces of expressions and statements -/

mutual

/-- The nodes that an evaluation of the expression visits, in order. -/
def ERun : Exp → List Node → Prop
  | .op n args, t => ∃ u, ERuns args u ∧ t = u ++ [.exp n]
  | .andOr n e₁ e₂, t =>
    (∃ u, ERun e₁ u ∧ t = u ++ [.exp n]) ∨
    ∃ u v, ERun e₁ u ∧ ERun e₂ v ∧ t = u ++ (v ++ [.exp n])
  | .conditional n e₁ e₂ e₃, t =>
    ∃ u v, ERun e₁ u ∧ (ERun e₂ v ∨ ERun e₃ v) ∧ t = u ++ (v ++ [.exp n])

/-- Operands are evaluated from left to right. -/
def ERuns : List Exp → List Node → Prop
  | [], t => t = []
  | e :: es, t => ∃ u v, ERun e u ∧ ERuns es v ∧ t = u ++ v

end

mutual

theorem exists_eRun : ∀ e : Exp, ∃ t, ERun e t
  | .op n args => by
    obtain ⟨u, hu⟩ := exists_eRuns args
    exact ⟨_, u, hu, rfl⟩
  | .andOr n e1 _ => by
    obtain ⟨u, hu⟩ := exists_eRun e1
    exact ⟨_, .inl ⟨u, hu, rfl⟩⟩
  | .conditional n e1 e2 _ => by
    obtain ⟨u, hu⟩ := exists_eRun e1
    obtain ⟨v, hv⟩ := exists_eRun e2
    exact ⟨_, u, v, hu, .inl hv, rfl⟩

theorem exists_eRuns : ∀ es : List Exp, ∃ t, ERuns es t
  | [] => ⟨[], rfl⟩
  | e :: es => by
    obtain ⟨u, hu⟩ := exists_eRun e
    obtain ⟨v, hv⟩ := exists_eRuns es
    exact ⟨_, u, v, hu, hv, rfl⟩

end

/-- How a run of a statement ends. `cut` is a run that is looked at only up to some point, so that
what is said of every run is said of runs that do not end too. -/
inductive Outcome where
  | normal
  | brk
  | cont
  | ret
  | cut
deriving DecidableEq, Repr

/-- After a body run with this outcome a loop goes on. -/
def Outcome.goesOn (o : Outcome) : Prop :=
  o = .normal ∨ o = .cont

/-- What a loop ends with when a run of its body ends with the first outcome. -/
inductive Outcome.Leaves : Outcome → Outcome → Prop
  | brk : Leaves .brk .normal
  | ret : Leaves .ret .ret
  | cut : Leaves .cut .cut

/-- The nodes that a run of a statement visits, in order, and how it ends. Conditions are left open:
at every branch both ways are taken by some run. -/
inductive Run : Stmt → List Node → Outcome → Prop
  | cut {s : Stmt} : Run s [] .cut
  | skip {n : Nat} : Run (.skip n) [.stmt n] .normal
  | exp {n : Nat} {e : Exp} {t : List Node} :
      ERun e t → Run (.exp n e) (t ++ [.stmt n]) .normal
  | cap {n : Nat} {es : List Exp} {t : List Node} :
      ERuns es t → Run (.cap n es) (t ++ [.cap n]) .normal
  | seqStop {n : Nat} {s₁ s₂ : Stmt} {t : List Node} {o : Outcome} :
      Run s₁ t o → o ≠ .normal → Run (.seq n s₁ s₂) t o
  | seq {n : Nat} {s₁ s₂ : Stmt} {t₁ t₂ : List Node} {o : Outcome} :
      Run s₁ t₁ .normal → Run s₂ t₂ o → Run (.seq n s₁ s₂) (t₁ ++ t₂) o
  | ifThen {n : Nat} {e : Exp} {s₁ s₂ : Stmt} {t t₁ : List Node} {o : Outcome} :
      ERun e t → Run s₁ t₁ o → Run (.ifThenElse n e s₁ s₂) (t ++ t₁) o
  | ifElse {n : Nat} {e : Exp} {s₁ s₂ : Stmt} {t t₂ : List Node} {o : Outcome} :
      ERun e t → Run s₂ t₂ o → Run (.ifThenElse n e s₁ s₂) (t ++ t₂) o
  | whileStop {n : Nat} {e : Exp} {k : Nat} {s : Stmt} {t : List Node} :
      ERun e t → Run (.whileLoop n e k s) t .normal
  | whileLeave {n : Nat} {e : Exp} {k : Nat} {s : Stmt} {t t₁ : List Node} {o o' : Outcome} :
      ERun e t → Run s t₁ o → o.Leaves o' → Run (.whileLoop n e k s) (t ++ t₁) o'
  | whileNext {n : Nat} {e : Exp} {k : Nat} {s : Stmt} {t t₁ t₂ : List Node} {o o' : Outcome} :
      ERun e t → Run s t₁ o → o.goesOn → Run (.whileLoop n e k s) t₂ o' →
      Run (.whileLoop n e k s) (t ++ (t₁ ++ t₂)) o'
  | doLeave {n : Nat} {s : Stmt} {e : Exp} {k : Nat} {t₁ : List Node} {o o' : Outcome} :
      Run s t₁ o → o.Leaves o' → Run (.doLoop n s e k) t₁ o'
  | doStop {n : Nat} {s : Stmt} {e : Exp} {k : Nat} {t₁ t : List Node} {o : Outcome} :
      Run s t₁ o → o.goesOn → ERun e t → Run (.doLoop n s e k) (t₁ ++ t) .normal
  | doNext {n : Nat} {s : Stmt} {e : Exp} {k : Nat} {t₁ t t₂ : List Node} {o o' : Outcome} :
      Run s t₁ o → o.goesOn → ERun e t → Run (.doLoop n s e k) t₂ o' →
      Run (.doLoop n s e k) (t₁ ++ (t ++ t₂)) o'
  | brk {n : Nat} : Run (.brk n) [.jump n] .brk
  | cont {n : Nat} : Run (.cont n) [.jump n] .cont
  | retVoid {n : Nat} : Run (.ret n none) [.jump n] .ret
  | ret {n : Nat} {e : Exp} {t : List Node} :
      ERun e t → Run (.ret n (some e)) (t ++ [.jump n]) .ret

variable {s : Stmt} {t : List Node} {o : Outcome}

variable {n k : Nat} {e : Exp} {P : List Node → Outcome → Prop}

/-- Induction over the rounds of a `while`. -/
@[elab_as_elim]
theorem Run.while_induction (cut : P [] .cut) (stop : ∀ {t}, ERun e t → P t .normal)
    (leave : ∀ {t t1 o o'}, ERun e t → Run s t1 o → o.Leaves o' → P (t ++ t1) o')
    (next : ∀ {t t1 t2 o o'}, ERun e t → Run s t1 o → o.goesOn → P t2 o' →
      P (t ++ (t1 ++ t2)) o') (h : Run (.whileLoop n e k s) t o) : P t o := by
  -- the induction is on the run, so the statement becomes a variable first
  generalize hw : Stmt.whileLoop n e k s = w at h
  induction h with
  | cut => exact cut
  | whileStop he =>
    cases hw
    exact stop he
  | whileLeave he hs hleave =>
    cases hw
    exact leave he hs hleave
  | whileNext he hs hgo _ _ ih =>
    cases hw
    exact next he hs hgo (ih rfl)
  | _ => cases hw

/-! ## How a statement can end -/

/-- The statement can end this way. -/
def Stmt.ends : Stmt → Outcome → Bool
  | .skip _, o => o == .normal
  | .exp _ _, o => o == .normal
  | .cap _ _, o => o == .normal
  | .seq _ s₁ s₂, o => (o != .normal && s₁.ends o) || (s₁.ends .normal && s₂.ends o)
  | .ifThenElse _ _ s₁ s₂, o => s₁.ends o || s₂.ends o
  | .whileLoop _ _ _ s, o => o == .normal || (o == .ret && s.ends .ret)
  | .doLoop _ s _ _, o =>
    (o == .normal && (s.ends .normal || s.ends .cont || s.ends .brk)) ||
    (o == .ret && s.ends .ret)
  | .brk _, o => o == .brk
  | .cont _, o => o == .cont
  | .ret _ _, o => o == .ret

theorem ends_of_run (h : Run s t o) (ho : o ≠ .cut) : s.ends o = true := by
  induction h with
  | cut => exact absurd rfl ho
  | skip | exp | cap | whileStop | brk | cont | retVoid | ret => rfl
  | seqStop _ hstop ih => simp [Stmt.ends, hstop, ih ho]
  | seq _ _ ih1 ih2 => simp [Stmt.ends, ih1 (by decide), ih2 ho]
  | ifThen _ _ ih | ifElse _ _ ih => simp [Stmt.ends, ih ho]
  | whileLeave _ _ hleave ih =>
    cases hleave with
    | brk => rfl
    | ret => simp [Stmt.ends, ih ho]
    | cut => exact absurd rfl ho
  | whileNext _ _ _ _ _ ih => exact ih ho
  | doLeave _ hleave ih =>
    cases hleave with
    | brk => simp [Stmt.ends, ih (by decide)]
    | ret => simp [Stmt.ends, ih ho]
    | cut => exact absurd rfl ho
  | doStop _ hgo _ ih => rcases hgo with rfl | rfl <;> simp [Stmt.ends, ih (by decide)]
  | doNext _ _ _ _ _ ih => exact ih ho

/-! ## Effects -/

/-- The nodes with an effect: the expressions that `effect` names, and every cap statement. -/
def Node.effectful (effect : Nat → Bool) : Node → Bool
  | .exp n => effect n
  | .cap _ => true
  | .jump _ => false
  | .stmt _ => false

/-- Nodes without effect. -/
def Quiet (effect : Nat → Bool) (n : Node) : Prop :=
  n.effectful effect = false

instance (effect : Nat → Bool) (n : Node) : Decidable (Quiet effect n) :=
  inferInstanceAs (Decidable (_ = _))

/-- In some run of `s`, the effectful node `b` is the next one after the effectful node `a`. -/
def RunsNext (effect : Nat → Bool) (s : Stmt) (a b : Node) : Prop :=
  ∃ pre mid post o, Run s (pre ++ a :: (mid ++ b :: post)) o ∧ ¬ Quiet effect a ∧
    (∀ m ∈ mid, Quiet effect m) ∧ ¬ Quiet effect b

mutual

/-- No node of the expression has an effect. -/
def Exp.silent (effect : Nat → Bool) : Exp → Bool
  | .op n args => !effect n && silentArgs effect args
  | .andOr n e₁ e₂ => !effect n && e₁.silent effect && e₂.silent effect
  | .conditional n e₁ e₂ e₃ =>
    !effect n && e₁.silent effect && e₂.silent effect && e₃.silent effect

def silentArgs (effect : Nat → Bool) : List Exp → Bool
  | [] => true
  | e :: es => e.silent effect && silentArgs effect es

end

/-- No node of the statement has an effect. -/
def Stmt.silent (effect : Nat → Bool) : Stmt → Bool
  | .skip _ => true
  | .exp _ e => e.silent effect
  | .cap _ _ => false
  | .seq _ s₁ s₂ => s₁.silent effect && s₂.silent effect
  | .ifThenElse _ e s₁ s₂ => e.silent effect && s₁.silent effect && s₂.silent effect
  | .whileLoop _ e _ s => e.silent effect && s.silent effect
  | .doLoop _ s e _ => e.silent effect && s.silent effect
  | .brk _ => true
  | .cont _ => true
  | .ret _ none => true
  | .ret _ (some e) => e.silent effect

section Quiet

variable {effect : Nat → Bool}

theorem quiet_node {n : Node} (h : Quiet effect n) : ∀ m ∈ [n], Quiet effect m :=
  List.forall_mem_singleton.mpr h

theorem quiet_append {t u : List Node} (ht : ∀ m ∈ t, Quiet effect m)
    (hu : ∀ m ∈ u, Quiet effect m) : ∀ m ∈ t ++ u, Quiet effect m :=
  List.forall_mem_append.mpr ⟨ht, hu⟩

mutual

theorem quiet_of_eRun : ∀ {e : Exp} {t : List Node}, e.silent effect = true → ERun e t →
    ∀ n ∈ t, Quiet effect n
  | .op n args, _, hs, ⟨u, hu, ht⟩ => by
    simp only [Exp.silent, and_eq_true, not_eq_true'] at hs
    rw [ht]
    exact quiet_append (quiet_of_eRuns hs.2 hu) (quiet_node hs.1)
  | .andOr n e1 e2, _, hs, hrun => by
    simp only [Exp.silent, and_eq_true, not_eq_true'] at hs
    obtain ⟨⟨hn, h1⟩, h2⟩ := hs
    rcases hrun with ⟨u, hu, rfl⟩ | ⟨u, v, hu, hv, rfl⟩
    · exact quiet_append (quiet_of_eRun h1 hu) (quiet_node hn)
    · apply quiet_append (quiet_of_eRun h1 hu)
      exact quiet_append (quiet_of_eRun h2 hv) (quiet_node hn)
  | .conditional n e1 e2 e3, _, hs, ⟨u, v, hu, hv, ht⟩ => by
    simp only [Exp.silent, and_eq_true, not_eq_true'] at hs
    obtain ⟨⟨⟨hn, h1⟩, h2⟩, h3⟩ := hs
    have hbranch : ∀ m ∈ v, Quiet effect m := by
      rcases hv with hv | hv
      · exact quiet_of_eRun h2 hv
      · exact quiet_of_eRun h3 hv
    rw [ht]
    exact quiet_append (quiet_of_eRun h1 hu) (quiet_append hbranch (quiet_node hn))

theorem quiet_of_eRuns : ∀ {es : List Exp} {t : List Node}, silentArgs effect es = true →
    ERuns es t → ∀ n ∈ t, Quiet effect n
  | [], _, _, ht => by
    rw [show _ = [] from ht]
    exact nofun
  | e :: es, _, hs, ⟨u, v, hu, hv, ht⟩ => by
    simp only [silentArgs, and_eq_true] at hs
    rw [ht]
    exact quiet_append (quiet_of_eRun hs.1 hu) (quiet_of_eRuns hs.2 hv)

end

theorem quiet_of_run {s : Stmt} {t : List Node} {o : Outcome} (h : Run s t o)
    (hs : s.silent effect = true) : ∀ n ∈ t, Quiet effect n := by
  induction h with
  | cut => exact nofun
  | skip | brk | cont | retVoid => exact quiet_node rfl
  | exp he | ret he => exact quiet_append (quiet_of_eRun hs he) (quiet_node rfl)
  | cap => exact absurd hs Bool.false_ne_true
  | seqStop _ _ ih => exact ih (and_eq_true_iff.mp hs).1
  | seq _ _ ih1 ih2 =>
    obtain ⟨hs1, hs2⟩ := and_eq_true_iff.mp hs
    exact quiet_append (ih1 hs1) (ih2 hs2)
  | ifThen he _ ih =>
    rw [Stmt.silent, and_eq_true, and_eq_true] at hs
    exact quiet_append (quiet_of_eRun hs.1.1 he) (ih hs.1.2)
  | ifElse he _ ih =>
    rw [Stmt.silent, and_eq_true, and_eq_true] at hs
    exact quiet_append (quiet_of_eRun hs.1.1 he) (ih hs.2)
  | whileStop he => exact quiet_of_eRun (and_eq_true_iff.mp hs).1 he
  | whileLeave he _ _ ih =>
    obtain ⟨hsE, hsB⟩ := and_eq_true_iff.mp hs
    exact quiet_append (quiet_of_eRun hsE he) (ih hsB)
  | whileNext he _ _ _ ih1 ih2 =>
    -- the rest of the run is one of the whole loop
    obtain ⟨hsE, hsB⟩ := and_eq_true_iff.mp hs
    exact quiet_append (quiet_of_eRun hsE he) (quiet_append (ih1 hsB) (ih2 hs))
  | doLeave _ _ ih => exact ih (and_eq_true_iff.mp hs).2
  | doStop _ _ he ih =>
    obtain ⟨hsE, hsB⟩ := and_eq_true_iff.mp hs
    exact quiet_append (ih hsB) (quiet_of_eRun hsE he)
  | doNext _ _ he _ ih1 ih2 =>
    obtain ⟨hsE, hsB⟩ := and_eq_true_iff.mp hs
    exact quiet_append (ih1 hsB) (quiet_append (quiet_of_eRun hsE he) (ih2 hs))

end Quiet

end ConcurrentCyclone.XInfer
