import ConcurrentCyclone.Toseqc.Rewrite

/-!
# Operands after the pass

What the operations of expressions depend on and may do is given by their classes (`actCls`,
`sound_act`), and the class of an expression is that of its operations (`Exp.cls`). `Does` says that
a computation does in any order what another one does from left to right.

Operands that do not disturb each other can be left in place (`does_inPlace`). If variables are
declared for all of them but the last one and those that are constant, the declared operands are
evaluated first, one after the other (`denote_declare`), and the order of the others does not matter
(`does_declare`). `good_sequence` puts the two together, as `exps_to_seqc` does.
-/

set_option autoImplicit false

namespace ConcurrentCyclone.Toseqc

open EvalOrder
open List (map_cons forall_mem_cons length_map)

variable {X : Type}

/-! ## What operations and expressions depend on -/

/-- The class of a function that is called by its name. -/
def funCls (f : String) : Cls :=
  match funEffect f with
  | .const | .noEffect => .read
  | .exnEffect => .throw
  | .anyEffect => .write

/-- The class of an operation. -/
def actCls : Act → Cls
  | .name _ | .prim _ | .toBool | .address => .const
  | .read _ | .fetchVar _ | .load | .fetch => .read
  | .callNamed f => funCls f
  | .callPtr | .store _ | .storeAt | .update _ | .incr _ => .write

theorem funEffect_ne_const (f : String) : funEffect f ≠ .const := by
  unfold funEffect
  split_ifs <;> decide

theorem keeps_call (M : Machine X) (f : String) (args : List Int) :
    Keeps (funCls f) (M.call (M.addr f) args) := by
  unfold funCls
  split
  · next h => exact absurd h (funEffect_ne_const f)
  · next h => exact M.call_pure h args
  · next h => exact M.call_exn h args
  · exact trivial

/-- The operations behave as their classes say. -/
theorem sound_act (M : Machine X) : Sound actCls M.act := by
  intro a ws
  cases a with
  | name | prim | toBool | address => exact keeps_pure _
  | read | fetchVar | load | fetch => exact fun m => ⟨_, rfl⟩
  | callNamed f =>
    exact (keeps_call M f _).bind fun v => keeps_pure (Value.num v)
  | _ => exact trivial

mutual

/-- What the evaluation of an expression depends on and may do. -/
def Exp.cls : Exp → Cls
  | .const _ | .temp _ => .const
  | .var (.data _ _) => .read
  | .var _ => .const
  | .primop _ es => clsList es
  | .subscript e₁ e₂ => max .read (max e₁.cls e₂.cls)
  | .call f es =>
    match f.calleeName with
    | some name => max (funCls name) (clsList es)
    | none => .write
  | .assign _ _ _ | .increment _ _ => .write
  | .cond e₁ e₂ e₃ => max e₁.cls (max e₂.cls e₃.cls)
  | .and e₁ e₂ | .or e₁ e₂ | .seq e₁ e₂ => max e₁.cls e₂.cls
  | .decl _ e body => max e.cls body.cls

/-- The greatest class of some expressions. -/
def clsList : List Exp → Cls
  | [] => .const
  | e :: es => max e.cls (clsList es)

end

section All

variable (p : Exp → Prop)

mutual

/-- The property holds for all parts of an expression. -/
def Exp.All : Exp → Prop
  | .const n => p (.const n)
  | .var x => p (.var x)
  | .temp t => p (.temp t)
  | .primop q es => p (.primop q es) ∧ AllList es
  | .subscript e₁ e₂ => p (.subscript e₁ e₂) ∧ e₁.All ∧ e₂.All
  | .call f es => p (.call f es) ∧ f.All ∧ AllList es
  | .assign e₁ q e₂ => p (.assign e₁ q e₂) ∧ e₁.All ∧ e₂.All
  | .increment e k => p (.increment e k) ∧ e.All
  | .cond e₁ e₂ e₃ => p (.cond e₁ e₂ e₃) ∧ e₁.All ∧ e₂.All ∧ e₃.All
  | .and e₁ e₂ => p (.and e₁ e₂) ∧ e₁.All ∧ e₂.All
  | .or e₁ e₂ => p (.or e₁ e₂) ∧ e₁.All ∧ e₂.All
  | .seq e₁ e₂ => p (.seq e₁ e₂) ∧ e₁.All ∧ e₂.All
  | .decl t e body => p (.decl t e body) ∧ e.All ∧ body.All

/-- The property holds for all parts of some expressions. -/
def AllList : List Exp → Prop
  | [] => True
  | e :: es => e.All ∧ AllList es

end

end All

/-- An expression that may be assigned. -/
def Exp.isLvalue : Exp → Bool
  | .var (.data _ _) | .subscript _ _ => true
  | _ => false

/-- A variable whose name is not one of the functions of the runtime system. -/
def Var.NotReserved : Var → Prop
  | .array _ name | .data _ name => funEffect name = .anyEffect
  | _ => True

/-- The expression is C as far as its top node goes: what is assigned is an lvalue. -/
def Exp.IsC : Exp → Prop
  | .var x => x.NotReserved
  | .assign e₁ _ _ => e₁.isLvalue
  | .increment e _ => e.isLvalue
  | _ => True

/-- The expression is not one that the pass introduces. -/
def Exp.IsSource : Exp → Prop
  | .temp _ | .decl _ _ _ => False
  | _ => True

/-- The operands for which the pass declares variables: those that do not stay, but for the last
one. -/
def marks : List Exp → List Bool
  | [] => []
  | e :: es => (!stays e && es.any fun d => !stays d) :: marks es

/-- Variables are declared for operands with these side effects. -/
def splits (es : List Exp) (effects : List SideEffect) : Bool :=
  joinEffects effects == .anyEffect && (marks es).any id

mutual

/-- The side effect that `exp_effect` finds once the pass has converted the expression. It is
another one only for a call, which becomes a statement expression if variables are declared. -/
def Exp.laterEffect : Exp → SideEffect
  | .const _ => .const
  | .var _ | .temp _ => .noEffect
  | .assign _ _ _ => .anyEffect
  | .call f es =>
    if splits (f :: es) (f.laterEffect :: laterEffects es) then .anyEffect else callEffect f
  | .primop _ es => joinEffects (laterEffects es)
  | .cond e₁ e₂ e₃ => joinEffects [e₁.laterEffect, e₂.laterEffect, e₃.laterEffect]
  | .subscript e₁ e₂ | .and e₁ e₂ | .or e₁ e₂ | .seq e₁ e₂ =>
    joinEffects [e₁.laterEffect, e₂.laterEffect]
  | .increment e _ => e.laterEffect
  | .decl _ _ _ => .anyEffect

/-- The same for some expressions. -/
def laterEffects : List Exp → List SideEffect
  | [] => []
  | e :: es => e.laterEffect :: laterEffects es

end

/-- If the effects of the operands let the pass leave them in place, they do not disturb each
other. -/
def Kept (es : List Exp) : Prop :=
  joinEffects (laterEffects es) ≠ .anyEffect → (es.map Exp.cls).Pairwise Cls.Apart

/-- No variables are declared for the operands of an element that is assigned. -/
def Exp.InPlace : Exp → Prop
  | .subscript e₁ e₂ => splits [e₁, e₂] (laterEffects [e₁, e₂]) = false
  | _ => True

/-- The pass is right about the operands of the top node. -/
def Exp.Placed : Exp → Prop
  | .primop _ es => Kept es
  | .subscript e₁ e₂ => Kept [e₁, e₂]
  | .call f es => Kept (f :: es)
  | .assign e₁ p e₂ => e₁.InPlace ∧ (p = none ∧ e₁.isVar ∨ Kept [e₂, e₁])
  | .increment e _ => e.InPlace
  | _ => True

/-! ## Computations that do what others do -/

/-- A computation that may depend on the declared variables. -/
abbrev Open := (Nat → Value) → Comp Act Value

/-- The computation `f'` is safe, of the class `c` and does what `f` does from left to right; it
does not depend on variables that are declared outside. -/
structure Does (M : Machine X) (c : Cls) (f f' : Open) : Prop where
  closed : ∀ ρ ρ', f' ρ = f' ρ'
  eval_eq : ∀ ρ, eval M.act (f' ρ) = eval M.act (f ρ)
  safe : ∀ ρ, Safe actCls (f' ρ)
  within : ∀ ρ, Within actCls c (f' ρ)

/-- `Does` for operands. -/
inductive DoesAll (M : Machine X) : List Cls → List Open → List Open → Prop where
  | nil : DoesAll M [] [] []
  | cons {c : Cls} {cs : List Cls} {f f' : Open} {fs fs' : List Open} :
      Does M c f f' → DoesAll M cs fs fs' → DoesAll M (c :: cs) (f :: fs) (f' :: fs')

/-- The operands, with the values of declared variables. -/
def plug (ρ : Nat → Value) (fs : List Open) : List (Comp Act Value) := fs.map fun f => f ρ

section Does

variable {M : Machine X} {c : Cls} {cs : List Cls} {f f' : Open} {fs fs' : List Open}

theorem Does.mono {c' : Cls} (hle : c ≤ c') (h : Does M c f f') : Does M c' f f' :=
  ⟨h.closed, h.eval_eq, h.safe, fun ρ => (h.within ρ).mono hle⟩

theorem does_val (v : Value) : Does M c (fun _ => .val v) fun _ => .val v :=
  ⟨fun _ _ => rfl, fun _ => rfl, fun _ => .val v, fun _ => .val v⟩

theorem does_bind {g g' : Value → Open} (h : Does M c f f') (hg : ∀ w, Does M c (g w) (g' w)) :
    Does M c (fun ρ => .bind (f ρ) fun w => g w ρ) fun ρ => .bind (f' ρ) fun w => g' w ρ where
  closed ρ ρ' := by rw [h.closed ρ ρ', funext fun w => (hg w).closed ρ ρ']
  eval_eq ρ := by rw [eval, eval, h.eval_eq ρ, funext fun w => (hg w).eval_eq ρ]
  safe ρ := .bind (h.safe ρ) fun w => (hg w).safe ρ
  within ρ := .bind (h.within ρ) fun w => (hg w).within ρ

section

variable (h : DoesAll M cs fs fs')

include h

theorem DoesAll.closed (ρ ρ' : Nat → Value) : plug ρ fs' = plug ρ' fs' := by
  induction h with
  | nil => rfl
  | cons hf _ ih => exact congrArg₂ List.cons (hf.closed ρ ρ') ih

theorem DoesAll.evalList_eq (ρ : Nat → Value) :
    evalList M.act (plug ρ fs') = evalList M.act (plug ρ fs) := by
  induction h with
  | nil => rfl
  | cons hf _ ih =>
    rw [plug, plug, map_cons, map_cons, evalList, evalList, hf.eval_eq ρ]
    rw [← plug, ← plug, ih]

theorem DoesAll.safe (ρ : Nat → Value) : ∀ d ∈ plug ρ fs', Safe actCls d := by
  induction h with
  | nil => exact nofun
  | cons hf _ ih => exact forall_mem_cons.2 ⟨hf.safe ρ, ih⟩

theorem DoesAll.within (hcs : ∀ c' ∈ cs, c' ≤ c) (ρ : Nat → Value) :
    ∀ d ∈ plug ρ fs', Within actCls c d := by
  induction h with
  | nil => exact nofun
  | cons hf _ ih =>
    obtain ⟨hc, hcs⟩ := forall_mem_cons.1 hcs
    exact forall_mem_cons.2 ⟨(hf.within ρ).mono hc, ih hcs⟩

theorem DoesAll.apart {c : Cls} {e : Comp Act Value}
    (he : Within actCls c e) (hcs : ∀ c' ∈ cs, c.Apart c') (ρ : Nat → Value) :
    ∀ d ∈ plug ρ fs', Apart actCls e d := by
  induction h with
  | nil => exact nofun
  | cons hf _ ih =>
    obtain ⟨hc, hcs⟩ := forall_mem_cons.1 hcs
    exact forall_mem_cons.2 ⟨.of_cls hc he (hf.within ρ), ih hcs⟩

theorem DoesAll.pairwise (hcs : cs.Pairwise Cls.Apart)
    (ρ : Nat → Value) : (plug ρ fs').Pairwise (Apart actCls) := by
  induction h with
  | nil => exact .nil
  | cons hf hfs ih =>
    obtain ⟨hc, hcs⟩ := List.pairwise_cons.1 hcs
    exact List.pairwise_cons.2 ⟨hfs.apart (hf.within ρ) hc ρ, ih hcs⟩

end

section

variable {a : Act} (ha : actCls a ≤ c) (hcs : ∀ c' ∈ cs, c' ≤ c) (h : DoesAll M cs fs fs')

include ha hcs h

/-- Operands that do not disturb each other are left in place. -/
theorem does_op (hapart : cs.Pairwise Cls.Apart) :
    Does M c (fun ρ => .op a (plug ρ fs)) fun ρ => .op a (plug ρ fs') where
  closed ρ ρ' := by rw [h.closed ρ ρ']
  eval_eq ρ := by rw [eval, eval, h.evalList_eq ρ]
  safe ρ := .op (h.safe ρ) (h.pairwise hapart ρ)
  within ρ := .op ha (h.within hcs ρ)

/-- Operands are evaluated first, one after the other. -/
theorem does_bindFirst (bs : List Bool) (hlen : bs.length = fs'.length)
    (hordered : ∀ ρ, Ordered actCls (bs.zip (plug ρ fs'))) :
    Does M c (fun ρ => .op a (plug ρ fs)) fun ρ => bindFirst (bs.zip (plug ρ fs')) (.op a) where
  closed ρ ρ' := by rw [h.closed ρ ρ']
  eval_eq ρ := by
    funext m
    have hsnd : (bs.zip (plug ρ fs')).map Prod.snd = plug ρ fs' :=
      List.map_snd_zip (by rw [plug, length_map, hlen])
    rw [eval_bindFirst (hordered ρ) (eval_op_bind (sound_act M)), hsnd, eval, eval,
      h.evalList_eq ρ]
  safe ρ := safe_bindFirst (hordered ρ) (fun d hd => h.safe ρ d.2 (List.of_mem_zip hd).2) .op
  within ρ := within_bindFirst (fun d hd => h.within hcs ρ d.2 (List.of_mem_zip hd).2) (.op ha)

end

end Does

/-! ## Declarations of fresh variables -/

@[simp] theorem denoteList_eq_map (ρ : Nat → Value) (es : List Exp) :
    denoteList ρ es = es.map (denote ρ) := by
  induction es with
  | nil => rfl
  | cons e es ih => rw [denoteList, ih, map_cons]

mutual

/-- Constants do not depend on the state. -/
theorem within_of_isConstExp (ρ : Nat → Value) :
    ∀ e, isConstExp e = true → Within actCls .const (denote ρ e)
  | .const n, _ => .val _
  | .var (.fn x), _ | .var (.array .global x), _ | .var (.array .static x), _ =>
    .op le_rfl (by simp)
  | .cond e1 e2 e3, h => by
    simp only [isConstExp, Bool.and_eq_true] at h
    refine .bind (within_of_isConstExp ρ e1 h.1.1) fun w => ?_
    split_ifs
    · exact within_of_isConstExp ρ e3 h.2
    · exact within_of_isConstExp ρ e2 h.1.2
  | .seq e1 e2, h => by
    simp only [isConstExp, Bool.and_eq_true] at h
    exact .bind (within_of_isConstExp ρ e1 h.1) fun _ => within_of_isConstExp ρ e2 h.2
  | .primop p es, h => by
    simp only [isConstExp] at h
    exact .op le_rfl (within_of_areConstExps ρ es h)
  | .var (.array .auto _), h | .var (.data _ _), h | .var (.toc _), h | .temp _, h
  | .subscript _ _, h | .call _ _, h | .assign _ _ _, h | .increment _ _, h | .and _ _, h
  | .or _ _, h | .decl _ _ _, h => by simp [isConstExp] at h

theorem within_of_areConstExps (ρ : Nat → Value) :
    ∀ es, areConstExps es = true → ∀ d ∈ denoteList ρ es, Within actCls .const d
  | [], _ => nofun
  | e :: es, h => by
    simp only [areConstExps, Bool.and_eq_true] at h
    exact forall_mem_cons.2
      ⟨within_of_isConstExp ρ e h.1, within_of_areConstExps ρ es h.2⟩

end

theorem within_of_stays (ρ : Nat → Value) {e : Exp} (h : stays e = true) :
    Within actCls .const (denote ρ e) := by
  rw [stays, Bool.or_eq_true] at h
  rcases h with h | h
  · exact within_of_isConstExp ρ e h
  · unfold isTocVar at h
    split at h
    · exact .op le_rfl (by simp)
    · exact .val _
    · cases h

theorem length_marks (es : List Exp) : (marks es).length = es.length := by
  induction es with
  | nil => rfl
  | cons e es ih => rw [marks, List.length_cons, List.length_cons, ih]

theorem didSkip_replaceOperands (es : List Exp) (n : Nat) :
    (replaceOperands es n).didSkip = es.any fun d => !stays d := by
  induction es with
  | nil => rfl
  | cons e es ih =>
    rw [replaceOperands, List.any_cons]
    split_ifs with hstays hskip
    · rw [hstays, ih]
      rfl
    · simp [hstays]
    · simp [hstays]

/-- An operand is left, or is replaced by a variable. -/
def Replaces (e d : Exp) : Prop := d = e ∨ ∃ t, d = .temp t

theorem replaces_replaceOperands (es : List Exp) (n : Nat) :
    List.Forall₂ Replaces es (replaceOperands es n).operands := by
  induction es with
  | nil => exact .nil
  | cons e es ih =>
    rw [replaceOperands]
    split_ifs
    · exact .cons (.inl rfl) ih
    · exact .cons (.inl rfl) ih
    · exact .cons (.inr ⟨_, rfl⟩) ih

variable {n : Nat}

variable {es : List Exp}

theorem mem_decls_replaceOperands : ∀ d ∈ (replaceOperands es n).decls, d.2 ∈ es := by
  induction es with
  | nil => exact nofun
  | cons e es ih =>
    rw [replaceOperands]
    split_ifs
    · exact fun d hd => .tail _ (ih d hd)
    · exact fun d hd => .tail _ (ih d hd)
    · exact forall_mem_cons.2
        ⟨.head _, fun d hd => .tail _ (ih d hd)⟩

/-- The declared operands are evaluated first, one after the other. -/
theorem denote_declare {build : List Exp → Exp}
    {k : (Nat → Value) → List (Comp Act Value) → Comp Act Value}
    (hclosed : ∀ e ∈ es, ∀ ρ ρ', denote ρ e = denote ρ' e)
    (hbuild : ∀ ρ ds, List.Forall₂ Replaces es ds →
      denote ρ (build ds) = k ρ (ds.map (denote ρ)))
    (hk : ∀ ρ t w, t < (replaceOperands es n).next → k (Function.update ρ t w) = k ρ)
    (ρ : Nat → Value) :
    denote ρ (declare (replaceOperands es n).decls (build (replaceOperands es n).operands)) =
      bindFirst ((marks es).zip (es.map (denote ρ))) (k ρ) := by
  induction es generalizing build k ρ with
  | nil => exact hbuild ρ [] .nil
  | cons e es ih =>
    obtain ⟨he, hes⟩ := forall_mem_cons.1 hclosed
    -- the first operand becomes one of the operands that come before the others
    have hnext : ∀ {d : Exp}, Replaces e d →
        (∀ ρ t w, t < (replaceOperands es n).next →
          denote (Function.update ρ t w) d = denote ρ d) →
        (replaceOperands es n).next ≤ (replaceOperands (e :: es) n).next → ∀ ρ,
        denote ρ (declare (replaceOperands es n).decls
          (build (d :: (replaceOperands es n).operands))) =
        bindFirst ((marks es).zip (es.map (denote ρ))) fun cs => k ρ (denote ρ d :: cs) := by
      intro d hd hfresh hle ρ
      refine @ih (fun ds => build (d :: ds)) (fun ρ cs => k ρ (denote ρ d :: cs)) hes
        (fun ρ ds hds => hbuild ρ (d :: ds) (.cons hd hds)) (fun ρ t w ht => ?_) ρ
      rw [hk ρ t w (ht.trans_le hle), hfresh ρ t w ht]
    have hkeep := hnext (.inl rfl) (fun ρ t w _ => he _ _)
    rw [marks]
    rw [replaceOperands] at hkeep hnext hk ⊢
    rw [← didSkip_replaceOperands es n]
    split_ifs at hkeep hnext hk ⊢ with hstays hskip
    · simp only [hstays]
      exact hkeep le_rfl ρ
    · simp only [Bool.not_eq_true'] at hskip
      simp only [hskip, Bool.and_false]
      exact hkeep le_rfl ρ
    · simp only [Bool.not_eq_true'] at hstays hskip
      simp only [hstays, hskip, Bool.not_false, Bool.and_true, declare, List.foldr_cons, denote]
      congr 1
      funext w
      have hbody := hnext (.inr ⟨_, rfl⟩) (d := .temp (replaceOperands es n).next)
        (fun ρ t w ht => by simp [denote, Function.update_of_ne ht.ne']) (Nat.le_succ _)
        (Function.update ρ (replaceOperands es n).next w)
      have hsame : es.map (denote (Function.update ρ (replaceOperands es n).next w)) =
          es.map (denote ρ) := List.map_congr_left fun d hd => hes d hd _ _
      rw [hsame, hk ρ _ w (Nat.lt_succ_self _), denote, Function.update_self] at hbody
      exact hbody

theorem const_of_stays (ρ : Nat → Value) (h : ∀ d ∈ es, stays d = true) :
    ∀ d ∈ (marks es).zip (es.map (denote ρ)), d.1 = false ∧ Within actCls .const d.2 := by
  induction es with
  | nil => exact nofun
  | cons e es ih =>
    obtain ⟨he, hes⟩ := forall_mem_cons.1 h
    refine forall_mem_cons.2 ⟨⟨?_, within_of_stays ρ he⟩, ih hes⟩
    rw [he, Bool.not_true, Bool.false_and]

/-- Operands that are not declared stay, but for one that comes after the declared ones. -/
theorem ordered_marks (ρ : Nat → Value) (es : List Exp) :
    Ordered actCls ((marks es).zip (es.map (denote ρ))) := by
  induction es with
  | nil => exact trivial
  | cons e es ih =>
    rw [marks]
    by_cases hstays : stays e = true
    · simp only [hstays]
      exact .inl ⟨within_of_stays ρ hstays, ih⟩
    · cases hany : es.any fun d => !stays d with
      | true =>
        simp only [hstays]
        exact ih
      | false =>
        simp only [hstays]
        refine .inr (const_of_stays ρ fun d hd => ?_)
        simpa using List.any_eq_false.1 hany d hd

/-! ## The pass -/

/-- The expression `e'` is C, and does in any order what `e` does from left to right. -/
structure Good (M : Machine X) (e e' : Exp) : Prop where
  does : Does M e.cls (fun ρ => denote ρ e) fun ρ => denote ρ e'
  isC : e'.All Exp.IsC

section Pass

variable {M : Machine X} {c : Cls} {a : Act} {es es' : List Exp}

theorem doesAll_of_good (h : List.Forall₂ (Good M) es es') :
    DoesAll M (es.map Exp.cls) (es.map fun e ρ => denote ρ e) (es'.map fun e ρ => denote ρ e) := by
  induction h with
  | nil => exact .nil
  | cons h _ ih => exact .cons h.does ih

theorem plug_denote (ρ : Nat → Value) (es : List Exp) :
    plug ρ (es.map fun e ρ => denote ρ e) = es.map (denote ρ) := by
  rw [plug, List.map_map]
  rfl

theorem closed_of_good (h : List.Forall₂ (Good M) es es') :
    ∀ e ∈ es', ∀ ρ ρ', denote ρ e = denote ρ' e := by
  induction h with
  | nil => exact nofun
  | cons h _ ih => exact forall_mem_cons.2 ⟨h.does.closed, ih⟩

section

variable (ha : actCls a ≤ c) (hc : ∀ e ∈ es, e.cls ≤ c) (h : List.Forall₂ (Good M) es es')

include ha hc h

/-- Operands are left in place. -/
theorem does_inPlace (hapart : (es.map Exp.cls).Pairwise Cls.Apart) :
    Does M c (fun ρ => .op a (es.map (denote ρ))) fun ρ => .op a (es'.map (denote ρ)) := by
  simpa only [plug_denote] using
    does_op ha (List.forall_mem_map.2 hc) (doesAll_of_good h) hapart

/-- Operands are declared. -/
theorem does_declare {build : List Exp → Exp}
    (hbuild : ∀ ρ ds, List.Forall₂ Replaces es' ds →
      denote ρ (build ds) = .op a (ds.map (denote ρ))) (n : Nat) :
    Does M c (fun ρ => .op a (es.map (denote ρ))) fun ρ =>
      denote ρ (declare (replaceOperands es' n).decls
        (build (replaceOperands es' n).operands)) := by
  have hdenote : ∀ ρ, denote ρ (declare (replaceOperands es' n).decls
      (build (replaceOperands es' n).operands)) =
        bindFirst ((marks es').zip (es'.map (denote ρ))) (.op a) :=
    denote_declare (closed_of_good h) hbuild fun _ _ _ _ => rfl
  have hlen : (marks es').length = (es'.map fun e ρ => denote ρ e).length := by
    rw [length_marks, length_map]
  simp only [hdenote]
  simpa only [plug_denote] using
    does_bindFirst ha (List.forall_mem_map.2 hc) (doesAll_of_good h) (marks es') hlen
      fun ρ => plug_denote ρ es' ▸ ordered_marks ρ es'

end

variable {e : Exp}

theorem cls_le_clsList (h : e ∈ es) : e.cls ≤ clsList es := by
  induction es with
  | nil => cases h
  | cons d es ih =>
    rcases List.mem_cons.1 h with rfl | h
    · exact le_max_left _ _
    · exact (ih h).trans (le_max_right _ _)

theorem allList_iff {p : Exp → Prop} : AllList p es ↔ ∀ e ∈ es, e.All p := by
  induction es with
  | nil => simp [AllList]
  | cons e es ih => rw [AllList, ih, forall_mem_cons]

theorem all_of_good (h : List.Forall₂ (Good M) es es') : AllList Exp.IsC es' := by
  induction h with
  | nil => exact trivial
  | cons h _ ih => exact ⟨h.isC, ih⟩

theorem all_of_replaces {ds : List Exp} (h : List.Forall₂ Replaces es ds)
    (hes : AllList Exp.IsC es) : AllList Exp.IsC ds := by
  induction h with
  | nil => exact trivial
  | cons h _ ih =>
    refine ⟨?_, ih hes.2⟩
    rcases h with rfl | ⟨t, rfl⟩
    · exact hes.1
    · exact trivial

theorem all_declare {decls : List (Nat × Exp)} (hdecls : ∀ d ∈ decls, d.2.All Exp.IsC)
    (he : e.All Exp.IsC) : (declare decls e).All Exp.IsC := by
  induction decls with
  | nil => exact he
  | cons d decls ih =>
    obtain ⟨hd, hdecls⟩ := forall_mem_cons.1 hdecls
    exact ⟨trivial, hd, ih hdecls⟩

theorem pairwise_of_length_le_one {cs : List Cls} (h : cs.length ≤ 1) : cs.Pairwise Cls.Apart := by
  match cs, h with
  | [], _ => exact .nil
  | [c], _ => exact List.pairwise_singleton _ c

theorem sequence_fst (e : Exp) (es : List Exp) (n : Nat) : (sequence e es n).1 =
      if es.length ≤ 1 ∨ expsEffect es ≠ .anyEffect then e.rebuild es
      else declare (replaceOperands es n).decls (e.rebuild (replaceOperands es n).operands) := by
  rw [sequence]
  split_ifs
  · rfl
  · rfl

section

variable (ha : actCls a ≤ e.cls) (hc : ∀ d ∈ es, d.cls ≤ e.cls)
  (h : List.Forall₂ (Good M) es es') (he : ∀ ρ, denote ρ e = .op a (es.map (denote ρ)))

include ha hc h he

/-- An expression whose operands are left in place or declared. -/
theorem good_operands (build : List Exp → Exp)
    (hbuild : ∀ ρ ds, List.Forall₂ Replaces es' ds →
      denote ρ (build ds) = .op a (ds.map (denote ρ)))
    (hisC : ∀ ds, List.Forall₂ Replaces es' ds → AllList Exp.IsC ds → (build ds).All Exp.IsC)
    {keep : Prop} [Decidable keep] (hapart : keep → (es.map Exp.cls).Pairwise Cls.Apart)
    (n : Nat) :
    Good M e (if keep then build es'
      else declare (replaceOperands es' n).decls (build (replaceOperands es' n).operands)) := by
  have hself : List.Forall₂ Replaces es' es' := List.forall₂_same.2 fun d _ => .inl rfl
  have hall := all_of_good h
  split_ifs with hkeep
  · refine ⟨?_, hisC es' hself hall⟩
    simp only [he, hbuild _ es' hself]
    exact does_inPlace ha hc h (hapart hkeep)
  · refine ⟨?_, ?_⟩
    · simp only [he]
      exact does_declare ha hc h hbuild n
    · apply all_declare
      · exact fun d hd => allList_iff.1 hall d.2 (mem_decls_replaceOperands d hd)
      · have hreplaces := replaces_replaceOperands es' n
        exact hisC _ hreplaces (all_of_replaces hreplaces hall)

/-- What `exps_to_seqc` makes of an expression with the operands `es`. -/
theorem good_sequence
    (hbuild : ∀ ρ ds, List.Forall₂ Replaces es' ds →
      denote ρ (e.rebuild ds) = .op a (ds.map (denote ρ)))
    (hisC : ∀ ds, List.Forall₂ Replaces es' ds → AllList Exp.IsC ds → (e.rebuild ds).All Exp.IsC)
    (hkept : expsEffect es' ≠ .anyEffect → (es.map Exp.cls).Pairwise Cls.Apart) (n : Nat) :
    Good M e (sequence e es' n).1 := by
  rw [sequence_fst]
  refine good_operands ha hc h he e.rebuild hbuild hisC ?_ n
  rintro (hlen | heffect)
  · rw [← h.length_eq] at hlen
    exact pairwise_of_length_le_one (by rwa [length_map])
  · exact hkept heffect

end

/-! ## What the pass keeps -/

theorem decls_eq_nil_iff (es : List Exp) (n : Nat) :
    (replaceOperands es n).decls = [] ↔ (marks es).any id = false := by
  induction es with
  | nil => simp [replaceOperands, marks]
  | cons e es ih =>
    rw [replaceOperands, marks, ← didSkip_replaceOperands es n]
    split_ifs with hstays hskip
    · simpa [hstays] using ih
    · rw [Bool.not_eq_true'] at hskip
      simpa [hskip] using ih
    · simp_all

theorem operands_of_decls (h : (replaceOperands es n).decls = []) :
    (replaceOperands es n).operands = es := by
  induction es with
  | nil => rfl
  | cons e es ih =>
    rw [replaceOperands] at h ⊢
    split_ifs at h ⊢
    · exact congrArg (e :: ·) (ih h)
    · exact congrArg (e :: ·) (ih h)

theorem marks_of_length (h : es.length ≤ 1) : (marks es).any id = false := by
  match es, h with
  | [], _ => rfl
  | [e], _ => simp [marks]

/-- The operands are left in place, or the expression becomes a statement expression. -/
theorem sequence_cases (e : Exp) (es : List Exp) (n : Nat) :
    splits es (effects es) = false ∧ (sequence e es n).1 = e.rebuild es ∨
      splits es (effects es) = true ∧ ∃ t d body, (sequence e es n).1 = .decl t d body := by
  rw [sequence_fst, splits, ← expsEffect]
  split_ifs with hkeep
  · refine .inl ⟨?_, rfl⟩
    rcases hkeep with hlen | heffect
    · rw [marks_of_length hlen, Bool.and_false]
    · rw [beq_false_of_ne heffect, Bool.false_and]
  · rw [not_or, not_not] at hkeep
    have hiff := decls_eq_nil_iff es n
    rw [hkeep.2, beq_self_eq_true, Bool.true_and]
    cases hdecls : (replaceOperands es n).decls with
    | nil =>
      rw [operands_of_decls hdecls]
      exact .inl ⟨hiff.1 hdecls, rfl⟩
    | cons d decls =>
      refine .inr ⟨Bool.not_eq_false _ ▸ fun h => ?_, d.1, d.2, _, rfl⟩
      cases hdecls.symm.trans (hiff.2 h)

theorem sequence_induct {p : Exp → Prop} (hdecl : ∀ t d body, p (.decl t d body))
    (h : p (e.rebuild es)) : p (sequence e es n).1 := by
  rcases sequence_cases e es n with ⟨-, heq⟩ | ⟨-, t, d, body, heq⟩
  · rwa [heq]
  · rw [heq]
    exact hdecl t d body

theorem assign_induct {p : Exp → Prop} {e1 e2 : Exp} {q : Option Absyn.Primop}
    (hdecl : ∀ t d body, p (.decl t d body)) (h : ∀ d1 d2, p (.assign d1 q d2)) (n : Nat) :
    p (expToSeqc (.assign e1 q e2) n).1 := by
  rw [expToSeqc]
  split_ifs
  · exact h _ _
  · exact sequence_induct hdecl (h _ _)

theorem expToSeqc_var (e : Exp) (n : Nat) :
    (expToSeqc e n).1 = e ∨ e.isVar = false ∧ (expToSeqc e n).1.isVar = false := by
  cases e with
  | const | var | temp => exact .inl rfl
  | primop | subscript | call =>
    exact .inr ⟨rfl, sequence_induct (p := fun e => e.isVar = false) (fun _ _ _ => rfl) rfl⟩
  | assign =>
    exact .inr ⟨rfl,
      assign_induct (p := fun e => e.isVar = false) (fun _ _ _ => rfl) (fun _ _ => rfl) n⟩
  | _ => exact .inr ⟨rfl, rfl⟩

/-- The pass keeps what is the same for all expressions but variables. -/
theorem expToSeqc_keeps {α : Type} {f : Exp → α} {a : α} (h : ∀ e, e.isVar = false → f e = a)
    (e : Exp) (n : Nat) : f (expToSeqc e n).1 = f e := by
  rcases expToSeqc_var e n with heq | ⟨he, he'⟩
  · rw [heq]
  · rw [h _ he, h _ he']

theorem calleeName_expToSeqc (e : Exp) (n : Nat) :
    (expToSeqc e n).1.calleeName = e.calleeName :=
  expToSeqc_keeps (fun e he => by cases e <;> first | rfl | cases he) e n

theorem callEffect_expToSeqc (e : Exp) (n : Nat) : callEffect (expToSeqc e n).1 = callEffect e :=
  expToSeqc_keeps (fun e he => by cases e <;> first | rfl | cases he) e n

theorem isTocVar_expToSeqc (e : Exp) (n : Nat) : isTocVar (expToSeqc e n).1 = isTocVar e :=
  expToSeqc_keeps (fun e he => by cases e <;> first | rfl | cases he) e n

theorem marks_of_const (h : areConstExps es = true) : (marks es).any id = false := by
  induction es with
  | nil => rfl
  | cons e es ih =>
    simp only [areConstExps, Bool.and_eq_true] at h
    simp [marks, stays, h.1, ih h.2]

mutual

theorem isConstExp_expToSeqc : ∀ (e : Exp) (n : Nat), isConstExp (expToSeqc e n).1 = isConstExp e
  | .primop p es, n => by
    rw [isConstExp, ← areConstExps_convertAll es n, expToSeqc]
    rcases sequence_cases (.primop p es) (convertAll es n).1 (convertAll es n).2 with
      ⟨-, heq⟩ | ⟨hsplits, t, d, body, heq⟩
    · rw [heq]
      rfl
    · rw [heq]
      refine (Bool.eq_false_iff.2 fun hconst => ?_).symm
      rw [splits, marks_of_const hconst, Bool.and_false] at hsplits
      cases hsplits
  | .cond e1 e2 e3, n => by simp only [expToSeqc, isConstExp, isConstExp_expToSeqc]
  | .seq e1 e2, n => by simp only [expToSeqc, isConstExp, isConstExp_expToSeqc]
  | .subscript _ _, n | .call _ _, n =>
    sequence_induct (p := fun e => isConstExp e = false) (fun _ _ _ => rfl) rfl
  | .assign _ _ _, n =>
    assign_induct (p := fun e => isConstExp e = false) (fun _ _ _ => rfl) (fun _ _ => rfl) n
  | .const _, _ | .var _, _ | .temp _, _ | .and _ _, _ | .or _ _, _ | .increment _ _, _
  | .decl _ _ _, _ => rfl

theorem areConstExps_convertAll : ∀ (es : List Exp) (n : Nat),
    areConstExps (convertAll es n).1 = areConstExps es
  | [], _ => rfl
  | e :: es, n => by
    rw [convertAll, areConstExps, areConstExps, isConstExp_expToSeqc, areConstExps_convertAll]

end

theorem marks_convertAll (es : List Exp) (n : Nat) : marks (convertAll es n).1 = marks es := by
  have hstays : ∀ (e : Exp) n, stays (expToSeqc e n).1 = stays e := fun e n => by
    rw [stays, stays, isConstExp_expToSeqc, isTocVar_expToSeqc]
  have hany : ∀ (es : List Exp) n, ((convertAll es n).1.any fun d => !stays d) =
      es.any fun d => !stays d := by
    intro es
    induction es with
    | nil => exact fun _ => rfl
    | cons e es ih =>
      intro n
      rw [convertAll, List.any_cons, List.any_cons, hstays, ih]
  induction es generalizing n with
  | nil => rfl
  | cons e es ih => rw [convertAll, marks, marks, hstays, hany, ih]

theorem effect_sequence (h : (e.rebuild es).effect = expsEffect es) :
    (sequence e es n).1.effect = expsEffect es := by
  rcases sequence_cases e es n with ⟨-, heq⟩ | ⟨hsplits, t, d, body, heq⟩
  · rw [heq, h]
  · rw [splits, Bool.and_eq_true, beq_iff_eq] at hsplits
    rw [heq]
    exact hsplits.1.symm

mutual

theorem effect_expToSeqc : ∀ (e : Exp) (n : Nat), (expToSeqc e n).1.effect = e.laterEffect
  | .primop p es, n => by
    rw [expToSeqc, effect_sequence rfl, expsEffect, effects_convertAll es n]
    rfl
  | .subscript e1 e2, n => by
    rw [expToSeqc, effect_sequence rfl]
    simp only [expsEffect, effects, effect_expToSeqc]
    rfl
  | .call f es, n => by
    have heffects : effects (convertAll (f :: es) n).1 = laterEffects (f :: es) := by
      rw [convertAll, effects, laterEffects, effect_expToSeqc f, effects_convertAll es]
    have hmarks := marks_convertAll (f :: es) n
    rw [convertAll] at heffects hmarks
    rw [expToSeqc, Exp.laterEffect, ← laterEffects, ← heffects]
    rcases sequence_cases (.call f es) ((expToSeqc f n).1 :: (convertAll es (expToSeqc f n).2).1)
      (convertAll es (expToSeqc f n).2).2 with ⟨hsplits, heq⟩ | ⟨hsplits, t, d, body, heq⟩
    all_goals
      rw [heq]
      rw [splits, hmarks] at hsplits
      rw [splits, hsplits]
    · exact callEffect_expToSeqc f n
    · rfl
  | .assign _ _ _, n =>
    assign_induct (p := fun e => e.effect = .anyEffect) (fun _ _ _ => rfl) (fun _ _ => rfl) n
  | .cond e1 e2 e3, n => by simp only [expToSeqc, Exp.effect, Exp.laterEffect, effect_expToSeqc]
  | .and e1 e2, n | .or e1 e2, n | .seq e1 e2, n => by
    simp only [expToSeqc, Exp.effect, Exp.laterEffect, effect_expToSeqc]
  | .increment e _, n => effect_expToSeqc e n
  | .const _, _ | .var _, _ | .temp _, _ | .decl _ _ _, _ => rfl

theorem effects_convertAll : ∀ (es : List Exp) (n : Nat),
    effects (convertAll es n).1 = laterEffects es
  | [], _ => rfl
  | e :: es, n => by rw [convertAll, effects, laterEffects, effect_expToSeqc, effects_convertAll]

end

theorem splits_convertAll (es : List Exp) (n : Nat) :
    splits (convertAll es n).1 (effects (convertAll es n).1) = splits es (laterEffects es) := by
  rw [splits, splits, marks_convertAll, effects_convertAll]

theorem Kept.convertAll (h : Kept es) (n : Nat)
    (hkeep : expsEffect (Toseqc.convertAll es n).1 ≠ .anyEffect) :
    (es.map Exp.cls).Pairwise Cls.Apart := by
  rw [expsEffect, effects_convertAll] at hkeep
  exact h hkeep

mutual

theorem cls_of_isConstExp : ∀ e, isConstExp e = true → e.cls = .const
  | .const _, _ | .var (.fn _), _ | .var (.array _ _), _ => rfl
  | .cond e1 e2 e3, h => by
    simp only [isConstExp, Bool.and_eq_true] at h
    simp [Exp.cls, cls_of_isConstExp e1 h.1.1, cls_of_isConstExp e2 h.1.2,
      cls_of_isConstExp e3 h.2]
  | .seq e1 e2, h => by
    simp only [isConstExp, Bool.and_eq_true] at h
    simp [Exp.cls, cls_of_isConstExp e1 h.1, cls_of_isConstExp e2 h.2]
  | .primop _ es, h => clsList_of_areConstExps es h
  | .var (.data _ _), h | .var (.toc _), h | .temp _, h | .subscript _ _, h | .call _ _, h
  | .assign _ _ _, h | .increment _ _, h | .and _ _, h | .or _ _, h | .decl _ _ _, h => by
    simp [isConstExp] at h

theorem clsList_of_areConstExps : ∀ es, areConstExps es = true → clsList es = .const
  | [], _ => rfl
  | e :: es, h => by
    simp only [areConstExps, Bool.and_eq_true] at h
    simp [clsList, cls_of_isConstExp e h.1, clsList_of_areConstExps es h.2]

end

theorem cls_of_stays (h : stays e = true) : e.cls = .const := by
  rw [stays, Bool.or_eq_true] at h
  rcases h with h | h
  · exact cls_of_isConstExp e h
  · unfold isTocVar at h
    split at h
    · rfl
    · rfl
    · cases h

/-- If no variables are declared for two operands, they do not disturb each other. -/
theorem Kept.apart {e1 e2 : Exp} (h : Kept [e1, e2])
    (hsplits : splits [e1, e2] (laterEffects [e1, e2]) = false) :
    ([e1, e2].map Exp.cls).Pairwise Cls.Apart := by
  by_cases heffect : joinEffects (laterEffects [e1, e2]) = .anyEffect
  · have hone : stays e1 = true ∨ stays e2 = true := by
      simpa [splits, heffect, marks, or_iff_not_imp_left] using hsplits
    simp only [List.map_cons, List.map_nil, List.pairwise_pair]
    exact hone.elim (fun h1 => .inl (cls_of_stays h1)) fun h2 => .inr (.inl (cls_of_stays h2))
  · exact h heffect

end Pass

end ConcurrentCyclone.Toseqc
