import ConcurrentCyclone.Transition.QuietFlow
import ConcurrentCyclone.XInfer.CfgBuilt
import ConcurrentCyclone.XInfer.CfgRuns

/-!
# The graph follows the runs of a statement

When two effectful nodes run one after the other, the analysis relies on a path between them that
passes effect-free nodes only. `runsNext_leads` proves that the graph has it for every run of every
statement that keeps the flow (`Stmt.keepsFlow`), a condition on its loops:

* after the body of a `while`, the graph goes on at the skip behind the condition, so the condition
  must have no effect when it can be tested a second time; and only the rightmost nodes of the body
  have an edge back, so the body must end at one of them;
* a `do` loop gets its edge back only when the construction does not take its body for a jump.

The proof follows the run. A run of `s` is followed from the leftmost nodes of `s` to the place
where it goes on (`Goes`), by induction on `s`; a run of a loop is followed by induction on its
rounds. `not_leads_testedAgain` is a loop that misses the first condition.
-/

set_option autoImplicit false

namespace ConcurrentCyclone.XInfer

open Transition
open Bool (false_ne_true and_eq_true not_eq_true' or_eq_true and_eq_true_iff)

/-! ## Conditions on loops -/

/-- The rightmost nodes of an operation are the nodes behind it. Those of the forms with branches
are those of the branches: their own node if a branch is an operation, else nodes inside it. -/
def Exp.isOp : Exp → Bool
  | .op _ _ => true
  | _ => false

/-- From the first nodes of the expression there is a way to a rightmost node without effect. -/
def Exp.passesBy (effect : Nat → Bool) : Exp → Bool
  | .op n args => (Exp.op n args).silent effect
  | .andOr n e₁ e₂ => !effect n && e₁.silent effect && (e₂.isOp || e₂.passesBy effect)
  | .conditional n e₁ e₂ e₃ =>
    !effect n && e₁.silent effect && (e₂.passesBy effect || e₃.passesBy effect)

/-- Every evaluation gets to a rightmost node, without effects on the way from its last effect and
after it. -/
def Exp.endsAtRight (effect : Nat → Bool) : Exp → Bool
  | .op _ _ => true
  | .andOr n _ e₂ => e₂.isOp || (!effect n && e₂.endsAtRight effect && e₂.passesBy effect)
  | .conditional n _ e₂ e₃ =>
    e₂.isOp || e₃.isOp || (!effect n && e₂.endsAtRight effect && e₃.endsAtRight effect)

/-- Every evaluation has no effect or gets from its last effect to a rightmost node. -/
def Exp.backAtHead (effect : Nat → Bool) : Exp → Bool
  | .op _ _ => true
  | .andOr n e₁ e₂ => (Exp.andOr n e₁ e₂).endsAtRight effect ||
    (!effect n && e₁.silent effect && (e₂.silent effect || e₂.backAtHead effect))
  | .conditional n e₁ e₂ e₃ => (Exp.conditional n e₁ e₂ e₃).endsAtRight effect ||
    (!effect n && e₁.silent effect && (e₂.silent effect || e₂.backAtHead effect) &&
      (e₃.silent effect || e₃.backAtHead effect))

/-- Every normal run of the statement ends at one of its rightmost nodes. A skip and the loops
return nodes behind them as rightmost. -/
def Stmt.endsAtRight (effect : Nat → Bool) : Stmt → Bool
  | .exp _ e => e.endsAtRight effect
  | .cap _ _ => true
  | .seq _ s₁ s₂ =>
    !s₁.ends .normal || !s₂.ends .normal || (!s₁.jumps && s₂.endsAtRight effect)
  | .ifThenElse _ _ s₁ s₂ =>
    (!s₁.ends .normal || (!s₂.jumps && s₁.endsAtRight effect)) &&
    (!s₂.ends .normal || s₂.endsAtRight effect)
  | .brk _ => true
  | .cont _ => true
  | .ret _ _ => true
  | .skip _ => false
  | .whileLoop _ _ _ _ => false
  | .doLoop _ _ _ _ => false

/-- Every normal run of the statement has no effect or its last effect is followed by an edge from
the rightmost nodes. This is what the body of a `while` needs. With `next`, a `break` to the next
statement gets there too. -/
def Stmt.backAtHead (effect : Nat → Bool) (next : Bool) : Stmt → Bool
  | .seq n s₁ s₂ =>
    (Stmt.seq n s₁ s₂).silent effect || (Stmt.seq n s₁ s₂).endsAtRight effect ||
    (s₁.silent effect && !s₁.jumps && s₂.backAtHead effect next)
  | .ifThenElse n e s₁ s₂ =>
    (Stmt.ifThenElse n e s₁ s₂).silent effect ||
    (Stmt.ifThenElse n e s₁ s₂).endsAtRight effect ||
    (e.silent effect && (!s₁.ends .normal || (!s₂.jumps && s₁.backAtHead effect next)) &&
      (!s₂.ends .normal || s₂.backAtHead effect next))
  | .whileLoop n e k s =>
    (Stmt.whileLoop n e k s).silent effect ||
    (e.silent effect && (next || !s.ends .brk) && !s.ends .cont &&
      (!s.ends .normal || s.backAtHead effect false))
  | .skip _ => true
  | .exp _ e => e.silent effect || e.backAtHead effect
  | .cap _ _ => true
  | .doLoop n s e k => (Stmt.doLoop n s e k).silent effect
  | .brk _ => true
  | .cont _ => true
  | .ret _ _ => true

/-- The condition on the loops of a statement under which the graph follows its runs. -/
def Stmt.keepsFlow (effect : Nat → Bool) : Stmt → Bool
  | .seq _ s₁ s₂ => s₁.keepsFlow effect && s₂.keepsFlow effect
  | .ifThenElse _ _ s₁ s₂ => s₁.keepsFlow effect && s₂.keepsFlow effect
  | .whileLoop _ e _ s =>
    s.keepsFlow effect && (!(s.ends .normal || s.ends .cont) || e.silent effect) &&
    (!s.ends .normal || s.backAtHead effect true)
  | .doLoop _ s _ _ => s.keepsFlow effect && (!(s.ends .normal || s.ends .cont) || !s.jumps)
  | .skip _ => true
  | .exp _ _ => true
  | .cap _ _ => true
  | .brk _ => true
  | .cont _ => true
  | .ret _ _ => true

section Follow

variable {E : Node → Node → Prop} {env : CfgEnv} {effect : Nat → Bool}

/-! ## Expressions -/

mutual

theorem flow_of_builtE : ∀ {e : Exp} {L left right : Set Node} {t : List Node},
    BuiltE E e L left right → ERun e t → Flow E (Quiet effect) left t L
  | .op n args, L, left, _, _, ⟨hinto, hargs, _⟩, ⟨u, hu, ht⟩ => by
    rw [ht]
    exact (flow_of_builtArgs hargs hu).append (flow_single hinto)
  | .andOr n e1 e2, L, left, _, _, ⟨hinto, left2, right2, right1, h2, h1, _⟩, hrun => by
    rcases hrun with ⟨u, hu, rfl⟩ | ⟨u, v, hu, hv, rfl⟩
    · -- the second operand is left out
      have hfirst := (flow_of_builtE h1 hu).feed_right (feeds_right _ _)
      exact hfirst.append (flow_single hinto)
    · have hfirst := (flow_of_builtE h1 hu).feed_right (feeds_left _ _)
      exact hfirst.append ((flow_of_builtE h2 hv).append (flow_single hinto))
  | .conditional n e1 e2 e3, L, left, _, _,
      ⟨hinto, left3, right3, left2, right2, right1, h3, h2, h1, _⟩, ⟨u, v, hu, hv, ht⟩ => by
      rw [ht]
      rcases hv with hv | hv
      · have hfirst := (flow_of_builtE h1 hu).feed_right (feeds_right _ _)
        exact hfirst.append ((flow_of_builtE h2 hv).append (flow_single hinto))
      · have hfirst := (flow_of_builtE h1 hu).feed_right (feeds_left _ _)
        exact hfirst.append ((flow_of_builtE h3 hv).append (flow_single hinto))

theorem flow_of_builtArgs : ∀ {es : List Exp} {L left : Set Node} {t : List Node},
    BuiltArgs E es L left → ERuns es t → Flow E (Quiet effect) left t L
  | [], L, left, _, hL, ht => by
    rw [show _ = [] from ht]
    exact feeds_of_subset hL
  | e :: es, L, left, _, ⟨left1, right1, hes, he⟩, ⟨u, v, hu, hv, ht⟩ => by
    rw [ht]
    exact (flow_of_builtE he hu).append (flow_of_builtArgs hes hv)

end

variable {e : Exp} {L left right M S right1 left1 right3 : Set Node} {t : List Node}
  {q : Node → Prop} {o : Outcome} {k n : Nat} {s : Stmt}

section

variable (h : BuiltE E e L left right)

include h

/-- An evaluation ends at the expression's own node, so it also goes wherever that node has edges
to. -/
theorem flow_of_into (hM : Into E e.node M) (hrun : ERun e t) : Flow E (Quiet effect) left t M := by
  -- the set behind an expression occurs only in the edges of its own node
  have hretarget : ∃ right', BuiltE E e M left right' := by
    cases e with
    | op n args => exact ⟨M, hM, h.2.1, subset_rfl⟩
    | andOr | conditional => exact ⟨right, hM, h.2⟩
  obtain ⟨right', h'⟩ := hretarget
  exact flow_of_builtE h' hrun

/-- An expression without effect is passed by. -/
theorem feeds_of_silent (hs : e.silent effect = true) : Feeds E (Quiet effect) left L := by
  obtain ⟨t, ht⟩ := exists_eRun e
  exact (flow_of_builtE h ht).feeds (quiet_of_eRun hs ht)

end

/-- The rightmost nodes that are not jumps have edges to the set. -/
def BackTo (E : Node → Node → Prop) (right M : Set Node) : Prop :=
  ∀ r ∈ right, r.isJump = false → Into E r M

theorem BackTo.mono {right' : Set Node} (h : BackTo E right M) (hr : right' ⊆ right) :
    BackTo E right' M :=
  fun r hr' => h r (hr hr')

theorem mem_right_of_isOp {N : Node} (h : BuiltE E e {N} left right) (he : e.isOp = true) :
    N ∈ right := by
  cases e with
  | op n args => exact h.2.2 rfl
  | andOr | conditional => cases he

/-- An evaluation of an expression whose own node has edges to the set, up to the quiet node behind
the expression. -/
theorem flow_of_own {N : Node} (h : BuiltE E e {N} left right) (hN : Quiet effect N)
    (hown : Into E e.node M) (hrun : ERun e t) : Flow E (Quiet effect) left (t ++ [N]) M :=
  (flow_of_into h hown hrun).append (flow_of_quiet (quiet_node hN) (.refl _))

/-- A way without effect from the first nodes to wherever the rightmost nodes have edges to. -/
theorem feeds_of_passesBy : ∀ {e : Exp} {N : Node} {M left right : Set Node},
    BuiltE E e {N} left right → Quiet effect N → N.isJump = false → BackTo E right M →
    e.passesBy effect = true → Feeds E (Quiet effect) left M
  | .op n args, N, M, left, right, h, hN, hj, hback, hs =>
    (feeds_of_silent h hs).trans (feeds_of_edges hN (hback N (h.2.2 rfl) hj))
  | .andOr n e1 e2, N, M, left, right, ⟨_, left2, right2, right1, h2, h1, hright⟩, _, _, hback,
      hs => by
    simp only [Exp.passesBy, and_eq_true, or_eq_true, not_eq_true'] at hs
    obtain ⟨⟨hn, hs1⟩, hs2⟩ := hs
    have hback2 := hback.mono hright
    have hfirst : Feeds E (Quiet effect) left (left2 ∪ {.exp n}) := feeds_of_silent h1 hs1
    rcases hs2 with hop | hs2
    · -- the second operand is left out
      have hown := hback2 _ (mem_right_of_isOp h2 hop) rfl
      exact hfirst.trans ((feeds_right _ _).trans (feeds_of_edges hn hown))
    · exact hfirst.trans ((feeds_left _ _).trans (feeds_of_passesBy h2 hn rfl hback2 hs2))
  | .conditional n e1 e2 e3, N, M, left, right,
      ⟨_, left3, right3, left2, right2, right1, h3, h2, h1, hright⟩, _, _, hback, hs => by
    simp only [Exp.passesBy, and_eq_true, or_eq_true, not_eq_true'] at hs
    obtain ⟨⟨hn, hs1⟩, hs2⟩ := hs
    obtain ⟨hright3, hright2⟩ := Set.union_subset_iff.1 hright
    have hfirst : Feeds E (Quiet effect) left (left3 ∪ left2) := feeds_of_silent h1 hs1
    rcases hs2 with hs2 | hs3
    · have hbranch := feeds_of_passesBy h2 hn rfl (hback.mono hright2) hs2
      exact hfirst.trans ((feeds_right _ _).trans hbranch)
    · have hbranch := feeds_of_passesBy h3 hn rfl (hback.mono hright3) hs3
      exact hfirst.trans ((feeds_left _ _).trans hbranch)

/-- An evaluation that gets to a rightmost node, up to the quiet node behind the expression. -/
theorem flow_of_endsAtRight : ∀ {e : Exp} {N : Node} {M left right : Set Node} {t : List Node},
    BuiltE E e {N} left right → Quiet effect N → N.isJump = false → BackTo E right M →
    e.endsAtRight effect = true → ERun e t → Flow E (Quiet effect) left (t ++ [N]) M
  | .op n args, N, M, left, right, t, h, _, hj, hback, _, hrun =>
    (flow_of_builtE h hrun).append (flow_single (hback N (h.2.2 rfl) hj))
  | .andOr n e1 e2, N, M, left, right, t, h, hN, _, hback, he, hrun => by
    obtain ⟨-, left2, right2, right1, h2, h1, hright⟩ := id h
    have hback2 := hback.mono hright
    simp only [Exp.endsAtRight, and_eq_true, or_eq_true, not_eq_true'] at he
    rcases he with hop | ⟨⟨hn, he2⟩, hpass⟩
    · exact flow_of_own h hN (hback2 _ (mem_right_of_isOp h2 hop) rfl) hrun
    have hfirst : ∀ {u}, ERun e1 u → Flow E (Quiet effect) left u left2 := fun hu =>
      (flow_of_builtE h1 hu).feed_right (feeds_left left2 _)
    refine Flow.append ?_ (flow_of_quiet (quiet_node hN) (.refl M))
    rcases hrun with ⟨u, hu, rfl⟩ | ⟨u, v, hu, hv, rfl⟩
    · -- the second operand is left out, but there is a way through it
      have hway := (hfirst hu).feed_right (feeds_of_passesBy h2 hn rfl hback2 hpass)
      exact hway.append (flow_of_quiet (quiet_node hn) (.refl M))
    · exact (hfirst hu).append (flow_of_endsAtRight h2 hn rfl hback2 he2 hv)
  | .conditional n e1 e2 e3, N, M, left, right, t, h, hN, _, hback, he, hrun => by
    obtain ⟨-, left3, right3, left2, right2, right1, h3, h2, h1, hright⟩ := id h
    obtain ⟨hright3, hright2⟩ := Set.union_subset_iff.1 hright
    simp only [Exp.endsAtRight, and_eq_true, or_eq_true, not_eq_true'] at he
    rcases he with (hop | hop) | ⟨⟨hn, he2⟩, he3⟩
    · exact flow_of_own h hN (hback _ (hright2 (mem_right_of_isOp h2 hop)) rfl) hrun
    · exact flow_of_own h hN (hback _ (hright3 (mem_right_of_isOp h3 hop)) rfl) hrun
    obtain ⟨u, v, hu, hv, rfl⟩ := hrun
    refine Flow.append ?_ (flow_of_quiet (quiet_node hN) (.refl M))
    have hfirst : Flow E (Quiet effect) left u (left3 ∪ left2) := flow_of_builtE h1 hu
    rcases hv with hv | hv
    · exact (hfirst.feed_right (feeds_right left3 left2)).append
        (flow_of_endsAtRight h2 hn rfl (hback.mono hright2) he2 hv)
    · exact (hfirst.feed_right (feeds_left left3 left2)).append
        (flow_of_endsAtRight h3 hn rfl (hback.mono hright3) he3 hv)

/-- An evaluation that starts from the set too, so that it can be passed by where it has no
effect. -/
theorem flow_of_backAtHead : ∀ {e : Exp} {N : Node} {M left right : Set Node} {t : List Node},
    BuiltE E e {N} left right → Quiet effect N → N.isJump = false → BackTo E right M →
    e.silent effect = true ∨ e.backAtHead effect = true → ERun e t →
    Flow E (Quiet effect) (left ∪ M) (t ++ [N]) M
  | e, N, M, left, right, t, _, hN, _, _, .inl hs, hrun =>
    flow_of_quiet (quiet_append (quiet_of_eRun hs hrun) (quiet_node hN)) (feeds_right _ _)
  | .op n args, N, M, left, right, t, h, hN, hj, hback, .inr _, hrun =>
    (flow_of_endsAtRight h hN hj hback rfl hrun).feed (feeds_left _ _)
  | .andOr n e1 e2, N, M, left, right, t, h, hN, hj, hback, .inr he, hrun => by
    simp only [Exp.backAtHead, and_eq_true, or_eq_true, not_eq_true'] at he
    rcases he with hend | ⟨⟨hn, hs1⟩, he2⟩
    · exact (flow_of_endsAtRight h hN hj hback hend hrun).feed (feeds_left _ _)
    obtain ⟨-, left2, right2, right1, h2, h1, hright⟩ := h
    -- the first operand has no effect and is passed by
    refine Flow.append ?_ (flow_of_quiet (quiet_node hN) (.refl M))
    rcases hrun with ⟨u, hu, rfl⟩ | ⟨u, v, hu, hv, rfl⟩
    · exact flow_of_quiet (quiet_append (quiet_of_eRun hs1 hu) (quiet_node hn)) (feeds_right _ _)
    · have hstart := ((feeds_left left M).trans (feeds_of_silent h1 hs1)).trans (feeds_left left2 _)
      exact (flow_of_quiet (quiet_of_eRun hs1 hu) (hstart.union (feeds_right _ _))).append
        (flow_of_backAtHead h2 hn rfl (hback.mono hright) he2 hv)
  | .conditional n e1 e2 e3, N, M, left, right, t, h, hN, hj, hback, .inr he, hrun => by
    simp only [Exp.backAtHead, and_eq_true, or_eq_true, not_eq_true'] at he
    rcases he with hend | ⟨⟨⟨hn, hs1⟩, he2⟩, he3⟩
    · exact (flow_of_endsAtRight h hN hj hback hend hrun).feed (feeds_left _ _)
    obtain ⟨-, left3, right3, left2, right2, right1, h3, h2, h1, hright⟩ := h
    obtain ⟨hright3, hright2⟩ := Set.union_subset_iff.1 hright
    obtain ⟨u, v, hu, hv, rfl⟩ := hrun
    have hfirst := (feeds_left left M).trans (feeds_of_silent h1 hs1)
    refine Flow.append ?_ (flow_of_quiet (quiet_node hN) (.refl M))
    rcases hv with hv | hv
    · have hstart := (hfirst.trans (feeds_right left3 left2)).union (feeds_right left M)
      exact (flow_of_quiet (quiet_of_eRun hs1 hu) hstart).append
        (flow_of_backAtHead h2 hn rfl (hback.mono hright2) he2 hv)
    · have hstart := (hfirst.trans (feeds_left left3 left2)).union (feeds_right left M)
      exact (flow_of_quiet (quiet_of_eRun hs1 hu) hstart).append
        (flow_of_backAtHead h3 hn rfl (hback.mono hright3) he3 hv)

/-! ## Where a run goes on -/

/-- The places where a run of a statement goes on: the nodes that its construction was given, and
the nodes that a jump to the next statement, a `continue` and a `break` have edges to. -/
structure Exits where
  left : Set Node
  next : Set Node
  cont : Set Node
  brk : Set Node

/-- A run from `S` is followed to where it goes on. After a normal end this may be the next
statement, when the last thing that runs is a `break` from a loop. -/
def Goes (E : Node → Node → Prop) (q : Node → Prop) (X : Exits) (S : Set Node) (t : List Node) :
    Outcome → Prop
  | .normal => Flow E q S t X.left ∨ Flow E q S t X.next
  | .brk => Flow E q S t X.brk
  | .cont => Flow E q S t X.cont
  | .ret => Flow E q S t ∅
  | .cut => Flow E q S t ∅

variable {X : Exits}

variable {S' left2 right2 : Set Node} {s1 s2 : Stmt}

theorem Goes.prepend {u : List Node} (h : Goes E q X S' t o) (hu : Flow E q S u S') :
    Goes E q X S (u ++ t) o := by
  cases o with
  | normal => exact h.imp hu.append hu.append
  | brk | cont | ret | cut => exact hu.append h

theorem Goes.feed (h : Goes E q X S' t o) (hS : Feeds E q S S') : Goes E q X S t o := by
  have hstart : Flow E q S [] S' := hS
  exact h.prepend hstart

theorem goes_cut (X : Exits) (S : Set Node) : Goes E q X S [] .cut :=
  feeds_empty S

/-- The exits of a loop's body: the construction gives it `left`, its skip is `k`. -/
def Exits.body (X : Exits) (left : Set Node) (k : Nat) : Exits :=
  ⟨left, {.stmt k}, {.stmt k}, X.next⟩

/-- A run of the body that leaves the loop goes where the loop goes. -/
theorem Goes.leaves {o' : Outcome} (h : Goes E q (X.body left k) S t o) (hleave : o.Leaves o') :
    Goes E q X S t o' := by
  cases hleave with
  | brk => exact .inr h
  | ret | cut => exact h

/-- The jumps to a target have edges to the set; nothing is known of a jump that has none. -/
def Reaching (E : Node → Node → Prop) (env : CfgEnv) : Option Nat → Set Node → Prop
  | none, S => S = ∅
  | some s, S => Linked E env s S

/-- The exits are those of the targets that the jump analysis carries. -/
structure Agree (E : Node → Node → Prop) (env : CfgEnv) (te : Targets) (X : Exits) : Prop where
  next : Reaching E env te.next X.next
  cont : Reaching E env te.cont X.cont
  brk : Reaching E env te.brk X.brk

theorem into_of_reaching {target : Option Nat}
    (h : Reaching E env target S) (hmem : jumper n target ⊆ env.inverse) : Into E (.jump n) S := by
  cases target with
  | none =>
    rw [show S = ∅ from h]
    exact fun _ hl => hl.elim
  | some s => exact h (.jump n) (hmem (.head _))

/-- The graph follows every run of the statement. For the body of a loop it matters in addition how
a normal run gets to a set that the rightmost nodes have edges to: from anywhere, or only if the run
starts from that set too and can be passed by where it has no effect. A run that ends by a `break`
to the next statement gets there if that statement leads to it. -/
structure Followed (E : Node → Node → Prop) (effect : Nat → Bool) (s : Stmt) (X : Exits)
    (left right : Set Node) : Prop where
  goes : ∀ {t o}, Run s t o → Goes E (Quiet effect) X left t o
  atRight : ∀ {M t}, s.endsAtRight effect = true → BackTo E right M → Run s t .normal →
    Flow E (Quiet effect) left t M
  atHead : ∀ {M next t}, s.backAtHead effect next = true → BackTo E right M →
    (next = true → Feeds E (Quiet effect) X.next M) → Run s t .normal →
    Flow E (Quiet effect) (left ∪ M) t M

/-- A run without effect stays where it is. -/
theorem flow_of_silent
    (hs : s.silent effect = true) (h : Run s t o) : Flow E (Quiet effect) (left ∪ M) t M :=
  flow_of_quiet (quiet_of_run h hs) (feeds_right _ _)

/-- Where a run has no effect or gets to the set from anywhere, the start matters no more. -/
theorem Followed.of_right (hgoes : ∀ {t o}, Run s t o → Goes E (Quiet effect) X left t o)
    (hright : ∀ {M t}, s.endsAtRight effect = true → BackTo E right M → Run s t .normal →
      Flow E (Quiet effect) left t M)
    (hrest : ∀ {M next t}, s.backAtHead effect next = true → BackTo E right M →
      (next = true → Feeds E (Quiet effect) X.next M) → Run s t .normal →
      (s.silent effect || s.endsAtRight effect) = true ∨ Flow E (Quiet effect) (left ∪ M) t M) :
    Followed E effect s X left right where
  goes := hgoes
  atRight := hright
  atHead hhead hback hnext hrun := by
    rcases hrest hhead hback hnext hrun with hor | hflow
    · rcases Bool.or_eq_true_iff.mp hor with hs | hend
      · exact flow_of_silent hs hrun
      · exact (hright hend hback hrun).feed (feeds_left _ _)
    · exact hflow

/-! ## One lemma for each form of statement -/

theorem followed_skip (h : BuiltBody E env (.skip n) X.left left right) :
    Followed E effect (.skip n) X left right where
  goes hrun := by
    cases hrun with
    | cut => exact goes_cut X left
    | skip =>
      have hnode : Feeds E (Quiet effect) left {.stmt n} :=
        feeds_of_subset fun m hm => hm ▸ h.2.1
      exact .inl ((flow_single h.1).feed hnode)
  atRight hright := absurd hright false_ne_true
  atHead _ _ _ hrun := flow_of_silent rfl hrun

theorem followed_exp (h : BuiltBody E env (.exp n e) X.left left right) :
    Followed E effect (.exp n e) X left right := by
  obtain ⟨hinto, he⟩ := h
  refine ⟨fun hrun => ?_, fun hend hback hrun => ?_, fun hhead hback _ hrun => ?_⟩
  · cases hrun with
    | cut => exact goes_cut X left
    | exp hrun => exact .inl ((flow_of_builtE he hrun).append (flow_single hinto))
  · cases hrun with
    | exp hrun => exact flow_of_endsAtRight he rfl rfl hback hend hrun
  · cases hrun with
    | exp hrun =>
      exact flow_of_backAtHead he rfl rfl hback ((Bool.or_eq_true_iff).1 hhead) hrun

theorem followed_cap {es : List Exp} (h : BuiltBody E env (.cap n es) X.left left right) :
    Followed E effect (.cap n es) X left right := by
  obtain ⟨hinto, hes, hmem⟩ := h
  refine .of_right (fun hrun => ?_) (fun _ hback hrun => ?_) fun _ _ _ _ => .inl (Bool.or_true _)
  · cases hrun with
    | cut => exact goes_cut X left
    | cap hrun => exact .inl ((flow_of_builtArgs hes hrun).append (flow_single hinto))
  · cases hrun with
    | cap hrun => exact (flow_of_builtArgs hes hrun).append (flow_single (hback (.cap n) hmem rfl))

theorem followed_seq (h1 : Followed E effect s1 ⟨left2, left2, X.cont, X.brk⟩ left right1)
    (h2 : Followed E effect s2 X left2 right2) (hright : s1.jumps = false → right2 ⊆ right) :
    Followed E effect (.seq n s1 s2) X left right := by
  have hfirst : ∀ {t}, Run s1 t .normal → Flow E (Quiet effect) left t left2 :=
    fun hrun => (h1.goes hrun).elim id id
  refine .of_right (fun hrun => ?_) (fun hend hback hrun => ?_)
    fun {M _ t} hhead hback hnext hrun => ?_
  · cases hrun with
    | cut => exact goes_cut X left
    | seqStop hrun hstop =>
      -- the second statement is not reached, and jumps go where those of the sequence go
      rename_i o
      cases o with
      | normal => exact absurd rfl hstop
      | brk | cont | ret | cut => exact h1.goes hrun
    | seq hrun1 hrun2 => exact (h2.goes hrun2).prepend (hfirst hrun1)
  · cases hrun with
    | seqStop _ hstop => exact absurd rfl hstop
    | seq hrun1 hrun2 =>
      simp only [Stmt.endsAtRight, ends_of_run hrun1 (by decide), ends_of_run hrun2 (by decide),
        Bool.not_true, Bool.false_or, and_eq_true, not_eq_true'] at hend
      have hback2 := hback.mono (hright hend.1)
      exact (hfirst hrun1).append (h2.atRight hend.2 hback2 hrun2)
  · refine (Bool.or_eq_true_iff.mp hhead).imp_right fun hrest => ?_
    -- the first statement has no effect: it is passed by, and the second one gets back
    simp only [and_eq_true, not_eq_true'] at hrest
    obtain ⟨⟨hs1, hj1⟩, hhead2⟩ := hrest
    cases hrun with
    | seqStop _ hstop => exact absurd rfl hstop
    | seq hrun1 hrun2 =>
      have hquiet := quiet_of_run hrun1 hs1
      have hpass : Feeds E (Quiet effect) left left2 := (hfirst hrun1).feeds hquiet
      have hstart : Feeds E (Quiet effect) (left ∪ M) (left2 ∪ M) :=
        ((feeds_left left M).trans hpass).union (feeds_right _ _)
      have hback2 := hback.mono (hright hj1)
      exact (flow_of_quiet hquiet hstart).append (h2.atHead hhead2 hback2 hnext hrun2)

theorem followed_ifThenElse (he : BuiltE E e (left1 ∪ left2) left right3)
    (h1 : Followed E effect s1 X left1 right1) (h2 : Followed E effect s2 X left2 right2)
    (hright1 : s2.jumps = false → right1 ⊆ right) (hright2 : right2 ⊆ right) :
    Followed E effect (.ifThenElse n e s1 s2) X left right := by
  -- the condition leads to both branches
  have hthen : ∀ {t}, ERun e t → Flow E (Quiet effect) left t left1 := fun hrun =>
    (flow_of_builtE he hrun).feed_right (feeds_left _ _)
  have helse : ∀ {t}, ERun e t → Flow E (Quiet effect) left t left2 := fun hrun =>
    (flow_of_builtE he hrun).feed_right (feeds_right _ _)
  refine .of_right (fun hrun => ?_) (fun hend hback hrun => ?_)
    fun {M _ t} hhead hback hnext hrun => ?_
  · cases hrun with
    | cut => exact goes_cut X left
    | ifThen hrunE hrun1 => exact (h1.goes hrun1).prepend (hthen hrunE)
    | ifElse hrunE hrun2 => exact (h2.goes hrun2).prepend (helse hrunE)
  · simp only [Stmt.endsAtRight, and_eq_true, or_eq_true, not_eq_true'] at hend
    cases hrun with
    | ifThen hrunE hrun1 =>
      obtain ⟨hj, hend1⟩ := hend.1.resolve_left (by simp [ends_of_run hrun1])
      exact (hthen hrunE).append (h1.atRight hend1 (hback.mono (hright1 hj)) hrun1)
    | ifElse hrunE hrun2 =>
      have hend2 := hend.2.resolve_left (by simp [ends_of_run hrun2])
      exact (helse hrunE).append (h2.atRight hend2 (hback.mono hright2) hrun2)
  · refine (Bool.or_eq_true_iff.mp hhead).imp_right fun hrest => ?_
    -- the condition has no effect: it is passed by, and the branch gets back
    simp only [and_eq_true, or_eq_true, not_eq_true'] at hrest
    obtain ⟨⟨hs, hhead1⟩, hhead2⟩ := hrest
    have hpass := (feeds_left left M).trans (feeds_of_silent he hs)
    have hM : Feeds E (Quiet effect) (left ∪ M) M := feeds_right left M
    cases hrun with
    | ifThen hrunE hrun1 =>
      obtain ⟨hj, hhead1⟩ := hhead1.resolve_left (by simp [ends_of_run hrun1])
      have hstart := (hpass.trans (feeds_left left1 left2)).union hM
      exact (flow_of_quiet (quiet_of_eRun hs hrunE) hstart).append
        (h1.atHead hhead1 (hback.mono (hright1 hj)) hnext hrun1)
    | ifElse hrunE hrun2 =>
      have hhead2 := hhead2.resolve_left (by simp [ends_of_run hrun2])
      have hstart := (hpass.trans (feeds_right _ _)).union hM
      exact (flow_of_quiet (quiet_of_eRun hs hrunE) hstart).append
        (h2.atHead hhead2 (hback.mono hright2) hnext hrun2)

/-- A body that goes on into the next round can end normally or by `continue`. -/
theorem of_goesOn {p : Prop}
    (h : s.ends .normal = false ∧ s.ends .cont = false ∨ p) (hrun : Run s t o)
    (hgo : o.goesOn) : p := by
  refine h.resolve_left fun hends => ?_
  rcases hgo with rfl | rfl
  · exact absurd (ends_of_run hrun (by decide)) (by simp [hends.1])
  · exact absurd (ends_of_run hrun (by decide)) (by simp [hends.2])

/-- The runs of a loop from its condition on, and from the skip in front of the body, where a
condition without effect can be passed by. -/
theorem goes_whileLoop (hk : Feeds E (Quiet effect) {.stmt k} (left1 ∪ X.left))
    (he : BuiltE E e {.stmt k} left right3)
    (hbody : Followed E effect s (X.body X.left k) left1 right1)
    (hsilent : ∀ {t o}, Run s t o → o.goesOn → e.silent effect = true)
    (hagain : ∀ {t o}, Run s t o → o.goesOn → Flow E (Quiet effect) {.stmt k} t {.stmt k})
    (hrun : Run (.whileLoop n e k s) t o) :
    Goes E (Quiet effect) X left t o ∧
      (e.silent effect = true → Goes E (Quiet effect) X {.stmt k} t o) := by
  -- one evaluation of the condition in front of what happens from the skip on
  have hrest : ∀ {t t' o}, ERun e t → Goes E (Quiet effect) X {.stmt k} t' o →
      Goes E (Quiet effect) X left (t ++ t') o ∧
      (e.silent effect = true → Goes E (Quiet effect) X {.stmt k} (t ++ t') o) := by
    intro t t' o hrunE hgoes
    refine ⟨hgoes.prepend (flow_of_builtE he hrunE), fun hs => hgoes.prepend ?_⟩
    exact flow_of_quiet (quiet_of_eRun hs hrunE) (.refl _)
  refine Run.while_induction ?cut ?stop ?leave ?next hrun
  case cut => exact ⟨goes_cut X left, fun _ => goes_cut X _⟩
  case stop =>
    intro t hrunE
    have hout : Goes E (Quiet effect) X {.stmt k} [] .normal :=
      .inl (hk.trans (feeds_right _ _))
    simpa using hrest hrunE hout
  case leave =>
    intro t t1 o o' hrunE hrun hleave
    exact hrest hrunE (((hbody.goes hrun).leaves hleave).feed (hk.trans (feeds_left left1 X.left)))
  case next =>
    intro t t1 t2 o o' hrunE hrun hgo ih
    exact hrest hrunE ((ih.2 (hsilent hrun hgo)).prepend (hagain hrun hgo))

/-- The normal runs of a loop whose rounds get from `L` to `L`, and which is left to `M`. -/
theorem flow_whileLoop (hM : M ⊆ L) (hs : e.silent effect = true) (hcont : s.ends .cont = false)
    (hbrk : ∀ {t}, Run s t .brk → Flow E (Quiet effect) L t M)
    (hround : ∀ {t}, Run s t .normal → Flow E (Quiet effect) L t L)
    (hrun : Run (.whileLoop n e k s) t .normal) :
    Flow E (Quiet effect) L t M := by
  refine hrun.while_induction (P := fun t o => o = .normal → Flow E (Quiet effect) L t M)
    nofun ?stop ?leave ?next rfl
  case stop =>
    intro t hrunE _
    exact flow_of_quiet (quiet_of_eRun hs hrunE) (feeds_of_subset hM)
  case leave =>
    rintro t t1 o o' hrunE hrun hleave rfl
    cases hleave with
    | brk => exact (flow_of_quiet (quiet_of_eRun hs hrunE) (.refl _)).append (hbrk hrun)
  case next =>
    rintro t t1 t2 o o' hrunE hrun hgo ih rfl
    rcases hgo with rfl | rfl
    · exact (flow_of_quiet (quiet_of_eRun hs hrunE) (.refl _)).append
        ((hround hrun).append (ih rfl))
    · exact absurd (ends_of_run hrun (by decide)) (by simp [hcont])

theorem followed_whileLoop (hskip : Into E (.stmt k) (left1 ∪ X.left))
    (he : BuiltE E e {.stmt k} left right3) (hback : BackTo E right1 {.stmt k})
    (hright : right1 ⊆ right) (hbody : Followed E effect s (X.body X.left k) left1 right1)
    (hkeep : (Stmt.whileLoop n e k s).keepsFlow effect = true) :
    Followed E effect (.whileLoop n e k s) X left right := by
  simp only [Stmt.keepsFlow, and_eq_true, or_eq_true, not_eq_true',
    Bool.or_eq_false_iff] at hkeep
  obtain ⟨⟨-, htest⟩, hhead⟩ := hkeep
  have hk : Feeds E (Quiet effect) {.stmt k} (left1 ∪ X.left) := feeds_of_edges rfl hskip
  have hin : Feeds E (Quiet effect) {.stmt k} left1 := hk.trans (feeds_left left1 X.left)
  -- a round leads from the skip back to it
  have hagain : ∀ {t o}, Run s t o → o.goesOn → Flow E (Quiet effect) {.stmt k} t {.stmt k} := by
    intro t o hrun hgo
    rcases hgo with rfl | rfl
    · have hhead := hhead.resolve_left (by simp [ends_of_run hrun])
      exact (hbody.atHead hhead hback (fun _ => .refl _) hrun).feed (hin.union (.refl _))
    · have hcont : Flow E (Quiet effect) left1 t {.stmt k} := hbody.goes hrun
      exact hcont.feed hin
  refine ⟨fun hrun => ?_, fun hend => absurd hend false_ne_true, ?_⟩
  · -- a condition that is tested again has no effect
    exact (goes_whileLoop hk he hbody (of_goesOn htest) hagain hrun).1
  intro M next t hloop hM hnext hrun
  rw [Stmt.backAtHead, or_eq_true] at hloop
  rcases hloop with hs | hrest
  · exact flow_of_silent hs hrun
  · simp only [and_eq_true, or_eq_true, not_eq_true'] at hrest
    obtain ⟨⟨⟨hs, hbrk⟩, hcont⟩, hround⟩ := hrest
    -- The rounds of this loop end at rightmost nodes of its body, which are its own: each one gets
    -- to the skip of this loop and to `M`.
    have hboth : BackTo E right1 ({.stmt k} ∪ M) := fun r hr hj l hl =>
      hl.elim (hback r hr hj l) (hM r (hright hr) hj l)
    have hstart : Feeds E (Quiet effect) ({.stmt k} ∪ M) (left1 ∪ ({.stmt k} ∪ M)) :=
      ((feeds_left _ M).trans hin).union (.refl _)
    have hloop : Flow E (Quiet effect) ({.stmt k} ∪ M) t M := by
      refine flow_whileLoop Set.subset_union_right hs hcont (fun hrun => ?_) (fun hrun => ?_) hrun
      · have hleave : Flow E (Quiet effect) left1 _ X.next := hbody.goes hrun
        have hto := hnext (hbrk.resolve_right (by simp [ends_of_run hrun]))
        exact (hleave.feed_right hto).feed ((feeds_left _ M).trans hin)
      · have hround := hround.resolve_left (by simp [ends_of_run hrun])
        exact (hbody.atHead hround hboth nofun hrun).feed hstart
    refine hloop.feed (Feeds.union ?_ (feeds_right _ _))
    exact (feeds_left left M).trans (feeds_of_silent he hs)

theorem followed_doLoop (he : BuiltE E e X.left left1 right1)
    (hskip : Into E (.stmt k) left1) (hback : s.jumps = false → Into E e.node left)
    (hbody : Followed E effect s (X.body {.stmt k} k) left right3)
    (hkeep : (Stmt.doLoop n s e k).keepsFlow effect = true) :
    Followed E effect (.doLoop n s e k) X left right := by
  simp only [Stmt.keepsFlow, and_eq_true, or_eq_true, not_eq_true',
    Bool.or_eq_false_iff] at hkeep
  have hk : Feeds E (Quiet effect) {.stmt k} left1 := feeds_of_edges rfl hskip
  -- a round that ends normally or by `continue` gets to the condition through the skip
  have htest : ∀ {t o}, Run s t o → o.goesOn → Flow E (Quiet effect) left t left1 := by
    intro t o hrun hgo
    rcases hgo with rfl | rfl
    · exact Flow.feed_right ((hbody.goes hrun).elim id id) hk
    · exact Flow.feed_right (hbody.goes hrun) hk
  -- a body that can come to its end is not taken for a jump
  have hjumps : ∀ {t o}, Run s t o → o.goesOn → s.jumps = false := of_goesOn hkeep.2
  refine ⟨fun {t o} hrun => ?_, fun hend => absurd hend false_ne_true,
    fun hs _ _ hrun => flow_of_silent hs hrun⟩
  generalize hloop : Stmt.doLoop n s e k = s' at hrun
  induction hrun with
  | cut => exact goes_cut X left
  | doLeave hrun hleave =>
    cases hloop
    exact (hbody.goes hrun).leaves hleave
  | doStop hrun hgo hrunE =>
    cases hloop
    exact .inl ((htest hrun hgo).append (flow_of_builtE he hrunE))
  | doNext hrun hgo hrunE _ _ ih =>
    cases hloop
    have hinto := hback (hjumps hrun hgo)
    exact ((ih rfl).prepend (flow_of_into he hinto hrunE)).prepend (htest hrun hgo)
  | _ => cases hloop

/-- A `break` or a `continue`: its node has edges to where it goes. -/
theorem flow_of_jump (hmem : .jump n ∈ left)
    (hinto : Into E (.jump n) S) : Flow E (Quiet effect) left [.jump n] S :=
  (flow_single hinto).feed (feeds_of_subset fun _ hm => hm ▸ hmem)

theorem followed_brk (hmem : .jump n ∈ left)
    (hinto : Into E (.jump n) X.brk) : Followed E effect (.brk n) X left right where
  goes hrun := by
    cases hrun with
    | cut => exact goes_cut X left
    | brk => exact flow_of_jump hmem hinto
  atRight := nofun
  atHead := nofun

theorem followed_cont (hmem : .jump n ∈ left)
    (hinto : Into E (.jump n) X.cont) : Followed E effect (.cont n) X left right where
  goes hrun := by
    cases hrun with
    | cut => exact goes_cut X left
    | cont => exact flow_of_jump hmem hinto
  atRight := nofun
  atHead := nofun

theorem followed_ret {eo : Option Exp} (h : BuiltBody E env (.ret n eo) L left right) :
    Followed E effect (.ret n eo) X left right where
  goes hrun := by
    cases hrun with
    | cut => exact goes_cut X left
    | retVoid => exact flow_of_quiet (quiet_node rfl) (feeds_empty left)
    | ret hrunE =>
      have he : BuiltE E _ {.jump n} left right := h
      exact (flow_of_builtE he hrunE).append (flow_of_quiet (quiet_node rfl) (feeds_empty _))
  atRight := nofun
  atHead := nofun

/-! ## Every statement -/

/-- A graph with the edges of a statement follows its runs. -/
theorem followed_of_built {te : Targets}
    (hb : Built E env s X.left left right) (hanal : analStmt te s ⊆ env.inverse)
    (hX : Agree E env te X) (hkeep : s.keepsFlow effect = true) :
    Followed E effect s X left right := by
  obtain ⟨hb, -⟩ := hb
  induction s generalizing te X left right with
  | skip n => exact followed_skip hb
  | exp n e => exact followed_exp hb
  | cap n es => exact followed_cap hb
  | seq n s1 s2 ih1 ih2 =>
    obtain ⟨left2, right2, right1, ⟨hb2, hlink2⟩, ⟨hb1, -⟩, hright⟩ := hb
    obtain ⟨hanal1, hanal2⟩ := List.append_subset.mp hanal
    obtain ⟨hkeep1, hkeep2⟩ := and_eq_true_iff.mp hkeep
    -- a jump to the next statement from within the first one goes to the second
    have hX1 : Agree E env { te with next := some s2.addr } ⟨left2, left2, X.cont, X.brk⟩ :=
      ⟨hlink2, hX.cont, hX.brk⟩
    exact followed_seq (ih1 hanal1 hX1 hkeep1 hb1) (ih2 hanal2 hX hkeep2 hb2) hright
  | ifThenElse n e s1 s2 ih1 ih2 =>
    obtain ⟨left1, right1, left2, right2, right3, ⟨hb1, -⟩, ⟨hb2, -⟩, he, hright2, hright1⟩ := hb
    obtain ⟨hanal1, hanal2⟩ := List.append_subset.mp hanal
    obtain ⟨hkeep1, hkeep2⟩ := and_eq_true_iff.mp hkeep
    exact followed_ifThenElse he (ih1 hanal1 hX hkeep1 hb1) (ih2 hanal2 hX hkeep2 hb2)
      hright1 hright2
  | whileLoop n e k s ih =>
    obtain ⟨left1, right1, right3, ⟨hb, -⟩, ⟨hskip, hlink⟩, he, hback, hright⟩ := hb
    have hX1 : Agree E env ⟨some k, some k, te.next⟩ (X.body X.left k) := ⟨hlink, hlink, hX.next⟩
    have hkeep1 := (and_eq_true_iff.mp (and_eq_true_iff.mp hkeep).1).1
    have hback' : BackTo E right1 {.stmt k} := fun r hr hj l hl => hl ▸ hback r hr hj
    exact followed_whileLoop hskip he hback' hright (ih hanal hX1 hkeep1 hb) hkeep
  | doLoop n s e k ih =>
    obtain ⟨left1, right1, right3, he, ⟨hskip, hlink⟩, ⟨hb, -⟩, hback⟩ := hb
    have hX1 : Agree E env ⟨some k, some k, te.next⟩ (X.body {.stmt k} k) :=
      ⟨hlink, hlink, hX.next⟩
    have hkeep1 := (and_eq_true_iff.mp hkeep).1
    exact followed_doLoop he hskip hback (ih hanal hX1 hkeep1 hb) hkeep
  | brk n => exact followed_brk hb.1 (into_of_reaching hX.brk hanal)
  | cont n => exact followed_cont hb.1 (into_of_reaching hX.cont hanal)
  | ret n eo => exact followed_ret hb

end Follow

/-! ## Consecutive effects -/

/-- The edges of the graph. -/
def Graph.Edge (g : Graph) (a b : Node) : Prop :=
  (a, b) ∈ g.edges

/-- Wherever `concfg_s` is called on a statement whose loops keep the flow, with the statement's
jumps in the table: if the effectful node `b` is the next one to run after the effectful node `a`,
then the graph has a path from `a` to `b` through effect-free nodes. -/
theorem runsNext_leads {effect : Nat → Bool} {env : CfgEnv} {te : Targets} {s : Stmt} {nl : NList}
    {g : Graph} (hnl : g.Valid nl) (hanal : analStmt te s ⊆ env.inverse)
    (hkeep : s.keepsFlow effect = true) {a b : Node} (h : RunsNext effect s a b) :
    Leads (concfgS env s nl g).2.Edge (Quiet effect) a b := by
  obtain ⟨hmeets, -⟩ := concfgS_spec env s nl g hnl
  obtain ⟨left, right, -, -, hbuilt⟩ := hmeets.built
  have hb := hbuilt (concfgS env s nl g).2.Edge fun _ _ hab => hab
  -- nothing is asked of where the run goes on after the statement
  have hX : Agree (concfgS env s nl g).2.Edge env te ⟨g.nodes nl, ∅, ∅, ∅⟩ := by
    have hnone : ∀ target, Reaching (concfgS env s nl g).2.Edge env target ∅ := by
      intro target
      cases target with
      | none => rfl
      | some t => exact fun _ _ _ hl => hl.elim
    exact ⟨hnone _, hnone _, hnone _⟩
  obtain ⟨pre, mid, post, o, hrun, ha, hmid, hnb⟩ := h
  have hgoes := (followed_of_built hb hanal hX hkeep).goes hrun
  have hflow : Flow (concfgS env s nl g).2.Edge (Quiet effect) left
      (pre ++ a :: (mid ++ b :: post)) ∅ := by
    cases o with
    | normal => exact hgoes.elim Flow.forget Flow.forget
    | brk | cont | ret | cut => exact hgoes.forget
  exact hflow.leads ha hmid hnb

theorem cfgOf_eq (s : Stmt) (k : Nat) : cfgOf s k =
    (concfgS ⟨analStmt ⟨none, none, none⟩ s, k⟩ s (some 0)
      ⟨[], Function.update (fun _ => []) 0 [.stmt k], 1⟩).2 := rfl

/-- `while (e₁) { cap₃; if (e₆) break; else e₁₀ && (e₁₂ && e₁₃); }`. -/
def capEachRound : Stmt :=
  .whileLoop 0 (.op 1 []) 2
    (.seq 4 (.cap 3 []) (.ifThenElse 5 (.op 6 []) (.brk 7)
      (.exp 8 (.andOr 9 (.op 10 []) (.andOr 11 (.op 12 []) (.op 13 []))))))

/-- From the last effect of a round, in the last operand, to the first one of the next. -/
theorem runsNext_leads_capEachRound :
    RunsNext (fun n => n == 13) capEachRound (.exp 13) (.cap 3) ∧
    Leads (cfgOf capEachRound 9).Edge (Quiet fun n => n == 13) (.exp 13) (.cap 3) := by
  have htest : ∀ n, ERun (.op n []) [.exp n] := fun n => ⟨[], rfl, rfl⟩
  have hcap : Run (.cap 3 []) [.cap 3] .normal := .cap (show ERuns [] [] from rfl)
  have hlast : ERun (.andOr 9 (.op 10 []) (.andOr 11 (.op 12 []) (.op 13 [])))
      [.exp 10, .exp 12, .exp 13, .exp 11, .exp 9] :=
    .inr ⟨[.exp 10], [.exp 12, .exp 13, .exp 11], htest 10,
      .inr ⟨[.exp 12], [.exp 13], htest 12, htest 13, rfl⟩, rfl⟩
  have hnext : RunsNext (fun n => n == 13) capEachRound (.exp 13) (.cap 3) :=
    -- one round, and the next one up to its cap
    ⟨[.exp 1, .cap 3, .exp 6, .exp 10, .exp 12], [.exp 11, .exp 9, .stmt 8, .exp 1], [], .cut,
      .whileNext (htest 1) (.seq hcap (.ifElse (htest 6) (.exp hlast))) (.inl rfl)
        (.whileLeave (htest 1) (.seq hcap .cut) .cut), by decide, by decide, by decide⟩
  rw [cfgOf_eq]
  exact ⟨hnext, runsNext_leads (by rintro i ⟨⟩; decide) (List.Subset.refl _) (by decide) hnext⟩

/-- `while (e₁) cap₃;` where the condition has an effect. -/
def testedAgain : Stmt :=
  .whileLoop 0 (.op 1 []) 2 (.cap 3 [])

/-- After the body, the condition is tested again, and no edge leads back to it. -/
theorem not_leads_testedAgain : RunsNext (fun n => n == 1) testedAgain (.cap 3) (.exp 1) ∧
    ¬ Leads (cfgOf testedAgain 9).Edge (Quiet fun n => n == 1) (.cap 3) (.exp 1) := by
  constructor
  · have htest : ERun (.op 1 []) [.exp 1] := ⟨[], rfl, rfl⟩
    have hbody : Run (.cap 3 []) ([] ++ [.cap 3]) .normal := .cap rfl
    exact ⟨[.exp 1], [], [], .normal, .whileNext htest hbody (.inl rfl) (.whileStop htest),
      by decide, by decide, by decide⟩
  · intro hleads
    obtain ⟨x, hx⟩ := hleads.exists_edge
    have hnone : ∀ p ∈ (cfgOf testedAgain 9).edges, p.2 ≠ .exp 1 := by decide
    exact hnone _ hx rfl

end ConcurrentCyclone.XInfer
