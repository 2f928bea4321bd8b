import ConcurrentCyclone.XInfer.Cfg
import Mathlib.Data.Set.Basic

/-!
# What the construction of the graph guarantees

`BuiltE` and `Built` say which edges a graph has for an expression or a statement, in terms of sets
of nodes: the set that comes next, the leftmost nodes and the rightmost nodes. They are lower
bounds. Lists only grow and edges are only added, so what the construction has added for one part is
still there at the end, whatever lists it shares with other parts.

`concfgE_spec` and `concfgS_spec` prove that the construction on the heap meets them.
-/

set_option autoImplicit false

namespace ConcurrentCyclone.XInfer

open Function Transition

/-! ## Edges in terms of node sets -/

/-- The node has an edge to every node of the set. -/
def Into (E : Node → Node → Prop) (n : Node) (L : Set Node) : Prop :=
  ∀ l ∈ L, E n l

variable {E : Node → Node → Prop} {L L' left : Set Node} {g g' : Graph}

mutual

/-- The graph has the edges of the expression when `L` comes next, and the expression has at least
these leftmost and rightmost nodes. -/
def BuiltE (E : Node → Node → Prop) : Exp → Set Node → Set Node → Set Node → Prop
  | .op n args, L, left, right =>
    Into E (.exp n) L ∧ BuiltArgs E args {.exp n} left ∧ L ⊆ right
  | .andOr n e₁ e₂, L, left, right =>
    Into E (.exp n) L ∧ ∃ left₂ right₂ right₁, BuiltE E e₂ {.exp n} left₂ right₂ ∧
      BuiltE E e₁ (left₂ ∪ {.exp n}) left right₁ ∧ right₂ ⊆ right
  | .conditional n e₁ e₂ e₃, L, left, right =>
    Into E (.exp n) L ∧ ∃ left₃ right₃ left₂ right₂ right₁, BuiltE E e₃ {.exp n} left₃ right₃ ∧
      BuiltE E e₂ {.exp n} left₂ right₂ ∧ BuiltE E e₁ (left₃ ∪ left₂) left right₁ ∧
      right₃ ∪ right₂ ⊆ right

/-- The same for operands that are evaluated one after the other. -/
def BuiltArgs (E : Node → Node → Prop) : List Exp → Set Node → Set Node → Prop
  | [], L, left => L ⊆ left
  | e :: es, L, left => ∃ left₁ right₁, BuiltArgs E es L left₁ ∧ BuiltE E e left₁ left right₁

end

/-- The jumps to the statement have edges to the set. -/
def Linked (E : Node → Node → Prop) (env : CfgEnv) (s : Nat) (left : Set Node) : Prop :=
  ∀ j, (j, s) ∈ env.inverse → Into E j left

/-- The edges of a skip statement. -/
def BuiltSkip (E : Node → Node → Prop) (env : CfgEnv) (n : Nat) (L : Set Node) : Prop :=
  Into E (.stmt n) L ∧ Linked E env n {.stmt n}

/-- The flag that `concfg_s` returns. -/
def Stmt.jumps : Stmt → Bool
  | .seq _ s₁ s₂ => s₁.jumps || s₂.jumps
  | .ifThenElse _ _ _ s₂ => s₂.jumps
  | .doLoop _ s _ _ => s.jumps
  | .brk _ => true
  | .cont _ => true
  | .ret _ none => true
  | .ret _ (some _) => false
  | .skip _ => false
  | .exp _ _ => false
  | .cap _ _ => false
  | .whileLoop _ _ _ _ => false

/-- The graph has the edges of the statement, without those from jumps to it. -/
def BuiltBody (E : Node → Node → Prop) (env : CfgEnv) :
    Stmt → Set Node → Set Node → Set Node → Prop
  | .skip n, L, left, right => Into E (.stmt n) L ∧ .stmt n ∈ left ∧ L ⊆ right
  | .exp n e, L, left, right => Into E (.stmt n) L ∧ BuiltE E e {.stmt n} left right
  | .cap n es, L, left, right =>
    Into E (.cap n) L ∧ BuiltArgs E es {.cap n} left ∧ .cap n ∈ right
  | .seq _ s₁ s₂, L, left, right => ∃ left₂ right₂ right₁,
      (BuiltBody E env s₂ L left₂ right₂ ∧ Linked E env s₂.addr left₂) ∧
      (BuiltBody E env s₁ left₂ left right₁ ∧ Linked E env s₁.addr left) ∧
      (s₁.jumps = false → right₂ ⊆ right)
  | .ifThenElse _ e s₁ s₂, L, left, right => ∃ left₁ right₁ left₂ right₂ right₃,
      (BuiltBody E env s₁ L left₁ right₁ ∧ Linked E env s₁.addr left₁) ∧
      (BuiltBody E env s₂ L left₂ right₂ ∧ Linked E env s₂.addr left₂) ∧
      BuiltE E e (left₁ ∪ left₂) left right₃ ∧
      right₂ ⊆ right ∧ (s₂.jumps = false → right₁ ⊆ right)
  | .whileLoop _ e k s, L, left, right => ∃ left₁ right₁ right₃,
      (BuiltBody E env s L left₁ right₁ ∧ Linked E env s.addr left₁) ∧
      BuiltSkip E env k (left₁ ∪ L) ∧ BuiltE E e {.stmt k} left right₃ ∧
      (∀ r ∈ right₁, r.isJump = false → E r (.stmt k)) ∧ right₁ ⊆ right
  | .doLoop _ s e k, L, left, _ => ∃ left₁ right₁ right₃,
      BuiltE E e L left₁ right₁ ∧ BuiltSkip E env k left₁ ∧
      (BuiltBody E env s {.stmt k} left right₃ ∧ Linked E env s.addr left) ∧
      (s.jumps = false → Into E e.node left)
  | .brk n, _, left, right => .jump n ∈ left ∧ .jump n ∈ right
  | .cont n, _, left, right => .jump n ∈ left ∧ .jump n ∈ right
  | .ret n none, _, left, _ => .jump n ∈ left
  | .ret n (some e), _, left, right => BuiltE E e {.jump n} left right

/-- The graph has the edges of the statement when `L` comes next, and the statement has at least
these leftmost and rightmost nodes. -/
def Built (E : Node → Node → Prop) (env : CfgEnv) (s : Stmt) (L left right : Set Node) : Prop :=
  BuiltBody E env s L left right ∧ Linked E env s.addr left

variable {right : Set Node} {nl : NList}

/-! ## The heap only grows -/

/-- The nodes that a list holds, as a set. -/
def Graph.nodes (g : Graph) (nl : NList) : Set Node :=
  {n | n ∈ g.read nl}

/-- The list is allocated. -/
def Graph.Valid (g : Graph) (nl : NList) : Prop :=
  ∀ i ∈ nl, i < g.next

/-- `E` has every edge of the graph. -/
def Graph.Within (g : Graph) (E : Node → Node → Prop) : Prop :=
  ∀ a b, (a, b) ∈ g.edges → E a b

/-- Edges are kept, and so are allocated lists and the nodes in them. -/
structure Grows (g g' : Graph) : Prop where
  edges : g.edges ⊆ g'.edges
  next : g.next ≤ g'.next
  cells : ∀ i < g.next, g.cells i ⊆ g'.cells i

theorem Grows.refl (g : Graph) : Grows g g :=
  ⟨List.Subset.refl _, le_refl _, fun _ _ => List.Subset.refl _⟩

theorem Grows.trans {g1 g2 g3 : Graph} (h1 : Grows g1 g2) (h2 : Grows g2 g3) : Grows g1 g3 where
  edges := List.Subset.trans h1.edges h2.edges
  next := h1.next.trans h2.next
  cells i hi := List.Subset.trans (h1.cells i hi) (h2.cells i (hi.trans_le h1.next))

/-- The list is allocated and holds the nodes. -/
def Graph.Holds (g : Graph) (nl : NList) (L : Set Node) : Prop :=
  g.Valid nl ∧ L ⊆ g.nodes nl

theorem Grows.holds (h : Grows g g') (hnl : g.Holds nl L) : g'.Holds nl L := by
  refine ⟨fun i hi => (hnl.1 i hi).trans_le h.next, fun m hm => ?_⟩
  cases nl with
  | none => exact hnl.2 hm
  | some i => exact h.cells i (hnl.1 i rfl) (hnl.2 hm)

theorem Grows.within (h : Grows g g') (hE : g'.Within E) : g.Within E :=
  fun a b hab => hE a b (h.edges hab)

/-! ## The steps of the construction -/

theorem addSucc_grows (g : Graph) (n1 n2 : Node) : Grows g (g.addSucc n1 n2) := by
  rw [Graph.addSucc]
  split
  · exact .refl g
  · exact ⟨List.subset_cons_self _ _, le_refl _, fun _ _ => List.Subset.refl _⟩

theorem mem_addSucc (g : Graph) (n1 n2 : Node) : (n1, n2) ∈ (g.addSucc n1 n2).edges := by
  rw [Graph.addSucc]
  split
  · assumption
  · exact .head _

/-- A loop that only adds edges keeps the graph and adds the edge of each round. -/
theorem foldl_addSucc {f : Graph → Node → Graph} {P : Node → Prop} {edge : Node → Node × Node}
    (hgrows : ∀ g n, Grows g (f g n)) (hedge : ∀ g n, P n → edge n ∈ (f g n).edges)
    (ns : List Node) (g : Graph) :
    Grows g (ns.foldl f g) ∧ ∀ n ∈ ns, P n → edge n ∈ (ns.foldl f g).edges := by
  induction ns generalizing g with
  | nil => exact ⟨.refl g, nofun⟩
  | cons m ns ih =>
    obtain ⟨hgrow, hrest⟩ := ih (f g m)
    refine ⟨(hgrows g m).trans hgrow, fun n hn hP => ?_⟩
    rcases List.mem_cons.mp hn with rfl | hn
    · exact hgrow.edges (hedge g n hP)
    · exact hrest n hn hP

theorem addSuccs_spec (n : Node) (hnl : g.Holds nl L) : Ensures (addSuccs n nl) g fun _ g' =>
      Grows g g' ∧ ∀ E, g'.Within E → Into E n L := by
  obtain ⟨hgrow, hedge⟩ := foldl_addSucc (P := fun _ => True) (fun g m => addSucc_grows g n m)
    (fun g m _ => mem_addSucc g n m) (g.read nl) g
  exact ⟨hgrow, fun E hE l hl => hE n l (hedge l (hnl.2 hl) trivial)⟩

theorem addNojumpSuccs_spec (nskip : Node) (hnl : g.Holds nl L) :
    Ensures (addNojumpSuccs nskip nl) g fun _ g' =>
      Grows g g' ∧ ∀ E, g'.Within E → ∀ r ∈ L, r.isJump = false → E r nskip := by
  obtain ⟨hgrow, hedge⟩ := foldl_addSucc (P := fun n => n.isJump = false)
    (f := fun g n => if n.isJump then g else g.addSucc n nskip)
    (fun g n => by split; exacts [.refl g, addSucc_grows g n nskip])
    (fun g n hn => by rw [if_neg (by simp [hn])]; exact mem_addSucc g n nskip) (g.read nl) g
  exact ⟨hgrow, fun E hE r hr hj => hE r nskip (hedge r (hnl.2 hr) hj)⟩

theorem nsig_spec (n : Node) (g : Graph) :
    Ensures (nsig n) g fun nl g' => Grows g g' ∧ g'.Holds nl {n} := by
  refine ⟨⟨List.Subset.refl _, Nat.le_succ _, fun i hi => ?_⟩, ?_, ?_⟩
  · -- the new list is put at a place that no allocated list has
    rw [show (nsig n g).2.cells i = g.cells i from update_of_ne hi.ne _ _]
    exact List.Subset.refl _
  · rintro i ⟨⟩
    exact Nat.lt_succ_self _
  · rintro m rfl
    show m ∈ update g.cells g.next [m] g.next
    rw [update_self]
    exact List.mem_singleton_self m

theorem addUnique_spec (n : Node) (hnl : g.Holds nl L) : Ensures (addUnique nl n) g fun nl' g' =>
      Grows g g' ∧ g'.Holds nl' (L ∪ {n}) := by
  cases nl with
  | none =>
    refine (nsig_spec n g).mono fun nl' g' h => ⟨h.1, h.2.1, ?_⟩
    exact Set.union_subset (fun _ hm => nomatch hnl.2 hm) h.2.2
  | some i =>
    have hadd : addUnique (some i) n g = (some i, if n ∈ g.cells i then g
        else { g with cells := update g.cells i (g.cells i ++ [n]) }) := rfl
    rw [Ensures, hadd]
    split_ifs with hn
    · -- the node is in the list already
      exact ⟨.refl g, hnl.1, Set.union_subset hnl.2 (by rintro m rfl; exact hn)⟩
    · -- the list is extended in place, so every list that shares it grows with it
      have hcell : ∀ j, g.cells j ⊆ update g.cells i (g.cells i ++ [n]) j := by
        intro j
        by_cases hj : j = i
        · subst hj
          rw [update_self]
          exact List.subset_append_left _ _
        · rw [update_of_ne hj]
          exact List.Subset.refl _
      refine ⟨⟨List.Subset.refl _, le_refl _, fun j _ => hcell j⟩, hnl.1, ?_⟩
      refine Set.union_subset (fun m hm => hcell i (hnl.2 hm)) ?_
      rintro m rfl
      show m ∈ update g.cells i (g.cells i ++ [m]) i
      rw [update_self]
      exact List.mem_append_right _ (List.mem_singleton_self m)

theorem appendUnique_spec {n0 n1 : NList} (h0 : g.Holds n0 L) (h1 : g.Holds n1 L') :
    Ensures (appendUnique n0 n1) g fun nl g' => Grows g g' ∧ g'.Holds nl (L ∪ L') := by
  -- over any list of nodes that are added one by one
  have hfold (ns : List Node) : Ensures (ns.foldlM addUnique n0) g fun nl g' =>
      Grows g g' ∧ g'.Holds nl (L ∪ {n | n ∈ ns}) := by
    clear h1
    induction ns generalizing n0 g L with
    | nil => exact ⟨.refl g, h0.1, Set.union_subset h0.2 nofun⟩
    | cons n ns ih =>
      refine (addUnique_spec n h0).bind fun nl1 g1 ⟨hg1, h1⟩ => ?_
      refine (ih h1).mono fun nl2 g2 ⟨hg2, h2⟩ => ⟨hg1.trans hg2, h2.1, ?_⟩
      refine (Set.union_subset (fun m hm => .inl (.inl hm)) fun m hm => ?_).trans h2.2
      rcases List.mem_cons.mp hm with rfl | hm
      · exact .inl (.inr rfl)
      · exact .inr hm
  have hread := hfold (g.read n1)
  exact ⟨hread.1, hread.2.1, (Set.union_subset_union_right L h1.2).trans hread.2.2⟩

theorem updatePredSuccs_spec (env : CfgEnv) (s : Nat) (hnl : g.Holds nl L) :
    Ensures (updatePredSuccs env s nl) g fun _ g' =>
      Grows g g' ∧ ∀ E, g'.Within E → Linked E env s L := by
  have hall (js : List Node) : Ensures (js.forM fun pred => addSuccs pred nl) g fun _ g' =>
      Grows g g' ∧ ∀ E, g'.Within E → ∀ j ∈ js, Into E j L := by
    induction js generalizing g with
    | nil => exact ⟨.refl g, nofun⟩
    | cons j js ih =>
      refine (addSuccs_spec j hnl).bind fun _ g1 ⟨hg1, hj⟩ => ?_
      refine (ih (hg1.holds hnl)).mono fun _ g2 ⟨hg2, hjs⟩ => ⟨hg1.trans hg2, ?_⟩
      exact fun E hE => List.forall_mem_cons.2 ⟨hj E (hg2.within hE), hjs E hE⟩
  refine (hall (env.preds s)).mono fun _ g' ⟨hg', hj⟩ => ⟨hg', fun E hE j hmem => ?_⟩
  -- the jumps to `s` are the entries of the table with this target
  apply hj E hE j
  rw [CfgEnv.preds, List.mem_map]
  exact ⟨(j, s), List.mem_filter.mpr ⟨hmem, beq_self_eq_true s⟩, rfl⟩

/-! ## The construction meets its specification -/

/-- The call has grown `g` to `g'` and returned `r`; for some sets of nodes in the returned lists,
every graph with the edges of `g'` has the edges that `B` asks for. -/
structure Meets (g g' : Graph) (r : Ends)
    (B : (Node → Node → Prop) → Set Node → Set Node → Prop) : Prop where
  grows : Grows g g'
  left : g'.Valid r.left
  right : g'.Valid r.right
  built : ∃ left right, left ⊆ g'.nodes r.left ∧ right ⊆ g'.nodes r.right ∧
    ∀ E, g'.Within E → B E left right

/-- The same for operands, which have no rightmost nodes of their own. -/
structure MeetsArgs (g g' : Graph) (nl : NList)
    (B : (Node → Node → Prop) → Set Node → Prop) : Prop where
  grows : Grows g g'
  valid : g'.Valid nl
  built : ∃ left, left ⊆ g'.nodes nl ∧ ∀ E, g'.Within E → B E left

mutual

theorem concfgE_spec : ∀ (e : Exp) {nl : NList} {L : Set Node} {g : Graph}, g.Holds nl L →
    Ensures (concfgE e nl) g fun r g' => Grows g g' ∧ ∃ left right, g'.Holds r.left left ∧
      g'.Holds r.right right ∧ ∀ E, g'.Within E → BuiltE E e L left right
  | .op n args, nl, L, g, hnl => by
    rw [concfgE]
    refine (nsig_spec (.exp n) g).bind fun l g1 ⟨hg1, hl⟩ => ?_
    refine (addSuccs_spec (.exp n) (hg1.holds hnl)).bind fun _ g2 ⟨hg2, hsucc⟩ => ?_
    refine (concfgArgs_spec args (hg2.holds hl)).bind
      fun left1 g3 ⟨hg3, hvalid, left, hleft, hbuilt⟩ => ?_
    have hg : Grows g g3 := (hg1.trans hg2).trans hg3
    refine ⟨hg, left, L, ⟨hvalid, hleft⟩, hg.holds hnl, fun E hE => ?_⟩
    exact ⟨hsucc E (hg3.within hE), hbuilt E hE, subset_rfl⟩
  | .andOr n e1 e2, nl, L, g, hnl => by
    rw [concfgE]
    refine (nsig_spec (.exp n) g).bind fun l g1 ⟨hg1, hl⟩ => ?_
    refine (addSuccs_spec (.exp n) (hg1.holds hnl)).bind fun _ g2 ⟨hg2, hsucc⟩ => ?_
    refine (concfgE_spec e2 (hg2.holds hl)).bind
      fun r2 g3 ⟨hg3, left2, right2, hleft2, hright2, hb2⟩ => ?_
    refine (appendUnique_spec hleft2 ((hg2.trans hg3).holds hl)).bind fun both g4 ⟨hg4, hboth⟩ => ?_
    refine (concfgE_spec e1 hboth).bind fun r1 g5 ⟨hg5, left1, right1, hleft1, _, hb1⟩ => ?_
    have hg35 : Grows g3 g5 := hg4.trans hg5
    refine ⟨((hg1.trans hg2).trans hg3).trans hg35, left1, right2, hleft1, hg35.holds hright2,
      fun E hE => ?_⟩
    have hE3 := hg35.within hE
    exact ⟨hsucc E (hg3.within hE3), left2, right2, right1, hb2 E hE3, hb1 E hE, subset_rfl⟩
  | .conditional n e1 e2 e3, nl, L, g, hnl => by
    rw [concfgE]
    refine (nsig_spec (.exp n) g).bind fun l g1 ⟨hg1, hl⟩ => ?_
    refine (addSuccs_spec (.exp n) (hg1.holds hnl)).bind fun _ g2 ⟨hg2, hsucc⟩ => ?_
    refine (concfgE_spec e3 (hg2.holds hl)).bind
      fun r3 g3 ⟨hg3, left3, right3, hleft3, hright3, hb3⟩ => ?_
    refine (concfgE_spec e2 ((hg2.trans hg3).holds hl)).bind
      fun r2 g4 ⟨hg4, left2, right2, hleft2, hright2, hb2⟩ => ?_
    refine (appendUnique_spec (hg4.holds hleft3) hleft2).bind fun both g5 ⟨hg5, hboth⟩ => ?_
    refine (concfgE_spec e1 hboth).bind fun r1 g6 ⟨hg6, left1, right1, hleft1, _, hb1⟩ => ?_
    have hg46 : Grows g4 g6 := hg5.trans hg6
    have hg36 : Grows g3 g6 := hg4.trans hg46
    refine (appendUnique_spec (hg36.holds hright3) (hg46.holds hright2)).bind
      fun right g7 ⟨hg7, hright⟩ => ?_
    refine ⟨(((hg1.trans hg2).trans hg3).trans hg36).trans hg7, left1, _, hg7.holds hleft1, hright,
      fun E hE => ?_⟩
    have hE6 := hg7.within hE
    have hE3 := hg36.within hE6
    exact ⟨hsucc E (hg3.within hE3), left3, right3, left2, right2, right1, hb3 E hE3,
      hb2 E (hg46.within hE6), hb1 E hE6, subset_rfl⟩

theorem concfgArgs_spec : ∀ (es : List Exp) {nl : NList} {L : Set Node} {g : Graph},
    g.Holds nl L → Ensures (concfgArgs es nl) g fun l g' =>
      MeetsArgs g g' l fun E left => BuiltArgs E es L left
  | [], _, L, g, hnl => by
    rw [concfgArgs]
    exact ⟨.refl g, hnl.1, L, hnl.2, fun _ _ => subset_rfl⟩
  | e :: es, nl, L, g, hnl => by
    rw [concfgArgs]
    refine (concfgArgs_spec es hnl).bind fun left1 g1 ⟨hg1, hvalid, leftEs, hleftEs, hbEs⟩ => ?_
    refine (concfgE_spec e ⟨hvalid, hleftEs⟩).bind fun r g2 ⟨hg2, left, right, hleft, _, hb⟩ => ?_
    refine ⟨hg1.trans hg2, hleft.1, left, hleft.2, fun E hE => ?_⟩
    exact ⟨leftEs, right, hbEs E (hg2.within hE), hb E hE⟩

end

theorem concfgE_jumps (e : Exp) (nl : NList) (g : Graph) :
    Ensures (concfgE e nl) g fun r _ => r.jumps = false := by
  cases e <;> rw [concfgE] <;> rfl

/-- What a call on a statement ensures where the list that it gets holds `L`. -/
def SpecFrom (env : CfgEnv) (s : Stmt) : Prop :=
  ∀ {nl : NList} {L : Set Node} {g : Graph}, g.Holds nl L →
    Ensures (concfgS env s nl) g fun r g' => Grows g g' ∧ r.jumps = s.jumps ∧
      ∃ left right, g'.Holds r.left left ∧ g'.Holds r.right right ∧
        ∀ E, g'.Within E → Built E env s L left right

/-- The last step of `concfg_s`: what is linked is the left list as it is then. -/
theorem linked_spec {r : Ends} {env : CfgEnv} {s : Stmt} {g₀ : Graph} (hg : Grows g₀ g)
    (hl : g.Holds r.left left) (hr : g.Holds r.right right) (hjumps : r.jumps = s.jumps)
    (hb : ∀ E, g.Within E → BuiltBody E env s L left right) :
    Ensures (linked env s.addr r) g fun r' g' => Grows g₀ g' ∧ r'.jumps = s.jumps ∧
      ∃ left right, g'.Holds r'.left left ∧ g'.Holds r'.right right ∧
        ∀ E, g'.Within E → Built E env s L left right := by
  refine (updatePredSuccs_spec env s.addr hl).bind fun _ g' ⟨hg', hlink⟩ => ?_
  exact ⟨hg.trans hg', hjumps, left, right, hg'.holds hl, hg'.holds hr, fun E hE =>
    ⟨hb E (hg'.within hE), hlink E hE⟩⟩

theorem concfgSkip_spec (env : CfgEnv) (n : Nat) (hnl : g.Holds nl L) :
    Ensures (concfgSkip env n nl) g fun r g' => Grows g g' ∧ g'.Holds r.left {.stmt n} ∧
      g'.Holds r.right L ∧ (∀ E, g'.Within E → BuiltSkip E env n L) ∧ r.jumps = false := by
  refine (addSuccs_spec (.stmt n) hnl).bind fun _ g1 ⟨hg1, hsucc⟩ => ?_
  refine (nsig_spec (.stmt n) g1).bind fun l g2 ⟨hg2, hl⟩ => ?_
  refine (updatePredSuccs_spec env n hl).bind fun _ g3 ⟨hg3, hlink⟩ => ?_
  have hg : Grows g g3 := (hg1.trans hg2).trans hg3
  exact ⟨hg, hg3.holds hl, hg.holds hnl,
    fun E hE => ⟨hsucc E ((hg2.trans hg3).within hE), hlink E hE⟩, rfl⟩

/-- `concfg_s` meets its specification on the statement, wherever it is called. -/
def SpecS (env : CfgEnv) (s : Stmt) : Prop :=
  ∀ (nl : NList) (g : Graph), g.Valid nl →
    Ensures (concfgS env s nl) g fun r g' =>
      Meets g g' r (fun E left right => Built E env s (g.nodes nl) left right) ∧
      r.jumps = s.jumps

section Forms

variable {env : CfgEnv} {n k : Nat} {e : Exp} {es : List Exp} {s s1 s2 : Stmt}

theorem specFrom_skip : SpecFrom env (.skip n) := by
  intro nl L g hnl
  refine (concfgSkip_spec env n hnl).mono fun r g' ⟨hg, hl, hr, hb, hj⟩ => ?_
  exact ⟨hg, hj, _, _, hl, hr, fun E hE => ⟨⟨(hb E hE).1, rfl, subset_rfl⟩, (hb E hE).2⟩⟩

theorem specFrom_exp : SpecFrom env (.exp n e) := by
  intro nl L g hnl
  refine (addSuccs_spec (.stmt n) hnl).bind fun _ g1 ⟨hg1, hsucc⟩ => ?_
  refine (nsig_spec (.stmt n) g1).bind fun l g2 ⟨hg2, hl⟩ => ?_
  refine ((concfgE_spec e hl).and (concfgE_jumps e l g2)).bind
    fun r g3 ⟨⟨hg3, left, right, hleft, hright, hb⟩, hj⟩ => ?_
  refine linked_spec (s := .exp n e) ((hg1.trans hg2).trans hg3) hleft hright hj fun E hE => ?_
  exact ⟨hsucc E ((hg2.trans hg3).within hE), hb E hE⟩

theorem specFrom_cap : SpecFrom env (.cap n es) := by
  intro nl L g hnl
  refine (addSuccs_spec (.cap n) hnl).bind fun _ g1 ⟨hg1, hsucc⟩ => ?_
  refine (nsig_spec (.cap n) g1).bind fun l g2 ⟨hg2, hl⟩ => ?_
  refine (concfgArgs_spec es hl).bind fun left2 g3 ⟨hg3, hvalid, left, hleft, hb⟩ => ?_
  refine linked_spec (s := .cap n es) ((hg1.trans hg2).trans hg3) ⟨hvalid, hleft⟩ (hg3.holds hl) rfl
    fun E hE => ?_
  exact ⟨hsucc E ((hg2.trans hg3).within hE), hb E hE, rfl⟩

theorem specFrom_seq (ih1 : SpecFrom env s1) (ih2 : SpecFrom env s2) :
    SpecFrom env (.seq n s1 s2) := by
  intro nl L g hnl
  refine (ih2 hnl).bind
    fun r2 g2 ⟨hg2, hj2, left2, right2, hl2, hr2, hb2⟩ => ?_
  refine (ih1 hl2).bind fun r1 g1 ⟨hg1, hj1, left1, right1, hl1, hr1, hb1⟩ => ?_
  -- the edges do not depend on the flag, only the list that is returned as rightmost does
  have hbuilt : ∀ E, g1.Within E → ∀ right, (s1.jumps = false → right2 ⊆ right) →
      BuiltBody E env (.seq n s1 s2) L left1 right := fun E hE right hright =>
    ⟨left2, right2, right1, hb2 E (hg1.within hE), hb1 E hE, hright⟩
  cases hj : r1.jumps with
  | true =>
    rw [if_pos rfl]
    have hs1 : s1.jumps = true := hj1 ▸ hj
    refine linked_spec (s := .seq n s1 s2) (hg2.trans hg1) hl1 hr1 ?_ fun E hE => ?_
    · rw [Stmt.jumps, hs1, Bool.true_or]
    · exact hbuilt E hE right1 fun h => absurd (hs1.symm.trans h) (by decide)
  | false =>
    refine linked_spec (s := .seq n s1 s2) (hg2.trans hg1) hl1 (hg1.holds hr2) ?_ fun E hE => ?_
    · rw [Stmt.jumps, ← hj1, hj]
      exact hj2
    · exact hbuilt E hE right2 fun _ => subset_rfl

theorem specFrom_ifThenElse (ih1 : SpecFrom env s1) (ih2 : SpecFrom env s2) :
    SpecFrom env (.ifThenElse n e s1 s2) := by
  intro nl L g hnl
  refine (ih1 hnl).bind fun r1 g1 ⟨hg1, hj1, left1, right1, hl1, hr1, hb1⟩ => ?_
  refine (ih2 (hg1.holds hnl)).bind
    fun r2 g2 ⟨hg2, hj2, left2, right2, hl2, hr2, hb2⟩ => ?_
  refine (appendUnique_spec (hg2.holds hl1) hl2).bind fun both g3 ⟨hg3, hboth⟩ => ?_
  refine (concfgE_spec e hboth).bind fun r3 g4 ⟨hg4, left3, right3, hl3, _, hb3⟩ => ?_
  have hg24 : Grows g2 g4 := hg3.trans hg4
  have hg14 : Grows g1 g4 := hg2.trans hg24
  -- as for a sequence: the flag decides about the rightmost nodes only
  have hbuilt : ∀ E, g4.Within E → ∀ right, right2 ⊆ right →
      (s2.jumps = false → right1 ⊆ right) →
      BuiltBody E env (.ifThenElse n e s1 s2) L left3 right := fun E hE right h2 h1 =>
    ⟨left1, right1, left2, right2, right3, hb1 E (hg14.within hE), hb2 E (hg24.within hE),
      hb3 E hE, h2, h1⟩
  cases hj : r2.jumps with
  | true =>
    have hs2 : s2.jumps = true := hj2 ▸ hj
    refine linked_spec (s := .ifThenElse n e s1 s2) (hg1.trans hg14) hl3 (hg24.holds hr2) hs2.symm
      fun E hE => ?_
    exact hbuilt E hE right2 subset_rfl fun h => absurd (hs2.symm.trans h) (by decide)
  | false =>
    refine (appendUnique_spec (hg14.holds hr1) (hg24.holds hr2)).bind
      fun right g5 ⟨hg5, hright⟩ => ?_
    refine linked_spec (s := .ifThenElse n e s1 s2) ((hg1.trans hg14).trans hg5) (hg5.holds hl3)
      hright ?_ fun E hE => ?_
    · rw [Stmt.jumps, ← hj2, hj, Bool.and_false]
    · exact hbuilt E (hg5.within hE) _ Set.subset_union_right fun _ => Set.subset_union_left

theorem specFrom_whileLoop (ih : SpecFrom env s) : SpecFrom env (.whileLoop n e k s) := by
  intro nl L g hnl
  refine (ih hnl).bind fun r1 g1 ⟨hg1, hj1, leftB, rightB, hlB, hrB, hbB⟩ => ?_
  refine (appendUnique_spec hlB (hg1.holds hnl)).bind fun left1 g2 ⟨hg2, hleft1⟩ => ?_
  refine (concfgSkip_spec env k hleft1).bind fun r2 g3 ⟨hg3, hlK, _, hbK, _⟩ => ?_
  refine (concfgE_spec e hlK).bind fun r3 g4 ⟨hg4, leftE, rightE, hlE, _, hbE⟩ => ?_
  have hg14 : Grows g1 g4 := (hg2.trans hg3).trans hg4
  refine (addNojumpSuccs_spec (.stmt k) (hg14.holds hrB)).bind fun _ g5 ⟨hg5, hback⟩ => ?_
  have hg15 : Grows g1 g5 := hg14.trans hg5
  refine linked_spec (s := .whileLoop n e k s) (hg1.trans hg15) (hg5.holds hlE) (hg15.holds hrB) rfl
    fun E hE => ?_
  -- the skip leads to the body and behind the loop, the condition to the skip
  exact ⟨leftB, rightB, rightE, hbB E (hg15.within hE), hbK E ((hg4.trans hg5).within hE),
    hbE E (hg5.within hE), hback E hE, subset_rfl⟩

theorem specFrom_doLoop (ih : SpecFrom env s) : SpecFrom env (.doLoop n s e k) := by
  intro nl L g hnl
  refine (concfgE_spec e hnl).bind fun r1 g1 ⟨hg1, leftE, rightE, hlE, hrE, hbE⟩ => ?_
  refine (concfgSkip_spec env k hlE).bind fun r2 g2 ⟨hg2, hlK, _, hbK, _⟩ => ?_
  refine (ih hlK).bind fun r3 g3 ⟨hg3, hj3, leftB, rightB, hlB, hrB, hbB⟩ => ?_
  have hg13 : Grows g1 g3 := hg2.trans hg3
  -- nothing is said of the rightmost nodes: they are not those of the last round
  have hbuilt : ∀ E, g3.Within E → (s.jumps = false → Into E e.node leftB) → ∀ right,
      BuiltBody E env (.doLoop n s e k) L leftB right := fun E hE hback _ =>
    ⟨leftE, rightE, rightB, hbE E (hg13.within hE), hbK E (hg3.within hE), hbB E hE, hback⟩
  cases hj : r3.jumps with
  | true =>
    have hs : s.jumps = true := hj3 ▸ hj
    refine linked_spec (s := .doLoop n s e k) (hg1.trans hg13) hlB hrB hs.symm fun E hE => ?_
    exact hbuilt E hE (fun h => absurd (hs.symm.trans h) (by decide)) _
  | false =>
    refine (addSuccs_spec e.node hlB).bind fun _ g4 ⟨hg4, hback⟩ => ?_
    refine linked_spec (s := .doLoop n s e k) ((hg1.trans hg13).trans hg4) (hg4.holds hlB)
      ((hg13.trans hg4).holds hrE) (hj.symm.trans hj3) fun E hE => ?_
    exact hbuilt E (hg4.within hE) (fun _ => hback E hE) _

theorem specFrom_brk : SpecFrom env (.brk n) := by
  intro nl L g hnl
  refine (nsig_spec (.jump n) g).bind fun l g1 ⟨hg1, hl⟩ => ?_
  exact linked_spec (s := .brk n) hg1 hl hl rfl fun _ _ => ⟨rfl, rfl⟩

theorem specFrom_cont : SpecFrom env (.cont n) := by
  intro nl L g hnl
  refine (nsig_spec (.jump n) g).bind fun l g1 ⟨hg1, hl⟩ => ?_
  exact linked_spec (s := .cont n) hg1 hl hl rfl fun _ _ => ⟨rfl, rfl⟩

theorem specFrom_ret {eo : Option Exp} : SpecFrom env (.ret n eo) := by
  intro nl L g hnl
  refine Ensures.bind (P := fun _ g' => Grows g g')
    (addSucc_grows g (.jump n) (.stmt env.exitStmt)) fun _ g0 hexit => ?_
  refine (nsig_spec (.jump n) g0).bind fun l g1 ⟨hg1, hl⟩ => ?_
  cases eo with
  | none => exact linked_spec (s := .ret n none) (hexit.trans hg1) hl hl rfl fun _ _ => rfl
  | some e =>
    refine ((concfgE_spec e hl).and (concfgE_jumps e l g1)).bind
      fun r g2 ⟨⟨hg2, left, right, hleft, hright, hb⟩, hj⟩ => ?_
    exact linked_spec (s := .ret n (some e)) ((hexit.trans hg1).trans hg2) hleft hright hj hb

end Forms

theorem concfgS_specFrom (env : CfgEnv) (s : Stmt) : SpecFrom env s := by
  induction s with
  | skip n => exact specFrom_skip
  | exp n e => exact specFrom_exp
  | cap n es => exact specFrom_cap
  | seq n s1 s2 ih1 ih2 => exact specFrom_seq ih1 ih2
  | ifThenElse n e s1 s2 ih1 ih2 => exact specFrom_ifThenElse ih1 ih2
  | whileLoop n e k s ih => exact specFrom_whileLoop ih
  | doLoop n s e k ih => exact specFrom_doLoop ih
  | brk n => exact specFrom_brk
  | cont n => exact specFrom_cont
  | ret n eo => exact specFrom_ret

theorem concfgS_spec (env : CfgEnv) (s : Stmt) : SpecS env s := by
  intro nl g hnl
  refine (concfgS_specFrom env s ⟨hnl, subset_rfl⟩).mono ?_
  exact fun r g' ⟨hg, hj, left, right, hl, hr, hb⟩ =>
    ⟨⟨hg, hl.1, hr.1, left, right, hl.2, hr.2, hb⟩, hj⟩

end ConcurrentCyclone.XInfer
