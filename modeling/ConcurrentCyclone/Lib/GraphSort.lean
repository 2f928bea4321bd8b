import ConcurrentCyclone.Lib.GraphKernel

/-!
# Topological order

`tsort` of `lib/graph.cyc` traverses a graph depth first. A node has the number `0` until it is
visited and `(unsigned int)-1` once it is in the output. On the stack it has the number of a call
that it leads back to. A node that one call leaves on the stack is taken from it by a call further
out, at the latest by the outermost one, whose number `1` cannot be undercut. So every node comes
out once, cycles or not. Without cycles, each call takes its own node from the stack, after all that
the node leads to. The numbers are depths of the recursion, of 32 bits, and not above the height of
the stack: they do not overflow if the nodes can be counted.
-/

set_option autoImplicit false

namespace ConcurrentCyclone.Lib.Graph

open Function Relation

variable {α : Type} [DecidableEq α]

/-- `(unsigned int)-1`, for a node whose component was found. -/
def found : UInt32 := 0xFFFFFFFF

/-- What `tsort0` updates. -/
structure SortState (α : Type) where
  output : List α
  N : α → Option UInt32
  S : List α

/-- The last loop of `tsort0`. (The set `component` is not used.) -/
def tsortPop (x : α) (output : List α) (N : α → Option UInt32) : List α → SortState α
  | [] => ⟨output, N, []⟩
  | top :: s =>
    let N := update N top (some found)
    let output := top :: output
    if top = x then ⟨output, N, s⟩ else tsortPop x output N s

/-- Visit the node with `rec` if its number is `0`. -/
def tsortVisit (rec : SortState α → α → UInt32 → Option (SortState α)) (k : UInt32)
    (st : SortState α) (y : α) : Option (SortState α) := do
  let n ← st.N y
  if n = 0 then rec st y k else some st

/-- The loop body of `tsort0`. -/
def tsortTarget (rec : SortState α → α → UInt32 → Option (SortState α)) (x : α) (k : UInt32)
    (st : SortState α) (y : α) : Option (SortState α) := do
  let st ← tsortVisit rec (k + 1) st y
  let ny ← st.N y
  let nx ← st.N x
  return if ny < nx then { st with N := update st.N x (some ny) } else st

/-- `tsort0`. -/
def tsort0 (input : Graph α) : Nat → SortState α → α → UInt32 → Option (SortState α)
  | 0, _, _, _ => none
  | fuel + 1, st, x, k => do
    let st ← (input.getTargets x).foldlM (tsortTarget (tsort0 input fuel) x k)
      ⟨st.output, update st.N x (some k), x :: st.S⟩
    let nx ← st.N x
    return if nx = k then tsortPop x st.output st.N st.S else st

/-- `tsort`. -/
def tsort (input : Graph α) : Option (List α) :=
  let N x := if x ∈ input.nodes then some 0 else none
  (input.nodes.foldlM (tsortVisit (tsort0 input input.nodes.length) 1) ⟨[], N, []⟩).map (·.output)

def Acyclic (g : Graph α) : Prop := ∀ x, ¬TransGen g.Edge x x

/-- The nodes that were visited. -/
def SortState.seen (st : SortState α) : List α := st.S ++ st.output

/-- Nodes are visited once, and come out after the nodes that they lead to. -/
structure Ordered (g : Graph α) (st : SortState α) : Prop where
  nodup : st.seen.Nodup
  nodes : st.seen ⊆ g.nodes
  num : ∀ x ∈ g.nodes, ∃ n, st.N x = some n ∧ (n = 0 ↔ x ∉ st.seen) ∧ (x ∈ st.output → n = found)
  order : g.Acyclic → ∀ l₁ a l₂, st.output = l₁ ++ a :: l₂ → ∀ b, g.Edge a b → b ∈ l₂

/-- A later state, with more nodes on the stack `S`. -/
structure Since (g : Graph α) (st : SortState α) (S : List α) (st' : SortState α) : Prop extends
    Ordered g st' where
  stack : S <:+ st'.S
  seen : st.seen ⊆ st'.seen
  keeps : ∀ y ∈ st.S, st'.N y = st.N y

/-- The call for `x` gives it a smaller number or leaves the stack as it was. -/
def Visits (g : Graph α) (st : SortState α) (x : α) (k : UInt32) (r : Option (SortState α)) :
    Prop :=
  ∃ st', r = some st' ∧ Since g st st.S st' ∧ x ∈ st'.seen ∧
    (st'.S = st.S ∨ ∃ n, st'.N x = some n ∧ n < k) ∧ (g.Acyclic → st'.S = st.S)

/-- In the call for `x`. -/
structure Within (g : Graph α) (st : SortState α) (x : α) (k : UInt32) (st' : SortState α) :
    Prop extends Since g st (x :: st.S) st' where
  low : ∃ n, st'.N x = some n ∧ n ≤ k ∧ (g.Acyclic → n = k)
  acyclic : g.Acyclic → st'.S = x :: st.S

variable {g : Graph α} {st st' : SortState α} {x y : α} {k : UInt32}
  {rec : SortState α → α → UInt32 → Option (SortState α)}

theorem not_found_lt (k : UInt32) : ¬found < k :=
  UInt32.not_lt.2 (UInt32.le_iff_toNat_le.2 (Nat.le_of_lt_succ k.toNat_lt))

theorem tsortPop_spec {S : List α} :
    ∀ {l : List α} (output : List α) (N : α → Option UInt32), x ∉ l →
    (tsortPop x output N (l ++ x :: S)).S = S ∧
    (tsortPop x output N (l ++ x :: S)).output = x :: (l.reverse ++ output) ∧
    ∀ y, (tsortPop x output N (l ++ x :: S)).N y = if y ∈ x :: l then some found else N y
  | [], output, N, _ => by simp [tsortPop, update_apply]
  | top :: l, output, N, hx => by
    obtain ⟨hne, hx⟩ := not_or.1 (mt List.mem_cons.2 hx)
    obtain ⟨hS, hout, hN⟩ := tsortPop_spec (top :: output) (update N top (some found)) hx (S := S)
    simp only [List.cons_append, tsortPop]
    grind

/-- A node that was seen is not visited again. -/
theorem Ordered.visit (h : Ordered g st) (hx : x ∈ g.nodes)
    (hrec : x ∉ st.seen → Visits g st x k (rec st x k)) :
    Visits g st x k (tsortVisit rec k st x) := by
  obtain ⟨n, hn, hzero, -⟩ := h.num x hx
  by_cases hseen : x ∈ st.seen
  · exact ⟨st, by simp [tsortVisit, hn, hzero, hseen], ⟨h, List.suffix_rfl, fun _ => id,
      fun _ _ => rfl⟩, hseen, .inl rfl, fun _ => rfl⟩
  · simpa [tsortVisit, hn, hzero, hseen] using hrec hseen

theorem Within.target (h : Within g st x k st') (hmem : x ∉ st.S) (hy : y ∈ g.nodes)
    (hlead : g.Acyclic → y ∉ x :: st.S)
    (hrec : y ∉ st'.seen → Visits g st' y (k + 1) (rec st' y (k + 1))) :
    ∃ st'', tsortTarget rec x k st' y = some st'' ∧ Within g st x k st'' ∧ y ∈ st''.seen ∧
      st'.seen ⊆ st''.seen := by
  obtain ⟨st1, hst1, hsince, hseen, -, hS⟩ := h.toOrdered.visit hy hrec
  obtain ⟨nx, hnx, hle, hk⟩ := h.low
  obtain ⟨ny, hny, hzero, hfound⟩ := hsince.num y hy
  have hxS : x ∈ st'.S := h.stack.mem (.head _)
  rw [← hsince.keeps x hxS] at hnx
  have hwithin : Within g st x k st1 := by
    refine ⟨⟨hsince.toOrdered, h.stack.trans hsince.stack, List.Subset.trans h.seen hsince.seen,
      fun z hz => ?_⟩, ⟨nx, hnx, hle, hk⟩, fun ha => (hS ha).trans (h.acyclic ha)⟩
    exact (hsince.keeps z (h.stack.mem (.tail _ hz))).trans (h.keeps z hz)
  by_cases hlt : ny < nx
  · -- the target is on the stack
    have hx : x ∈ st1.seen ∧ x ∉ st1.output := by
      have hx : x ∈ st1.S := hsince.stack.mem hxS
      exact ⟨List.mem_append_left _ hx, (List.disjoint_of_nodup_append hsince.nodup) hx⟩
    refine ⟨{ st1 with N := update st1.N x (some ny) }, by simp [tsortTarget, hst1, hny, hnx, hlt],
      ⟨⟨⟨hsince.nodup, hsince.nodes, fun z hz => ?_, hsince.order⟩, hwithin.stack, hwithin.seen,
        fun z hz => ?_⟩, ⟨ny, update_self .., UInt32.le_trans (UInt32.le_of_lt hlt) hle,
        fun ha => ?_⟩, hwithin.acyclic⟩,
      hseen, hsince.seen⟩
    · by_cases hzx : z = x
      · subst hzx
        exact ⟨ny, update_self .., iff_of_false (mt hzero.1 (not_not.2 hseen)) (not_not.2 hx.1),
          fun hz => absurd hz hx.2⟩
      · simpa [update_of_ne hzx, SortState.seen] using hsince.num z hz
    · exact (update_of_ne (ne_of_mem_of_not_mem hz hmem) ..).trans (hwithin.keeps z hz)
    · have hout := (List.mem_append.1 hseen).resolve_left (hwithin.acyclic ha ▸ hlead ha)
      exact absurd hlt (hfound hout ▸ not_found_lt nx)
  · exact ⟨st1, by simp [tsortTarget, hst1, hny, hnx, hlt], hwithin, hseen, hsince.seen⟩

theorem Ordered.push (h : Ordered g st) (hx : x ∈ g.nodes) (hseen : x ∉ st.seen) (hk : k ≠ 0) :
    Within g st x k ⟨st.output, update st.N x (some k), x :: st.S⟩ := by
  obtain ⟨hS, hout⟩ := not_or.1 (mt List.mem_append.2 hseen)
  refine ⟨⟨⟨List.nodup_cons.2 ⟨hseen, h.nodup⟩, List.cons_subset.2 ⟨hx, h.nodes⟩, fun z hz => ?_,
    h.order⟩, List.suffix_rfl, List.subset_cons_self .., fun z hz => ?_⟩,
    ⟨k, update_self .., UInt32.le_refl k, fun _ => rfl⟩, fun _ => rfl⟩
  · by_cases hzx : z = x
    · subst hzx
      exact ⟨k, update_self .., by simp [SortState.seen, hk], fun hz => absurd hz hout⟩
    · simpa [SortState.seen, hzx] using h.num z hz
  · exact update_of_ne (ne_of_mem_of_not_mem hz hS) ..

/-- The nodes down to `x` come out. -/
theorem Within.pop (h : Within g st x k st')
    (hlead : g.Acyclic → ∀ y, g.Edge x y → y ∈ st'.output) :
    Visits g st x k (some (tsortPop x st'.output st'.N st'.S)) := by
  obtain ⟨l, hl⟩ := h.stack
  have hnodup := (List.nodup_append.1 h.nodup).1
  rw [← hl, List.nodup_middle, List.nodup_cons, List.mem_append, not_or] at hnodup
  obtain ⟨hS, hout, hN⟩ := tsortPop_spec st'.output st'.N hnodup.1.1 (S := st.S)
  rw [hl] at hS hout hN
  generalize tsortPop x st'.output st'.N st'.S = st'' at hS hout hN ⊢
  have hperm : st''.seen.Perm st'.seen := by
    simp only [SortState.seen, ← hl]
    grind
  have hmem : ∀ {z}, z ∈ st''.seen ↔ z ∈ st'.seen := hperm.mem_iff
  refine ⟨st'', rfl, ⟨⟨hperm.nodup_iff.2 h.nodup, fun z hz => h.nodes (hmem.1 hz),
    fun z hz => ?_, fun ha l1 a l2 hl12 b hab => ?_⟩, hS ▸ List.suffix_rfl,
    fun z hz => hmem.2 (h.seen hz), fun z hz => ?_⟩, ?_, .inl hS, fun _ => hS⟩
  · obtain ⟨n, hn, hzero, hfound⟩ := h.num z hz
    rw [hN, hmem]
    split_ifs with hzl
    · have hz : z ∈ st'.seen := by
        rw [SortState.seen]
        grind
      exact ⟨found, rfl, iff_of_false (by decide) (not_not.2 hz), fun _ => rfl⟩
    · exact ⟨n, hn, hzero, fun hz => hfound (by simp_all)⟩
  · -- only `x` comes out
    obtain rfl : l = [] := by simpa [h.acyclic ha] using hl
    rw [hout] at hl12
    cases l1 with
    | nil =>
      obtain ⟨rfl, rfl⟩ := List.cons.inj hl12
      exact hlead ha b hab
    | cons _ l1 => exact h.order ha l1 a l2 (List.cons.inj hl12).2 b hab
  · rw [hN, if_neg, h.keeps z hz]
    rintro hzl
    rcases List.mem_cons.1 hzl with rfl | hzl
    · exact hnodup.1.2 hz
    · exact List.disjoint_of_nodup_append hnodup.2 hzl hz
  · exact hmem.2 (List.mem_append_left _ (h.stack.mem (.head _)))

theorem Ordered.length_lt (h : Ordered g st) (hx : x ∈ g.nodes) (hseen : x ∉ st.seen) :
    st.seen.length < g.nodes.length :=
  ((List.nodup_cons.2 ⟨hseen, h.nodup⟩).subperm (List.cons_subset.2 ⟨hx, h.nodes⟩)).length_le

theorem tsort0_visits (hclosed : ∀ x y, g.Edge x y → y ∈ g.nodes) (fuel : Nat) (h : Ordered g st)
    (hx : x ∈ g.nodes) (hseen : x ∉ st.seen) (hlead : g.Acyclic → ∀ s ∈ st.S, TransGen g.Edge s x)
    (hk : k ≠ 0) (hheight : k.toNat ≤ st.S.length + 1) (hcount : g.nodes.length < UInt32.size)
    (hfuel : g.nodes.length ≤ fuel + st.seen.length) :
    Visits g st x k (tsort0 g fuel st x k) := by
  induction fuel generalizing st x k with
  | zero =>
    have hlen := h.length_lt hx hseen
    omega
  | succ fuel ih =>
    -- the nodes on the stack lead to the targets
    have hlead' : g.Acyclic → ∀ y, g.Edge x y → ∀ s ∈ x :: st.S, TransGen g.Edge s y := by
      intro ha y hy s hs
      rcases List.mem_cons.1 hs with rfl | hs
      · exact .single hy
      · exact (hlead ha s hs).tail hy
    have hmem : x ∉ st.S := fun hS => hseen (List.mem_append_left _ hS)
    obtain ⟨st', hst', ⟨hwithin, -⟩, htargets, -⟩ := Worklist.foldlM_marks
      (P := fun st' => Within g st x k st' ∧ st.seen.length < st'.seen.length)
      (fun st y => y ∈ st.seen) (l := g.getTargets x) (fun y hy st' h' => by
        obtain ⟨h', hlen⟩ := h'
        have hxy := mem_getTargets.1 hy
        have hy := hclosed x y hxy
        have hrec : y ∉ st'.seen → Visits g st' y (k + 1) (tsort0 g fuel st' y (k + 1)) := by
          intro hseen'
          -- the stack has grown, and is still shorter than the list of nodes
          have hgrown := h'.stack.length_le
          have hshort := h'.toOrdered.length_lt hy hseen'
          rw [List.length_cons] at hgrown
          rw [SortState.seen, List.length_append] at hshort
          rw [UInt32.size] at hcount
          have hnext : (k + 1).toNat = k.toNat + 1 := by
            rw [UInt32.toNat_add, UInt32.toNat_one, Nat.mod_eq_of_lt (by omega)]
          refine ih h'.toOrdered hy hseen' (fun ha => h'.acyclic ha ▸ hlead' ha y hxy) ?_
            (by omega) (by omega)
          rintro hzero
          rw [hzero] at hnext
          cases hnext
        obtain ⟨st'', hst'', hwithin, hy, hsub⟩ :=
          h'.target hmem hy (fun ha hy => ha y (hlead' ha y hxy y hy)) hrec
        exact ⟨st'', hst'', ⟨hwithin, hlen.trans_le (h'.nodup.subperm hsub).length_le⟩, hy, hsub⟩)
      ⟨h.push hx hseen hk, Nat.lt_succ_self _⟩
    obtain ⟨n, hn, hle, hnk⟩ := hwithin.low
    rw [tsort0]
    simp only [hst', hn, Option.bind_eq_bind, Option.bind_some]
    split_ifs with heq
    · refine hwithin.pop fun ha y hxy => ?_
      have hy := htargets y (mem_getTargets.2 hxy)
      rw [SortState.seen, hwithin.acyclic ha] at hy
      exact (List.mem_append.1 hy).resolve_left fun hy => ha y (hlead' ha y hxy y hy)
    · exact ⟨st', rfl, ⟨hwithin.toOrdered, (List.suffix_cons ..).trans hwithin.stack, hwithin.seen,
        hwithin.keeps⟩, List.mem_append_left _ (hwithin.stack.mem (.head _)),
        .inr ⟨n, hn, UInt32.lt_of_le_of_ne hle heq⟩, fun ha => absurd (hnk ha) heq⟩

/-- Every node comes out once. Without cycles, the source of an edge comes before its target. -/
theorem tsort_spec (g : Graph α) (hclosed : ∀ x y, g.Edge x y → y ∈ g.nodes)
    (hcount : g.nodes.length < UInt32.size) :
    ∃ out, g.tsort = some out ∧ out.Nodup ∧ (∀ x, x ∈ out ↔ x ∈ g.nodes) ∧
      (g.Acyclic → ∀ a b, g.Edge a b → [a, b].Sublist out) := by
  have hinit : Ordered g ⟨[], fun x => if x ∈ g.nodes then some 0 else none, []⟩ :=
    ⟨List.nodup_nil, List.nil_subset _,
      fun x hx => ⟨0, if_pos hx, by simp [SortState.seen], by simp⟩, by simp⟩
  obtain ⟨st, hst, ⟨h, hS⟩, hnodes, -⟩ := Worklist.foldlM_marks
    (P := fun st => Ordered g st ∧ st.S = []) (fun st x => x ∈ st.seen) (l := g.nodes)
    (fun x hx st h => by
      obtain ⟨h, hS⟩ := h
      obtain ⟨st', hst', hsince, hx', hlow, -⟩ := h.visit hx fun hseen =>
        tsort0_visits (k := 1) hclosed g.nodes.length h hx hseen (by simp [hS]) (by decide)
          (Nat.le_add_left ..) hcount (Nat.le_add_right ..)
      refine ⟨st', hst', ⟨hsince.toOrdered, ?_⟩, hx', hsince.seen⟩
      obtain ⟨n, hn, hzero, -⟩ := hsince.num x hx
      rcases hlow with hS' | ⟨m, hm, hlt⟩
      · exact hS'.trans hS
      · cases hn.symm.trans hm
        have hn : n.toNat = 0 := Nat.lt_one_iff.1 (UInt32.lt_iff_toNat_lt.1 hlt)
        exact absurd hx' (hzero.1 (UInt32.toNat_inj.1 hn))) ⟨hinit, rfl⟩
  have hseen : st.seen = st.output := by rw [SortState.seen, hS, List.nil_append]
  rw [hseen] at hnodes
  refine ⟨st.output, by rw [tsort, hst, Option.map_some], hseen ▸ h.nodup,
    fun x => ⟨fun hx => h.nodes (hseen ▸ hx), hnodes x⟩, fun ha a b hab => ?_⟩
  obtain ⟨l1, l2, hl⟩ := List.append_of_mem (hnodes a (edge_iff.1 hab).1)
  rw [hl]
  exact ((List.singleton_sublist.2 (h.order ha l1 a l2 hl b hab)).cons_cons a).trans
    (List.sublist_append_right ..)

/-- `4` leads to `3`, and `3` to `0` through `1` and through `2`. -/
def diamond : Graph (Fin 5) :=
  ⟨[1, 3, 2, 4, 0], fun | 4 => [3] | 3 => [1, 2] | 2 => [0] | 1 => [0] | 0 => []⟩

theorem tsort_spec_diamond : diamond.tsort = some [4, 3, 2, 1, 0] ∧
    ∀ a b, diamond.Edge a b → [a, b].Sublist [4, 3, 2, 1, 0] := by
  have hdown : ∀ a b, diamond.isEdge a b = true → b < a := by decide
  have hacyclic : diamond.Acyclic := by
    have hless : ∀ a b, TransGen diamond.Edge a b → b < a := by
      intro a b h
      induction h with
      | single h => exact hdown _ _ h
      | tail _ h ih => exact Fin.lt_trans (hdown _ _ h) ih
    exact fun x hx => Fin.lt_irrefl x (hless x x hx)
  have hnodes : ∀ y, y ∈ diamond.nodes := by decide
  have hout : diamond.tsort = some [4, 3, 2, 1, 0] := by decide
  obtain ⟨out, hout', -, -, hsorted⟩ := tsort_spec diamond (fun _ y _ => hnodes y) (by decide)
  cases hout.symm.trans hout'
  exact ⟨hout, hsorted hacyclic⟩

end ConcurrentCyclone.Lib.Graph
