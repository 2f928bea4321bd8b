import Mathlib.Data.List.Perm.Basic
import ConcurrentCyclone.Worklist.Waiting
import ConcurrentCyclone.XInfer.Enclosing

/-!
# Control-flow graphs with counters of predecessors

`add_succ` builds the graph and counts for each node its predecessors along front edges, the edges
to a node with a smaller id. `work_list` walks over a graph; `adjust_pred_counts` uses it to find
the nodes that can be reached, and takes the others back from the counters of their successors. The
first two parts follow the source; an exception (`env_err`) is an error of `Except`.

A work list whose function lets a node wait until others were processed runs as a list of nodes that
wait (`worksAs_run`). After `adjust_pred_counts`, the counter of a node is the number of its
predecessors along front edges that can be reached (`adjust_predsFront`).
-/

set_option autoImplicit false

namespace ConcurrentCyclone.XInfer

open Function

open Worklist (System State run run_ends run_inv run_succ done_iff_fires Fires Queued)

variable {N R S E : Type}

/-! ## The graph -/

/-- The fields of a node that do not change. -/
structure FlowNode (R : Type) where
  id : Nat
  isExit : Bool
  loc : Seg
  enclosingXrgn : List (RegionDecl R)

/-- A graph with the counters `preds_front`. -/
structure FlowGraph (N R : Type) where
  node : N → FlowNode R
  succ : N → List N
  predsFront : N → Int

namespace FlowGraph

/-- Nodes without edges. -/
def new (node : N → FlowNode R) : FlowGraph N R := ⟨node, fun _ => [], fun _ => 0⟩

/-- `is_frontedge` of `node_in_flow`. -/
def isFrontedge (g : FlowGraph N R) (src dst : N) : Bool := (g.node src).id > (g.node dst).id

variable [DecidableEq N]

/-- `add_succ`. -/
def addSucc (g : FlowGraph N R) (n₁ n₂ : N) : FlowGraph N R :=
  if n₂ ∈ g.succ n₁ then g
  else
    { g with
      predsFront :=
        if (g.node n₁).id > (g.node n₂).id ∨ (g.node n₁).id = 0 then
          update g.predsFront n₂ (g.predsFront n₂ + 1)
        else g.predsFront
      succ := update g.succ n₁ (n₂ :: g.succ n₁) }

/-- The graph with the given edges. -/
def build (node : N → FlowNode R) (edges : List (N × N)) : FlowGraph N R :=
  edges.foldl (fun g e => g.addSucc e.1 e.2) (new node)

/-- `adjust_succs`. -/
def adjustSuccs (g : FlowGraph N R) (n : N) : FlowGraph N R :=
  { g with
    predsFront := (g.succ n).foldl
      (fun count hd =>
        if g.isFrontedge n hd then update count hd (count hd - 1) else count)
      g.predsFront }

end FlowGraph

/-! ## Work lists -/

/-- The variables of `work_list`, and what `f` works on. -/
structure WorkState (N S : Type) where
  workq : List N
  visited : List N
  data : S

section WorkList

variable [DecidableEq N]

/-- The body of the loop of `work_list`. -/
def workListStep (succs : N → List N) (f : N → S → Except E (Bool × S)) (w : WorkState N S) :
    Except E (WorkState N S) :=
  match w.workq with
  | [] => .ok w
  | n :: workq =>
    if n ∈ w.visited then .ok { w with workq := workq }
    else
      (f n w.data).map fun r =>
        if r.1 then ⟨workq ++ succs n, w.visited ++ [n], r.2⟩
        else ⟨workq ++ [n], w.visited, r.2⟩

/-- `work_list`, `k` times through the loop. -/
def workList (succs : N → List N) (f : N → S → Except E (Bool × S)) :
    Nat → WorkState N S → Except E (WorkState N S)
  | 0, w => .ok w
  | k + 1, w => (workList succs f k w).bind (workListStep succs f)

/-- `reachable_node`. -/
def reachableNode (n : N) (s : List N) : Except Empty (Bool × List N) := .ok (true, n :: s)

/-- `adjust_pred_counts`, with `k` times through the loop of `work_list`; `none` if this is not
enough. `all` are the nodes of the function. -/
def adjustPredCounts (g : FlowGraph N R) (all : List N) (root : N) (k : Nat) :
    Option (FlowGraph N R) :=
  match workList g.succ reachableNode k ⟨[root], [], []⟩ with
  | .ok w =>
    if w.workq = [] then
      some ((all.filter fun n => n ∉ w.data).foldl FlowGraph.adjustSuccs g)
    else none
  | .error _ => none

end WorkList

/-! ## A work list that runs as a list of nodes that wait -/

section Simulation

variable [DecidableEq N] {succs : N → List N} {f : N → S → Except E (Bool × S)} {sys : System N}
  {start : List N} {I : S → List N → Prop}

/-- `f` processes a node exactly when the nodes that it waits for were processed, and keeps `I`. -/
structure Waits (sys : System N) (start : List N) (f : N → S → Except E (Bool × S))
    (I : S → List N → Prop) : Prop where
  ready : ∀ {n d b d' done}, f n d = .ok (b, d') → I d done →
    (b = true ↔ ∀ m ∈ sys.needs n, m ∈ done)
  wait : ∀ {n d d' done}, f n d = .ok (false, d') → I d done → I d' done
  process : ∀ {n d d' done}, f n d = .ok (true, d') → Queued sys start n → n ∉ done → I d done →
    I d' (done ++ [n])

/-- The state of `work_list` and that of the list of nodes that wait. -/
structure WorksAs (I : S → List N → Prop) (w : WorkState N S) (t : State N) : Prop where
  workq : w.workq = t.queue
  visited : w.visited = t.done
  data : I w.data t.done

theorem WorksAs.step (hf : Waits sys start f I) (hnext : sys.next = succs) {w w' : WorkState N S}
    {t : State N} (h : WorksAs I w t) (hqueued : ∀ n ∈ t.queue, Queued sys start n)
    (hstep : workListStep succs f w = .ok w') : WorksAs I w' (Worklist.step sys t) := by
  subst hnext
  unfold workListStep at hstep
  unfold Worklist.step
  rw [← h.workq] at hqueued ⊢
  cases hq : w.workq with
  | nil =>
    rw [hq] at hstep
    cases hstep
    exact h
  | cons n workq =>
    rw [hq] at hstep hqueued
    simp only [h.visited] at hstep ⊢
    by_cases hdone : n ∈ t.done
    · simp only [if_pos hdone] at hstep ⊢
      cases hstep
      exact ⟨rfl, rfl, h.data⟩
    · simp only [if_neg hdone] at hstep ⊢
      obtain ⟨⟨b, d'⟩, hrun, rfl⟩ := Transition.map_eq_ok.1 hstep
      have hready := hf.ready hrun h.data
      cases b with
      | true =>
        rw [if_pos (hready.1 rfl)]
        exact ⟨rfl, rfl, hf.process hrun (hqueued n (.head _)) hdone h.data⟩
      | false =>
        rw [if_neg fun hall => Bool.false_ne_true (hready.2 hall)]
        exact ⟨rfl, rfl, hf.wait hrun h.data⟩

/-- The runs of `work_list` are those of the list of nodes that wait. -/
theorem worksAs_run (hf : Waits sys start f I) (hnext : sys.next = succs) {d : S} (hd : I d [])
    {k : Nat} {w : WorkState N S} (hrun : workList succs f k ⟨start, [], d⟩ = .ok w) :
    WorksAs I w (run sys k ⟨start, []⟩) := by
  induction k generalizing w with
  | zero =>
    cases hrun
    exact ⟨rfl, rfl, hd⟩
  | succ k ih =>
    obtain ⟨w1, hk, hstep⟩ := Transition.bind_eq_ok.1 hrun
    rw [run_succ]
    exact (ih hk).step hf hnext (run_inv sys start k).queued hstep

end Simulation

/-! ## Reachable nodes -/

section Reachable

variable [DecidableEq N]

/-- The node can be reached from the root. -/
def FlowGraph.Reaches (g : FlowGraph N R) (root : N) : N → Prop :=
  Relation.ReflTransGen (fun m n => n ∈ g.succ m) root

/-- The work list of `adjust_pred_counts`: no node waits. -/
def FlowGraph.reachSystem (g : FlowGraph N R) : System N := ⟨fun _ => [], g.succ⟩

omit [DecidableEq N] in
theorem FlowGraph.fires_reachSystem {g : FlowGraph N R} {root n : N} :
    Fires g.reachSystem [root] n ↔ g.Reaches root n := by
  have hneeds : ∀ n, ∀ m ∈ g.reachSystem.needs n, Fires g.reachSystem [root] m :=
    fun n m hm => absurd hm List.not_mem_nil
  constructor
  · intro h
    induction h with
    | start h _ _ =>
      rw [List.mem_singleton.1 h]
      exact .refl
    | next _ h _ ih _ => exact ih.tail h
  · intro h
    induction h with
    | refl => exact .start (List.mem_singleton_self root) (hneeds root)
    | tail _ h ih => exact .next ih h (hneeds _)

omit [DecidableEq N] in
theorem waits_reachableNode (g : FlowGraph N R) (root : N) :
    Waits g.reachSystem [root] reachableNode (fun d done => ∀ n, n ∈ d ↔ n ∈ done) where
  ready := by
    intro n d b d' done hrun _
    cases hrun
    exact ⟨fun _ m hm => absurd hm List.not_mem_nil, fun _ => rfl⟩
  wait := by
    exact nofun
  process := by
    intro n d d' done hrun _ _ hdata m
    cases hrun
    rw [List.mem_cons, hdata m, List.mem_append, List.mem_singleton, or_comm]

/-- A work list that got empty at some time has no exception, neither before nor afterwards. -/
theorem workList_ne_error {succs : N → List N} {f : N → S → Except E (Bool × S)} {k : Nat}
    {w w' : WorkState N S} (h : workList succs f k w = .ok w') (hend : w'.workq = []) (j : Nat)
    (e : E) : workList succs f j w ≠ .error e := by
  intro herr
  rcases Nat.le_total j k with hjk | hkj
  · -- an exception stays
    have hstays : ∀ d, workList succs f (j + d) w = .error e := by
      intro d
      induction d with
      | zero => exact herr
      | succ d ih =>
        rw [← Nat.add_assoc, workList, ih]
        rfl
    obtain ⟨d, rfl⟩ := Nat.exists_eq_add_of_le hjk
    rw [hstays d] at h
    cases h
  · have hstays : ∀ d, workList succs f (k + d) w = .ok w' := by
      intro d
      induction d with
      | zero => exact h
      | succ d ih =>
        rw [← Nat.add_assoc, workList, ih]
        show workListStep succs f w' = .ok w'
        rw [workListStep, hend]
    obtain ⟨d, rfl⟩ := Nat.exists_eq_add_of_le hkj
    rw [hstays d] at herr
    cases herr

theorem workList_reachableNode (succs : N → List N) (k : Nat) (w : WorkState N (List N)) :
    ∃ w', workList succs reachableNode k w = .ok w' := by
  induction k with
  | zero => exact ⟨w, rfl⟩
  | succ k ih =>
    obtain ⟨w1, hw1⟩ := ih
    rw [workList, hw1]
    show ∃ w', workListStep succs reachableNode w1 = .ok w'
    unfold workListStep
    split
    · exact ⟨_, rfl⟩
    · split <;> exact ⟨_, rfl⟩

/-- `adjust_pred_counts` ends, and works on the nodes that cannot be reached. -/
theorem adjustPredCounts_ends (g : FlowGraph N R) {all : List N} (hall : ∀ n, n ∈ all) (root : N) :
    ∃ k g', adjustPredCounts g all root k = some g' := by
  have hfires : ∀ n, Queued g.reachSystem [root] n → Fires g.reachSystem [root] n :=
    fun n hn => hn.fires fun m hm => absurd hm List.not_mem_nil
  obtain ⟨k, hk⟩ := run_ends hfires (fun n _ => hall n)
  obtain ⟨w, hw⟩ := workList_reachableNode g.succ k ⟨[root], [], []⟩
  have hend : w.workq = [] :=
    (worksAs_run (waits_reachableNode g root) rfl (fun _ => Iff.rfl) hw).workq.trans hk
  refine ⟨k, (all.filter fun n => n ∉ w.data).foldl FlowGraph.adjustSuccs g, ?_⟩
  rw [adjustPredCounts, hw]
  exact if_pos hend

theorem adjustPredCounts_eq {g g' : FlowGraph N R} {all : List N} {root : N} {k : Nat}
    (h : adjustPredCounts g all root k = some g') :
    ∃ reach : List N, (∀ n, n ∈ reach ↔ g.Reaches root n) ∧
      g' = (all.filter fun n => n ∉ reach).foldl FlowGraph.adjustSuccs g := by
  obtain ⟨w, hw⟩ := workList_reachableNode g.succ k ⟨[root], [], []⟩
  rw [adjustPredCounts, hw] at h
  have hrun := worksAs_run (waits_reachableNode g root) rfl (fun _ => Iff.rfl) hw
  dsimp only at h
  split_ifs at h with hend
  refine ⟨w.data, fun n => ?_, (Option.some.inj h).symm⟩
  rw [hrun.data n, done_iff_fires (hrun.workq.symm.trans hend) n]
  exact FlowGraph.fires_reachSystem

end Reachable

/-! ## Counters -/

section Counters

variable [DecidableEq N] {all : List N}

/-- The nodes of a list that lead to `n` along a front edge. -/
def FlowGraph.frontPreds (g : FlowGraph N R) (nodes : List N) (n : N) : List N :=
  nodes.filter fun m => n ∈ g.succ m && g.isFrontedge m n

theorem FlowGraph.mem_frontPreds {g : FlowGraph N R} {nodes : List N} {m n : N} :
    m ∈ g.frontPreds nodes n ↔ m ∈ nodes ∧ n ∈ g.succ m ∧ g.isFrontedge m n = true := by
  rw [frontPreds, List.mem_filter, Bool.and_eq_true, decide_eq_true_eq]

/-- Successors are distinct, and `preds_front` counts the predecessors along front edges. -/
structure CountsFront (all : List N) (g : FlowGraph N R) : Prop where
  nodup : ∀ n, (g.succ n).Nodup
  count : ∀ n, g.predsFront n = (g.frontPreds all n).length

omit [DecidableEq N] in
/-- One more predecessor. -/
theorem length_filter_succ (hnodup : all.Nodup) {p q : N → Bool} {a : N} (ha : a ∈ all)
    (hp : p a = false) (hq : ∀ m, q m = true ↔ p m = true ∨ m = a) :
    (all.filter q).length = (all.filter p).length + 1 := by
  have hperm : (all.filter q).Perm (a :: all.filter p) := by
    refine (List.perm_ext_iff_of_nodup (hnodup.filter q)
      (List.nodup_cons.2 ⟨by simp [hp], hnodup.filter p⟩)).2 fun m => ?_
    rw [List.mem_cons, List.mem_filter, List.mem_filter, hq m]
    grind
  exact hperm.length_eq

theorem CountsFront.addSucc {g : FlowGraph N R} (h : CountsFront all g) (hnodup : all.Nodup)
    (hid : ∀ n, (g.node n).id ≠ 0) (n1 n2 : N) (hmem : n1 ∈ all) :
    CountsFront all (g.addSucc n1 n2) := by
  unfold FlowGraph.addSucc
  split
  · exact h
  · rename_i hold
    refine ⟨fun n => ?_, fun n => ?_⟩
    · have hnew : (n2 :: g.succ n1).Nodup := List.nodup_cons.2 ⟨hold, h.nodup n1⟩
      by_cases hn : n = n1 <;> simp only [hn, update_self, update_of_ne, ne_eq, hnew, h.nodup,
        not_false_eq_true]
    · simp only [hid n1, or_false]
      -- the predecessors in the new graph
      have hpred : ∀ m, (n ∈ update g.succ n1 (n2 :: g.succ n1) m && g.isFrontedge m n) = true ↔
          (n ∈ g.succ m && g.isFrontedge m n) = true ∨
            m = n1 ∧ (g.node n1).id > (g.node n2).id ∧ n = n2 := by
        intro m
        simp only [Bool.and_eq_true, decide_eq_true_eq, FlowGraph.isFrontedge]
        by_cases hm : m = n1
        · subst hm
          rw [update_self, List.mem_cons]
          grind
        · simp [hm]
      by_cases hfront : (g.node n1).id > (g.node n2).id ∧ n = n2
      · obtain ⟨hgt, rfl⟩ := hfront
        rw [if_pos hgt, update_self, h.count n]
        have hlength := length_filter_succ hnodup hmem (by simp [hold]) fun m =>
          (hpred m).trans (or_congr_right (and_iff_left ⟨hgt, rfl⟩))
        exact (congrArg Int.ofNat hlength).symm
      · -- the edge is no front edge to `n`
        have hcount : (if (g.node n1).id > (g.node n2).id then
            update g.predsFront n2 (g.predsFront n2 + 1) else g.predsFront) n =
            g.predsFront n := by
          split
          · rename_i hgt
            exact update_of_ne (fun hn => hfront ⟨hgt, hn⟩) _ _
          · rfl
        rw [hcount, h.count n]
        refine congrArg (fun l : List N => (l.length : Int)) (List.filter_congr fun m _ => ?_)
        exact Bool.eq_iff_iff.2 ((or_iff_left (mt And.right hfront)).symm.trans (hpred m).symm)

theorem FlowGraph.node_addSucc (g : FlowGraph N R) (n1 n2 : N) :
    (g.addSucc n1 n2).node = g.node := by
  unfold addSucc
  split
  · rfl
  · rfl

theorem FlowGraph.node_build (node : N → FlowNode R) (edges : List (N × N)) :
    (build node edges).node = node := by
  suffices h : ∀ g : FlowGraph N R,
      (edges.foldl (fun g e => g.addSucc e.1 e.2) g).node = g.node from h (new node)
  intro g
  induction edges generalizing g with
  | nil => rfl
  | cons e edges ih => exact (ih _).trans (node_addSucc g e.1 e.2)

/-- The counters after `add_succ` was called for all edges. -/
theorem countsFront_build (node : N → FlowNode R) (hid : ∀ n, (node n).id ≠ 0)
    (hall : ∀ n, n ∈ all) (hnodup : all.Nodup) (edges : List (N × N)) :
    CountsFront all (FlowGraph.build node edges) := by
  suffices h : ∀ g : FlowGraph N R, g.node = node → CountsFront all g →
      CountsFront all (edges.foldl (fun g e => g.addSucc e.1 e.2) g) by
    refine h _ rfl ⟨fun n => List.nodup_nil, fun n => ?_⟩
    simp [FlowGraph.new, FlowGraph.frontPreds]
  intro g hnode h
  induction edges generalizing g with
  | nil => exact h
  | cons e edges ih =>
    apply ih
    · rw [FlowGraph.node_addSucc, hnode]
    · apply h.addSucc hnodup
      · rw [hnode]
        exact hid
      · exact hall e.1

/-- One node that cannot be reached: it is taken back for its successors. -/
theorem adjustSuccs_predsFront (g : FlowGraph N R) (m : N) (hnodup : (g.succ m).Nodup) (n : N) :
    (g.adjustSuccs m).predsFront n = g.predsFront n - (g.frontPreds [m] n).length := by
  have fold : ∀ (l : List N) (count : N → Int), l.Nodup →
      l.foldl (fun count hd =>
        if g.isFrontedge m hd then update count hd (count hd - 1) else count) count n =
      count n - if n ∈ l ∧ g.isFrontedge m n = true then 1 else 0 := by
    intro l
    induction l with
    | nil => simp
    | cons hd l ih =>
      intro count hl
      obtain ⟨hnot, hl⟩ := List.nodup_cons.1 hl
      rw [List.foldl_cons, ih _ hl]
      by_cases hn : n = hd
      · subst hn
        by_cases hfront : g.isFrontedge m n = true <;> simp [hfront, hnot]
      · by_cases hfront : g.isFrontedge m hd = true <;> simp [hfront, hn]
  rw [FlowGraph.adjustSuccs]
  simp only
  rw [fold _ _ hnodup, FlowGraph.frontPreds]
  by_cases h : n ∈ g.succ m ∧ g.isFrontedge m n = true
  · rw [if_pos h, List.filter_cons_of_pos (by simp [h.1, h.2])]
    rfl
  · rw [if_neg h, List.filter_cons_of_neg (by simpa using h)]
    rfl

/-- `adjust_succs` for a list of nodes. -/
theorem foldl_adjustSuccs (g : FlowGraph N R) (hnodup : ∀ n, (g.succ n).Nodup) (l : List N) :
    (l.foldl FlowGraph.adjustSuccs g).node = g.node ∧
      (l.foldl FlowGraph.adjustSuccs g).succ = g.succ ∧
      ∀ n, (l.foldl FlowGraph.adjustSuccs g).predsFront n =
        g.predsFront n - (g.frontPreds l n).length := by
  induction l generalizing g with
  | nil => exact ⟨rfl, rfl, fun n => by simp [FlowGraph.frontPreds]⟩
  | cons m l ih =>
    obtain ⟨hnode, hsucc, hcount⟩ := ih (g.adjustSuccs m) hnodup
    refine ⟨hnode, hsucc, fun n => ?_⟩
    rw [List.foldl_cons, hcount n, adjustSuccs_predsFront g m (hnodup m) n]
    have happend : g.frontPreds (m :: l) n = g.frontPreds [m] n ++ g.frontPreds l n :=
      List.filter_append [m] l
    have hsame : (g.adjustSuccs m).frontPreds l n = g.frontPreds l n := rfl
    rw [happend, hsame, List.length_append]
    push_cast
    omega

/-- The nodes that can be reached, and wait for those of them that lead to them along front
edges. -/
def FlowGraph.system (g : FlowGraph N R) (nodes : List N) : System N :=
  ⟨g.frontPreds nodes, g.succ⟩

/-- After `adjust_pred_counts`, a node counts the predecessors along front edges that can be
reached. -/
theorem adjust_predsFront {g g' : FlowGraph N R} (h : CountsFront all g) {root : N} {k : Nat}
    (hadjust : adjustPredCounts g all root k = some g') :
    ∃ reach : List N, (∀ n, n ∈ reach ↔ g.Reaches root n) ∧ g'.node = g.node ∧ g'.succ = g.succ ∧
      ∀ n, g'.predsFront n = (g.frontPreds (all.filter fun m => m ∈ reach) n).length := by
  obtain ⟨reach, hreach, rfl⟩ := adjustPredCounts_eq hadjust
  obtain ⟨hnode, hsucc, hcount⟩ := foldl_adjustSuccs g h.nodup (all.filter fun n => n ∉ reach)
  refine ⟨reach, hreach, hnode, hsucc, fun n => ?_⟩
  rw [hcount n, h.count n]
  have hperm : ((all.filter fun m => m ∈ reach) ++ all.filter fun m => m ∉ reach).Perm all := by
    have hsplit := List.filter_append_perm (fun m => decide (m ∈ reach)) all
    simpa only [decide_not] using hsplit
  have hlength := (hperm.filter fun m => n ∈ g.succ m && g.isFrontedge m n).length_eq
  rw [List.filter_append, List.length_append] at hlength
  unfold FlowGraph.frontPreds
  omega

end Counters

end ConcurrentCyclone.XInfer
