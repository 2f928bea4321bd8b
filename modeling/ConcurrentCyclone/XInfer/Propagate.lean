import Mathlib.Algebra.Order.BigOperators.Group.List
import Mathlib.Algebra.Order.Group.Nat
import Mathlib.Data.Fintype.Basic
import Mathlib.Tactic.FinCases
import ConcurrentCyclone.XInfer.FlowGraph
import ConcurrentCyclone.XInfer.Prefix
import ConcurrentCyclone.XInfer.ZeroSum

/-!
# Propagation of effects through a control-flow graph

`analyze_cfg` runs `work_list` with `node_update_flow`: a node waits until it was visited along all
front edges; then its output is computed and sent to its successors, where it is merged into the
input (front edges) or checked (back edges). The first part follows the source. What a node adds to
its input is a parameter (`Gen`), as it depends on the expression or statement of the node.

The work list is one of nodes that wait (`Adjusted.worksAs`). Unless an exception ends it, the
propagation comes to an end with every node processed once and after its predecessors along front
edges exactly if all nodes fire (`propagation_complete_iff`). `not_propagation_complete` is the
graph of a loop that is entered in the middle: its nodes wait for each other.
-/

set_option autoImplicit false

namespace ConcurrentCyclone.XInfer

open Function

open Transition (bind_eq_ok map_eq_ok)
open Worklist (run run_ends run_ordered done_iff_fires Fires Queued)

variable {N R : Type}

/-! ## Effects of nodes -/

/-- An exception of the propagation. -/
inductive FlowErr where
  | sameNode
  | undefinedConstraint
  | mergeUndefined
  | appendUndefined
  | undefinedInput
  | outShorter
  | env (e : EnvErr)
  /-- The effect of the node itself cannot be computed. -/
  | generate

/-- An error that is reported. -/
inductive FlowReport (R : Type) where
  | trans (e : TransErr R)
  | zero (e : ZeroErr R)

/-- The fields of all nodes that change, and the errors that were reported. -/
structure FlowState (N R : Type) where
  input : N → List (Con R)
  output : N → List (Con R)
  predsFrontVisited : N → Nat
  reports : List (FlowReport R)

/-- What `node_update_flow` passes to `node_out_flow` or `node_out_flows`; `NULL` is `none`, and for
a list `[]`. -/
inductive Gen (R : Type) where
  | flow (c : Option (Con R))
  | flows (c : List (Con R))

/-- The part of `out` that is checked on a back edge to a node with input `inp`. -/
def loopBody (inp out : List (Con R)) : List (Con R) :=
  if consIsEmpty inp then out else out.drop inp.length

section Flow

variable [DecidableEq N] [DecidableEq R]

/-- `to->preds_front_visited++`, for a front edge. -/
def FlowState.visit (s : FlowState N R) (front : Bool) (dst : N) : FlowState N R :=
  if front then
    { s with predsFrontVisited :=
        update s.predsFrontVisited dst (s.predsFrontVisited dst + 1) }
  else s

/-- The end of `node_in_flow` on a front edge. -/
def frontFlow (dst : N) (loc : Seg) (flow : List (Con R)) (s : FlowState N R) :
    Except FlowErr (FlowState N R) :=
  match consMerge (s.input dst) flow loc with
  | none => .error .mergeUndefined
  | some c => .ok { s with input := update s.input dst c }

/-- The end of `node_in_flow` on a back edge. -/
def backFlow (dst : N) (locs : Seg × Seg) (flow : List (Con R)) (s : FlowState N R) :
    Except FlowErr (FlowState N R) :=
  if (consPrefix flow).length < (s.input dst).length then .error .outShorter
  else
    match loopCheck (loopBody (s.input dst) (consPrefix flow)) locs with
    | .error e => .error (.env e)
    | .ok errs => .ok { s with reports := s.reports ++ errs.map .zero }

/-- `node_in_flow`. -/
def nodeInFlow (g : FlowGraph N R) (src dst : N) (s : FlowState N R) :
    Except FlowErr (FlowState N R) :=
  if (g.node src).isExit then .ok s
  else if src = dst then .error .sameNode
  else if consIsUndefined (s.output src) then .error .undefinedConstraint
  else
    match translateFlow (g.node src).enclosingXrgn (g.node dst).enclosingXrgn (g.node src).loc
      (s.output src) with
    | .error e => .error (.env e)
    | .ok (errs, flow) =>
      let s := s.visit (g.isFrontedge src dst) dst
      let s := { s with reports := s.reports ++ errs.map .trans }
      if g.isFrontedge src dst then frontFlow dst (g.node dst).loc flow s
      else backFlow dst ((g.node src).loc, (g.node dst).loc) flow s

/-- The loops over the successors in `node_out_flow` and `node_out_flows`. -/
def succsInFlow (g : FlowGraph N R) (n : N) : List N → FlowState N R →
    Except FlowErr (FlowState N R)
  | [], s => .ok s
  | m :: l, s => (nodeInFlow g n m s).bind (succsInFlow g n l)

/-- Sets the output of a node and sends it to the successors; `none` is the exception of
`cons_append`. -/
def sendOutput (g : FlowGraph N R) (n : N) (out : Option (List (Con R))) (s : FlowState N R) :
    Except FlowErr (FlowState N R) :=
  match out with
  | none => .error .appendUndefined
  | some out => succsInFlow g n (g.succ n) { s with output := update s.output n out }

/-- `node_out_flow`. -/
def nodeOutFlow (g : FlowGraph N R) (n : N) (c : Option (Con R)) (s : FlowState N R) :
    Except FlowErr (FlowState N R) :=
  match c with
  | some c => sendOutput g n (consAppend (s.input n) [c]) s
  | none => sendOutput g n (some (s.input n)) s

/-- `node_out_flows`. -/
def nodeOutFlows (g : FlowGraph N R) (n : N) (c : List (Con R)) (s : FlowState N R) :
    Except FlowErr (FlowState N R) :=
  if (g.node n).isExit then .ok s
  else if consIsUndefined (s.input n) then .error .undefinedInput
  else if c = [] then sendOutput g n (some (s.input n)) s
  else sendOutput g n (consAppend (s.input n) c) s

/-- `node_update_flow`, for what the nodes generate. -/
def nodeUpdateFlow (g : FlowGraph N R) (gen : N → FlowState N R → Except FlowErr (Gen R)) (n : N)
    (s : FlowState N R) : Except FlowErr (Bool × FlowState N R) :=
  if (s.predsFrontVisited n : Int) < g.predsFront n then .ok (false, s)
  else
    (gen n s).bind fun c =>
      (match c with
      | .flow c => nodeOutFlow g n c s
      | .flows c => nodeOutFlows g n c s).map fun s => (true, s)

/-- All effects are undefined, except for the input of the root (`node_in_flow_empty`). -/
def flowInit (root : N) : FlowState N R :=
  ⟨update (fun _ => [.undefined]) root [.empty], fun _ => [.undefined], fun _ => 0, []⟩

/-- The work list of `analyze_cfg` after `k` times through its loop. -/
def propagate (g : FlowGraph N R) (gen : N → FlowState N R → Except FlowErr (Gen R)) (root : N)
    (k : Nat) : Except FlowErr (WorkState N (FlowState N R)) :=
  workList g.succ (nodeUpdateFlow g gen) k ⟨[root], [], flowInit root⟩

end Flow

/-! ## The propagation -/

section Propagation

variable [DecidableEq N] [DecidableEq R]

omit [DecidableEq R] in
theorem FlowState.visit_apply (s : FlowState N R) (front : Bool) (dst m : N) :
    (s.visit front dst).predsFrontVisited m =
      s.predsFrontVisited m + if m = dst ∧ front = true then 1 else 0 := by
  unfold visit
  cases front with
  | true => by_cases hm : m = dst <;> simp [hm]
  | false => simp

variable {g : FlowGraph N R} {src dst : N} {s s' : FlowState N R}

section

variable (hexit : (g.node src).isExit = false) (h : nodeInFlow g src dst s = .ok s')

include hexit h

/-- What `node_in_flow` does, from a node that is no exit. -/
theorem nodeInFlow_cases :
    ∃ errs flow, translateFlow (g.node src).enclosingXrgn (g.node dst).enclosingXrgn
        (g.node src).loc (s.output src) = .ok (errs, flow) ∧
      ((g.isFrontedge src dst = true ∧ ∃ m, consMerge (s.input dst) flow (g.node dst).loc = some m ∧
          s' = { s.visit true dst with
            input := update s.input dst m
            reports := s.reports ++ errs.map .trans }) ∨
        (g.isFrontedge src dst = false ∧ ∃ reports, s' = { s with reports := reports })) := by
  unfold nodeInFlow at h
  rw [hexit, if_neg Bool.false_ne_true] at h
  rw [if_neg fun heq => by simp [heq] at h, if_neg fun hundef => by simp [hundef] at h] at h
  split at h
  · cases h
  · rename_i errs flow hflow
    refine ⟨errs, flow, hflow, ?_⟩
    cases hfront : g.isFrontedge src dst with
    | true =>
      rw [hfront, if_pos rfl, frontFlow] at h
      split at h
      · cases h
      · rename_i m hmerge
        cases h
        exact .inl ⟨rfl, m, hmerge, rfl⟩
    | false =>
      rw [hfront, if_neg Bool.false_ne_true, backFlow] at h
      split_ifs at h
      split at h
      · cases h
      · cases h
        exact .inr ⟨rfl, _, rfl⟩

/-- A front edge from a node that is no exit is counted. -/
theorem nodeInFlow_visited (m : N) :
    s'.predsFrontVisited m = s.predsFrontVisited m +
      if m = dst ∧ g.isFrontedge src dst = true then 1 else 0 := by
  rw [← FlowState.visit_apply]
  obtain ⟨errs, flow, -, ⟨hfront, c, -, rfl⟩ | ⟨hfront, reports, rfl⟩⟩ := nodeInFlow_cases hexit h
  · rw [hfront]
  · rw [hfront]
    rfl

/-- Only the input of the target changes, and only along a front edge. -/
theorem nodeInFlow_effects :
    s'.output = s.output ∧
      (∀ x, ¬ (x = dst ∧ g.isFrontedge src dst = true) → s'.input x = s.input x) ∧
      (g.isFrontedge src dst = true → ∃ errs flow,
        translateFlow (g.node src).enclosingXrgn (g.node dst).enclosingXrgn (g.node src).loc
          (s.output src) = .ok (errs, flow) ∧
        consMerge (s.input dst) flow (g.node dst).loc = some (s'.input dst)) := by
  obtain ⟨errs, flow, hflow, ⟨hfront, m, hm, rfl⟩ | ⟨hfront, reports, rfl⟩⟩ :=
    nodeInFlow_cases hexit h
  · refine ⟨rfl, fun x hx => update_of_ne (fun heq => hx ⟨heq, hfront⟩) _ _, fun _ => ?_⟩
    exact ⟨errs, flow, hflow, hm.trans (congrArg some (update_self dst m s.input).symm)⟩
  · exact ⟨rfl, fun x _ => rfl, fun htrue => absurd (hfront.symm.trans htrue) Bool.false_ne_true⟩

end

variable {n : N}

theorem succsInFlow_visited (hexit : (g.node n).isExit = false)
    {l : List N} (hl : l.Nodup) (h : succsInFlow g n l s = .ok s') (m : N) :
    s'.predsFrontVisited m = s.predsFrontVisited m +
      if m ∈ l ∧ g.isFrontedge n m = true then 1 else 0 := by
  induction l generalizing s with
  | nil =>
    cases h
    simp
  | cons dst l ih =>
    obtain ⟨hnot, hl⟩ := List.nodup_cons.1 hl
    obtain ⟨s₁, hfirst, h⟩ := bind_eq_ok.1 h
    rw [ih hl h, nodeInFlow_visited hexit hfirst m]
    by_cases hm : m = dst
    · subst hm
      simp [hnot]
    · simp [hm]

/-- The output that a node sends to its successors, when it is not an exit with `node_out_flows`. -/
inductive Sends (gen : N → FlowState N R → Except FlowErr (Gen R)) (n : N) (s : FlowState N R) :
    List (Con R) → Prop
  | copy : gen n s = .ok (.flow none) → Sends gen n s (s.input n)
  | one {c : Con R} {out : List (Con R)} : gen n s = .ok (.flow (some c)) →
      consAppend (s.input n) [c] = some out → Sends gen n s out
  | copies : gen n s = .ok (.flows []) → Sends gen n s (s.input n)
  | many {c out : List (Con R)} : gen n s = .ok (.flows c) → c ≠ [] →
      consAppend (s.input n) c = some out → Sends gen n s out

theorem sendOutput_eq {out : Option (List (Con R))} (h : sendOutput g n out s = .ok s') :
    ∃ out', out = some out' ∧
      succsInFlow g n (g.succ n) { s with output := update s.output n out' } = .ok s' := by
  unfold sendOutput at h
  split at h
  · cases h
  · exact ⟨_, rfl, h⟩

variable {gen : N → FlowState N R → Except FlowErr (Gen R)} {b : Bool}

/-- What `node_update_flow` does: the node waits, or its output is sent to its successors. -/
theorem nodeUpdateFlow_cases
    (h : nodeUpdateFlow g gen n s = .ok (b, s')) :
    (b = false ∧ (s.predsFrontVisited n : Int) < g.predsFront n ∧ s' = s) ∨
      (b = true ∧ g.predsFront n ≤ s.predsFrontVisited n ∧
        (((g.node n).isExit = true ∧ s' = s) ∨ ∃ out, Sends gen n s out ∧
          succsInFlow g n (g.succ n) { s with output := update s.output n out } =
            .ok s')) := by
  unfold nodeUpdateFlow at h
  split at h
  · rename_i hlt
    cases h
    exact .inl ⟨rfl, hlt, rfl⟩
  · rename_i hge
    obtain ⟨c, hgen, h⟩ := bind_eq_ok.1 h
    obtain ⟨s₁, hout, hs⟩ := map_eq_ok.1 h
    cases hs
    refine .inr ⟨rfl, Int.not_lt.1 hge, ?_⟩
    cases c with
    | flow c =>
      cases c with
      | none => exact .inr ⟨_, .copy hgen, hout⟩
      | some c =>
        obtain ⟨out, happend, hsent⟩ := sendOutput_eq hout
        exact .inr ⟨out, .one hgen happend, hsent⟩
    | flows c =>
      simp only [nodeOutFlows] at hout
      split_ifs at hout with hexit _ hnil
      · cases hout
        exact .inl ⟨hexit, rfl⟩
      · subst hnil
        exact .inr ⟨_, .copies hgen, hout⟩
      · obtain ⟨out, happend, hsent⟩ := sendOutput_eq hout
        exact .inr ⟨out, .many hgen hnil happend, hsent⟩

/-- What `node_update_flow` does to the counters: a node that is processed is counted for its
successors along front edges. -/
theorem nodeUpdateFlow_visited
    (hl : (g.succ n).Nodup) (hexit : (g.node n).isExit = true → g.succ n = [])
    (h : nodeUpdateFlow g gen n s = .ok (b, s')) :
    (b = false ∧ (s.predsFrontVisited n : Int) < g.predsFront n ∧ s' = s) ∨
      (b = true ∧ g.predsFront n ≤ s.predsFrontVisited n ∧
        ∀ m, s'.predsFrontVisited m = s.predsFrontVisited m +
          if m ∈ g.succ n ∧ g.isFrontedge n m = true then 1 else 0) := by
  rcases nodeUpdateFlow_cases h with hwait | ⟨hb, hle, ⟨hcase, rfl⟩ | ⟨out, -, hsent⟩⟩
  · exact .inl hwait
  · refine .inr ⟨hb, hle, fun m => ?_⟩
    rw [hexit hcase]
    simp
  · refine .inr ⟨hb, hle, fun m => ?_⟩
    cases hcase : (g.node n).isExit with
    | true =>
      -- an exit has no successors
      rw [hexit hcase] at hsent ⊢
      cases hsent
      simp
    | false => exact succsInFlow_visited hcase hl hsent m

/-- What the propagation works on: the graph after `adjust_pred_counts`, with the nodes that can be
reached. -/
structure Adjusted (g : FlowGraph N R) (root : N) (nodes : List N) : Prop where
  mem : ∀ n, n ∈ nodes ↔ g.Reaches root n
  nodes_nodup : nodes.Nodup
  nodup : ∀ n, (g.succ n).Nodup
  count : ∀ n, g.predsFront n = (g.frontPreds nodes n).length
  exit : ∀ n, (g.node n).isExit = true → g.succ n = []

namespace Adjusted

variable {root : N} {nodes : List N}

omit [DecidableEq R] in
theorem reaches_of_fires {n : N} (hn : Fires (g.system nodes) [root] n) : g.Reaches root n := by
  induction hn with
  | start hn _ _ =>
    rw [List.mem_singleton.1 hn]
    exact .refl
  | next _ hn _ ih _ => exact ih.tail hn

omit [DecidableEq R] in
theorem reaches_of_queued {n : N} (hn : Queued (g.system nodes) [root] n) : g.Reaches root n := by
  rcases hn with hn | ⟨m, hm, hn⟩
  · rw [List.mem_singleton.1 hn]
    exact .refl
  · exact (reaches_of_fires hm).tail hn

section

variable (h : Adjusted g root nodes)

include h

/-- `node_update_flow` lets nodes wait by counting. -/
theorem waits (gen : N → FlowState N R → Except FlowErr (Gen R)) :
    Waits (g.system nodes) [root] (nodeUpdateFlow g gen)
      (fun d done => Worklist.Counts (g.system nodes) d.predsFrontVisited done) where
  ready := by
    intro n d b d' done hrun hcounts
    rw [← hcounts.full_iff n]
    have hcount : g.predsFront n = ((g.system nodes).needs n).length := h.count n
    rcases nodeUpdateFlow_visited (h.nodup n) (h.exit n) hrun with
      ⟨rfl, hlt, -⟩ | ⟨rfl, hle, -⟩
    · rw [hcount, Int.ofNat_lt] at hlt
      exact ⟨fun hb => absurd hb Bool.false_ne_true, fun hle => absurd hle (Nat.not_le.2 hlt)⟩
    · rw [hcount, Int.ofNat_le] at hle
      exact ⟨fun _ => hle, fun _ => rfl⟩
  wait := by
    intro n d d' done hrun hcounts
    rcases nodeUpdateFlow_visited (h.nodup n) (h.exit n) hrun with ⟨-, -, rfl⟩ | ⟨hb, -, -⟩
    · exact hcounts
    · cases hb
  process := by
    intro n d d' done hrun hqueued hdone hcounts
    rcases nodeUpdateFlow_visited (h.nodup n) (h.exit n) hrun with ⟨hb, -, -⟩ | ⟨-, -, hvisited⟩
    · cases hb
    · refine hcounts.raise hdone fun m => ?_
      rw [hvisited m]
      -- the node can be reached, so it is among those that its successors count
      have hmem : n ∈ nodes := (h.mem n).2 (reaches_of_queued hqueued)
      have hneeds : ((g.system nodes).needs m).Nodup := h.nodes_nodup.filter _
      rw [hneeds.count]
      have hiff : n ∈ (g.system nodes).needs m ↔ m ∈ g.succ n ∧ g.isFrontedge n m = true := by
        refine FlowGraph.mem_frontPreds.trans ?_
        simp [hmem]
      simp only [hiff]

/-- The propagation runs as a list of nodes that wait. -/
theorem worksAs {k : Nat} {w : WorkState N (FlowState N R)}
    (hrun : propagate g gen root k = .ok w) :
    WorksAs (fun d done => Worklist.Counts (g.system nodes) d.predsFrontVisited done) w
      (run (g.system nodes) k ⟨[root], []⟩) :=
  worksAs_run (h.waits gen) rfl Worklist.Counts.initial hrun

omit [DecidableEq R] in
/-- The nodes that can be reached, in any order. -/
theorem congr {nodes' : List N} (hnodup : nodes'.Nodup)
    (hmem : ∀ n, n ∈ nodes' ↔ g.Reaches root n) : Adjusted g root nodes' := by
  have hperm : nodes.Perm nodes' := by
    rw [List.perm_ext_iff_of_nodup h.nodes_nodup hnodup]
    exact fun n => (h.mem n).trans (hmem n).symm
  refine ⟨hmem, hnodup, h.nodup, fun n => (h.count n).trans ?_, h.exit⟩
  exact congrArg Nat.cast (hperm.filter _).length_eq

end

end Adjusted

omit [DecidableEq R] in
/-- The graph of the edges, after `adjust_pred_counts`. -/
theorem adjusted_build {node : N → FlowNode R} {edges : List (N × N)} {all : List N} {root : N}
    (hall : ∀ n, n ∈ all) (hnodup : all.Nodup) (hid : ∀ n, (node n).id ≠ 0)
    (hexit : ∀ n, (node n).isExit = true → (FlowGraph.build node edges).succ n = []) {k : Nat}
    {g' : FlowGraph N R}
    (hadjust : adjustPredCounts (FlowGraph.build node edges) all root k = some g') :
    g'.node = node ∧ g'.succ = (FlowGraph.build node edges).succ ∧
      ∃ nodes, Adjusted g' root nodes := by
  have hcounts := countsFront_build node hid hall hnodup edges
  obtain ⟨reach, hreach, hnode, hsucc, hcount⟩ := adjust_predsFront hcounts hadjust
  rw [FlowGraph.node_build] at hnode
  refine ⟨hnode, hsucc, all.filter fun m => m ∈ reach, ?_, hnodup.filter _, ?_, ?_, ?_⟩
  · intro n
    rw [List.mem_filter, decide_eq_true_eq, hreach n, and_iff_right (hall n)]
    unfold FlowGraph.Reaches
    rw [hsucc]
  · intro n
    rw [hsucc]
    exact hcounts.nodup n
  · intro n
    rw [hcount n]
    unfold FlowGraph.frontPreds FlowGraph.isFrontedge
    rw [hsucc, hnode, FlowGraph.node_build]
  · intro n hn
    rw [hsucc]
    apply hexit
    rwa [hnode] at hn

/-- Every node that can be reached was processed, once and after its predecessors along front
edges. -/
structure ProcessedAll (g : FlowGraph N R) (root : N) (visited : List N) : Prop where
  nodup : visited.Nodup
  order : ∀ l₁ n l₂, visited = l₁ ++ n :: l₂ → ∀ m, g.Reaches root m → n ∈ g.succ m →
    (g.node n).id < (g.node m).id → m ∈ l₁
  all : ∀ n, n ∈ visited ↔ g.Reaches root n

/-- If exits have no successors, `adjust_pred_counts` ends. If after it no exception ends the
propagation, it ends with all nodes that can be reached processed, once and after their predecessors
along front edges, exactly if all these nodes fire. -/
theorem propagation_complete_iff (node : N → FlowNode R) (edges : List (N × N)) (all : List N)
    (root : N) (hall : ∀ n, n ∈ all) (hnodup : all.Nodup) (hid : ∀ n, (node n).id ≠ 0)
    (gen : N → FlowState N R → Except FlowErr (Gen R))
    (hexit : ∀ n, (node n).isExit = true → (FlowGraph.build node edges).succ n = [])
    (nodes : List N) (hnodes : nodes.Nodup)
    (hmem : ∀ n, n ∈ nodes ↔ (FlowGraph.build node edges).Reaches root n) :
    let g := FlowGraph.build node edges
    (∃ k g', adjustPredCounts g all root k = some g') ∧
      ∀ k g', adjustPredCounts g all root k = some g' →
        (∀ j e, propagate g' gen root j ≠ .error e) →
        ((∃ j w, propagate g' gen root j = .ok w ∧ w.workq = [] ∧ ProcessedAll g root w.visited) ↔
          ∀ n ∈ nodes, Fires (g.system nodes) [root] n) := by
  intro g
  refine ⟨adjustPredCounts_ends g hall root, fun k g' hadjust hok => ?_⟩
  obtain ⟨hnode, hsucc, nodes', hadj'⟩ := adjusted_build hall hnodup hid hexit hadjust
  have hgnode : g.node = node := FlowGraph.node_build node edges
  have hreaches : ∀ n, g'.Reaches root n ↔ g.Reaches root n := by
    intro n
    unfold FlowGraph.Reaches
    rw [hsucc]
  have hadj : Adjusted g' root nodes :=
    hadj'.congr hnodes fun n => (hmem n).trans (hreaches n).symm
  have hsys : g'.system nodes = g.system nodes := by
    unfold FlowGraph.system FlowGraph.frontPreds FlowGraph.isFrontedge
    rw [hsucc, hnode, hgnode]
  constructor
  · rintro ⟨j, w, hrun, hend, hproc⟩ n hn
    have hworks := hadj.worksAs hrun
    have hdone := (hproc.all n).2 ((hmem n).1 hn)
    rw [hworks.visited, hsys] at hdone
    rw [hworks.workq, hsys] at hend
    exact (done_iff_fires hend n).1 hdone
  · intro hfires
    have hfires' : ∀ n, g'.Reaches root n → Fires (g'.system nodes) [root] n := by
      intro n hn
      rw [hsys]
      exact hfires n ((hadj.mem n).2 hn)
    obtain ⟨j, hj⟩ := run_ends (fun n hn => hfires' n (Adjusted.reaches_of_queued hn))
      (fun n _ => hall n)
    cases hrun : propagate g' gen root j with
    | error e => exact absurd hrun (hok j e)
    | ok w =>
      have hworks := hadj.worksAs hrun
      have hordered := run_ordered (g'.system nodes) [root] j
      rw [← hworks.visited] at hordered
      refine ⟨j, w, hrun, hworks.workq.trans hj, hordered.1, ?_, fun n => ?_⟩
      · intro l₁ n l₂ hsplit m hm hedge hlt
        apply hordered.2 l₁ n l₂ hsplit
        refine FlowGraph.mem_frontPreds.2 ⟨(hmem m).2 hm, ?_, ?_⟩
        · rw [hsucc]
          exact hedge
        · unfold FlowGraph.isFrontedge
          rw [hnode, ← hgnode]
          exact decide_eq_true hlt
      · rw [hworks.visited, done_iff_fires hj n, ← hreaches n]
        exact ⟨Adjusted.reaches_of_fires, hfires' n⟩

/-- Nodes with the given ids; the last one is the exit. -/
def lineNode (last : Nat) (ids : List Nat) (n : Nat) : FlowNode Nat :=
  ⟨ids.getD n 1, n == last, n, []⟩

/-- A loop of the nodes `1` and `2`, from the root `0` to the exit `3`, whose id is the greatest. -/
def loopGraph : FlowGraph (Fin 4) Nat :=
  FlowGraph.build (fun n => lineNode 3 [4, 3, 2, 5] n) [(2, 3), (2, 1), (1, 2), (0, 1)]

/-- The loop is processed from its head on; the exit is queued along a back edge. -/
theorem propagation_complete_iff_loop :
    adjustPredCounts loopGraph [0, 1, 2, 3] 0 8 = some loopGraph ∧
      ∃ j w, propagate loopGraph (fun _ _ => .ok (.flows [.empty])) 0 j = .ok w ∧ w.workq = [] ∧
        ProcessedAll loopGraph 0 w.visited := by
  have h₁ : loopGraph.Reaches 0 1 := .tail .refl (by decide)
  have h₂ : loopGraph.Reaches 0 2 := h₁.tail (by decide)
  have h₃ : loopGraph.Reaches 0 3 := h₂.tail (by decide)
  have hreach : ∀ n, n ∈ ([0, 1, 2, 3] : List (Fin 4)) ↔ loopGraph.Reaches 0 n := by
    intro n
    fin_cases n
    · exact iff_of_true (by decide) .refl
    · exact iff_of_true (by decide) h₁
    · exact iff_of_true (by decide) h₂
    · exact iff_of_true (by decide) h₃
  have hok : ∀ j e, propagate loopGraph (fun _ _ => .ok (.flows [.empty])) 0 j ≠ .error e :=
    workList_ne_error (k := 8) rfl rfl
  have f₀ : Fires (loopGraph.system [0, 1, 2, 3]) [0] 0 :=
    .start (.head _) fun m hm => absurd hm (by revert m; decide)
  have f₁ : Fires (loopGraph.system [0, 1, 2, 3]) [0] 1 :=
    .next f₀ (by decide) fun m hm => by
      rw [(by revert m; decide : ∀ m ∈ (loopGraph.system [0, 1, 2, 3]).needs 1, m = 0) m hm]
      exact f₀
  have f₂ : Fires (loopGraph.system [0, 1, 2, 3]) [0] 2 :=
    .next f₁ (by decide) fun m hm => by
      rw [(by revert m; decide : ∀ m ∈ (loopGraph.system [0, 1, 2, 3]).needs 2, m = 1) m hm]
      exact f₁
  have f₃ : Fires (loopGraph.system [0, 1, 2, 3]) [0] 3 :=
    .next f₂ (by decide) fun m hm => absurd hm (by revert m; decide)
  have hcomplete := propagation_complete_iff (N := Fin 4) (fun n => lineNode 3 [4, 3, 2, 5] n)
    [(2, 3), (2, 1), (1, 2), (0, 1)] [0, 1, 2, 3] 0 (by decide) (by decide) (by decide)
    (fun _ _ => .ok (.flows [.empty])) (by decide) [0, 1, 2, 3] (by decide) hreach
  refine ⟨rfl, (hcomplete.2 8 loopGraph rfl hok).2 fun n _ => ?_⟩
  fin_cases n
  · exact f₀
  · exact f₁
  · exact f₂
  · exact f₃

end Propagation

/-- A loop of the nodes `2` and `1` that the root `0` enters at `2`, which stands after `1`. -/
def enteredLoop : FlowGraph (Fin 3) Nat :=
  FlowGraph.build (fun n => lineNode 3 [3, 2, 1] n) [(1, 2), (2, 1), (0, 2)]

/-- Node `2` waits for node `1`, which is queued after node `2` only: the work list goes round for
ever. The ids are distinct and not zero, and all nodes can be reached. -/
theorem not_propagation_complete :
    (∀ n, enteredLoop.Reaches 0 n) ∧
      adjustPredCounts enteredLoop [0, 1, 2] 0 8 = some enteredLoop ∧
      ∀ k, ∃ w, propagate enteredLoop (fun _ _ => .ok (.flows [.empty])) 0 k = .ok w ∧
        w.workq ≠ [] ∧ 1 ∉ w.visited ∧ 2 ∉ w.visited := by
  refine ⟨fun n => ?_, rfl, fun k => ?_⟩
  · have h₂ : enteredLoop.Reaches 0 2 := .tail .refl (by decide)
    have h₁ : enteredLoop.Reaches 0 1 := h₂.tail (by decide)
    fin_cases n
    · exact .refl
    · exact h₁
    · exact h₂
  · -- after the root was processed, node `2` is put back again and again
    obtain ⟨w, hfirst, hstep, hworkq, hvisited⟩ : ∃ w,
        propagate enteredLoop (fun _ _ => .ok (.flows [.empty])) 0 1 = .ok w ∧
        workListStep enteredLoop.succ
          (nodeUpdateFlow enteredLoop fun _ _ => .ok (.flows [.empty])) w = .ok w ∧
        w.workq = [2] ∧ w.visited = [0] := ⟨_, rfl, rfl, rfl, rfl⟩
    cases k with
    | zero => exact ⟨_, rfl, by simp, by simp, by simp⟩
    | succ k =>
      refine ⟨w, ?_, by simp [hworkq], by simp [hvisited], by simp [hvisited]⟩
      induction k with
      | zero => exact hfirst
      | succ k ih =>
        rw [propagate] at ih ⊢
        rw [workList, ih]
        exact hstep

end ConcurrentCyclone.XInfer
