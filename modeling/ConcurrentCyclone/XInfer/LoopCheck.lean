import ConcurrentCyclone.XInfer.Propagate

/-!
# What is checked on a back edge

On a back edge `node_in_flow` drops as many elements of the effect as the loop head has in its
input, and checks that the rest changes no counts. The comparison is by length; nothing looks at the
elements that are dropped.

They are the elements of the input if the edge closes a loop that is entered at its head only
(`Loop`), and nothing on the way round changes the input of the head (`Steady`): `cons_prefix` finds
nothing to take out of it, and no region that is left inside the loop occurs in it; nor do calls,
joins and spawns without effect, which the translation drops (`Untouched`). The argument is an
invariant of the propagation (`LoopInv`): once the head was processed, its input is a prefix of all
effects inside the loop. An input `[Empty]` has no elements, and nothing is dropped.
`loopBody_exact` is the result.

`not_loopBody_exact` is a jump back to a node that is also reached on another way: the effect of the
jumping branch is dropped, and nothing is checked.
-/

set_option autoImplicit false

namespace ConcurrentCyclone.XInfer

open Function
open List (cons_append prefix_append not_mem_nil mem_append mem_singleton)

open Transition (bind_eq_ok map_eq_ok)
open Worklist (run)

variable {N R : Type}

/-! ## Prefixes -/

section Prefixes

variable {c : List (Con R)}

/-- A constraint is equal to itself; for joins, so are the branches. -/
theorem consEq_refl (c : List (Con R)) : consEq c c = true := by
  induction c using Con.listInduction with
  | nil => rfl
  | access _ _ _ _ ih | cap _ _ _ _ ih | spawn _ _ _ _ _ _ ih | call _ _ _ _ _ ih | empty _ ih
  | undefined _ ih => simp [consEq, conEq, ih]
  | join c₁ c₂ loc cs ih1 ih2 ih => simp [consEq, conEq, ih1, ih2, ih]

theorem conEq_refl (x : Con R) : conEq x x = true :=
  (Bool.and_eq_true_iff.1 (consEq_refl [x])).1

theorem consPrefix_append (a b : List (Con R)) :
    consPrefix (a ++ b) = consPrefix a ++ consPrefix b := by
  induction a with
  | nil => rfl
  | cons x a ih => rw [cons_append, consPrefix, ih, consPrefix, List.append_assoc]

variable {a b : List (Con R)}

/-- What both branches start with is taken out. -/
theorem prefix_commonPrefix (ha : c <+: a) (hb : c <+: b) : c <+: (commonPrefix a b).1 := by
  obtain ⟨a, rfl⟩ := ha
  obtain ⟨b, rfl⟩ := hb
  induction c with
  | nil => exact List.nil_prefix
  | cons x c ih =>
    simp only [cons_append, commonPrefix, conEq_refl]
    exact List.cons_prefix_cons.2 ⟨rfl, ih⟩

theorem prefix_consPrefix (hc : consPrefix c = c) (ha : c <+: a) : c <+: consPrefix a := by
  obtain ⟨a, rfl⟩ := ha
  rw [consPrefix_append, hc]
  exact prefix_append _ _

theorem consIsUndefined_iff : consIsUndefined a = true ↔ a = [.undefined] := by
  unfold consIsUndefined
  split
  · simp
  · simpa

theorem consIsEmpty_iff : consIsEmpty a = true ↔ a = [.empty] := by
  unfold consIsEmpty
  split
  · simp
  · simpa

variable {m : List (Con R)}

/-- Merging keeps what both effects start with. -/
theorem prefix_consMerge (hc : consPrefix c = c) {loc : Seg}
    (ha : a = [.undefined] ∨ c <+: a) (hb : c <+: b) (h : consMerge a b loc = some m) :
    c <+: m := by
  unfold consMerge at h
  split_ifs at h with _ hdef hempty
  all_goals cases h
  · exact hb
  · have ha := ha.resolve_left (mt consIsUndefined_iff.2 hdef)
    rwa [consIsEmpty_iff.1 (Bool.and_eq_true_iff.1 hempty).1] at ha
  · have ha := ha.resolve_left (mt consIsUndefined_iff.2 hdef)
    rw [consPrefix, consPrefix, List.append_nil, Con.factored]
    apply List.IsPrefix.trans _ (prefix_append _ _)
    exact prefix_commonPrefix (prefix_consPrefix hc ha) (prefix_consPrefix hc hb)

/-- What a node adds comes after its input. -/
theorem prefix_consAppend (hdef : consIsUndefined c = false) (hempty : consIsEmpty c = false)
    (ha : c <+: a) (h : consAppend a b = some m) : c <+: m := by
  unfold consAppend at h
  split_ifs at h with _ hone
  all_goals cases h
  · -- the input is one element, and not the prefix: the prefix has no elements
    have hnil : ∀ {x}, a = [x] → c ≠ [x] → c <+: [] := by
      rintro x rfl hne
      exact (List.prefix_concat_iff.1 (show c <+: [] ++ [x] from ha)).resolve_left hne
    refine List.IsPrefix.trans ?_ List.nil_prefix
    rcases Bool.or_eq_true_iff.1 hone with hone | hone
    · exact hnil (consIsUndefined_iff.1 hone) (by rintro rfl; cases hdef)
    · exact hnil (consIsEmpty_iff.1 hone) (by rintro rfl; cases hempty)
  · exact ha
  · exact ha.trans (prefix_append _ _)

end Prefixes

/-! ## Regions that do not occur -/

section Untouched

mutual

/-- Nothing in the list is about region `r`, and nothing in it is dropped by a translation. -/
def Untouched (r : R) : List (Con R) → Prop
  | [] => True
  | con :: cs => con.IsUntouched r ∧ Untouched r cs

/-- One constraint that the translation for region `r` leaves as it is. -/
def Con.IsUntouched (r : R) : Con R → Prop
  | .access _ r' _ => r' ≠ r
  | .cap _ r' _ => r' ≠ r
  | .join c₁ c₂ _ =>
    Untouched r c₁ ∧ Untouched r c₂ ∧
      ¬ ((c₁.isEmpty || consIsEmpty c₁) && (c₂.isEmpty || consIsEmpty c₂)) = true
  | .spawn c₁ _ _ => c₁ ≠ [] ∧ ∀ con ∈ c₁, ∃ x r' loc, con = .cap x r' loc ∧ r' ≠ r
  | .call c _ _ => Untouched r c ∧ ¬ (c.isEmpty || consIsEmpty c) = true
  | .empty => True
  | .undefined => False

end

variable [DecidableEq R]

variable {c : List (Con R)}

/-- Counts of other regions that a spawn passes. -/
theorem spawnCaps_others (te : TransEnv R)
    (h : ∀ con ∈ c, ∃ x r' loc, con = .cap x r' loc ∧ r' ≠ te.r) (s : SpawnCaps R) :
    ∃ errs others, spawnCaps te c s = .ok ⟨errs, s.caps, others⟩ ∧
      (c ≠ [] ∨ s.others ≠ [] → others ≠ []) := by
  induction c generalizing s with
  | nil => exact ⟨s.errs, s.others, rfl, fun hne => hne.resolve_left (fun h => h rfl)⟩
  | cons con c ih =>
    obtain ⟨x, r', loc, rfl, hr⟩ := h con (.head _)
    obtain ⟨errs, others, hrun, hne⟩ :=
      ih (fun con hcon => h con (.tail _ hcon)) (s.add te x r' loc)
    have hcaps : (s.add te x r' loc).caps = s.caps := if_neg hr
    have hothers : (s.add te x r' loc).others ≠ [] := by
      rw [SpawnCaps.add]
      simp only [if_neg hr]
      exact List.cons_ne_nil _ _
    rw [hcaps] at hrun
    exact ⟨errs, others, hrun, fun _ => hne (.inr hothers)⟩

/-- Such a list is translated to itself, and the counts of the region stay. -/
theorem consLoop_untouched (te : TransEnv R) (depth : Nat)
    (h : Untouched te.r c) : ∃ errs, consLoop c te depth = .ok ⟨errs, te.c, c⟩ := by
  induction c using Con.listInduction generalizing te depth with
  | nil => exact ⟨[], rfl⟩
  | access _ r _ _ ih | cap _ r _ _ ih =>
    obtain ⟨errs, hrest⟩ := ih te depth h.2
    refine ⟨errs, ?_⟩
    have hr : r ≠ te.r := h.1
    simp only [consLoop, Con.translate, if_neg hr, Except.bind, hrest]
    rfl
  | join c₁ c₂ loc cs ih1 ih2 ih =>
    obtain ⟨⟨hc1, hc2, hvoid⟩, hcs⟩ := h
    obtain ⟨errs1, h1⟩ := ih1 { te with path := loc :: te.path } (depth + 1) hc1
    obtain ⟨errs2, h2⟩ := ih2 { te with path := loc :: te.path } (depth + 1) hc2
    obtain ⟨errs, hrest⟩ := ih te depth hcs
    refine ⟨errs1 ++ errs2 ++ errs, ?_⟩
    simp only [consLoop, Con.translate, h1, h2, Except.map, Except.bind, finish,
      Nat.succ_ne_zero, ne_eq, not_false_eq_true, true_or, if_true, not_true_eq_false, if_false,
      if_neg hvoid, hrest, List.append_nil]
    rfl
  | spawn c₁ c₂ loc cs _ _ ih =>
    obtain ⟨⟨hne, hcaps⟩, hcs⟩ := h
    obtain ⟨errs1, others, hspawn, hothers⟩ := spawnCaps_others te hcaps ⟨[], 0, []⟩
    obtain ⟨errs, hrest⟩ := ih te depth hcs
    refine ⟨errs1 ++ errs, ?_⟩
    have hsome : ¬ others.isEmpty = true := fun hnil =>
      hothers (.inl hne) (List.isEmpty_iff.1 hnil)
    have hzero : (0 : XCap).ref + (0 : XCap).wr + (0 : XCap).rd = 0 := by decide
    simp only [consLoop, Con.translate, hspawn, Except.bind, Except.map, if_pos hzero,
      if_neg hsome, hrest]
    rfl
  | call c loc s cs ihc ih =>
    obtain ⟨⟨hc, hvoid⟩, hcs⟩ := h
    obtain ⟨errs1, h1⟩ := ihc { te with path := loc :: te.path } (depth + 1) hc
    obtain ⟨errs, hrest⟩ := ih te depth hcs
    refine ⟨errs1 ++ errs, ?_⟩
    simp only [consLoop, Con.translate, h1, Except.map, Except.bind, finish, Nat.succ_ne_zero,
      ne_eq, not_false_eq_true, true_or, if_true, if_neg hvoid, hrest]
    rfl
  | empty cs ih =>
    obtain ⟨errs, hrest⟩ := ih te depth h.2
    refine ⟨errs, ?_⟩
    simp only [consLoop, Con.translate, Except.bind, hrest]
    rfl
  | undefined cs _ => exact h.1.elim

theorem consLoop_append (a b : List (Con R)) (te : TransEnv R) (depth : Nat) :
    consLoop (a ++ b) te depth =
      (consLoop a te depth).bind fun x =>
        (consLoop b { te with c := x.c } depth).map fun y =>
          ⟨x.errs ++ y.errs, y.c, x.ret ++ y.ret⟩ := by
  induction a generalizing te with
  | nil =>
    simp only [List.nil_append, consLoop, Except.bind]
    cases consLoop b te depth with
    | error | ok => rfl
  | cons con a ih =>
    simp only [cons_append, consLoop]
    cases con.translate te depth with
    | error e => rfl
    | ok x =>
      simp only [Except.bind, ih]
      cases consLoop a { te with c := x.c } depth with
      | error e => rfl
      | ok y =>
        simp only [Except.map]
        cases consLoop b { te with c := y.c } depth with
        | error e => rfl
        | ok z => simp only [List.append_assoc]

omit [DecidableEq R] in
theorem prefix_finish (te : TransEnv R) (depth : Nat) (x : Translated R) :
    x.ret <+: (finish te depth x).ret := by
  unfold finish
  split
  · exact List.prefix_refl _
  · split
    · exact List.prefix_refl _
    · exact prefix_append _ _

/-- The translation keeps what a flow starts with. -/
theorem prefix_consTranslate {a : List (Con R)} (ha : c <+: a) {te : TransEnv R} {depth : Nat}
    (hc : Untouched te.r c) {x : Translated R} (h : consTranslate a te depth = .ok x) :
    c <+: x.ret := by
  obtain ⟨a, rfl⟩ := ha
  obtain ⟨errs, hkept⟩ := consLoop_untouched te depth hc
  rw [consTranslate, consLoop_append, hkept] at h
  obtain ⟨_, hrest, rfl⟩ := map_eq_ok.1 h
  obtain ⟨y, -, rfl⟩ := map_eq_ok.1 hrest
  exact (prefix_append c y.ret).trans
    (prefix_finish te depth ⟨errs ++ y.errs, y.c, c ++ y.ret⟩)

theorem prefix_translateFlow {a : List (Con R)} (ha : c <+: a)
    {source target : List (RegionDecl R)} {loc : Seg}
    (hc : ∀ d ∈ nodeDiffEnclosingXrgn source target, Untouched d.tv c)
    {errs : List (TransErr R)} {flow : List (Con R)}
    (h : translateFlow source target loc a = .ok (errs, flow)) : c <+: flow := by
  have horder : ∀ r ∈ decls2order (nodeDiffEnclosingXrgn source target), Untouched r c :=
    List.forall_mem_map.2 hc
  unfold translateFlow leaveRegions at h
  generalize decls2order (nodeDiffEnclosingXrgn source target) = order at horder h
  induction order generalizing a errs with
  | nil =>
    cases h
    exact ha
  | cons r order ih =>
    obtain ⟨hr, horder⟩ := List.forall_mem_cons.1 horder
    obtain ⟨x, hfirst, h⟩ := bind_eq_ok.1 h
    obtain ⟨y, hrest, hy⟩ := map_eq_ok.1 h
    cases hy
    exact ih (prefix_consTranslate ha hr hfirst) horder hrest

end Untouched

/-! ## Loops -/

section Loops

variable [DecidableEq N] [DecidableEq R]

/-- A set of nodes that is entered along front edges at `head` only; its other nodes have a
predecessor along a front edge in it. -/
structure Loop (g : FlowGraph N R) (root head : N) (L : N → Prop) : Prop where
  head_mem : L head
  entry : ∀ p x, L x → x ≠ head → x ∈ g.succ p → g.isFrontedge p x = true → L p
  pred : ∀ x, L x → x ≠ head →
    ∃ p, g.Reaches root p ∧ L p ∧ x ∈ g.succ p ∧ g.isFrontedge p x = true
  root : L root → root = head

/-- The input of the head of a loop is not changed on the way round: it has nothing to be taken out
of joins, and no edge inside the loop leaves a region that it is about. -/
structure Steady (g : FlowGraph N R) (L : N → Prop) (c : List (Con R)) : Prop where
  factored : consPrefix c = c
  defined : consIsUndefined c = false
  nonempty : consIsEmpty c = false
  untouched : ∀ x y, L x → L y → y ∈ g.succ x →
    ∀ d ∈ nodeDiffEnclosingXrgn (g.node x).enclosingXrgn (g.node y).enclosingXrgn, Untouched d.tv c

/-- The elements of an effect; `[Empty]` is the effect without elements. -/
def elements (c : List (Con R)) : List (Con R) := if consIsEmpty c then [] else c

/-- `node_in_flow(src, dst)` is called in state `s`, while the work list processes `src`. -/
def InFlowCall (g : FlowGraph N R) (gen : N → FlowState N R → Except FlowErr (Gen R)) (root : N)
    (src dst : N) (s : FlowState N R) : Prop :=
  ∃ j w workq out pre post, propagate g gen root j = .ok w ∧ w.workq = src :: workq ∧
    src ∉ w.visited ∧ g.predsFront src ≤ w.data.predsFrontVisited src ∧ Sends gen src w.data out ∧
    g.succ src = pre ++ dst :: post ∧
    succsInFlow g src pre { w.data with output := update w.data.output src out } = .ok s

variable {n : N} {gen : N → FlowState N R → Except FlowErr (Gen R)} {d : FlowState N R}

variable {s d' : FlowState N R} {done : List N}

variable {g : FlowGraph N R}

/-- What sending an output does to the effects of the other nodes. -/
theorem succsInFlow_effects (hexit : (g.node n).isExit = false)
    {l : List N} (hl : l.Nodup) {s' : FlowState N R} (h : succsInFlow g n l s = .ok s') :
    s'.output = s.output ∧
      (∀ x, ¬ (x ∈ l ∧ g.isFrontedge n x = true) → s'.input x = s.input x) ∧
      ∀ x ∈ l, g.isFrontedge n x = true → ∃ errs flow,
        translateFlow (g.node n).enclosingXrgn (g.node x).enclosingXrgn (g.node n).loc
          (s.output n) = .ok (errs, flow) ∧
        consMerge (s.input x) flow (g.node x).loc = some (s'.input x) := by
  induction l generalizing s with
  | nil =>
    cases h
    exact ⟨rfl, fun x _ => rfl, fun x hx => absurd hx not_mem_nil⟩
  | cons dst l ih =>
    obtain ⟨hnot, hl⟩ := List.nodup_cons.1 hl
    obtain ⟨s₁, hfirst, h⟩ := bind_eq_ok.1 h
    obtain ⟨hout₁, hsame₁, hmerged₁⟩ := nodeInFlow_effects hexit hfirst
    obtain ⟨hout, hsame, hmerged⟩ := ih hl h
    refine ⟨hout.trans hout₁, fun x hx => ?_, fun x hx hfront => ?_⟩
    · rw [hsame x fun hmem => hx ⟨.tail _ hmem.1, hmem.2⟩]
      apply hsame₁
      rintro ⟨rfl, hfront⟩
      exact hx ⟨.head _, hfront⟩
    · rcases List.mem_cons.1 hx with rfl | hx
      · -- the first successor is not among the others, so its input stays from here on
        rw [hsame x fun hmem => hnot hmem.1]
        exact hmerged₁ hfront
      · rw [← hout₁, ← hsame₁ x fun heq => hnot (heq.1 ▸ hx)]
        exact hmerged x hx hfront

/-- What processing a node does to the inputs of the others. -/
structure Processed (g : FlowGraph N R) (gen : N → FlowState N R → Except FlowErr (Gen R)) (n : N)
    (d d' : FlowState N R) : Prop where
  same : ∀ x, ¬ (x ∈ g.succ n ∧ g.isFrontedge n x = true) → d'.input x = d.input x
  merged : ∀ x ∈ g.succ n, g.isFrontedge n x = true → ∃ out errs flow, Sends gen n d out ∧
    translateFlow (g.node n).enclosingXrgn (g.node x).enclosingXrgn (g.node n).loc out =
      .ok (errs, flow) ∧
    consMerge (d.input x) flow (g.node x).loc = some (d'.input x)

theorem processed_of_update
    (hl : (g.succ n).Nodup) (hexit : (g.node n).isExit = true → g.succ n = [])
    (h : nodeUpdateFlow g gen n d = .ok (true, d')) : Processed g gen n d d' := by
  rcases nodeUpdateFlow_cases h with ⟨hb, -, -⟩ | ⟨-, -, ⟨hcase, rfl⟩ | ⟨out, hsends, hrun⟩⟩
  · cases hb
  · exact ⟨fun x _ => rfl, fun x hx => by simp [hexit hcase] at hx⟩
  · cases hcase : (g.node n).isExit with
    | true =>
      rw [hexit hcase] at hrun
      cases hrun
      exact ⟨fun x _ => rfl, fun x hx => by simp [hexit hcase] at hx⟩
    | false =>
      obtain ⟨-, hsame, hmerged⟩ := succsInFlow_effects hcase hl hrun
      refine ⟨hsame, fun x hx hfront => ?_⟩
      obtain ⟨errs, flow, hflow, hmerge⟩ := hmerged x hx hfront
      simp only [update_self] at hflow
      exact ⟨out, errs, flow, hsends, hflow, hmerge⟩

omit [DecidableEq N] [DecidableEq R] in
/-- A node whose input starts with `c` sends an output that starts with `c`. -/
theorem Steady.prefix_sends {L : N → Prop} {c : List (Con R)}
    (hc : Steady g L c) (hn : c <+: s.input n) {out : List (Con R)} (h : Sends gen n s out) :
    c <+: out := by
  cases h with
  | copy _ => exact hn
  | one _ happend | many _ _ happend => exact prefix_consAppend hc.defined hc.nonempty hn happend
  | copies _ => exact hn

/-- What holds of the effects inside a loop, when the nodes `done` were processed. Before the head
nothing in the loop is processed; afterwards the input of the head, if it is steady, is a prefix of
all effects in the loop. -/
structure LoopInv (g : FlowGraph N R) (head : N) (L : N → Prop) (d : FlowState N R)
    (done : List N) : Prop where
  before : head ∉ done → ∀ x, L x → x ∉ done ∧ (x ≠ head → d.input x = [.undefined])
  inputs : head ∈ done → Steady g L (d.input head) → ∀ x, L x → x ≠ head →
    d.input x = [.undefined] ∨ d.input head <+: d.input x
  visited : head ∈ done → Steady g L (d.input head) → ∀ p ∈ done, L p → ∀ x, L x → x ≠ head →
    x ∈ g.succ p → g.isFrontedge p x = true → d.input head <+: d.input x

variable {root head : N} {L : N → Prop} {nodes : List N}

section

variable (hinv : LoopInv g head L d done)

include hinv

omit [DecidableEq N] [DecidableEq R] in
/-- The head is processed first. -/
theorem LoopInv.head_mem {p : N} (hp : L p) (hdone : p ∈ done) : head ∈ done :=
  by_contra fun hnot => (hinv.before hnot p hp).1 hdone

variable (hadj : Adjusted g root nodes) (hloop : Loop g root head L)

include hadj hloop

omit [DecidableEq R] in
/-- A processed node of the loop had an input that starts with that of the head. -/
theorem LoopInv.prefix_input (hn : L n) (hne : n ≠ head)
    (hready : ∀ m ∈ (g.system nodes).needs n, m ∈ done) :
    head ∈ done ∧ (Steady g L (d.input head) → d.input head <+: d.input n) := by
  obtain ⟨p, hreach, hp, hsucc, hfront⟩ := hloop.pred n hn hne
  have hdone : p ∈ done :=
    hready p (FlowGraph.mem_frontPreds.2 ⟨(hadj.mem p).2 hreach, hsucc, hfront⟩)
  have hhead := hinv.head_mem hp hdone
  exact ⟨hhead, fun hc => hinv.visited hhead hc p hdone hp n hn hne hsucc hfront⟩

/-- One node is processed. -/
theorem LoopInv.process
    (hclosed : ∀ x ∈ done, ∀ m ∈ (g.system nodes).needs x, m ∈ done)
    (hreach : g.Reaches root n) (hn : n ∉ done)
    (hready : ∀ m ∈ (g.system nodes).needs n, m ∈ done) (hprocessed : Processed g gen n d d') :
    LoopInv g head L d' (done ++ [n]) := by
  -- no front edge leads from `n` to the head, once the head was processed
  have hstays : head ∈ done ++ [n] → d'.input head = d.input head := by
    intro hhead
    apply hprocessed.same
    rintro ⟨hsucc, hfront⟩
    rcases mem_append.1 hhead with hhead | hhead
    · have hneeds : n ∈ (g.system nodes).needs head :=
        FlowGraph.mem_frontPreds.2 ⟨(hadj.mem n).2 hreach, hsucc, hfront⟩
      exact hn (hclosed head hhead n hneeds)
    · rw [mem_singleton.1 hhead] at hfront
      simp [FlowGraph.isFrontedge] at hfront
  -- the output of a node of the loop starts with the input of the head, and so does what is merged
  have hsent : Steady g L (d.input head) → ∀ x, L x → x ≠ head →
      (d.input x = [.undefined] ∨ d.input head <+: d.input x) →
      (d'.input x = d.input x ∧ ¬ (x ∈ g.succ n ∧ g.isFrontedge n x = true)) ∨
        d.input head <+: d'.input x := by
    intro hc x hx hne hold
    by_cases hedge : x ∈ g.succ n ∧ g.isFrontedge n x = true
    · have hL := hloop.entry n x hx hne hedge.1 hedge.2
      have hprefix : d.input head <+: d.input n := by
        by_cases hne : n = head
        · rw [hne]
        · exact (hinv.prefix_input hadj hloop hL hne hready).2 hc
      obtain ⟨out, errs, flow, hsends, hflow, hmerge⟩ := hprocessed.merged x hedge.1 hedge.2
      have hout := hc.prefix_sends hprefix hsends
      exact .inr (prefix_consMerge hc.factored hold
        (prefix_translateFlow hout (hc.untouched n x hL hx hedge.1) hflow) hmerge)
    · exact .inl ⟨hprocessed.same x hedge, hedge⟩
  -- before the head is processed, the inputs of the other nodes are undefined
  have hold : Steady g L (d.input head) → ∀ x, L x → x ≠ head →
      d.input x = [.undefined] ∨ d.input head <+: d.input x := by
    intro hc x hx hne
    by_cases hhead : head ∈ done
    · exact hinv.inputs hhead hc x hx hne
    · exact .inl ((hinv.before hhead x hx).2 hne)
  refine ⟨fun hhead x hx => ?_, fun hhead hc x hx hne => ?_,
    fun hhead hc p hp hpL x hx hne hsucc hfront => ?_⟩
  · -- the node is not in the loop, as the head would have been processed before
    have hnot : head ∉ done := fun hmem => hhead (List.mem_append_left _ hmem)
    have hnL : ¬ L n := by
      intro hL
      by_cases hne : n = head
      · exact hhead (by simp [hne])
      · exact hnot (hinv.prefix_input hadj hloop hL hne hready).1
    obtain ⟨hxdone, hundef⟩ := hinv.before hnot x hx
    refine ⟨fun hmem => ?_, fun hne => ?_⟩
    · rcases mem_append.1 hmem with hmem | hmem
      · exact hxdone hmem
      · rw [mem_singleton.1 hmem] at hx
        exact hnL hx
    · rw [hprocessed.same x fun hedge => hnL (hloop.entry n x hx hne hedge.1 hedge.2), hundef hne]
  · rw [hstays hhead] at hc ⊢
    rcases hsent hc x hx hne (hold hc x hx hne) with ⟨hsame, -⟩ | hnew
    · rw [hsame]
      exact hold hc x hx hne
    · exact .inr hnew
  · rw [hstays hhead] at hc ⊢
    rcases mem_append.1 hp with hp | hp
    · have hwas := hinv.visited (hinv.head_mem hpL hp) hc p hp hpL x hx hne hsucc hfront
      rcases hsent hc x hx hne (.inr hwas) with ⟨hsame, -⟩ | hnew
      · rw [hsame]
        exact hwas
      · exact hnew
    · rw [mem_singleton.1 hp] at hsucc hfront
      exact (hsent hc x hx hne (hold hc x hx hne)).resolve_left fun h => h.2 ⟨hsucc, hfront⟩

end

/-- The propagation keeps the invariant of a loop. -/
theorem Adjusted.waits_loop (hadj : Adjusted g root nodes) (hloop : Loop g root head L)
    (gen : N → FlowState N R → Except FlowErr (Gen R)) :
    Waits (g.system nodes) [root] (nodeUpdateFlow g gen) (fun d done =>
      Worklist.Counts (g.system nodes) d.predsFrontVisited done ∧
        (∀ x ∈ done, ∀ m ∈ (g.system nodes).needs x, m ∈ done) ∧ LoopInv g head L d done) where
  ready := fun hrun hinv => (hadj.waits gen).ready hrun hinv.1
  wait := by
    intro n d d' done hrun hinv
    rcases nodeUpdateFlow_cases hrun with ⟨-, -, rfl⟩ | ⟨hb, -, -⟩
    · exact hinv
    · cases hb
  process := by
    intro n d d' done hrun hqueued hn hinv
    obtain ⟨hcounts, hclosed, hinv⟩ := hinv
    have hready := ((hadj.waits gen).ready hrun hcounts).1 rfl
    refine ⟨(hadj.waits gen).process hrun hqueued hn hcounts, fun x hx m hm => ?_, ?_⟩
    · rcases mem_append.1 hx with hx | hx
      · exact List.mem_append_left _ (hclosed x hx m hm)
      · rw [mem_singleton.1 hx] at hm
        exact List.mem_append_left _ (hready m hm)
    · apply hinv.process hadj hloop hclosed (Adjusted.reaches_of_queued hqueued) hn hready
      exact processed_of_update (hadj.nodup n) (hadj.exit n) hrun

omit [DecidableEq R] in
theorem loopInv_init (hloop : Loop g root head L) : LoopInv g head L (flowInit root) [] where
  before := by
    intro _ x hx
    refine ⟨not_mem_nil, fun hne => ?_⟩
    apply update_of_ne
    rintro rfl
    exact hne (hloop.root hx)
  inputs := fun hmem => absurd hmem not_mem_nil
  visited := fun hmem => absurd hmem not_mem_nil

/-- A back edge into the head of a loop whose input is `[Empty]` or steady: the elements that are
dropped are those of the input, and what is checked is what the loop adds. -/
theorem loopBody_exact (node : N → FlowNode R) (edges : List (N × N)) (all : List N)
    (hall : ∀ n, n ∈ all) (hnodup : all.Nodup) (hid : ∀ n, (node n).id ≠ 0)
    (hexit : ∀ n, (node n).isExit = true → (FlowGraph.build node edges).succ n = [])
    (gen : N → FlowState N R → Except FlowErr (Gen R)) (root : N) (k : Nat) (g : FlowGraph N R)
    (hadjust : adjustPredCounts (FlowGraph.build node edges) all root k = some g) (src dst : N)
    (s : FlowState N R) (hcall : InFlowCall g gen root src dst s)
    (hback : g.isFrontedge src dst = false) (L : N → Prop) (hloop : Loop g root dst L)
    (hsrc : L src) (hsteady : consIsEmpty (s.input dst) = false → Steady g L (s.input dst))
    (errs : List (TransErr R))
    (flow : List (Con R))
    (hflow : translateFlow (g.node src).enclosingXrgn (g.node dst).enclosingXrgn (g.node src).loc
      (s.output src) = .ok (errs, flow)) :
    ∃ body, consPrefix flow = elements (s.input dst) ++ body ∧
      loopBody (s.input dst) (consPrefix flow) = body := by
  unfold elements loopBody
  cases hempty : consIsEmpty (s.input dst) with
  | true => exact ⟨_, rfl, rfl⟩
  | false =>
  replace hsteady := hsteady hempty
  obtain ⟨-, -, nodes, hadj⟩ := adjusted_build hall hnodup hid hexit hadjust
  obtain ⟨j, w, workq, out, pre, post, hrun, hworkq, hvisited, hle, hsends, hsucc, hpre⟩ := hcall
  -- an exit has no successors
  have hnoexit : (g.node src).isExit = false := by
    by_contra hcase
    rw [hadj.exit src (by simpa using hcase)] at hsucc
    simp at hsucc
  have hnodupPre : pre.Nodup := by
    have hnodupSucc := hadj.nodup src
    rw [hsucc] at hnodupSucc
    exact hnodupSucc.of_append_left
  -- the calls before this one changed neither the input of the head nor the output
  obtain ⟨hout, hsame, -⟩ := succsInFlow_effects hnoexit hnodupPre hpre
  have hinput : s.input dst = w.data.input dst := by
    apply hsame
    rw [hback]
    simp
  have houtput : s.output src = out := by
    rw [hout]
    exact update_self _ _ _
  have hworks := worksAs_run (hadj.waits_loop hloop gen) rfl
    ⟨Worklist.Counts.initial, fun x hx => absurd hx not_mem_nil, loopInv_init hloop⟩ hrun
  obtain ⟨hcounts, -, hinv⟩ := hworks.data
  rw [hinput] at hsteady
  have hprefix : w.data.input dst <+: w.data.input src := by
    by_cases hne : src = dst
    · rw [hne]
    · have hready : ∀ m ∈ (g.system nodes).needs src,
          m ∈ (run (g.system nodes) j ⟨[root], []⟩).done := by
        rw [← hcounts.full_iff src]
        have hcount : g.predsFront src = ((g.system nodes).needs src).length := hadj.count src
        rw [hcount, Int.ofNat_le] at hle
        exact hle
      exact (hinv.prefix_input hadj hloop hsrc hne hready).2 hsteady
  have hmem : dst ∈ g.succ src := by
    rw [hsucc]
    exact List.mem_append_right _ (.head _)
  rw [houtput] at hflow
  have hflowPrefix := prefix_translateFlow (hsteady.prefix_sends hprefix hsends)
    (hsteady.untouched src dst hsrc hloop.head_mem hmem) hflow
  obtain ⟨body, hbody⟩ := prefix_consPrefix hsteady.factored hflowPrefix
  refine ⟨body, ?_, ?_⟩
  · rw [hinput]
    exact hbody.symm
  · rw [hinput, ← hbody]
    simp

end Loops

/-! ## A loop, and a jump back -/

/-- Nodes that read region `0` before the loop, and write it in the loop. -/
def loopEffects (n : Fin 4) (_ : FlowState (Fin 4) Nat) : Except FlowErr (Gen Nat) :=
  match n with
  | 0 => .ok (.flow (some (.access .rd 0 10)))
  | 2 => .ok (.flow (some (.access .wr 0 12)))
  | _ => .ok (.flows [.empty])

/-- The loop of the nodes `1` and `2`: what is checked on the way back is the write. -/
theorem loopBody_exact_loop : ∃ s, InFlowCall loopGraph loopEffects 0 2 1 s ∧
    s.input 1 = [.access .rd 0 10] ∧ s.output 2 = [.access .rd 0 10, .access .wr 0 12] ∧
    ∃ body, consPrefix (s.output 2) = elements (s.input 1) ++ body ∧
      loopBody (s.input 1) (consPrefix (s.output 2)) = body := by
  obtain ⟨s, hcall, hin, hout⟩ : ∃ s, InFlowCall loopGraph loopEffects 0 2 1 s ∧
      s.input 1 = [.access .rd 0 10] ∧ s.output 2 = [.access .rd 0 10, .access .wr 0 12] :=
    ⟨_, ⟨2, _, _, _, [], [3], rfl, rfl, by decide, by decide, .one rfl rfl, rfl, rfl⟩, rfl, rfl⟩
  refine ⟨s, hcall, hin, hout, ?_⟩
  have hreach : loopGraph.Reaches 0 1 := .tail .refl (by decide)
  refine loopBody_exact (N := Fin 4) (fun n => lineNode 3 [4, 3, 2, 5] n)
    [(2, 3), (2, 1), (1, 2), (0, 1)] [0, 1, 2, 3] (by decide) (by decide) (by decide) (by decide)
    loopEffects 0 8 loopGraph rfl 2 1 s hcall (by decide) (fun n => n = 1 ∨ n = 2)
    ⟨.inl rfl, by decide, ?_, by decide⟩ (.inr rfl)
    (fun _ => ⟨?_, ?_, ?_, ?_⟩) [] (s.output 2) rfl
  · rintro x (rfl | rfl) hne
    · exact absurd rfl hne
    · exact ⟨1, hreach, .inl rfl, by decide⟩
  · rw [hin]
    rfl
  · rw [hin]
    rfl
  · rw [hin]
    rfl
  · intro x y _ _ _ d hd
    exact absurd hd not_mem_nil

/-- A branch that reads region `0` (node `1`) and one that gives up a reference to it (node `3`) and
then jumps back to node `2`, where the first branch goes too. -/
def jumpBack : FlowGraph Nat Nat :=
  FlowGraph.build (lineNode 4 [4, 3, 2, 1]) [(0, 3), (0, 1), (1, 2), (3, 2)]

/-- The effects of the branches. -/
def jumpEffects (n : Nat) (_ : FlowState Nat Nat) : Except FlowErr (Gen Nat) :=
  match n with
  | 1 => .ok (.flow (some (.access .rd 0 10)))
  | 3 => .ok (.flow (some (.cap ⟨-1, 0, 0⟩ 0 11)))
  | _ => .ok (.flows [.empty])

/-- The jump is a back edge. The reference that its branch gives up is dropped in the place of the
read that node `2` has in its input; nothing is left to be checked, and nothing is reported. -/
theorem not_loopBody_exact : adjustPredCounts jumpBack [0, 1, 2, 3] 0 8 = some jumpBack ∧
    (∃ s, InFlowCall jumpBack jumpEffects 0 3 2 s ∧ jumpBack.isFrontedge 3 2 = false ∧
      s.input 2 = [.access .rd 0 10] ∧
      translateFlow (jumpBack.node 3).enclosingXrgn (jumpBack.node 2).enclosingXrgn
        (jumpBack.node 3).loc (s.output 3) = .ok ([], [.cap ⟨-1, 0, 0⟩ 0 11]) ∧
      (consPrefix [Con.cap ⟨-1, 0, 0⟩ 0 11]).take (s.input 2).length ≠ s.input 2 ∧
      loopBody (s.input 2) (consPrefix [.cap ⟨-1, 0, 0⟩ 0 11]) = []) ∧
    ∃ w, propagate jumpBack jumpEffects 0 6 = .ok w ∧ w.workq = [] ∧ w.data.reports = [] := by
  refine ⟨rfl, ?_, ?_⟩
  · obtain ⟨s, hcall, hin, hout⟩ : ∃ s, InFlowCall jumpBack jumpEffects 0 3 2 s ∧
        s.input 2 = [.access .rd 0 10] ∧ s.output 3 = [.cap ⟨-1, 0, 0⟩ 0 11] :=
      ⟨_, ⟨2, _, _, _, [], [], rfl, rfl, by decide, by decide, .one rfl rfl, rfl, rfl⟩, rfl, rfl⟩
    refine ⟨s, hcall, by decide, hin, ?_, ?_, ?_⟩
    · rw [hout]
      rfl
    · rw [hin]
      exact nofun
    · rw [hin]
      rfl
  · exact ⟨_, rfl, rfl, rfl⟩

end ConcurrentCyclone.XInfer
