import ConcurrentCyclone.XInfer.Translate

/-!
# Regions that an edge leaves

Each node of the control-flow graph has the stack of the regions that are declared around it,
innermost first; regions have different variables, so a stack holds no region twice (`Enclosing`).

On an edge to a node with a shorter stack `node_in_flow` translates the effect for the regions that
`node_diff_enclosing_xrgn` returns. It skips as many regions of the source as the target has, from
the inner end; the regions that are left are the first ones of the stack, not the last ones.
`leavesExact_iff` says for which edges this makes no difference.
-/

set_option autoImplicit false

namespace ConcurrentCyclone.XInfer

/-- A declaration `Region_d(tv,_,eo)` of a region: its variable, and the first region of the type of
`eo`, which is its parent (`NULL` for a region without parent). -/
structure RegionDecl (R : Type) where
  tv : R
  parent : Option R
  deriving DecidableEq

variable {R : Type}

/-- A stack that holds no region twice. -/
structure Enclosing (R : Type) where
  decls : List (RegionDecl R)
  nodup : (decls.map RegionDecl.tv).Nodup

/-! ## The regions that an edge leaves -/

/-- `node_diff_enclosing_xrgn`, for the stacks of the two nodes. -/
def nodeDiffEnclosingXrgn (source target : List (RegionDecl R)) : List (RegionDecl R) :=
  if source.length ≤ target.length then [] else source.drop target.length

/-- `decls2rgns`: the table of parents. An entry hides the earlier ones of the same region. -/
def decls2rgns (ds : List (RegionDecl R)) : List (R × Option R) :=
  (ds.map fun d => (d.tv, d.parent)).reverse

/-- `decls2order`. -/
def decls2order (ds : List (RegionDecl R)) : List R := ds.map RegionDecl.tv

variable [DecidableEq R]

/-- `parent_of`, for a region of the table. -/
def parentOf (p : List (R × Option R)) (r : R) : Option R := (p.lookup r).join

/-- The loop of `node_in_flow` over `order`; the errors are those that `cons_translate` reports. -/
def translateLoop (diff : List (R × Option R)) (loc : Seg) :
    List R → List (Con R) → Except EnvErr (List (TransErr R) × List (Con R))
  | [], flow => .ok ([], flow)
  | r :: order, flow =>
    (consTranslate flow ⟨r, ⟨1, 1, 0⟩, parentOf diff r, [], loc⟩ 0).bind fun x =>
      (translateLoop diff loc order x.ret).map fun y => (x.errs ++ y.1, y.2)

/-- The translation in `node_in_flow` for regions that go out of scope. -/
def leaveRegions (ds : List (RegionDecl R)) (loc : Seg) (flow : List (Con R)) :
    Except EnvErr (List (TransErr R) × List (Con R)) :=
  translateLoop (decls2rgns ds) loc (decls2order ds) flow

/-- The translation in `node_in_flow` on an edge. Without a region to leave there is no loop. -/
def translateFlow (source target : List (RegionDecl R)) (loc : Seg) (flow : List (Con R)) :
    Except EnvErr (List (TransErr R) × List (Con R)) :=
  leaveRegions (nodeDiffEnclosingXrgn source target) loc flow

/-- What `node_in_flow` should do on an edge that leaves the regions `left`, inside of those of the
target. -/
structure LeavesExact (left source target : List (RegionDecl R)) : Prop where
  /-- The difference is what the source has in front of the target's stack. -/
  diff : nodeDiffEnclosingXrgn source target ++ target = source
  /-- The effect is translated for the regions that go out of scope and for no others. -/
  regions : ∀ r, r ∈ decls2order (nodeDiffEnclosingXrgn source target) ↔
    r ∈ source.map RegionDecl.tv ∧ r ∉ target.map RegionDecl.tv
  /-- The flow is translated as it is when the regions `left` go out of scope. -/
  flow : ∀ loc fl, translateFlow source target loc fl = leaveRegions left loc fl

omit [DecidableEq R] in
/-- The regions are skipped from the inner end. -/
theorem nodeDiff_append (left target : List (RegionDecl R)) :
    nodeDiffEnclosingXrgn (left ++ target) target = (left ++ target).drop target.length := by
  cases left with
  | nil | cons => simp [nodeDiffEnclosingXrgn]

omit [DecidableEq R] in
/-- With regions on both sides, the outermost region of the target is taken for one that the edge
leaves. -/
theorem nodeDiff_ne_left {left target : List (RegionDecl R)}
    (hnodup : ((left ++ target).map RegionDecl.tv).Nodup) (hleft : left ≠ [])
    (htarget : target ≠ []) : nodeDiffEnclosingXrgn (left ++ target) target ≠ left := by
  intro heq
  rw [nodeDiff_append] at heq
  have hdrop : (left ++ target).drop target.length ≠ [] := by rwa [heq]
  have hlast : left.getLast hleft = target.getLast htarget :=
    calc left.getLast hleft
        = ((left ++ target).drop target.length).getLast hdrop := by simp only [heq]
      _ = target.getLast htarget := by
          rw [List.getLast_drop, List.getLast_append_of_right_ne_nil _ _ htarget]
  -- but the two stand in disjoint parts of the stack
  rw [List.map_append] at hnodup
  refine List.disjoint_of_nodup_append hnodup
    (List.mem_map_of_mem (List.getLast_mem hleft)) ?_
  rw [hlast]
  exact List.mem_map_of_mem (List.getLast_mem htarget)

/-- `node_in_flow` handles an edge as it should exactly when the edge leaves no region, or all. -/
theorem leavesExact_iff (source : Enclosing R) (left target : List (RegionDecl R))
    (hsource : source.decls = left ++ target) :
    LeavesExact left source.decls target ↔ left = [] ∨ target = [] := by
  have hnodup := source.nodup
  rw [hsource] at hnodup ⊢
  constructor
  · intro h
    by_contra hne
    rw [not_or] at hne
    exact nodeDiff_ne_left hnodup hne.1 hne.2 (List.append_cancel_right h.diff)
  · intro hends
    have hdiff : nodeDiffEnclosingXrgn (left ++ target) target = left := by
      rw [nodeDiff_append]
      rcases hends with rfl | rfl <;> simp
    refine ⟨by rw [hdiff], fun r => ?_, fun loc fl => by rw [translateFlow, hdiff]⟩
    rw [hdiff, List.map_append, List.mem_append]
    rw [List.map_append] at hnodup
    constructor
    · intro hr
      exact ⟨.inl hr, List.disjoint_of_nodup_append hnodup hr⟩
    · rintro ⟨hr | hr, hnot⟩
      · exact hr
      · exact (hnot hr).elim

/-- The edge to the end of a function leaves all regions; one out of the inner region only is not
handled as it should. -/
theorem leavesExact_iff_return :
    LeavesExact [⟨1, some 0⟩, ⟨0, none⟩] [⟨1, some 0⟩, ⟨0, none⟩] ([] : List (RegionDecl Nat)) ∧
      ¬ LeavesExact [⟨1, some 0⟩] [⟨1, some 0⟩, ⟨0, none⟩] [(⟨0, none⟩ : RegionDecl Nat)] := by
  let source : Enclosing Nat := ⟨[⟨1, some 0⟩, ⟨0, none⟩], by decide⟩
  refine ⟨(leavesExact_iff source _ _ rfl).2 (.inr rfl), fun h => ?_⟩
  rcases (leavesExact_iff source _ _ rfl).1 h with h | h <;> cases h

/-- An edge out of region `1`, which is declared inside of region `0`: it is region `0` that is
checked and found alive, and no error is reported for region `1`, which nobody gave up. -/
theorem not_leavesExact_nested :
    let inner : RegionDecl Nat := ⟨1, none⟩
    let outer : RegionDecl Nat := ⟨0, none⟩
    nodeDiffEnclosingXrgn [inner, outer] [outer] = [outer] ∧
      translateFlow [inner, outer] [outer] 7 [] = .ok ([.notDeallocated 7 0 1], []) ∧
      leaveRegions [inner] 7 [] = .ok ([.notDeallocated 7 1 1], []) ∧
      ¬ LeavesExact [inner] [inner, outer] [outer] := by
  refine ⟨rfl, ?_, ?_, fun h => absurd h.diff (by decide)⟩
  · rfl
  · rfl

end ConcurrentCyclone.XInfer
