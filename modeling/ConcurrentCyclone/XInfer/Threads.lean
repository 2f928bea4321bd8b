import ConcurrentCyclone.XInfer.Soundness

/-!
# The threads of an accepted effect

An effect is accepted when `cons_translate`, called with `depth = 0` for a region without parent and
the counts of a fresh region, reports no error. The events of the main thread are then checked, and
so are those of the threads that are spawned, at any depth, with counts of the region
(`Accepts.spawned`). A thread that gets no count of the region is not translated; that its effect
does not use the region is what `node_update_flow` checks for each spawn (`Scoped`).

`safe_iff_fits` says which accepted effects are safe, `spawned_end_iff` which of them let a spawned
thread end with a count.
-/

set_option autoImplicit false

namespace ConcurrentCyclone.XInfer

open Transition

variable {R : Type} [DecidableEq R] {r : R} {s y : XCap} {c c₁ c₂ : List (Con R)}
  {tr : List (Event R)} {loc : Seg}

/-- `cons_translate` reports no error for a fresh region without parent. -/
def Accepted (r : R) (loc : Seg) (c : List (Con R)) : Prop :=
  ∃ x, consTranslate c ⟨r, ⟨1, 1, 0⟩, none, [], loc⟩ 0 = .ok x ∧ x.errs = []

theorem Accepted.accepts (h : Accepted r loc c) : ∃ y, Accepts r ⟨1, 1, 0⟩ c y ∧ y.ref = 0 := by
  obtain ⟨x, hx, herr⟩ := h
  obtain ⟨z, hz, rfl⟩ := map_eq_ok.1 hx
  unfold finish at herr
  split_ifs at herr with hdepth
  · have href : z.c.ref = 0 := hdepth.resolve_left fun h => h rfl
    exact ⟨z.c, ⟨_, 0, z, rfl, rfl, rfl, hz, herr, rfl⟩, href⟩
  · simp at herr

/-- An accepted list has a path. -/
theorem Accepts.defined (h : Accepts r s c y) : Defined c := by
  induction c using Con.listInduction generalizing s y with
  | nil => trivial
  | access a r' loc cs ih | cap x r' loc cs ih | spawn c₁ c₂ loc cs _ _ ih | empty cs ih =>
    obtain ⟨s', _, hcs⟩ := accepts_cons h
    exact ⟨trivial, ih hcs⟩
  | join c₁ c₂ loc cs ih1 ih2 ih =>
    obtain ⟨s', hcon, hcs⟩ := accepts_cons h
    exact ⟨⟨ih1 hcon.join.1, ih2 hcon.join.2⟩, ih hcs⟩
  | call c loc s cs ihc ih =>
    obtain ⟨s', hcon, hcs⟩ := accepts_cons h
    exact ⟨ihc hcon.call, ih hcs⟩
  | undefined cs _ =>
    obtain ⟨s', hcon, _⟩ := accepts_cons h
    exact hcon.undefined.elim

/-! ## Spawns at any depth -/

/-- Every spawn passes the regions that the effect of its thread uses. -/
def Scoped (c : List (Con R)) : Prop :=
  ∀ c₁ c₂, Spawns c c₁ c₂ → xrgnsOfCons c₂ ⊆ xrgnsOfCons c₁

/-- The counts of region `r` that spawns pass fit. -/
def SpawnsFit (r : R) (c : List (Con R)) : Prop :=
  ∀ c₁ c₂, Spawns c c₁ c₂ → Fits (given r c₁)

omit [DecidableEq R] in
theorem Spawns.trans {d1 d2 : List (Con R)} (h : Spawns c c₁ c₂) (h' : Spawns c₂ d1 d2) :
    Spawns c d1 d2 := by
  induction h with
  | here hpath hmem => exact .inner hpath hmem h'
  | inner hpath hmem _ ih => exact .inner hpath hmem (ih h')

mutual

theorem xrgns_of_path : ∀ {c : List (Con R)} {tr}, Path c tr → .spawn c₁ c₂ ∈ tr →
    xrgnsOfCons c₁ ∪ xrgnsOfCons c₂ ⊆ xrgnsOfCons c
  | [], _, hpath, hmem => by simp [path_nil_iff.1 hpath] at hmem
  | _ :: _, _, hpath, hmem => by
    obtain ⟨tr1, tr2, rfl, hpath1, hpath2⟩ := path_cons_iff.1 hpath
    rcases List.mem_append.1 hmem with hmem | hmem
    · exact (xrgns_of_takes hpath1 hmem).trans Finset.subset_union_left
    · exact (xrgns_of_path hpath2 hmem).trans Finset.subset_union_right

theorem xrgns_of_takes : ∀ {con : Con R} {tr}, con.Takes tr → .spawn c₁ c₂ ∈ tr →
    xrgnsOfCons c₁ ∪ xrgnsOfCons c₂ ⊆ con.xrgns
  | .join .., _, .inl htr, hmem => (xrgns_of_path htr hmem).trans Finset.subset_union_left
  | .join .., _, .inr htr, hmem => (xrgns_of_path htr hmem).trans Finset.subset_union_right
  | .call .., _, htr, hmem => by exact xrgns_of_path htr hmem
  | .spawn .., _, rfl, hmem => by
    cases List.mem_singleton.1 hmem
    exact subset_rfl
  | .access .., _, rfl, hmem | .cap .., _, rfl, hmem | .empty, _, rfl, hmem => by simp at hmem

end

theorem Spawns.xrgns (h : Spawns c c₁ c₂) : xrgnsOfCons c₁ ⊆ xrgnsOfCons c := by
  induction h with
  | here hpath hmem => exact Finset.union_subset_left (xrgns_of_path hpath hmem)
  | inner hpath hmem _ ih =>
    exact ih.trans (Finset.union_subset_right (xrgns_of_path hpath hmem))

theorem given_eq_zero_of_notMem (h : r ∉ xrgnsOfCons c₁) : given r c₁ = 0 := by
  induction c₁ with
  | nil => rfl
  | cons con cs ih =>
    simp only [xrgnsOfCons, Finset.mem_union, not_or] at h
    cases con with
    | cap x r' loc =>
      have hne : r' ≠ r := by
        rintro rfl
        exact h.1 (Finset.mem_singleton_self r')
      simp [given, hne, ih h.2]
    | _ => exact ih h.2

theorem Checks.mem {w : XCap} {e : Event R} (h : Checks r w tr y) (hmem : e ∈ tr) :
    ∃ x x', Check r x e x' := by
  induction h with
  | nil => cases hmem
  | cons hcheck _ ih =>
    rcases List.mem_cons.1 hmem with rfl | hmem
    · exact ⟨_, _, hcheck⟩
    · exact ih hmem

/-- Every thread that is spawned with counts of the region was translated without an error. -/
theorem Accepts.spawned (h : Accepts r s c y) (hscoped : Scoped c) (hfit : SpawnsFit r c)
    (hspawn : Spawns c c₁ c₂) (hgiven : given r c₁ ≠ 0) :
    Passes c₁ ∧ ∃ z, Accepts r (.ofCounts (given r c₁)) c₂ z := by
  induction hspawn generalizing s y with
  | @here c tr c₁ c₂ hpath hmem =>
    obtain ⟨w, w', hcheck⟩ := (h.checks hpath).mem hmem
    cases hcheck with
    | spawn hpass _ _ hthread => exact ⟨hpass, _, hthread⟩
    | ignored hpass hzero =>
      exact absurd (given_eq_zero_of_ignored hpass (hfit _ _ (.here hpath hmem)) hzero) hgiven
  | @inner c tr b1 b2 c₁ c₂ hpath hmem hspawn ih =>
    obtain ⟨w, w', hcheck⟩ := (h.checks hpath).mem hmem
    cases hcheck with
    | spawn _ _ _ hthread =>
      exact ih hthread (fun d1 d2 hd => hscoped d1 d2 (.inner hpath hmem hd))
        (fun d1 d2 hd => hfit d1 d2 (.inner hpath hmem hd)) hgiven
    | ignored hpass hzero =>
      -- the outer thread does not know the region, so it cannot pass it on
      have hnone := given_eq_zero_of_ignored hpass (hfit _ _ (.here hpath hmem)) hzero
      obtain ⟨hnot, _⟩ := (given_nonneg hpass).2 (congrArg Prod.fst hnone)
      refine absurd (given_eq_zero_of_notMem fun hr => hnot ?_) hgiven
      exact hscoped _ _ (.here hpath hmem) (hspawn.xrgns hr)

/-- The counts of the checker at the end of a spawned thread. -/
theorem tracks_spawned {z : XCap} (hpass : Passes c₁) (hspawn : Spawns c c₁ c₂)
    (hfit : SpawnsFit r c) (hthread : Accepts r (.ofCounts (given r c₁)) c₂ z)
    (hpath : Path c₂ tr) : SafeFrom r (given r c₁) tr ∧ Tracks z (given r c₁ + net r tr) := by
  obtain ⟨hr, hw, hl, _⟩ := hfit c₁ c₂ hspawn
  have hstart : Tracks (.ofCounts (given r c₁)) (given r c₁) :=
    tracks_ofCounts (given_nonneg hpass).1 ⟨by omega, by omega, by omega⟩
  apply hstart.run (hthread.checks hpath)
  intro d1 d2 hmem
  exact hfit d1 d2 (hspawn.trans (.here hpath hmem))

/-! ## Results -/

/-- For an accepted effect: the main thread is safe on all paths and ends with reference count zero
exactly if the counts that it passes to other threads fit. If the counts of all spawns fit, then
the threads that get counts are safe on all their paths, too. -/
theorem safe_iff_fits (h : Accepted r loc c) :
    ((∀ tr, Path c tr → SafeFrom r (1, 1, 0) tr ∧ ((1, 1, 0) + net r tr).1 = 0) ↔
      ∀ tr, Path c tr → ∀ c₁ c₂, .spawn c₁ c₂ ∈ tr → Fits (given r c₁)) ∧
    (Scoped c → SpawnsFit r c → ∀ c₁ c₂, Spawns c c₁ c₂ → given r c₁ ≠ 0 →
      ∀ tr, Path c₂ tr → SafeFrom r (given r c₁) tr) := by
  obtain ⟨y, hacc, hy⟩ := h.accepts
  have hstart : Tracks ⟨1, 1, 0⟩ (1, 1, 0) := ⟨by decide, .inl (by decide)⟩
  refine ⟨⟨fun hsafe tr hpath => ?_, fun hfit tr hpath => ?_⟩, ?_⟩
  · exact fits_of_safe hstart (hacc.checks hpath) hy (hsafe tr hpath).1
  · obtain ⟨hsafe, hend⟩ := hstart.run (hacc.checks hpath) (hfit tr hpath)
    exact ⟨hsafe, hend.ref_eq_zero_iff.1 hy⟩
  · intro hscoped hfit c₁ c₂ hspawn hgiven tr hpath
    obtain ⟨hpass, z, hthread⟩ := hacc.spawned hscoped hfit hspawn hgiven
    exact (tracks_spawned hpass hspawn hfit hthread hpath).1

/-- Acceptance is evaluated by running the translation. -/
theorem accepted_of_run (h : (consTranslate c ⟨r, ⟨1, 1, 0⟩, none, [], loc⟩ 0).map
    (fun x => x.errs.isEmpty) = .ok true) : Accepted r loc c := by
  obtain ⟨x, hx, hempty⟩ := map_eq_ok.1 h
  exact ⟨x, hx, List.isEmpty_iff.1 hempty⟩

/-- A thread writes to region `0` and passes it to another thread, which writes to it and gives it
up. -/
def passedOn : List (Con Nat) :=
  [.access .wr 0 1, .spawn [.cap ⟨1, 1, 0⟩ 0 2] [.access .wr 0 3, .cap ⟨-1, -1, 0⟩ 0 4] 2]

theorem safe_iff_fits_passedOn :
    ((∀ tr, Path passedOn tr → SafeFrom 0 (1, 1, 0) tr ∧ ((1, 1, 0) + net 0 tr).1 = 0) ↔
      ∀ tr, Path passedOn tr → ∀ c₁ c₂, .spawn c₁ c₂ ∈ tr → Fits (given 0 c₁)) ∧
    (Scoped passedOn → SpawnsFit 0 passedOn → ∀ c₁ c₂, Spawns passedOn c₁ c₂ → given 0 c₁ ≠ 0 →
      ∀ tr, Path c₂ tr → SafeFrom 0 (given 0 c₁) tr) :=
  safe_iff_fits (show Accepted 0 0 passedOn from accepted_of_run (by decide +kernel))

/-- A thread passes all its counts of region `0` to another thread and writes to the region
afterwards. The counts sum up to `2^32`, so the spawn is ignored. -/
def ignoredSpawn : List (Con Nat) :=
  [.cap ⟨2147483646, 2147483646, 2⟩ 0 1, .spawn [.cap ⟨2147483647, 2147483647, 2⟩ 0 2] [] 2,
    .access .wr 0 3, .cap ⟨-2147483647, -2147483647, -2⟩ 0 4]

theorem not_safe_ignoredSpawn :
    Accepted 0 0 ignoredSpawn ∧ ∃ tr, Path ignoredSpawn tr ∧ ¬ SafeFrom 0 (1, 1, 0) tr := by
  refine ⟨accepted_of_run (by decide +kernel), _,
    .cap (.spawn (.access (.cap .nil))), fun hsafe => ?_⟩
  -- the write happens with all counts zero
  obtain ⟨_, _, _, _, hneeds, _⟩ := hsafe
  exact absurd (hneeds rfl).1 (by decide)

/-- For an accepted effect whose spawns pass the regions that their threads use, with counts that
fit: every spawned thread ends all its paths with reference count zero, exactly if the references
it is passed and those that it takes, gives up and passes on add up to zero on its first path. -/
theorem spawned_end_iff (h : Accepted r loc c) (hscoped : Scoped c) (hfit : SpawnsFit r c) :
    (∀ c₁ c₂, Spawns c c₁ c₂ → given r c₁ ≠ 0 →
      ∀ tr, Path c₂ tr → (given r c₁ + net r tr).1 = 0) ↔
    ∀ c₁ c₂, Spawns c c₁ c₂ → given r c₁ ≠ 0 → (given r c₁ + net r (firstPath c₂)).1 = 0 := by
  obtain ⟨y, hacc, _⟩ := h.accepts
  constructor
  · intro hend c₁ c₂ hspawn hgiven
    obtain ⟨_, z, hthread⟩ := hacc.spawned hscoped hfit hspawn hgiven
    exact hend c₁ c₂ hspawn hgiven _ (path_firstPath hthread.defined)
  · intro hfirst c₁ c₂ hspawn hgiven tr hpath
    obtain ⟨hpass, z, hthread⟩ := hacc.spawned hscoped hfit hspawn hgiven
    -- the translation of the thread ends with one count, which tracks the counts of all paths
    have hz : z.ref = 0 := by
      rw [(tracks_spawned hpass hspawn hfit hthread
        (path_firstPath hthread.defined)).2.ref_eq_zero_iff]
      exact hfirst c₁ c₂ hspawn hgiven
    exact (tracks_spawned hpass hspawn hfit hthread hpath).2.ref_eq_zero_iff.1 hz

theorem spawns_passedOn {c₁ c₂ : List (Con Nat)} (h : Spawns passedOn c₁ c₂) :
    c₁ = [.cap ⟨1, 1, 0⟩ 0 2] ∧ c₂ = [.access .wr 0 3, .cap ⟨-1, -1, 0⟩ 0 4] := by
  have hpath : ∀ {tr b1 b2}, Path passedOn tr → .spawn b1 b2 ∈ tr →
      b1 = [.cap ⟨1, 1, 0⟩ 0 2] ∧ b2 = [.access .wr 0 3, .cap ⟨-1, -1, 0⟩ 0 4] := by
    intro tr b1 b2 hp hmem
    obtain _ | hp := hp
    cases hp with
    | spawn hp =>
      cases hp
      simpa using hmem
  cases h with
  | here hp hmem => exact hpath hp hmem
  | inner hp hmem hinner =>
    obtain ⟨_, rfl⟩ := hpath hp hmem
    -- the effect of the thread spawns nothing
    have hnone : ∀ {tr b1 b2}, Path [.access .wr 0 3, .cap ⟨-1, -1, 0⟩ 0 4] tr →
        .spawn b1 b2 ∉ tr := by
      intro tr b1 b2 hp
      obtain _ | hp := hp
      cases hp with
      | cap hp =>
        cases hp
        simp
    cases hinner with
    | here hp' hmem' | inner hp' hmem' => exact absurd hmem' (hnone hp')

theorem spawned_end_iff_passedOn :
    (∀ c₁ c₂, Spawns passedOn c₁ c₂ → given 0 c₁ ≠ 0 →
      ∀ tr, Path c₂ tr → (given 0 c₁ + net 0 tr).1 = 0) ↔
    ∀ c₁ c₂, Spawns passedOn c₁ c₂ → given 0 c₁ ≠ 0 →
      (given 0 c₁ + net 0 (firstPath c₂)).1 = 0 := by
  refine spawned_end_iff (show Accepted 0 0 passedOn from accepted_of_run (by decide +kernel)) ?_ ?_
  · intro c₁ c₂ h
    obtain ⟨rfl, rfl⟩ := spawns_passedOn h
    decide
  · intro c₁ c₂ h
    obtain ⟨rfl, rfl⟩ := spawns_passedOn h
    exact ⟨by decide, by decide, by decide, by decide⟩

/-- A thread passes a reference to region `0` to a thread that does nothing. -/
def keptReference : List (Con Nat) :=
  [.cap ⟨1, 0, 0⟩ 0 1, .spawn [.cap ⟨1, 0, 0⟩ 0 2] [] 2, .cap ⟨-1, 0, 0⟩ 0 3]

theorem not_spawned_end_keptReference :
    Accepted 0 0 keptReference ∧ ∃ c₁ c₂ tr, Spawns keptReference c₁ c₂ ∧ given 0 c₁ ≠ 0 ∧
      Path c₂ tr ∧ (given 0 c₁ + net 0 tr).1 = 1 := by
  refine ⟨accepted_of_run (by decide +kernel), [.cap ⟨1, 0, 0⟩ 0 2], [], [], ?_, by decide, .nil,
    by decide⟩
  exact .here (.cap (.spawn (.cap .nil))) (by simp)

end ConcurrentCyclone.XInfer
