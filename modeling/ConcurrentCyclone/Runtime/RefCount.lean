import ConcurrentCyclone.Runtime.Handover

/-!
# Region counts and the release of regions

The global count of a region is meant to be the number of threads with a key for it, and its memory
is released by the operation that makes that number zero. The invariant (`Counted`) is kept by the
three operations as long as the counts of a key fit in 16 bits and a spawn has one entry for each
key: `_new_xregion` starts a region with one thread, `__treecopy` adds one thread to every region of
the array before the spawner gives anything up, and `__xregion_refcnt` takes a thread out of a
region exactly when it takes the key out of the tree.

A count that is narrowed to zero leaves a key behind that nobody can use or give up.
-/

set_option autoImplicit false

namespace ConcurrentCyclone.Runtime

open Transition

/-- The thread has a key for the region with a positive count. -/
def Keys.holds (z : Rid) : Keys → Bool
  | .nil => false
  | .key h _ l sub next => (h == z && l.rcnt != 0) || sub.holds z || next.holds z

/-- There is a key for the region. -/
def Keys.has (z : Rid) (ks : Keys) : Bool := decide (z ∈ ks.regions)

theorem Keys.holds_eq_has {ks : Keys} (hall : ks.All fun _ l => l.rcnt ≠ 0) (z : Rid) :
    ks.holds z = ks.has z := by
  induction ks with
  | nil => rfl
  | key h a l sub next ihsub ihnext =>
    obtain ⟨hself, hsub, hnext⟩ := hall
    have hrcnt : (l.rcnt != 0) = true := by simpa using hself
    simp only [holds, ihsub hsub, ihnext hnext, has, regions, hrcnt]
    by_cases hz : h = z
    · simp [hz]
    · have hbeq : (h == z) = false := by simpa using hz
      simp [hbeq, Ne.symm hz]

/-! ## The operations on one thread's keys -/

section Ops

variable {self : Tid} {g g' : Regions} {h : Rid}

variable {ks ks' : Keys} {z : Rid} {cs : List Caps}

variable {rgc wc rc addr : Int}

/-- `_xregion_cap` takes the thread out of the regions of the keys that it gives up. -/
theorem cap_refs (hnodup : ks.regions.Nodup)
    (hcall : cap self h rgc wc rc g ks = .ok (g', ks')) (y : Rid) :
    refs g' y = if y ∈ ks.regions ∧ y ∉ ks'.regions then dropped (refs g y) else refs g y := by
  obtain ⟨k, o, hf, hrep⟩ := onKey_ok hcall
  obtain ⟨rest, hold, hnew⟩ := hrep.regions_perm
  obtain ⟨hkey, _, hdisj⟩ := List.nodup_append.1 (hold.nodup_iff.1 hnodup)
  rcases capTh_ok hf with ⟨k', rfl, _, hlock⟩ | ⟨rfl, g1, hsub, hself⟩
  · -- the key stays, and so do the keys below it
    have hregions : regionsOf h (some k') = h :: k.2.regions := by
      simp [regionsOf, lockop_ok hlock]
    rw [hregions] at hnew
    rw [refs_lockop hlock, if_neg fun hc => hc.2 (hnew.mem_iff.2 (hold.mem_iff.1 hc.1))]
  · obtain ⟨hnot, hsubNodup⟩ := List.nodup_cons.1 hkey
    have hgone : y ∈ ks.regions ∧ y ∉ ks'.regions ↔ y ∈ h :: k.2.regions := by
      rw [hold.mem_iff, hnew.mem_iff, List.mem_append]
      exact ⟨fun hc => hc.1.resolve_right hc.2,
        fun hy => ⟨.inl hy, fun hr => hdisj y hy y hr rfl⟩⟩
    rw [refs_releaseSelf hself, refs_releaseKeys hsub hsubNodup]
    simp only [hgone]
    by_cases hy : y = h
    · subst hy
      simp [hnot]
    · simp [hy]

/-- The first loop of `__treecopy` adds one thread to the region of every entry. -/
theorem shareRegions_refs {tid : Tid} (hnodup : (cs.map fun c => c.h).Nodup)
    (hcall : shareRegions self tid cs g = .ok g') (y : Rid) :
    refs g' y = if y ∈ cs.map (fun c => c.h) then ((refs g y).1 + 1, (refs g y).2)
      else refs g y := by
  induction cs generalizing g with
  | nil =>
    cases hcall
    simp
  | cons c cs ih =>
    obtain ⟨g1, hshare, hcall⟩ := bind_eq_ok.1 hcall
    obtain ⟨hnot, hnodup'⟩ := List.nodup_cons.1 hnodup
    -- one entry, unless `errquit` ends the process
    have hone : refs g1 y = if y = c.h then ((refs g y).1 + 1, (refs g y).2) else refs g y := by
      unfold shareRegion at hshare
      split at hshare <;> cases hshare
      by_cases hy : y = c.h
      · subst hy
        simp [refs, setCaps]
      · simp [refs, setCaps, hy]
    rw [ih hnodup' hcall, hone]
    by_cases hy : y = c.h
    · subst hy
      simp [hnot]
    · simp [hy]

/-- `_new_xregion` adds one key, for the new region, and starts the region with one thread. -/
theorem newXregion_ok {parent : Option Rid}
    (hcall : newXregion self parent z addr g ks = .ok (g', ks')) :
    g' = Function.update g z ⟨newRegionCaps self, 0⟩ ∧ ks'.regions.Perm (z :: ks.regions) ∧
      ∀ p : Rid → LocalCaps → Prop, ks.All p → (∀ wr rd, p z (newLocalCaps wr rd)) → ks'.All p := by
  cases parent with
  | none =>
    cases hcall
    exact ⟨rfl, List.Perm.refl _, fun p hall hnew => ⟨hnew 0 0, trivial, hall⟩⟩
  | some par =>
    obtain ⟨k, o, hf, hrep⟩ := onKey_ok hcall
    cases hf
    obtain ⟨rest, hold, hnew⟩ := hrep.regions_perm
    refine ⟨rfl, ?_, ?_⟩
    · apply hnew.trans
      refine List.Perm.trans ?_ (hold.symm.cons z)
      exact List.Perm.swap z par _
    · intro p hall hp
      obtain ⟨hself, hsub⟩ := hrep.all_old hall
      apply hrep.all_new hall
      rintro k' ⟨rfl⟩
      exact ⟨hself, hp _ _, trivial, hsub⟩

/-- One key for each region, and the regions are below `n`. -/
structure Keys.Proper (n : Rid) (ks : Keys) : Prop where
  nodup : ks.regions.Nodup
  below : ∀ z ∈ ks.regions, z < n

namespace Keys.Proper

variable {n : Rid} (hks : ks.Proper n)

include hks

theorem fresh : n ∉ ks.regions := fun hmem => Nat.lt_irrefl _ (hks.below n hmem)

theorem create {parent : Option Rid}
    (hcall : newXregion self parent n addr g ks = .ok (g', ks')) : ks'.Proper (n + 1) := by
  obtain ⟨_, hperm, _⟩ := newXregion_ok hcall
  refine ⟨hperm.nodup_iff.2 (List.nodup_cons.2 ⟨hks.fresh, hks.nodup⟩), fun z hz => ?_⟩
  rcases List.mem_cons.1 (hperm.mem_iff.1 hz) with rfl | hz
  · exact Nat.lt_succ_self _
  · exact Nat.lt_succ_of_lt (hks.below z hz)

theorem cap (hcall : Runtime.cap self h rgc wc rc g ks = .ok (g', ks')) :
    ks'.Proper n := by
  obtain ⟨k, o, hrep, hsame, _⟩ := cap_replaced hcall
  exact ⟨hrep.nodup_new hsame hks.nodup, fun z hz => hks.below z (hrep.mem_new hsame hz)⟩

theorem take (hcall : takeCounts self cs g ks = .ok (g', ks')) : ks'.Proper n := by
  induction cs generalizing g ks with
  | nil =>
    cases hcall
    exact hks
  | cons c cs ih =>
    obtain ⟨⟨g1, ks1⟩, hcap, hcall⟩ := takeCounts_cons hcall
    exact ih (hks.cap hcap) hcall

theorem newKeys {P : Platform} {m : Int} (hnodup : (cs.map fun c => c.h).Nodup) :
    (newKeys P m cs ks).Proper n :=
  ⟨nodup_newKeys_regions hks.nodup hnodup, fun z hz => hks.below z (mem_newKeys_regions.1 hz).1⟩

end Keys.Proper

end Ops

/-! ## The invariant -/

/-- The number of threads with a key for the region. -/
def World.users (w : World) (z : Rid) : Int := tally w.threads w.forest (Keys.has z)

/-- Every thread has at most one key for a region, with a positive count; the region count is the
number of threads with a key, and the memory was released once if that is zero, and else never. -/
structure Counted (w : World) : Prop where
  below : ∀ t, ∀ z ∈ (w.forest t).regions, z < w.nextRid
  nodup : ∀ t, (w.forest t).regions.Nodup
  positive : ∀ t, (w.forest t).All fun _ l => l.rcnt ≠ 0
  refs : ∀ z, z < w.nextRid →
    refs w.regions z = (w.users z, if w.users z = 0 then 1 else 0)

theorem counted_initial : Counted World.initial where
  below t z hz := by simp [World.initial, Keys.regions] at hz
  nodup t := List.nodup_nil
  positive t := trivial
  refs z hz := absurd hz (Nat.not_lt_zero z)

namespace Counted

variable {w : World} {t : Tid}

theorem proper (hw : Counted w) (t : Tid) : (w.forest t).Proper w.nextRid :=
  ⟨hw.nodup t, hw.below t⟩

/-- A thread with a key makes the number of users positive. -/
theorem users_pos (ht : t ∈ w.threads) {z : Rid} (hz : z ∈ (w.forest t).regions) : 0 < w.users z :=
  tally_pos_iff.2 ⟨t, ht, by simpa [Keys.has] using hz⟩

/-- The number of users after thread `t` got other keys. -/
theorem users_setKeys (ht : t ∈ w.threads) (g : Regions) (ks : Keys) (z : Rid) :
    (w.setKeys t g ks).users z =
      w.users z - ((w.forest t).has z).toInt + (ks.has z).toInt := by
  have hchange := tally_change (f := w.forest) (g := Function.update w.forest t ks)
    (p := Keys.has z) ht (fun j hj => by rw [Function.update_of_ne hj])
  rwa [Function.update_self] at hchange

variable {ks : Keys}

/-- One thread gets other keys, and the counts of the regions agree with them. -/
theorem update (hw : Counted w) {w' : World} {u : Tid}
    (hforest : w'.forest = Function.update w.forest u ks) (hnext : w.nextRid ≤ w'.nextRid)
    (hks : ks.Proper w'.nextRid) (hpos : ks.All fun _ l => l.rcnt ≠ 0)
    (hrefs : ∀ z, z < w'.nextRid →
      Runtime.refs w'.regions z = (w'.users z, if w'.users z = 0 then 1 else 0)) :
    Counted w' := by
  refine ⟨?_, ?_, ?_, hrefs⟩ <;> rw [hforest]
  · exact forall_update (Q := fun ks : Keys => ∀ z ∈ ks.regions, z < w'.nextRid)
      (fun v z hz => Nat.lt_of_lt_of_le (hw.below v z hz) hnext) hks.below
  · exact forall_update (Q := fun ks : Keys => ks.regions.Nodup) hw.nodup hks.nodup
  · exact forall_update (Q := fun ks : Keys => ks.All fun _ l => l.rcnt ≠ 0) hw.positive hpos

variable {g : Regions}

section

variable (hw : Counted w) (ht : t ∈ w.threads)

include hw ht

/-- Thread `t` gets other keys for the same regions, or for fewer regions, and leaves the regions it
has no key for any more. -/
theorem setKeys
    (hnodup : ks.regions.Nodup) (hpos : ks.All fun _ l => l.rcnt ≠ 0)
    (hsub : ∀ z ∈ ks.regions, z ∈ (w.forest t).regions) (hrefs : ∀ z, Runtime.refs g z =
      if z ∈ (w.forest t).regions ∧ z ∉ ks.regions then dropped (Runtime.refs w.regions z)
      else Runtime.refs w.regions z) :
    Counted (w.setKeys t g ks) := by
  refine hw.update rfl (le_refl _) ⟨hnodup, fun z hz => hw.below t z (hsub z hz)⟩ hpos ?_
  intro z hz
  have hbefore := hw.refs z hz
  rw [users_setKeys ht]
  show Runtime.refs g z = _
  rw [hrefs z]
  by_cases hold : z ∈ (w.forest t).regions
  · have hpositive := users_pos ht hold
    by_cases hnew : z ∈ ks.regions
    · simp [Keys.has, hold, hnew, hbefore]
    · -- the thread leaves the region: its memory goes if it was the last user
      rw [if_pos ⟨hold, hnew⟩, hbefore, dropped]
      simp only [Keys.has, hold, hnew, decide_true, decide_false, Bool.toInt_true,
        Bool.toInt_false, add_zero, Prod.mk.injEq, true_and]
      split_ifs <;> omega
  · have hnew : z ∉ ks.regions := fun h => hold (hsub z h)
    simp [Keys.has, hold, hnew, hbefore]

/-- An operation `_xregion_cap` whose region count fits in 16 bits. -/
theorem cap {h : Rid} {rgc wc rc : Int}
    (hcall : Runtime.cap t h rgc wc rc w.regions (w.forest t) = .ok (g, ks))
    (hint : -2147483648 ≤ rgc)
    (hfits : (w.forest t).All fun z l => z = h → l.rcnt.toNat + rgc < 65536) :
    Counted (w.setKeys t g ks) := by
  obtain ⟨k, o, hrep, hsame, hk'⟩ := cap_replaced hcall
  refine hw.setKeys ht (hrep.nodup_new hsame (hw.nodup t)) ?_ (fun z => hrep.mem_new hsame)
    (cap_refs (hw.nodup t) hcall)
  apply hrep.all_new (hw.positive t)
  intro k' ho
  -- the key stays, with a count that is not narrowed
  obtain ⟨hpos, _, rfl⟩ := hk' k' ho
  have hlt := (hrep.all_old hfits).1 rfl
  rw [int32_of_range (by omega) (by omega)] at hpos
  have hstored := toNat_addShort_of_range (x := k.1.rcnt) (d := rgc) (by omega) hlt
  refine ⟨fun hzero => ?_, Keys.all_mapCaps.2 (hrep.all_old (hw.positive t)).2⟩
  rw [show addShort k.1.rcnt rgc = 0 from hzero] at hstored
  simp only [BitVec.ofNat_eq_ofNat, BitVec.toNat_ofNat] at hstored
  omega

/-- An operation `_new_xregion`. -/
theorem create {parent : Option Rid} {addr : Int}
    (hcall : newXregion t parent w.nextRid addr w.regions (w.forest t) = .ok (g, ks)) :
    Counted { w.setKeys t g ks with nextRid := w.nextRid + 1 } := by
  obtain ⟨hg, hperm, hall⟩ := newXregion_ok hcall
  have hfresh : ∀ u, w.nextRid ∉ (w.forest u).regions := fun u => (hw.proper u).fresh
  have hmem : ∀ z, z ∈ ks.regions ↔ z = w.nextRid ∨ z ∈ (w.forest t).regions := by
    intro z
    rw [hperm.mem_iff, List.mem_cons]
  refine hw.update rfl (Nat.le_succ _) ((hw.proper t).create hcall) ?_ ?_
  · exact hall _ (hw.positive t) fun wr rd => by simp [newLocalCaps]
  · intro z hz
    show Runtime.refs g z =
      ((w.setKeys t g ks).users z, if (w.setKeys t g ks).users z = 0 then 1 else 0)
    rw [users_setKeys ht, hg]
    by_cases hzn : z = w.nextRid
    · -- the new region: only the creator has a key
      subst hzn
      have hnone : w.users w.nextRid = 0 :=
        tally_eq_zero_iff.2 fun u _ => by simp [Keys.has, hfresh u]
      simp [Runtime.refs, newRegionCaps, hnone, Keys.has, hfresh t, hmem]
    · have hlt : z < w.nextRid := Nat.lt_of_le_of_ne (Nat.lt_succ_iff.1 hz) hzn
      have hsame : ks.has z = (w.forest t).has z := by simp [Keys.has, hmem, hzn]
      rw [hsame, sub_add_cancel, ← hw.refs z hlt, Runtime.refs, Function.update_of_ne hzn]
      rfl

/-- The first loop of `__treecopy`, and the start of the new thread. -/
theorem share {P : Platform} {n : Int} {cs : List Caps}
    (hcall : shareRegions t w.nextTid cs w.regions = .ok g)
    (hmem : ∀ c ∈ cs, c.h ∈ (w.forest t).regions) (hnodup : (cs.map fun c => c.h).Nodup)
    (hpos : ∀ c ∈ cs, 0 < c.rc ∧ c.rc < 65536) :
    Counted ({ w with regions := g }.start (newKeys P n cs (w.forest t))) := by
  have hnew : ∀ z, z ∈ (newKeys P n cs (w.forest t)).regions ↔ z ∈ cs.map fun c => c.h := by
    intro z
    rw [mem_newKeys_regions, List.mem_map]
    refine ⟨fun h => h.2, fun h => ⟨?_, h⟩⟩
    obtain ⟨c, hc, rfl⟩ := h
    exact hmem c hc
  have hfresh : w.nextTid ∉ w.threads := fun h => Nat.lt_irrefl _ (w.started _ h)
  refine hw.update rfl (le_refl _) ((hw.proper t).newKeys hnodup) ?_ ?_
  · apply newKeys_all
    intro c hc hzero
    -- a positive count below 2^16 is not stored as zero
    obtain ⟨hlow, hhigh⟩ := hpos c hc
    have hnat := congrArg BitVec.toNat hzero
    simp only [copyCaps, BitVec.toNat_ofInt, BitVec.ofNat_eq_ofNat, BitVec.toNat_ofNat] at hnat
    omega
  · intro z hz
    -- one more user exactly for the regions of the array
    have husers : ({ w with regions := g }.start (newKeys P n cs (w.forest t))).users z =
        w.users z + ((newKeys P n cs (w.forest t)).has z).toInt := by
      have hinsert := tally_insert (f := Function.update w.forest w.nextTid
        (newKeys P n cs (w.forest t))) (p := Keys.has z) hfresh
      rw [Function.update_self] at hinsert
      apply hinsert.trans
      congr 1
      apply tally_congr
      intro u hu
      rw [Function.update_of_ne fun (e : u = w.nextTid) => hfresh (e ▸ hu)]
    rw [husers]
    show Runtime.refs g z = _
    rw [shareRegions_refs hnodup hcall, hw.refs z hz]
    by_cases hzc : z ∈ cs.map fun c => c.h
    · obtain ⟨c, hc, rfl⟩ := List.mem_map.1 hzc
      -- the spawner has a key, so the region was in use and its memory is there
      have hpositive := users_pos ht (hmem c hc)
      rw [if_pos hzc]
      simp only [Keys.has, hnew, hzc, decide_true, Bool.toInt_true, Prod.mk.injEq, true_and]
      rw [if_neg (by omega), if_neg (by omega)]
    · rw [if_neg hzc]
      simp [Keys.has, hnew, hzc]

end

/-- The second loop of `__treecopy`. -/
theorem take {cs : List Caps} (hpos : ∀ c ∈ cs, 0 < c.rc ∧ c.rc < 65536) (hw : Counted w)
    (ht : t ∈ w.threads)
    (hcall : takeCounts t cs w.regions (w.forest t) = .ok (g, ks)) :
    Counted (w.setKeys t g ks) := by
  induction cs generalizing w with
  | nil =>
    cases hcall
    simpa [World.setKeys] using hw
  | cons c cs ih =>
    obtain ⟨⟨g1, ks1⟩, hcap, hcall⟩ := takeCounts_cons hcall
    obtain ⟨hlow, hhigh⟩ := hpos c (.head _)
    -- taking away a count cannot exceed 16 bits
    have hneg : int32 (-c.rc) = -c.rc := int32_of_range (by omega) (by omega)
    have hfits : (w.forest t).All fun z l => z = c.h → l.rcnt.toNat + int32 (-c.rc) < 65536 := by
      refine Keys.All.imp ?_ (hw.positive t)
      intro h l _ _
      omega
    have hw1 := hw.cap ht hcap (by omega) hfits
    have hrest := ih (w := w.setKeys t g1 ks1) (fun d hd => hpos d (.tail c hd))
      hw1 ht (by simpa [World.setKeys] using hcall)
    simpa [World.setKeys] using hrest

end Counted

/-! ## Runs -/

/-- The condition on the operations of a run: the new region count of a key fits in 16 bits, and
`caps_cmp` can sort the keys of a spawn, whose region counts are positive and fit. -/
def RefsFit (P : Platform) (w : World) : Op → Prop
  | .create _ _ _ => True
  | .cap t h rgc _ _ => -2147483648 ≤ rgc ∧
      (w.forest t).All fun z l => z = h → l.rcnt.toNat + rgc < 65536
  | .spawn t args _ => Sortable P (w.forest t) args ∧
      ∀ cs, mergeCaps P (w.forest t) args = .ok cs → ∀ c ∈ cs, 0 < c.rc ∧ c.rc < 65536

theorem Counted.step {P : Platform} {w w' : World} {op : Op} (hw : Counted w)
    (hok : RefsFit P w op) (hstep : w.Step P op w') : Counted w' := by
  obtain ⟨ht, hexec⟩ := hstep
  cases op with
  | create t parent addr =>
    obtain ⟨x, hx, rfl⟩ := map_eq_ok.1 hexec
    exact hw.create ht hx
  | cap t h rgc wc rc =>
    obtain ⟨x, hx, rfl⟩ := map_eq_ok.1 hexec
    exact hw.cap ht hx hok.1 hok.2
  | spawn t args n =>
    obtain ⟨cs, g1, g, ks, hcs, hshare, htake, rfl⟩ := World.exec_spawn hexec
    have hnodup := hok.1.nodup hcs
    have hpos := hok.2 cs hcs
    have hthread : t ∈ w.threads := ht
    have hne : t ≠ w.nextTid := (w.started t hthread).ne
    -- as if the new thread started between the two loops, before the spawner gives anything up
    have hw1 := hw.share hthread hshare (mergeCaps_mem hcs) hnodup hpos (P := P) (n := n)
    have hw2 : Counted (.setKeys _ t g ks) :=
      .take (fun c hc => hpos c (List.mem_reverse.1 hc)) hw1 (Finset.mem_insert_of_mem hthread)
        (by simpa [World.start, Function.update_of_ne hne] using htake)
    -- the order of the two changes to the forest does not matter
    simp only [World.start, World.setKeys] at hw2 ⊢
    rwa [Function.update_comm hne]

/-- The region count is the number of threads with a key of positive count, and the memory of a
region was released once if that number is zero, and else never. -/
structure RefsExact (w : World) : Prop where
  count : ∀ z, z < w.nextRid →
    (w.regions z).caps.rcnt = tally w.threads w.forest (Keys.holds z)
  freed : ∀ z, z < w.nextRid →
    (w.regions z).freed = if tally w.threads w.forest (Keys.holds z) = 0 then 1 else 0

theorem Counted.refsExact {w : World} (hw : Counted w) : RefsExact w := by
  have hholds : ∀ z, tally w.threads w.forest (Keys.holds z) = w.users z :=
    fun z => tally_eq_sum .. |>.trans (by
      rw [World.users, tally_eq_sum]
      exact Finset.sum_congr rfl fun t _ => by rw [Keys.holds_eq_has (hw.positive t)])
  constructor <;> intro z hz <;> rw [hholds]
  · exact congrArg Prod.fst (hw.refs z hz)
  · exact congrArg Prod.snd (hw.refs z hz)

/-- In every run of operations whose region counts fit in 16 bits and whose spawns have one entry
for each key, region counts and releases are exact. -/
theorem refs_exact_of_fit {P : Platform} {w : World}
    (h : Reach (World.Step P) (RefsFit P) World.initial w) : RefsExact w :=
  (h.invariant (fun _ _ _ hok hstep hw => hw.step hok hstep) counted_initial).refsExact

instance (P : Platform) (w : World) : (op : Op) → Decidable (RefsFit P w op)
  | .create _ _ _ => inferInstanceAs (Decidable True)
  | .cap _ _ _ _ _ => inferInstanceAs (Decidable (_ ∧ _))
  | .spawn _ _ _ => inferInstanceAs (Decidable (_ ∧ _))

/-- The main thread shares a region and a region below it with a new thread; the new thread gives
the lower one up, and the main thread both. -/
def shareAndRelease : List Op :=
  [.create 1 none 1000, .create 1 (some 0) 900, .cap 1 0 1 0 0, .cap 1 1 1 0 0,
    .spawn 1 [⟨1, 1, 0, 0⟩, ⟨0, 1, 0, 0⟩] 2000, .cap 3 1 (-1) 0 0, .cap 1 0 (-1) 0 0]

theorem refs_exact_shareAndRelease :
    ∃ w, runWhen (World.next plainPlatform) (RefsFit plainPlatform) World.initial shareAndRelease =
        some w ∧
      (w.regions 0).caps.rcnt = 1 ∧ (w.regions 0).freed = 0 ∧ (w.regions 1).freed = 1 ∧
      RefsExact w := by
  have hrun : (runWhen (World.next plainPlatform) (RefsFit plainPlatform) World.initial
      shareAndRelease).map (fun w =>
        ((w.regions 0).caps.rcnt, (w.regions 0).freed, (w.regions 1).freed)) =
          some (1, 0, 1) := by
    decide +kernel
  obtain ⟨w, hw, hcounts⟩ := Option.map_eq_some_iff.1 hrun
  simp only [Prod.mk.injEq] at hcounts
  exact ⟨w, hw, hcounts.1, hcounts.2.1, hcounts.2.2,
    refs_exact_of_fit (reach_of_runWhen (fun _ _ _ => World.step_of_next) hw)⟩

/-- The main thread raises the region count of its only key by 65535: the stored count is zero, the
region still counts one thread, and its memory is not released. -/
theorem not_refs_exact_narrowed :
    ∃ w, Reach (World.Step plainPlatform) (fun _ _ => True) World.initial w ∧ ¬ RefsExact w := by
  have hrun : (oneRegion.exec plainPlatform (.cap 1 0 65535 0 0)).map (fun w =>
      (w.nextRid, (w.regions 0).caps.rcnt, tally w.threads w.forest (Keys.holds 0))) =
        .ok (1, 1, 0) := by
    decide +kernel
  obtain ⟨w, hexec, hcounts⟩ := map_eq_ok.1 hrun
  simp only [Prod.mk.injEq] at hcounts
  obtain ⟨hnext, hrcnt, htally⟩ := hcounts
  refine ⟨w, ?_, fun hexact => ?_⟩
  · have hcap : oneRegion.Step plainPlatform (.cap 1 0 65535 0 0) w := ⟨by decide, hexec⟩
    exact (Relation.ReflTransGen.single ⟨_, trivial, step_oneRegion⟩).tail ⟨_, trivial, hcap⟩
  · have hcount := hexact.count 0 (by rw [hnext]; decide)
    rw [hrcnt, htally] at hcount
    cases hcount

end ConcurrentCyclone.Runtime
