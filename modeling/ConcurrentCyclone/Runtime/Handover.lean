import ConcurrentCyclone.Runtime.MergeCaps

/-!
# Handing a write lock over to a new thread

`__treecopy` makes the new thread the recorded writer of a region it gets a write count for, and
then takes the count from the spawner through `__xregion_lockop`. That function sets `writer_cv` to
zero when the count of its caller becomes zero, whoever is recorded. So after `__treecopy` either
the spawner still has a write count for the region, or the region has no recorded writer: the
hand-over never succeeds. The argument is a property of every call on a key of the spawner: if
another thread is still the recorded writer afterwards, then it was before, and the spawner's write
count for the region has not become zero (`takeCounts_keeps`).
-/

set_option autoImplicit false

namespace ConcurrentCyclone.Runtime

open Function Transition

/-- There is a key of region `z` with the counts `l`. -/
def Keys.Has (z : Rid) (l : LocalCaps) : Keys → Prop
  | .nil => False
  | .key h _ l' sub next => (h = z ∧ l' = l) ∨ sub.Has z l ∨ next.Has z l

/-- The key of region `h`, or a key below it, is for region `z` and has the counts `l`. -/
def keyHas (h : Rid) (k : KeyData) (z : Rid) (l : LocalCaps) : Prop :=
  (h = z ∧ k.1 = l) ∨ k.2.Has z l

section Keeps

variable {self v : Tid} {w r : Int} {g g' : Regions} {h z : Rid} {l l' : LocalCaps}

theorem lockopSelf_keeps (hv : v ≠ self) (hv0 : v ≠ 0)
    (hcall : lockopSelf self w r g h l = .ok (g', l')) (hcv : (g' z).caps.writerCv = v) :
    (g z).caps.writerCv = v ∧ (h = z → l.wrCnt ≠ 0 → l'.wrCnt ≠ 0) := by
  obtain ⟨_, rfl, rfl, hwait⟩ := lockopSelf_ok hcall
  by_cases hz : h = z
  · subst hz
    simp only [setCaps, update_self] at hcv
    obtain ⟨hbefore, hkept⟩ := pass_writerCv hv hv0 hcv hwait
    exact ⟨hbefore, fun _ => hkept⟩
  · rw [setCaps, update_of_ne (Ne.symm hz)] at hcv
    exact ⟨hcv, fun e => absurd e hz⟩

variable {ks ks' : Keys} {k : KeyData} {o : Option KeyData}

section

variable (hv : v ≠ self) (hv0 : v ≠ 0)

include hv hv0

theorem lockopKeys_keeps
    (hcall : lockopKeys self w r g ks = .ok (g', ks')) (hcv : (g' z).caps.writerCv = v) :
    (g z).caps.writerCv = v ∧
      ∀ l, ks.Has z l → l.wrCnt ≠ 0 → ∃ l', ks'.Has z l' ∧ l'.wrCnt ≠ 0 := by
  induction ks generalizing g g' ks' with
  | nil =>
    cases hcall
    exact ⟨hcv, fun l hl => hl.elim⟩
  | key h a l sub next ihsub ihnext =>
    obtain ⟨g1, sub', g₂, l', next', hx, hy, hn, rfl⟩ := lockopKeys_key hcall
    -- backwards through the three calls: the siblings, the key itself, its sub-keys
    obtain ⟨hcv2, hnext⟩ := ihnext hn hcv
    obtain ⟨hcv1, hself⟩ := lockopSelf_keeps hv hv0 hy hcv2
    obtain ⟨hcv0, hsub⟩ := ihsub hx hcv1
    refine ⟨hcv0, ?_⟩
    rintro l0 (⟨rfl, rfl⟩ | hl | hl) hwr
    · exact ⟨l', .inl ⟨rfl, rfl⟩, hself rfl hwr⟩
    · exact (hsub l0 hl hwr).imp fun _ hl' => ⟨.inr (.inl hl'.1), hl'.2⟩
    · exact (hnext l0 hl hwr).imp fun _ hl' => ⟨.inr (.inr hl'.1), hl'.2⟩

theorem lockop_keeps {k' : KeyData}
    (hcall : lockop self w r g h k = .ok (g', k')) (hcv : (g' z).caps.writerCv = v) :
    (g z).caps.writerCv = v ∧
      ∀ l, keyHas h k z l → l.wrCnt ≠ 0 → ∃ l', keyHas h k' z l' ∧ l'.wrCnt ≠ 0 := by
  rcases lockop_cases hcall with ⟨-, -, rfl, rfl⟩ | ⟨g1, hx, hy⟩
  · exact ⟨hcv, fun l hl hwr => ⟨l, hl, hwr⟩⟩
  · obtain ⟨hcv1, hself⟩ := lockopSelf_keeps hv hv0 hy hcv
    obtain ⟨hcv0, hsub⟩ := lockopKeys_keeps hv hv0 hx hcv1
    refine ⟨hcv0, ?_⟩
    rintro l0 (⟨rfl, rfl⟩ | hl) hwr
    · exact ⟨k'.1, .inl ⟨rfl, rfl⟩, hself rfl hwr⟩
    · exact (hsub l0 hl hwr).imp fun _ hl' => ⟨.inr hl'.1, hl'.2⟩

/-- The full release of a key with a write count clears the recorded writer. -/
theorem releaseSelf_keeps
    (hcall : releaseSelf self g h l = .ok g') (hcv : (g' z).caps.writerCv = v) :
    (g z).caps.writerCv = v ∧ (h = z → l.wrCnt = 0) := by
  obtain ⟨x, hx, rfl⟩ := map_eq_ok.1 hcall
  have hcv' : (x.1 z).caps.writerCv = v := by
    by_cases hz : h = z
    · subst hz
      simpa [dropRef] using hcv
    · rwa [dropRef, update_of_ne (Ne.symm hz)] at hcv
  obtain ⟨hcv0, hkept⟩ := lockop_keeps hv hv0 hx hcv'
  refine ⟨hcv0, ?_⟩
  rintro rfl
  by_contra hwr
  obtain ⟨l', hl', hwr'⟩ := hkept l (.inl ⟨rfl, rfl⟩) hwr
  -- after a full release the count is zero
  have hcaps : x.2.1 = addLocks _ _ l := congrArg Prod.fst (lockop_ok hx)
  have hsub : x.2.2 = .nil := congrArg Prod.snd (lockop_ok hx)
  rcases hl' with ⟨_, rfl⟩ | hl'
  · rw [hcaps] at hwr'
    exact hwr' (addShort_neg_toNat l.wrCnt)
  · rw [hsub] at hl'
    exact hl'

theorem releaseKeys_keeps
    (hcall : releaseKeys self g ks = .ok g') (hcv : (g' z).caps.writerCv = v) :
    (g z).caps.writerCv = v ∧ ∀ l, ks.Has z l → l.wrCnt = 0 := by
  induction ks generalizing g g' with
  | nil =>
    cases hcall
    exact ⟨hcv, fun l hl => hl.elim⟩
  | key h a l sub next ihsub ihnext =>
    obtain ⟨g1, g₂, hsub, hself, hnext⟩ := releaseKeys_key hcall
    -- backwards again: the word is still `v` after each of the three calls
    obtain ⟨hcv2, hnextZero⟩ := ihnext hnext hcv
    obtain ⟨hcv1, hselfZero⟩ := releaseSelf_keeps hv hv0 hself hcv2
    obtain ⟨hcv0, hsubZero⟩ := ihsub hsub hcv1
    refine ⟨hcv0, ?_⟩
    rintro l0 (⟨rfl, rfl⟩ | hl | hl)
    · exact hselfZero rfl
    · exact hsubZero l0 hl
    · exact hnextZero l0 hl

theorem capTh_keeps {rgc wc rc : Int}
    (hcall : capTh self rgc wc rc g h k = .ok (g', o))
    (hcv : (g' z).caps.writerCv = v) : (g z).caps.writerCv = v ∧ ∀ l, keyHas h k z l → l.wrCnt ≠ 0 →
      ∃ k' l', o = some k' ∧ keyHas h k' z l' ∧ l'.wrCnt ≠ 0 := by
  rcases capTh_ok hcall with ⟨k', rfl, _, hlock⟩ | ⟨rfl, g1, hsub, hself⟩
  · -- the key stays: the locks are changed
    obtain ⟨hcv0, hkept⟩ := lockop_keeps hv hv0 hlock hcv
    refine ⟨hcv0, ?_⟩
    rintro l0 (⟨rfl, rfl⟩ | hl) hwr
    · exact ⟨k', (hkept _ (.inl ⟨rfl, rfl⟩) hwr).imp fun _ hl' => ⟨rfl, hl'⟩⟩
    · exact ⟨k', (hkept l0 (.inr hl) hwr).imp fun _ hl' => ⟨rfl, hl'⟩⟩
  · -- the key is given up: no write count was left
    obtain ⟨hcv1, hselfZero⟩ := releaseSelf_keeps hv hv0 hself hcv
    obtain ⟨hcv0, hsubZero⟩ := releaseKeys_keeps hv hv0 hsub hcv1
    refine ⟨hcv0, ?_⟩
    rintro l0 (⟨rfl, rfl⟩ | hl) hwr
    · exact absurd (hselfZero rfl) hwr
    · exact absurd (hsubZero l0 hl) hwr

end

/-- A key is the replaced one, below it, or stays. -/
theorem Replaced.has_old
    (hr : Replaced h k o ks ks') (hl : ks.Has z l) : keyHas h k z l ∨ ks'.Has z l := by
  induction hr with
  | removed => exact or_assoc.2 hl
  | changed => exact (or_assoc.2 hl).imp_right fun hl => .inr (.inr hl)
  | sub _ _ ih =>
    rcases hl with hl | hl | hl
    · exact .inr (.inl hl)
    · exact (ih hl).imp_right fun hl => .inr (.inl hl)
    · exact .inr (.inr (.inr hl))
  | next _ _ ih =>
    rcases hl with hl | hl | hl
    · exact .inr (.inl hl)
    · exact .inr (.inr (.inl hl))
    · exact (ih hl).imp_right fun hl => .inr (.inr hl)

/-- The new key and the keys below it are there. -/
theorem Replaced.has_new
    (hr : Replaced h k o ks ks') {k' : KeyData} (ho : o = some k') (hl : keyHas h k' z l) :
    ks'.Has z l := by
  induction hr with
  | removed => cases ho
  | changed =>
    cases ho
    exact hl.imp_right .inl
  | sub _ _ ih => exact .inr (.inl (ih ho))
  | next _ _ ih => exact .inr (.inr (ih ho))

/-- The loop that takes the counts from the spawner: if another thread is recorded as the writer of
a region at its end, and the spawner had a write count for it, it still has one. -/
theorem takeCounts_keeps (hv : v ≠ self) (hv0 : v ≠ 0) {cs : List Caps}
    (hcall : takeCounts self cs g ks = .ok (g', ks')) (hcv : (g' z).caps.writerCv = v)
    (hold : (g z).caps.writerCv = v → ∃ l, ks.Has z l ∧ l.wrCnt ≠ 0) :
    ∃ l, ks'.Has z l ∧ l.wrCnt ≠ 0 := by
  induction cs generalizing g ks with
  | nil =>
    cases hcall
    exact hold hcv
  | cons c cs ih =>
    obtain ⟨⟨g1, ks1⟩, hcap, hcall⟩ := takeCounts_cons hcall
    apply ih hcall
    intro hcv1
    obtain ⟨k, o, hf, hrep⟩ := onKey_ok hcap
    obtain ⟨hcv0, hkept⟩ := capTh_keeps hv hv0 hf hcv1
    obtain ⟨l, hl, hwr⟩ := hold hcv0
    -- the key with the write count is among the changed ones, or is not touched
    rcases hrep.has_old hl with hkey | hstays
    · obtain ⟨k', l', ho, hl', hwr'⟩ := hkept l hkey hwr
      exact ⟨l', hrep.has_new ho hl', hwr'⟩
    · exact ⟨l, hstays, hwr⟩

end Keeps

/-! ## The hand-over -/

/-- Thread `v` has got the write lock of region `z`: it is the recorded writer, no other thread has
a write count, and a thread without counts can take neither the write nor the read lock. -/
structure HandedOver (w : World) (v : Tid) (z : Rid) : Prop where
  recorded : (w.regions z).caps.writerCv = v
  only : ∀ u l, (w.forest u).Has z l → l.wrCnt ≠ 0 → u = v
  excluded : ∀ u l c, u ≠ v → l.wrCnt = 0 → l.rdCnt = 0 →
    ¬ writeFree ⟨(w.regions z).caps, l, c⟩ ∧ ¬ readFree u ⟨(w.regions z).caps, l, c⟩

/-- From a state in which the spawner is the recorded writer, with a write count, of each region it
passes a write count for, a spawn hands all these regions over only if there are none. -/
theorem spawn_handsOver_iff {P : Platform} {w w' : World} {t : Tid} {args : List CapArg} {n : Int}
    {cs : List Caps} (hstep : w.Step P (.spawn t args n) w')
    (hmerged : mergeCaps P (w.forest t) args = .ok cs) (hwriter : ∀ c ∈ cs, 0 < c.wc →
      (w.regions c.h).caps.writerCv = t ∧ ∃ l, (w.forest t).Has c.h l ∧ l.wrCnt ≠ 0) :
    (∀ c ∈ cs, 0 < c.wc → HandedOver w' w.nextTid c.h) ↔ ∀ c ∈ cs, ¬ 0 < c.wc := by
  constructor
  · intro hover c hc hwc
    obtain ⟨hthread, hexec⟩ := hstep
    have hne : w.nextTid ≠ t := (w.started t hthread).ne'
    obtain ⟨cs', g₁, g, ks, hcs, _, htake, rfl⟩ := World.exec_spawn hexec
    obtain rfl : cs = cs' := Except.ok.inj (hmerged.symm.trans hcs)
    have hdone := hover c hc hwc
    obtain ⟨l, hl, hwr⟩ := takeCounts_keeps hne w.positive.ne' htake hdone.recorded
      fun _ => (hwriter c hc hwc).2
    -- the spawner still has a write count, so the new thread is not the only one
    have hspawner : (((w.setKeys t g ks).start
        (newKeys P n cs (w.forest t))).forest t).Has c.h l := by
      simpa [World.start, World.setKeys, hne.symm] using hl
    exact hne (hdone.only t l hspawner hwr).symm
  · intro hnone c hc hwc
    exact absurd hwc (hnone c hc)

/-- The main thread has created a region. -/
def oneRegion : World :=
  { World.initial.setKeys 1 (update World.initial.regions 0 ⟨newRegionCaps 1, 0⟩)
      (.key 0 1000 (newLocalCaps 0 0) .nil .nil) with nextRid := 1 }

theorem step_oneRegion : World.initial.Step plainPlatform (.create 1 none 1000) oneRegion :=
  ⟨by decide, rfl⟩

/-- Passing the region with its write count goes through, and leaves no recorded writer. -/
theorem spawn_oneRegion : ∃ w', oneRegion.Step plainPlatform (.spawn 1 [⟨0, 1, 1, 0⟩] 2000) w' ∧
      (w'.regions 0).caps.writerCv = 0 := by
  have hrun : (oneRegion.exec plainPlatform (.spawn 1 [⟨0, 1, 1, 0⟩] 2000)).map (fun w' =>
      (w'.regions 0).caps.writerCv) = .ok 0 := by
    decide +kernel
  obtain ⟨w', hexec, hcv⟩ := map_eq_ok.1 hrun
  exact ⟨w', ⟨by decide, hexec⟩, hcv⟩

/-- The main thread creates a region and spawns a thread that gets the region with its write count:
the region is left without a recorded writer. -/
theorem not_handsOver_oneRegion : World.initial.Step plainPlatform (.create 1 none 1000) oneRegion ∧
      (oneRegion.regions 0).caps.writerCv = 1 ∧
      ∃ w', oneRegion.Step plainPlatform (.spawn 1 [⟨0, 1, 1, 0⟩] 2000) w' ∧
        (w'.regions 0).caps.writerCv = 0 ∧ ¬ HandedOver w' oneRegion.nextTid 0 := by
  obtain ⟨w', hspawn, hcv⟩ := spawn_oneRegion
  refine ⟨step_oneRegion, rfl, w', hspawn, hcv, fun hover => ?_⟩
  exact absurd (hover.recorded.symm.trans hcv) (by decide)

theorem spawn_handsOver_oneRegion :
    ∃ w', oneRegion.Step plainPlatform (.spawn 1 [⟨0, 1, 1, 0⟩] 2000) w' ∧
      ((∀ c ∈ [(⟨⟨0, 1, 1, 0⟩, 1000⟩ : Caps)], 0 < c.wc →
          HandedOver w' oneRegion.nextTid c.h) ↔
        ∀ c ∈ [(⟨⟨0, 1, 1, 0⟩, 1000⟩ : Caps)], ¬ 0 < c.wc) := by
  obtain ⟨w', hspawn, _⟩ := spawn_oneRegion
  refine ⟨w', hspawn, spawn_handsOver_iff hspawn rfl ?_⟩
  intro c hc _
  obtain rfl := List.mem_singleton.1 hc
  exact ⟨rfl, newLocalCaps 0 0, .inl ⟨rfl, rfl⟩, by decide⟩

end ConcurrentCyclone.Runtime
