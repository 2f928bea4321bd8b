import ConcurrentCyclone.Runtime.LockCalls

/-!
# What the words of a region mean

`Consistent` is the meaning of the words `writer_cv` and `rd_cnt` of a region: the recorded writer
is the thread with a write count, the reader count counts the threads with a read count, and a
writer shares the region with no other reader. The write part and the read part of the critical
section keep it, each on its own, as long as the counts asked for fit in a `short`; the other
pieces do not touch what it is about. So it holds at every point of every run, also inside the
critical sections (`consistent_reach`).

It does not hold when the region is created below a key with a read count: the creator inherits the
read count but is not counted as a reader.
-/

set_option autoImplicit false

namespace ConcurrentCyclone.Runtime

open Transition
open Function (update_self update_of_ne update_eq_self)

/-- The key has a read count. -/
def reads (l : LocalCaps) : Bool := decide (0 < l.rdCnt.toInt)

/-- The counts of the threads agree with the words of the region. -/
structure Consistent (T : Finset Tid) (h : RegionCaps) (caps : Tid → LocalCaps) : Prop where
  nonneg : ∀ t, 0 ≤ (caps t).wrCnt.toInt ∧ 0 ≤ (caps t).rdCnt.toInt
  outside : ∀ t, t ∉ T → (caps t).wrCnt = 0 ∧ (caps t).rdCnt = 0
  writer : ∀ t, t ≠ 0 → (h.writerCv = t ↔ (caps t).wrCnt ≠ 0)
  readers : h.rdCnt = tally T caps reads
  alone : ∀ t u, t ≠ 0 → h.writerCv = t → u ≠ t → (caps u).rdCnt = 0

namespace Consistent

variable {T : Finset Tid} {h h' : RegionCaps} {caps : Tid → LocalCaps} {t u : Tid}

section

variable (hc : Consistent T h caps)

include hc

/-- Only the writer word and the reader count matter. -/
theorem congr (hw : h'.writerCv = h.writerCv) (hr : h'.rdCnt = h.rdCnt) : Consistent T h' caps :=
  { hc with
    writer := by rw [hw]; exact hc.writer
    readers := by rw [hr]; exact hc.readers
    alone := by rw [hw]; exact hc.alone }

theorem reads_iff (t : Tid) : reads (caps t) = true ↔ (caps t).rdCnt ≠ 0 := by
  have hnonneg := (hc.nonneg t).2
  rw [reads, decide_eq_true_iff, ← toInt_eq_zero_iff.ne]
  omega

/-- Nobody but the recorded writer has a write count. -/
theorem wrCnt_eq_zero (hzero : 0 ∉ T) (hw : h.writerCv = u → u = 0) : (caps u).wrCnt = 0 := by
  by_cases hu : u = 0
  · subst hu
    exact (hc.outside 0 hzero).1
  · by_contra hne
    exact hu (hw ((hc.writer u hu).2 hne))

variable {c : Call}

/-- When the write lock can be taken, no other thread reads. -/
theorem rdCnt_eq_zero_of_canlock (ht : t ∈ T)
    (hcan : canlock ⟨h, caps t, c⟩ = true) (hu : u ≠ t) : (caps u).rdCnt = 0 := by
  simp only [canlock, Bool.and_eq_true, Bool.or_eq_true, decide_eq_true_eq, beq_iff_eq,
    bne_iff_ne] at hcan
  obtain ⟨⟨hlt, hread⟩, _⟩ := hcan
  by_contra hne
  have huT : u ∈ T := by
    by_contra hout
    exact hne (hc.outside u hout).2
  have hureads := (hc.reads_iff u).2 hne
  rcases hread with hnone | hown
  · -- nobody reads
    rw [hc.readers, tally_eq_zero_iff] at hnone
    rw [hnone u huT] at hureads
    cases hureads
  · -- the caller is the only reader
    rw [hc.readers] at hlt
    exact hu (eq_of_tally_lt_two hlt huT ht hureads ((hc.reads_iff t).2 hown))

/-- One thread changes its counts. -/
theorem update (ht : t ∈ T) {l : LocalCaps}
    (hnonneg : 0 ≤ l.wrCnt.toInt ∧ 0 ≤ l.rdCnt.toInt)
    (hself : h'.writerCv = t ↔ l.wrCnt ≠ 0)
    (hother : ∀ u, u ≠ 0 → u ≠ t → (h'.writerCv = u ↔ (caps u).wrCnt ≠ 0))
    (hreaders : h'.rdCnt = h.rdCnt - (reads (caps t)).toInt + (reads l).toInt)
    (halone : ∀ v, v ≠ 0 → h'.writerCv = v →
      (t ≠ v → l.rdCnt = 0) ∧ ∀ u, u ≠ t → u ≠ v → (caps u).rdCnt = 0) :
    Consistent T h' (Function.update caps t l) where
  nonneg :=
    forall_update (Q := fun l : LocalCaps => 0 ≤ l.wrCnt.toInt ∧ 0 ≤ l.rdCnt.toInt) hc.nonneg
      hnonneg
  outside u hu := by
    have hne : u ≠ t := fun e => hu (e ▸ ht)
    rw [update_of_ne hne]
    exact hc.outside u hu
  writer u hu := by
    by_cases hut : u = t
    · subst hut
      rwa [update_self]
    · rw [update_of_ne hut]
      exact hother u hu hut
  readers := by
    have hchange := tally_change (f := caps) (g := Function.update caps t l) (p := reads) ht
      (fun j hj => by rw [update_of_ne hj])
    rw [hchange, update_self, hreaders, hc.readers]
  alone v u hv hvcv huv := by
    obtain ⟨hl, hrest⟩ := halone v hv hvcv
    by_cases hut : u = t
    · subst hut
      rw [update_self]
      exact hl huv
    · rw [update_of_ne hut]
      exact hrest u hut huv

/-- The write part keeps the words consistent. -/
theorem writePart (hzero : 0 ∉ T) (ht : t ∈ T)
    (h0 : 0 ≤ (caps t).wrCnt.toInt + c.writeLock)
    (h1 : (caps t).wrCnt.toInt + c.writeLock < 32768) :
    Consistent T (Runtime.writePart t ⟨h, caps t, c⟩).h
      (Function.update caps t (Runtime.writePart t ⟨h, caps t, c⟩).caps) := by
  have hne0 : t ≠ 0 := fun e => hzero (e ▸ ht)
  have hsum := toInt_addShort_of_range (x := (caps t).wrCnt) (d := c.writeLock) (by omega) h1
  have hiff := addShort_eq_zero_iff (x := (caps t).wrCnt) (d := c.writeLock) (by omega) h1
  have hrd := (hc.nonneg t).2
  unfold Runtime.writePart
  dsimp only
  split_ifs with hw hown hdone hcan
  · rwa [update_eq_self]
  · -- the caller is the writer, and gives up its last count
    refine hc.update ht ⟨by dsimp only; omega, hrd⟩ ?_ ?_ (by simp [reads]) ?_
    · simp [hdone, hne0.symm]
    · intro u hu hut
      have hwr := hc.wrCnt_eq_zero hzero fun e =>
        absurd (e.symm.trans ((hc.writer t hne0).2 hown)) hut
      simp [hwr, hu.symm]
    · exact fun v hv hvcv => absurd hvcv.symm hv
  · -- the caller is the writer, and stays it
    have hcv : h.writerCv = t := (hc.writer t hne0).2 hown
    refine hc.update ht ⟨by dsimp only; omega, hrd⟩ (iff_of_true hcv hdone)
      (fun u hu _ => hc.writer u hu) (by simp [reads]) fun v hv hvcv => ?_
    exact ⟨fun hne => absurd (hcv.symm.trans hvcv) hne, fun u _ => hc.alone v u hv hvcv⟩
  · -- the caller becomes the writer
    have hfree : h.writerCv = 0 := by
      simp only [canlock, Bool.and_eq_true, beq_iff_eq] at hcan
      exact hcan.2
    have hnone u : (caps u).wrCnt = 0 := hc.wrCnt_eq_zero hzero fun e => e.symm.trans hfree
    have hwr : (caps t).wrCnt.toInt = 0 := toInt_eq_zero_iff.2 (hnone t)
    refine hc.update ht ⟨by dsimp only; omega, hrd⟩ ?_ ?_ (by simp [reads]) fun v hv hvcv => ?_
    · rw [ne_eq, hiff]
      exact iff_of_true rfl (by omega)
    · intro u hu hut
      simp [hnone u, hut.symm]
    · exact ⟨fun hne => absurd hvcv hne, fun u hut _ => hc.rdCnt_eq_zero_of_canlock ht hcan hut⟩
  · rw [update_eq_self]
    exact hc.congr rfl rfl

/-- The read part keeps the words consistent. -/
theorem readPart (hzero : 0 ∉ T) (ht : t ∈ T)
    (h0 : 0 ≤ (caps t).rdCnt.toInt + c.readLock) (h1 : (caps t).rdCnt.toInt + c.readLock < 32768) :
    Consistent T (Runtime.readPart t ⟨h, caps t, c⟩).h
      (Function.update caps t (Runtime.readPart t ⟨h, caps t, c⟩).caps) := by
  have hne0 : t ≠ 0 := fun e => hzero (e ▸ ht)
  have hsum := toInt_addShort_of_range (x := (caps t).rdCnt) (d := c.readLock) (by omega) h1
  have hiff := addShort_eq_zero_iff (x := (caps t).rdCnt) (d := c.readLock) (by omega) h1
  have hwr := (hc.nonneg t).1
  -- a reader that is not the recorded writer excludes a recorded writer
  have halone : (caps t).rdCnt ≠ 0 → ∀ rd : BitVec 16, ∀ v, v ≠ 0 → h.writerCv = v →
      (t ≠ v → rd = 0) ∧ ∀ u, u ≠ t → u ≠ v → (caps u).rdCnt = 0 := fun hown rd v hv hvcv =>
    ⟨fun hne => absurd (hc.alone v t hv hvcv hne) hown, fun u _ => hc.alone v u hv hvcv⟩
  have hpos : (caps t).rdCnt.toInt + c.readLock ≠ 0 →
      reads { caps t with rdCnt := addShort (caps t).rdCnt c.readLock } = true := by
    intro hne
    simp only [reads, decide_eq_true_eq]
    omega
  unfold Runtime.readPart
  dsimp only
  split_ifs with hr hown hdone hother
  · rwa [update_eq_self]
  · -- the caller is a reader, and gives up its last count
    refine hc.update ht ⟨hwr, by dsimp only; omega⟩ (hc.writer t hne0)
      (fun u hu _ => hc.writer u hu) ?_ (halone hown _)
    rw [(hc.reads_iff t).2 hown, hdone]
    simp [reads]
  · -- the caller is a reader, and stays it
    refine hc.update ht ⟨hwr, by dsimp only; omega⟩ (hc.writer t hne0)
      (fun u hu _ => hc.writer u hu) ?_ (halone hown _)
    rw [(hc.reads_iff t).2 hown, hpos (by rwa [hiff] at hdone)]
    simp
  · rw [update_eq_self]
    exact hc.congr rfl rfl
  · -- the caller becomes a reader; the recorded writer, if any, is the caller
    have hrd : (caps t).rdCnt = 0 := not_not.1 hown
    have hrd0 : (caps t).rdCnt.toInt = 0 := toInt_eq_zero_iff.2 hrd
    refine hc.update ht ⟨hwr, by dsimp only; omega⟩ (hc.writer t hne0)
      (fun u hu _ => hc.writer u hu) ?_ fun v hv hvcv => ⟨fun hne => ?_, fun u _ => ?_⟩
    · have hnot : reads (caps t) = false := by simp [reads, hrd0]
      rw [hnot, hpos (by omega)]
      simp
    · exact absurd ⟨fun e => hne (e.symm.trans hvcv), fun e => hv (hvcv.symm.trans e)⟩ hother
    · exact hc.alone v u hv hvcv

end

end Consistent

/-- A region created below a key without a read count is consistent. -/
theorem Created.consistent {T : Finset Tid} {tid : Tid} {wrPar : BitVec 16} {s : Sys}
    (h : Created T tid wrPar 0 s) (hwr : 0 < (newLocalCaps wrPar 0).wrCnt.toInt) :
    Consistent T s.h s.caps := by
  have hrd : ∀ t, (s.caps t).rdCnt = 0 := by
    intro t
    by_cases ht : t ∈ T
    · by_cases htid : t = tid
      · rw [htid, h.own, newLocalCaps]
      · exact (h.others t ht htid).2
    · rw [h.outside t ht]
  have hother : ∀ t, t ≠ tid → (s.caps t).wrCnt = 0 := by
    intro t htid
    by_cases ht : t ∈ T
    · exact (h.others t ht htid).1
    · rw [h.outside t ht]
  refine ⟨?_, ?_, ?_, ?_, fun _ u _ _ _ => hrd u⟩
  · intro t
    rw [hrd t]
    refine ⟨?_, by decide⟩
    by_cases htid : t = tid
    · rw [htid, h.own]
      exact hwr.le
    · rw [hother t htid]
      decide
  · intro t ht
    exact ⟨hother t (fun e => ht (e ▸ h.creator)), hrd t⟩
  · intro t _
    rw [h.words]
    by_cases htid : t = tid
    · subst htid
      rw [h.own]
      apply iff_of_true rfl
      rw [ne_eq, ← toInt_eq_zero_iff]
      exact hwr.ne'
    · rw [hother t htid]
      simp [newRegionCaps, Ne.symm htid]
  · rw [h.words, eq_comm]
    exact tally_eq_zero_iff.2 fun t _ => by simp [reads, hrd t]

/-! ## Runs -/

/-- A call asks for counts that fit in a `short`, and it has one argument or the caller holds a
count of both kinds. -/
structure Simple (k : Entry) : Prop extends k.Fits where
  held : k.writeLock = 0 ∨ k.readLock = 0 ∨ (k.wr ≠ 0 ∧ k.rd ≠ 0)

/-- The calls of a run have one non-zero argument or are the full release `__xregion_refcnt` makes,
and ask for counts that are not negative and fit in a `short`. -/
def OneLock (s : Sys) : Act → Prop
  | .call t w r => (entry (s.caps t) w r).Fits ∧
      (w = 0 ∨ r = 0 ∨ (w = -((s.caps t).wrCnt.toNat : Int) ∧ r = -((s.caps t).rdCnt.toNat : Int)))
  | _ => True

instance (s : Sys) (a : Act) : Decidable (OneLock s a) := by
  cases a <;> unfold OneLock <;> infer_instance

section Runs

variable {T : Finset Tid} {s s' : Sys} {a : Act}

/-- A full release of counts of both kinds finds both parts free, so such a run is admitted. -/
theorem admits_of_oneLock (hi : Accounted Simple T s) (hok : OneLock s a) : Admits Simple s a := by
  constructor
  · rintro t w r rfl
    obtain ⟨hfits, hargs⟩ := hok
    refine ⟨hfits, ?_⟩
    by_cases hw : w = 0
    · exact .inl hw
    by_cases hr : r = 0
    · exact .inr (.inl hr)
    -- two arguments: a full release, of counts that are both held
    obtain ⟨hwneg, hrneg⟩ := (hargs.resolve_left hw).resolve_left hr
    obtain ⟨hwnn, hrnn⟩ := hi.nonneg t
    have hwt := toInt_eq_toNat_of_nonneg hwnn
    have hrt := toInt_eq_toNat_of_nonneg hrnn
    right; right
    simp only [entry]
    omega
  · cases a with
    | acquire t =>
      intro c hpc
      -- the counts have not changed since the start of the call
      obtain ⟨k, hk, _, _, hat⟩ := hi.calls t (by simp [hpc])
      rw [hpc] at hat
      rcases hk.held with hw | hr | ⟨hw, hr⟩
      · exact .inl (hat.writeLock.trans hw)
      · exact .inr (.inl (hat.readLock.trans hr))
      · exact .inr (.inr ⟨.inl fun e => hw (hat.wr.symm.trans (toInt_eq_zero_iff.2 e)),
          .inl fun e => hr (hat.rd.symm.trans (toInt_eq_zero_iff.2 e))⟩)
    | _ => trivial

/-- Every action keeps the words consistent. -/
theorem Consistent.step (hc : Consistent T s.h s.caps) (hi : Accounted Simple T s)
    (hs : Sys.Step T s a s') : Consistent T s'.h s'.caps := by
  have h := Sys.move_of_step hs
  have ht := hi.placed.actor h
  cases h with
  | @piece t ph c hpc =>
    obtain ⟨k, hk, _, _, hat⟩ := hi.calls t (by simp [hpc])
    rw [hpc] at hat
    cases ph with
    | write =>
      have hw := hk.wr_nonneg
      have hlt := hk.wr_lt
      rw [← hat.1.wr, ← hat.1.writeLock] at hw hlt
      exact hc.writePart hi.placed.zero ht hw hlt
    | read =>
      have hr := hk.rd_nonneg
      have hlt := hk.rd_lt
      rw [← hat.rd, ← hat.readLock] at hr hlt
      exact hc.readPart hi.placed.zero ht hr hlt
    | _ =>
      -- the other pieces touch neither the counts nor the two words
      refine Consistent.congr (h := s.h) ?_ ?_ ?_
      · simpa [Sys.put, Phase.run, Sys.cs] using hc
      · simp [Phase.run, Sys.cs]
      · simp [Phase.run, Sys.cs]
  | acquire | unlock => exact hc.congr rfl rfl
  | _ => exact hc

variable {tid : Tid} {wrPar : BitVec 16} {s0 : Sys}

/-- The words are consistent in every state of such a run. -/
theorem consistent_reach (h0 : Created T tid wrPar 0 s0)
    (hwr : 0 < (newLocalCaps wrPar 0).wrCnt.toInt) (h : Reach (Sys.Step T) OneLock s0 s) :
    Accounted Simple T s ∧ Consistent T s.h s.caps := by
  refine (h.strengthen (I := fun s => Accounted Simple T s ∧ Consistent T s.h s.caps)
    (fun s a hi => admits_of_oneLock hi.1) ?_
    ⟨h0.accounted hwr.le (by decide), h0.consistent hwr⟩).2
  intro s a s' hok hs hi
  exact ⟨hi.1.step (fun _ hk => hk.toFits) hok hs, hi.2.step hi.1 hs⟩

end Runs

/-- The words of the region say who holds which lock. -/
structure WordsAgree (T : Finset Tid) (s : Sys) : Prop where
  /-- The recorded writer is the only thread with a write count. -/
  writer : ∀ t, t ≠ 0 → (s.h.writerCv = t ↔
    0 < (s.caps t).wrCnt.toInt ∧ ∀ u, 0 < (s.caps u).wrCnt.toInt → u = t)
  /-- The reader count is the number of threads with a read count. -/
  readers : s.h.rdCnt = tally T s.caps reads
  /-- A writer excludes all other readers. -/
  exclusive : ∀ t u, 0 < (s.caps t).wrCnt.toInt → 0 < (s.caps u).rdCnt.toInt → u = t

/-- Consistent words agree with the counts. -/
theorem Consistent.agree {T : Finset Tid} {s : Sys} (hc : Consistent T s.h s.caps)
    (hzero : 0 ∉ T) : WordsAgree T s := by
  have hpos : ∀ t, 0 < (s.caps t).wrCnt.toInt ↔ (s.caps t).wrCnt ≠ 0 := by
    intro t
    have hnonneg := (hc.nonneg t).1
    rw [← toInt_eq_zero_iff.ne]
    omega
  -- a thread with a write count is recorded
  have hcv : ∀ t, 0 < (s.caps t).wrCnt.toInt → t ≠ 0 ∧ s.h.writerCv = t := by
    intro t ht
    have hwr := (hpos t).1 ht
    have ht0 : t ≠ 0 := by
      rintro rfl
      exact hwr (hc.outside 0 hzero).1
    exact ⟨ht0, (hc.writer t ht0).2 hwr⟩
  refine ⟨?_, hc.readers, ?_⟩
  · intro t ht
    rw [hc.writer t ht, ← hpos t]
    constructor
    · intro h
      exact ⟨h, fun u hu => (hcv u hu).2.symm.trans (hcv t h).2⟩
    · exact fun h => h.1
  · intro t u ht hu
    by_contra hne
    have hrd := hc.alone t u (hcv t ht).1 (hcv t ht).2 hne
    simp [hrd] at hu

/-- For a region created below a key without a read count, the words agree with the counts in every
state, also while the internal lock is taken, of every run whose calls have one argument or are
full releases and ask for counts that fit in a `short`. -/
theorem words_agree_of_oneLock {T : Finset Tid} {tid : Tid} {wrPar : BitVec 16} {s₀ s : Sys}
    (h₀ : Created T tid wrPar 0 s₀) (hwr : 0 < (newLocalCaps wrPar 0).wrCnt.toInt)
    (h : Reach (Sys.Step T) OneLock s₀ s) : WordsAgree T s :=
  (consistent_reach h₀ hwr h).2.agree h₀.zero

/-- Both threads wait once: `3` sleeps until the writer `1` is done and then reads, and `1` asks for
the write lock again and sleeps until `3` is done. -/
def takeTurns : List Act :=
  [.call 3 1 0] ++ passActs 3 ++ [.readCv 3, .futexWait 3, .call 1 (-1) 0] ++ wakingActs 1 3 ++
    [.leave 1, .readCv 3] ++ passActs 3 ++ [.leave 3, .call 3 0 1] ++ passActs 3 ++
    [.leave 3, .call 1 1 0] ++ passActs 1 ++ [.readCv 1, .futexWait 1, .call 3 (-1) (-1)] ++
    wakingActs 3 1 ++ [.leave 3, .readCv 1] ++ passActs 1

theorem words_agree_takeTurns :
    ∃ s, runWhen (Sys.next {1, 3}) OneLock (created {1, 3} 1 0 0) takeTurns = some s ∧
      s.h.writerCv = 1 ∧ WordsAgree {1, 3} s := by
  have hrun : (runWhen (Sys.next {1, 3}) OneLock (created {1, 3} 1 0 0) takeTurns).map
      (fun s => s.h.writerCv) = some 1 := by
    decide +kernel
  obtain ⟨s, hs, hcv⟩ := Option.map_eq_some_iff.1 hrun
  exact ⟨s, hs, hcv, words_agree_of_oneLock (created_created (by decide) (by decide) 0 0)
    (by decide) (reach_of_runWhen (fun _ _ _ hstep => hstep) hs)⟩

/-- The creator of a region below a key with a read count is a reader that is not counted; and a
read count that does not fit in a `short` makes a reader without a count. -/
theorem not_words_agree : (Created {1} 1 0 1 (created {1} 1 0 1) ∧ (created {1} 1 0 1).h.lock = 0 ∧
      ¬ WordsAgree {1} (created {1} 1 0 1)) ∧
    ∃ s, Reach (Sys.Step {1}) (fun _ a => ∀ t w r, a = .call t w r → w = 0 ∨ r = 0)
      (created {1} 1 0 0) s ∧ s.h.lock = 0 ∧ ¬ WordsAgree {1} s := by
  refine ⟨⟨created_created (by decide) (by decide) 0 1, rfl, fun h => ?_⟩, ?_⟩
  · exact absurd h.readers (by decide)
  · have hrun : (Sys.run {1} (created {1} 1 0 0) ([.call 1 (-1) 0] ++ passActs 1 ++
        [.leave 1, .call 1 0 65536] ++ passActs 1)).map (fun s =>
          (s.h.lock, s.h.rdCnt, tally {1} s.caps reads)) = some (0, 1, 0) := by
      decide +kernel
    obtain ⟨s, hs, hwords⟩ := Option.map_eq_some_iff.1 hrun
    obtain ⟨hlock, hcounts⟩ := Prod.mk.inj hwords
    obtain ⟨hrd, htally⟩ := Prod.mk.inj hcounts
    refine ⟨s, Sys.reach_of_run (by simp [passActs]) hs, hlock, fun h => ?_⟩
    have hreaders := h.readers
    rw [hrd, htally] at hreaders
    cases hreaders

end ConcurrentCyclone.Runtime
