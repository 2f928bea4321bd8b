import ConcurrentCyclone.Runtime.LockMachine

/-!
# No wake-up is lost

A queued thread may sleep in `futex_wait` only while somebody is going to wake it. The invariant
(`Watched`) looks at the states between critical sections and just before `unlock` in which the
region is free: if a writer is queued, some queued writer is awake; if only readers are queued,
`reader_cv` is zero and some queued reader is awake. Every critical section establishes it by its
wake decision, and no thread can fall asleep against it: the value a waiter compares with is not
zero, and the word it waits on is. A wake takes one sleeper off a word, also `wake_all`, so other
readers may sleep on until the one that was woken has been through the critical section.

The counts of the threads play no part, so nothing is assumed about them. A call with two non-zero
arguments can leave `reader_q` too large, so the calls of a run have one.
-/

set_option autoImplicit false

namespace ConcurrentCyclone.Runtime

open Transition

/-! ## Calls with one argument -/

/-- The frame has one argument, and waits at most for that. -/
structure Call.OneArg (c : Call) : Prop where
  single : c.writeLock = 0 ∨ c.readLock = 0
  writer : c.waitWq = true → c.writeLock ≠ 0
  reader : c.waitRq = true → c.readLock ≠ 0

theorem Call.OneArg.not_both {c : Call} (h : c.OneArg) : ¬ (c.waitWq = true ∧ c.waitRq = true) := by
  rintro ⟨hw, hr⟩
  rcases h.single with hzero | hzero
  · exact h.writer hw hzero
  · exact h.reader hr hzero

/-- A piece of the critical section keeps the frame in order. -/
theorem Call.OneArg.run {t : Tid} {ph : Phase} {x : Cs} (h : x.call.OneArg) :
    (ph.run t x).call.OneArg := by
  cases ph with
  | dequeue =>
    -- the flags are reset
    exact ⟨by simpa [Phase.run] using h.single, by simp [Phase.run], by simp [Phase.run]⟩
  | write =>
    refine ⟨?_, ?_, ?_⟩
    · simpa [Phase.run] using h.single
    · simp only [Phase.run, writePart]
      split_ifs with hzero
      · exact h.writer
      all_goals exact fun _ => hzero
    · simpa [Phase.run] using h.reader
  | read =>
    refine ⟨?_, ?_, ?_⟩
    · simpa [Phase.run] using h.single
    · simpa [Phase.run] using h.writer
    · simp only [Phase.run, readPart]
      split_ifs with hzero
      · exact h.reader
      all_goals exact fun _ => hzero
  | closeReaders | openReaders | wake | unlock => simpa [Phase.run] using h

/-- The calls of a run have one non-zero argument. -/
def OneArgument (_ : Sys) : Act → Prop
  | .call _ w r => w = 0 ∨ r = 0
  | _ => True

/-- Every call in progress has one argument. -/
def OneArgs (s : Sys) : Prop := ∀ t c, (s.pc t).frame = some c → c.OneArg

section Steps

variable {T : Finset Tid} {s s' : Sys} {a : Act}

theorem OneArgs.actor (h : Sys.Move T s a s') (ho : OneArgs s) (hok : OneArgument s a) (c : Call)
    (hc : (s'.pc a.tid).frame = some c) : c.OneArg := by
  cases h with
  | @call t w r hpc =>
    simp only [Act.tid, Sys.goto_pc_self, Pc.frame, Option.some.injEq] at hc
    subst hc
    exact ⟨hok, by simp [newCall], by simp [newCall]⟩
  | @piece t ph c0 hpc =>
    simp only [Act.tid, Sys.put_pc_self, Pc.frame, Option.some.injEq] at hc
    subst hc
    exact Call.OneArg.run (ho t c0 (by rw [hpc]; rfl))
  | @acquire t c0 hpc | @wake t u c0 pc hpc | @spurious t c0 hpc =>
    simp only [Act.tid, Sys.goto_pc_self, Pc.frame, Option.some.injEq] at hc
    subst hc
    exact ho t c0 (by rw [hpc]; rfl)
  | @unlock t c0 hpc | @readCv t c0 hpc | @futexWait t c0 v hpc =>
    simp only [Act.tid] at hc
    have hc0 : c0 = c := by split_ifs at hc <;> simpa [Pc.frame] using hc
    subst hc0
    exact ho t c0 (by rw [hpc]; rfl)
  | leave => simp [Act.tid, Pc.frame] at hc

theorem OneArgs.step (ho : OneArgs s) (hok : OneArgument s a) (hs : Sys.Step T s a s') :
    OneArgs s' := by
  have h := Sys.move_of_step hs
  intro u c hc
  by_cases hua : u = a.tid
  · subst hua
    exact ho.actor h hok c hc
  · rcases (h.other hua).2 with hpc | hpc
    · rw [hpc] at hc
      exact ho u c hc
    · rw [hpc, Pc.frame_woken] at hc
      exact ho u c hc

/-! ## The watch over the sleepers -/

/-- No thread is in the critical section before its `unlock`. -/
def Settled (s : Sys) : Prop := ∀ t ph c, s.pc t = .crit ph c → ph = .unlock

/-- The region is free. -/
def RegionCaps.Free (h : RegionCaps) : Prop := h.writerCv = 0 ∧ h.rdCnt = 0

/-- Somebody is going to serve the queued threads of a free region. -/
structure Watched (T : Finset Tid) (s : Sys) : Prop where
  opened : ∀ t c, s.pc t = .crit .wake c → wakeDecision s.h = .all → s.h.readerCv = 0
  writer : Settled s → s.h.Free → s.h.writerQ ≠ 0 →
    ∃ t ∈ T, (s.pc t).queuedWriter = true ∧ (s.pc t).sleeps = false
  reader : Settled s → s.h.Free → s.h.writerQ = 0 → s.h.readerQ ≠ 0 →
    s.h.readerCv = 0 ∧ ∃ t ∈ T, (s.pc t).queuedReader = true ∧ (s.pc t).sleeps = false

/-- The wake decision does not depend on `reader_cv`. -/
theorem wakeDecision_openReaders (x : Cs) : wakeDecision (openReaders x).h = wakeDecision x.h := by
  simp [wakeDecision]

theorem readerCv_openReaders {x : Cs} (h : wakeDecision (openReaders x).h = .all) :
    (openReaders x).h.readerCv = 0 := by
  rw [wakeDecision_openReaders] at h
  simp [openReaders, h]

theorem Watched.opened_step (hw : Watched T s) (hp : Placed T s) (hs : Sys.Step T s a s')
    (u : Tid) (c : Call) (hpc' : s'.pc u = .crit .wake c) (hall : wakeDecision s'.h = .all) :
    s'.h.readerCv = 0 := by
  have h := Sys.move_of_step hs
  by_cases hua : u = a.tid
  · subst hua
    cases h with
    | @piece t ph c0 hpc hwake hunlock =>
      cases ph with
      -- the readers' word is opened before the readers are woken
      | openReaders => exact readerCv_openReaders hall
      | dequeue | closeReaders | write | read => simp [Act.tid, Phase.next] at hpc'
      | wake => exact absurd rfl hwake
      | unlock => exact absurd rfl hunlock
    | unlock | readCv | futexWait =>
      rw [Act.tid, Sys.goto_pc_self] at hpc'
      split_ifs at hpc'
    | _ => simp [Act.tid] at hpc'
  · have hpc : s.pc u = .crit .wake c := by
      rcases (h.other hua).2 with hpc | hpc
      · rw [← hpc, hpc']
      · exact Pc.woken_eq_crit.1 (by rw [← hpc, hpc'])
    have hregion : s'.h = s.h := hp.region_of_inside h hua (by simp [hpc, Pc.inside])
    rw [hregion] at hall ⊢
    exact hw.opened u c hpc hall

/-- A move of thread `t` that leaves a free region to the threads that watched over it. -/
structure Quiet (s s' : Sys) (t : Tid) : Prop where
  settled : Settled s
  words : s'.h = { s.h with lock := s'.h.lock }
  others : ∀ u, u ≠ t → s'.pc u = s.pc u
  writer : (s.pc t).queuedWriter = true → (s.pc t).sleeps = false →
    (s'.pc t).queuedWriter = true ∧ (s'.pc t).sleeps = false
  reader : s.h.readerCv = 0 → (s.pc t).queuedReader = true → (s.pc t).sleeps = false →
    (s'.pc t).queuedReader = true ∧ (s'.pc t).sleeps = false

variable {t : Tid} {p : Pc} {u : Option Tid}

section

variable (hpc : ∀ ph c, s.pc t = .crit ph c → ph = .unlock) (hset : Settled (s.goto t p))

include hpc hset

/-- Moving one thread from a place outside the critical section to another one. -/
theorem settled_of_goto : Settled s := by
  intro u ph c hu
  by_cases hut : u = t
  · subst hut
    exact hpc ph c hu
  · exact hset u ph c (by rw [Sys.goto_pc_of_ne hut, hu])

/-- Such a move is quiet if the thread stays a waiting writer that is awake, and a waiting reader
that is awake while the readers' word is zero. -/
theorem quiet_goto
    (hwriter : (s.pc t).queuedWriter = true → (s.pc t).sleeps = false →
      p.queuedWriter = true ∧ p.sleeps = false)
    (hreader : s.h.readerCv = 0 → (s.pc t).queuedReader = true → (s.pc t).sleeps = false →
      p.queuedReader = true ∧ p.sleeps = false) : Quiet s (s.goto t p) t where
  settled := settled_of_goto hpc hset
  words := rfl
  others u hu := Sys.goto_pc_of_ne hu p
  writer := by rwa [Sys.goto_pc_self]
  reader := by rwa [Sys.goto_pc_self]

end

/-- Between the critical sections, and just before `unlock`, every move but the wake is quiet: a
thread that compares with the word of a free region does not fall asleep. -/
theorem quiet_or_wake (hp : Placed T s) (ho : OneArgs s) (h : Sys.Move T s a s')
    (hset : Settled s') (hfree : s'.h.Free) : Quiet s s' a.tid ∨ ∃ t u, a = .wake t u := by
  cases h with
  | @call t w r hpc =>
    refine .inl (quiet_goto (by simp [hpc]) hset ?_ ?_)
    · simp [hpc, Pc.queuedWriter, Pc.frame]
    · simp [hpc, Pc.queuedReader, Pc.frame]
  | @acquire t c hpc =>
    -- the thread is inside the critical section now, so the state is not settled
    exact absurd (hset t .dequeue c (Sys.goto_pc_self ..)) (by decide)
  | @piece t ph c hpc hwake hunlock =>
    -- only the wake is followed by `unlock`
    have hnext := hset t ph.next _ (Sys.put_pc_self ..)
    cases ph <;> simp_all [Phase.next]
  | wake => exact .inr ⟨_, _, rfl⟩
  | @unlock t c hpc =>
    -- a queued thread is in the wait loop now, awake
    refine .inl ⟨?_, rfl, fun u hu => Sys.goto_pc_of_ne hu _, ?_, ?_⟩
    · exact settled_of_goto (s := s) (t := t) (by simp [hpc]) hset
    · intro hq _
      have hflag : c.waitWq = true := by simpa [Act.tid, hpc, Pc.queuedWriter, Pc.frame] using hq
      simp [Act.tid, hflag, Pc.queuedWriter, Pc.frame, Pc.sleeps]
    · intro _ hq _
      have hflag : c.waitRq = true := by simpa [Act.tid, hpc, Pc.queuedReader, Pc.frame] using hq
      simp [Act.tid, hflag, Pc.queuedReader, Pc.frame, Pc.sleeps]
  | @readCv t c hpc =>
    refine .inl (quiet_goto (by simp [hpc]) hset ?_ ?_)
    · intro hq _
      rw [hpc] at hq
      split_ifs <;> exact ⟨hq, rfl⟩
    · intro _ hq _
      rw [hpc] at hq
      split_ifs <;> exact ⟨hq, rfl⟩
  | @futexWait t c v hpc =>
    -- the value `v` was read as non-zero, and the words of a free region are zero
    have hv : v ≠ 0 := (by simpa [hpc, Pc.Regular] using hp.regular t : v ≠ 0 ∧ _).1
    refine .inl (quiet_goto (by simp [hpc]) hset ?_ ?_)
    · intro hq _
      rw [hpc] at hq
      have hword : waitWord s.h c = 0 := by
        have hflag : c.waitWq = true := by simpa [Pc.queuedWriter, Pc.frame] using hq
        rw [waitWord, if_pos hflag]
        exact hfree.1
      rw [if_neg (by rw [hword]; exact hv.symm)]
      exact ⟨hq, rfl⟩
    · intro hopen hq _
      rw [hpc] at hq
      have hword : waitWord s.h c = 0 := by
        have hflag : c.waitRq = true := by simpa [Pc.queuedReader, Pc.frame] using hq
        have hnot := (ho t c (by rw [hpc]; rfl)).not_both
        rw [waitWord, if_neg fun hw => hnot ⟨hw, hflag⟩]
        exact hopen
      rw [if_neg (by rw [hword]; exact hv.symm)]
      exact ⟨hq, rfl⟩
  | @spurious t c hpc =>
    -- the thread slept before, so it was not the one that watched
    refine .inl (quiet_goto (by simp [hpc]) hset ?_ ?_)
    · simp [hpc, Pc.sleeps]
    · simp [hpc, Pc.sleeps]
  | @leave t c hpc =>
    -- a thread that leaves waits for nothing
    have hreg := hp.regular t
    rw [hpc] at hreg
    refine .inl (quiet_goto (by simp [hpc]) hset ?_ ?_)
    · simp [hpc, Pc.queuedWriter, Pc.frame, hreg.1]
    · simp [hpc, Pc.queuedReader, Pc.frame, hreg.2]

/-- A wake on the word of a queue leaves a thread of the queue awake: the one it wakes, or, if
nobody sleeps on the word, any. -/
theorem futexWake_awake {onWord queued : Pc → Bool} {pc : Tid → Pc} (hp : Placed T s)
    (hwoken : ∀ p : Pc, queued p.woken = queued p)
    (hword : ∀ x, onWord (s.pc x) = true ↔ (s.pc x).sleeps = true ∧ queued (s.pc x) = true)
    (hqueued : ∃ x ∈ T, queued (s.pc x) = true) (hwake : futexWake T onWord s.pc u = some pc) :
    ∃ x ∈ T, queued (pc x) = true ∧ (pc x).sleeps = false := by
  cases u with (simp only [futexWake] at hwake; split_ifs at hwake with hon; cases hwake)
  | none =>
    -- nobody sleeps on the word, so every thread of the queue is awake
    obtain ⟨x, hx, hq⟩ := hqueued
    refine ⟨x, hx, hq, ?_⟩
    by_contra hne
    exact hon ⟨x, hx, (hword x).2 ⟨by simpa using hne, hq⟩⟩
  | some y =>
    obtain ⟨hsleeps, hq⟩ := (hword y).1 hon
    refine ⟨y, hp.member y fun e => by simp [e, Pc.sleeps] at hsleeps, ?_, ?_⟩
    · rw [Function.update_self, hwoken, hq]
    · rw [Function.update_self, Pc.sleeps_woken]

/-- A thread sleeps on `writer_cv` if it is counted in `writer_q`. -/
theorem onWriterWord_iff (p : Pc) :
    p.onWriterWord = true ↔ p.sleeps = true ∧ p.queuedWriter = true := by
  cases p <;> simp [Pc.onWriterWord, Pc.sleeps, Pc.queuedWriter, Pc.frame]

/-- A thread sleeps on `reader_cv` if it is counted in `reader_q`. -/
theorem onReaderWord_iff (hp : Placed T s) (ho : OneArgs s) (x : Tid) :
    (s.pc x).onReaderWord = true ↔ (s.pc x).sleeps = true ∧ (s.pc x).queuedReader = true := by
  cases hpc : s.pc x with
  | asleep c =>
    have hnot := (ho x c (by rw [hpc]; rfl)).not_both
    have hflag : c.waitWq = true ∨ c.waitRq = true := by simpa [hpc, Pc.Regular] using hp.regular x
    simp only [Pc.onReaderWord, Pc.sleeps, Pc.queuedReader, Pc.frame, Option.any_some]
    cases hw : c.waitWq <;> simp_all
  | _ => simp [Pc.onReaderWord, Pc.sleeps]

/-- The acting thread is awake, so the thread that a wake leaves in charge stays so. -/
theorem awake_goto {queued : Pc → Bool} {pc : Tid → Pc} {c : Call}
    (hframe : queued (.crit .wake c) = queued (.crit .unlock c))
    (hself : pc t = .crit .wake c) (h : ∃ x ∈ T, queued (pc x) = true ∧ (pc x).sleeps = false) :
    ∃ x ∈ T, queued (({ s with pc := pc }.goto t (.crit .unlock c)).pc x) = true ∧
      (({ s with pc := pc }.goto t (.crit .unlock c)).pc x).sleeps = false := by
  obtain ⟨x, hx, hq, hs⟩ := h
  refine ⟨x, hx, ?_⟩
  by_cases hxt : x = t
  · subst hxt
    rw [hself, hframe] at hq
    exact ⟨by simpa using hq, by simp [Pc.sleeps]⟩
  · rw [Sys.goto_pc_of_ne hxt]
    exact ⟨hq, hs⟩

/-- The wake at the end of the critical section puts somebody in charge of the queued threads. -/
theorem watched_wake (hw : Watched T s) (hp : Placed T s) (ho : OneArgs s)
    (hq : Queues T s) (h : Sys.Move T s (.wake t u) s') (hfree : s'.h.Free) :
    (s'.h.writerQ ≠ 0 → ∃ x ∈ T, (s'.pc x).queuedWriter = true ∧ (s'.pc x).sleeps = false) ∧
      (s'.h.writerQ = 0 → s'.h.readerQ ≠ 0 → s'.h.readerCv = 0 ∧
        ∃ x ∈ T, (s'.pc x).queuedReader = true ∧ (s'.pc x).sleeps = false) := by
  cases h with
  | @wake t u c pc hpc hwake =>
    obtain ⟨hcv, hrd⟩ : s.h.writerCv = 0 ∧ s.h.rdCnt = 0 := hfree
    have hself : pc t = .crit .wake c := by
      rcases wakeUp_other hwake t with hsame | hsame <;> rw [hsame, hpc]
      rfl
    constructor
    · intro hwq
      -- a writer is queued and nobody reads: one writer is woken
      have hdecision : wakeDecision s.h = .single := by
        rw [wakeDecision, if_neg (not_not.2 hcv), if_pos ⟨hwq, hrd⟩]
      rw [hdecision] at hwake
      have hpos : 0 < tally T s.pc Pc.queuedWriter :=
        lt_of_le_of_ne (tally_nonneg ..) (hq.writers ▸ Ne.symm hwq)
      exact awake_goto rfl hself (futexWake_awake hp Pc.queuedWriter_woken
        (fun x => onWriterWord_iff _) (tally_pos_iff.1 hpos) hwake)
    · intro hwq hrq
      rw [Sys.goto_h] at hwq hrq
      -- only readers are queued: one of them is woken
      have hdecision : wakeDecision s.h = .all := by
        rw [wakeDecision, if_neg (not_not.2 hcv), if_neg (fun h => h.1 hwq), if_pos hrq]
      refine ⟨hw.opened t c hpc hdecision, ?_⟩
      rw [hdecision] at hwake
      have hpos : 0 < tally T s.pc Pc.queuedReader :=
        lt_of_le_of_ne (tally_nonneg ..) (hq.readers ▸ Ne.symm hrq)
      exact awake_goto rfl hself (futexWake_awake hp Pc.queuedReader_woken
        (onReaderWord_iff hp ho) (tally_pos_iff.1 hpos) hwake)

/-- Every action keeps the watch. -/
theorem Watched.step (hw : Watched T s) (hp : Placed T s) (ho : OneArgs s) (hq : Queues T s)
    (hs : Sys.Step T s a s') : Watched T s' := by
  have h := Sys.move_of_step hs
  refine ⟨hw.opened_step hp hs, ?_, ?_⟩
  · intro hset hfree hwq
    rcases quiet_or_wake hp ho h hset hfree with hquiet | ⟨t, u, rfl⟩
    · -- the thread that watched before still does
      rw [hquiet.words] at hfree hwq
      obtain ⟨x, hx, hxq, hxs⟩ := hw.writer hquiet.settled hfree hwq
      refine ⟨x, hx, ?_⟩
      by_cases hxa : x = a.tid
      · subst hxa
        exact hquiet.writer hxq hxs
      · rw [hquiet.others x hxa]
        exact ⟨hxq, hxs⟩
    · exact (watched_wake hw hp ho hq h hfree).1 hwq
  · intro hset hfree hwq hrq
    rcases quiet_or_wake hp ho h hset hfree with hquiet | ⟨t, u, rfl⟩
    · rw [hquiet.words] at hfree hwq hrq ⊢
      obtain ⟨hopen, x, hx, hxq, hxs⟩ := hw.reader hquiet.settled hfree hwq hrq
      refine ⟨hopen, x, hx, ?_⟩
      by_cases hxa : x = a.tid
      · subst hxa
        exact hquiet.reader hopen hxq hxs
      · rw [hquiet.others x hxa]
        exact ⟨hxq, hxs⟩
    · exact (watched_wake hw hp ho hq h hfree).2 hwq hrq

end Steps

/-! ## Runs -/

/-- What holds in every state of a run whose calls have one argument. -/
structure Wakeful (T : Finset Tid) (s : Sys) : Prop where
  placed : Placed T s
  oneArgs : OneArgs s
  queues : Queues T s
  watched : Watched T s

theorem Created.wakeful {T : Finset Tid} {tid : Tid} {wrPar rdPar : BitVec 16} {s : Sys}
    (h : Created T tid wrPar rdPar s) : Wakeful T s where
  placed := h.placed
  oneArgs t c hc := by simp [h.idle t, Pc.frame] at hc
  queues := h.queues
  watched := by
    refine ⟨?_, ?_, ?_⟩
    · intro t c hpc
      simp [h.idle t] at hpc
    · intro _ _ hwq
      simp [h.words, newRegionCaps] at hwq
    · intro _ _ _ hrq
      simp [h.words, newRegionCaps] at hrq

theorem Wakeful.step {T : Finset Tid} {s s' : Sys} {a : Act} (hi : Wakeful T s)
    (hok : OneArgument s a) (hs : Sys.Step T s a s') : Wakeful T s' where
  placed := hi.placed.step hs
  oneArgs := hi.oneArgs.step hok hs
  queues := by
    refine hi.queues.step hi.placed ?_ hs
    intro t c hpc
    exact (hi.oneArgs t c (by rw [hpc]; rfl)).not_both
  watched := hi.watched.step hi.placed hi.oneArgs hi.queues hs

theorem OneArgs.not_both {s : Sys} (ho : OneArgs s) (t : Tid) :
    ¬ ((s.pc t).queuedWriter = true ∧ (s.pc t).queuedReader = true) := by
  rintro ⟨hw, hr⟩
  cases hc : (s.pc t).frame with
  | none => simp [Pc.queuedWriter, hc] at hw
  | some c =>
    rw [Pc.queuedWriter, hc, Option.any_some] at hw
    rw [Pc.queuedReader, hc, Option.any_some] at hr
    exact (ho t c hc).not_both ⟨hw, hr⟩

/-- In every state of such a run, also while a thread is in the critical section, `writer_q` and
`reader_q` are the numbers of threads that wait to write and to read, no thread waits in both
queues, and together the counters are at most the number of threads. -/
theorem queues_exact {T : Finset Tid} {tid : Tid} {wrPar rdPar : BitVec 16} {s₀ s : Sys}
    (h₀ : Created T tid wrPar rdPar s₀) (h : Reach (Sys.Step T) OneArgument s₀ s) :
    s.h.writerQ = tally T s.pc Pc.queuedWriter ∧ s.h.readerQ = tally T s.pc Pc.queuedReader ∧
      (∀ t, ¬ ((s.pc t).queuedWriter = true ∧ (s.pc t).queuedReader = true)) ∧
      s.h.writerQ + s.h.readerQ ≤ T.card := by
  have hi : Wakeful T s := h.invariant (fun _ _ _ hok hs hi => hi.step hok hs) h₀.wakeful
  refine ⟨hi.queues.writers, hi.queues.readers, hi.oneArgs.not_both, ?_⟩
  rw [hi.queues.writers, hi.queues.readers]
  exact tally_add_le fun t _ => hi.oneArgs.not_both t

/-- Whenever the region is free, no thread is in a critical section and some thread is queued, a
queued thread is awake. -/
theorem no_lost_wakeup {T : Finset Tid} {tid : Tid} {wrPar rdPar : BitVec 16} {s₀ s : Sys}
    (h₀ : Created T tid wrPar rdPar s₀) (h : Reach (Sys.Step T) OneArgument s₀ s)
    (hfree : s.h.writerCv = 0 ∧ s.h.rdCnt = 0) (hout : ∀ t, (s.pc t).inside = false)
    (hqueued : s.h.writerQ ≠ 0 ∨ s.h.readerQ ≠ 0) :
    ∃ t ∈ T, ((s.pc t).queuedWriter = true ∨ (s.pc t).queuedReader = true) ∧
      (s.pc t).sleeps = false := by
  have hi : Wakeful T s := h.invariant (fun _ _ _ hok hs hi => hi.step hok hs) h₀.wakeful
  have hset : Settled s := by
    intro t ph c hpc
    have hin := hout t
    simp [hpc, Pc.inside] at hin
  by_cases hwq : s.h.writerQ = 0
  · -- only readers are queued, and one of them is awake
    have hrq : s.h.readerQ ≠ 0 := hqueued.resolve_left (not_not.2 hwq)
    obtain ⟨_, t, ht, hq, hawake⟩ := hi.watched.reader hset hfree hwq hrq
    exact ⟨t, ht, .inr hq, hawake⟩
  · obtain ⟨t, ht, hq, hawake⟩ := hi.watched.writer hset hfree hwq
    exact ⟨t, ht, .inl hq, hawake⟩

/-- Thread `1` gives up the write count it got with the region and takes another one. The readers
`3` and `5` fall asleep behind it, and it releases the region and wakes one of them. -/
def sleepAndWake : List Act :=
  [.call 1 (-1) 0] ++ passActs 1 ++ [.leave 1, .call 1 1 0] ++ passActs 1 ++ [.leave 1, .call 3 0 1]
    ++ passActs 3 ++ [.readCv 3, .futexWait 3, .call 5 0 1] ++ passActs 5 ++
    [.readCv 5, .futexWait 5, .call 1 (-1) 0] ++ wakingActs 1 5

theorem queues_exact_sleepAndWake :
    ∃ s, Sys.run {1, 3, 5} (created {1, 3, 5} 1 0 0) sleepAndWake = some s ∧
      s.h.writerQ = tally {1, 3, 5} s.pc Pc.queuedWriter ∧
      s.h.readerQ = tally {1, 3, 5} s.pc Pc.queuedReader ∧
      (∀ t, ¬ ((s.pc t).queuedWriter = true ∧ (s.pc t).queuedReader = true)) ∧
      s.h.writerQ + s.h.readerQ ≤ 3 := by
  have hrun : (Sys.run {1, 3, 5} (created {1, 3, 5} 1 0 0) sleepAndWake).isSome := by
    decide +kernel
  obtain ⟨s, hs⟩ := Option.isSome_iff_exists.1 hrun
  exact ⟨s, hs, queues_exact (created_created (by decide) (by decide) 0 0)
    (Sys.reach_of_run (by simp [sleepAndWake, passActs, wakingActs, OneArgument]) hs)⟩

theorem no_lost_wakeup_sleepAndWake :
    ∃ s, Sys.run {1, 3, 5} (created {1, 3, 5} 1 0 0) sleepAndWake = some s ∧
      (s.h.writerCv = 0 ∧ s.h.rdCnt = 0) ∧ s.h.readerQ = 2 ∧
      ∃ t ∈ ({1, 3, 5} : Finset Tid),
        ((s.pc t).queuedWriter = true ∨ (s.pc t).queuedReader = true) ∧
          (s.pc t).sleeps = false := by
  have hrun : (Sys.run {1, 3, 5} (created {1, 3, 5} 1 0 0) sleepAndWake).map (fun s =>
      (s.h.writerCv, s.h.rdCnt, s.h.readerQ, s.h.lock)) = some (0, 0, 2, 0) := by
    decide +kernel
  obtain ⟨s, hs, hwords⟩ := Option.map_eq_some_iff.1 hrun
  simp only [Prod.mk.injEq] at hwords
  obtain ⟨hcv, hrd, hrq, hlock⟩ := hwords
  have h₀ := @created_created {1, 3, 5} 1 (by decide) (by decide) 0 0
  have hreach : Reach (Sys.Step {1, 3, 5}) OneArgument (created {1, 3, 5} 1 0 0) s :=
    Sys.reach_of_run (by simp [sleepAndWake, passActs, wakingActs, OneArgument]) hs
  have hplaced : Placed {1, 3, 5} s := hreach.invariant (fun _ _ _ _ hs hp => hp.step hs) h₀.placed
  refine ⟨s, hs, ⟨hcv, hrd⟩, hrq, no_lost_wakeup h₀ hreach ⟨hcv, hrd⟩ ?_ (.inr (by simp [hrq]))⟩
  intro t
  by_contra hin
  have hin' : (s.pc t).inside = true := by simpa using hin
  have ht : t ∈ ({1, 3, 5} : Finset Tid) := hplaced.member t fun e => by simp [e, Pc.inside] at hin'
  exact hplaced.ne_zero ht ((hplaced.holder t hin').symm.trans hlock)

end ConcurrentCyclone.Runtime
