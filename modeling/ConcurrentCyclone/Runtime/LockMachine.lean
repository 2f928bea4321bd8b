import ConcurrentCyclone.Transition.Guarded
import ConcurrentCyclone.Transition.Count
import ConcurrentCyclone.Runtime.RegionLock

/-!
# Threads calling `__xregion_lockop` on one region

The system has one region and a finite set `T` of threads with a key for it. Each thread is at a
place of `__xregion_lockop` (`Pc`), and an action (`Act`) moves one thread to its next place: the
critical section piece by piece, the wait loop word by word. `wait_lock` is a mutex, `futex_wait`
an atomic compare-and-sleep that may wake spuriously, and `futex_wake` wakes one sleeper, also for
`wake_all`: its count is `-1`, and the kernel stops when it has woken as many as the count. A failed
assertion ends the process, so the action is not possible.

`next` computes the effect of an action and `Move` lists what an action can do; every invariant is
proved by cases on `Move`. A thread other than the acting one keeps its counts, keeps its place or
is woken (`Move.other`), and sees the words of the region change only while the acting thread is in
the critical section (`Move.region`).
-/

set_option autoImplicit false

namespace ConcurrentCyclone.Runtime

open Function Transition

/-- The place of a thread in `__xregion_lockop`, with the frame of its call. -/
inductive Pc where
  /-- Not in a call. -/
  | idle
  /-- At `wait_lock`. -/
  | enter (c : Call)
  /-- In the critical section, before the piece `ph`. -/
  | crit (ph : Phase) (c : Call)
  /-- In the wait loop, before the futex word is read. -/
  | readCv (c : Call)
  /-- Before `futex_wait` with the value `v` read. -/
  | futexWait (c : Call) (v : Nat)
  /-- Asleep in `futex_wait`. -/
  | asleep (c : Call)
  /-- Behind the loop, before the last assertions. -/
  | leave (c : Call)
  deriving DecidableEq

namespace Pc

/-- The frame of the call in progress. -/
def frame : Pc → Option Call
  | .idle => none
  | .enter c | .crit _ c | .readCv c | .futexWait c _ | .asleep c | .leave c => some c

/-- The thread is counted in `writer_q`. -/
def queuedWriter (p : Pc) : Bool := p.frame.any (·.waitWq)

/-- The thread is counted in `reader_q`. -/
def queuedReader (p : Pc) : Bool := p.frame.any (·.waitRq)

/-- The thread sleeps in `futex_wait`. -/
def sleeps : Pc → Bool
  | .asleep _ => true
  | _ => false

/-- The thread sleeps on `writer_cv`. -/
def onWriterWord : Pc → Bool
  | .asleep c => c.waitWq
  | _ => false

/-- The thread sleeps on `reader_cv`. -/
def onReaderWord : Pc → Bool
  | .asleep c => !c.waitWq
  | _ => false

/-- The place after a wake. -/
def woken : Pc → Pc
  | .asleep c => .readCv c
  | p => p

/-- The thread is in the critical section. -/
def inside : Pc → Bool
  | .crit _ _ => true
  | _ => false

@[simp] theorem frame_woken (p : Pc) : p.woken.frame = p.frame := by
  cases p <;> rfl

@[simp] theorem queuedWriter_woken (p : Pc) : p.woken.queuedWriter = p.queuedWriter := by
  simp [queuedWriter]

@[simp] theorem queuedReader_woken (p : Pc) : p.woken.queuedReader = p.queuedReader := by
  simp [queuedReader]

@[simp] theorem inside_woken (p : Pc) : p.woken.inside = p.inside := by
  cases p <;> rfl

@[simp] theorem sleeps_woken (p : Pc) : p.woken.sleeps = false := by
  cases p <;> rfl

theorem woken_eq_crit {p : Pc} {ph : Phase} {c : Call} : p.woken = .crit ph c ↔ p = .crit ph c := by
  cases p <;> simp [woken]

theorem woken_eq_idle {p : Pc} : p.woken = .idle ↔ p = .idle := by
  cases p <;> simp [woken]

end Pc

/-- The region, the counts of every thread's key, and the place of every thread. -/
structure Sys where
  h : RegionCaps
  caps : Tid → LocalCaps
  pc : Tid → Pc

/-- The actions of the system, each by one thread. -/
inductive Act where
  /-- Call `__xregion_lockop` and pass the assertions at its start. -/
  | call (t : Tid) (writeLock readLock : Int)
  /-- Return from `wait_lock`. -/
  | acquire (t : Tid)
  /-- Run a piece of the critical section other than the last two. -/
  | piece (t : Tid)
  /-- `wake_single` or `wake_all`; `u` is the thread that is woken, if one sleeps on the word. -/
  | wake (t : Tid) (u : Option Tid)
  /-- Pass the assertion at the end of the critical section and `unlock`. -/
  | unlock (t : Tid)
  /-- Read the futex word in the wait loop. -/
  | readCv (t : Tid)
  /-- `futex_wait`: compare and sleep. -/
  | futexWait (t : Tid)
  /-- Wake without a wake call. -/
  | spurious (t : Tid)
  /-- Pass the last assertions and return. -/
  | leave (t : Tid)

/-- The acting thread. -/
def Act.tid : Act → Tid
  | .call t _ _ | .acquire t | .piece t | .wake t _ | .unlock t | .readCv t | .futexWait t
  | .spurious t | .leave t => t

/-- The futex word a queued thread waits on. -/
def waitWord (h : RegionCaps) (c : Call) : Nat := if c.waitWq then h.writerCv else h.readerCv

/-- `futex_wake` with the count `1` or `-1`: one thread that sleeps on the word, if there is one. -/
def futexWake (T : Finset Tid) (onWord : Pc → Bool) (pc : Tid → Pc) :
    Option Tid → Option (Tid → Pc)
  | some u => if onWord (pc u) then some (update pc u (pc u).woken) else none
  -- the kernel wakes nobody only if nobody sleeps on the word
  | none => if ∃ u ∈ T, onWord (pc u) = true then none else some pc

/-- The wake at the end of the critical section: `wake_single(wr_cv)` or `wake_all(rd_cv)`. -/
def wakeUp (T : Finset Tid) (pc : Tid → Pc) (u : Option Tid) : Wake → Option (Tid → Pc)
  | .none => some pc
  | .single => futexWake T Pc.onWriterWord pc u
  | .all => futexWake T Pc.onReaderWord pc u

namespace Sys

/-- What the critical section of thread `t` works on. -/
def cs (s : Sys) (t : Tid) (c : Call) : Cs := ⟨s.h, s.caps t, c⟩

/-- Move thread `t` to another place. -/
def goto (s : Sys) (t : Tid) (p : Pc) : Sys := { s with pc := update s.pc t p }

/-- Write back what a piece of the critical section of thread `t` computed. -/
def put (s : Sys) (t : Tid) (ph : Phase) (x : Cs) : Sys where
  h := x.h
  caps := update s.caps t x.caps
  pc := update s.pc t (.crit ph x.call)

/-- The effect of an action, if it is possible. -/
def next (T : Finset Tid) (s : Sys) : Act → Option Sys
  | .call t w r =>
    match s.pc t with
    | .idle =>
      -- the assertions at the start are read at one instant
      if (w ≠ 0 ∨ r ≠ 0) ∧ entryAssert t w r s.h (s.caps t) then
        some (s.goto t (.enter (newCall w r)))
      else none
    | _ => none
  | .acquire t =>
    match s.pc t with
    | .enter c =>
      if s.h.lock = 0 then
        some ({ s with h := { s.h with lock := t } }.goto t (.crit .dequeue c))
      else none
    | _ => none
  | .piece t =>
    match s.pc t with
    -- these two pieces have actions of their own
    | .crit .wake _ | .crit .unlock _ => none
    | .crit ph c => some (s.put t ph.next (ph.run t (s.cs t c)))
    | _ => none
  | .wake t u =>
    match s.pc t with
    | .crit .wake c =>
      (wakeUp T s.pc u (wakeDecision s.h)).map fun pc =>
        { s with pc := pc }.goto t (.crit .unlock c)
    | _ => none
  | .unlock t =>
    match s.pc t with
    | .crit .unlock c =>
      if writerAssert t s.h (s.caps t) ∧ s.h.lock = t then
        -- `while(wait_wq || wait_rq)`
        some ({ s with h := { s.h with lock := 0 } }.goto t
          (if c.waitWq || c.waitRq then .readCv c else .leave c))
      else none
    | _ => none
  | .readCv t =>
    match s.pc t with
    | .readCv c =>
      -- a word that is zero ends the wait loop
      some (s.goto t (if waitWord s.h c = 0 then .enter c else .futexWait c (waitWord s.h c)))
    | _ => none
  | .futexWait t =>
    match s.pc t with
    -- the kernel compares the word with the value that was read before
    | .futexWait c v => some (s.goto t (if waitWord s.h c = v then .asleep c else .readCv c))
    | _ => none
  | .spurious t =>
    match s.pc t with
    | .asleep c => some (s.goto t (.readCv c))
    | _ => none
  | .leave t =>
    match s.pc t with
    | .leave _ =>
      if 0 ≤ (s.caps t).wrCnt.toInt ∧ 0 ≤ (s.caps t).rdCnt.toInt then some (s.goto t .idle)
      else none
    | _ => none

/-- The step relation. -/
def Step (T : Finset Tid) (s : Sys) (a : Act) (s' : Sys) : Prop := s.next T a = some s'

/-- Run a list of actions. -/
def run (T : Finset Tid) : Sys → List Act → Option Sys
  | s, [] => some s
  | s, a :: as => (s.next T a).bind fun s' => run T s' as

variable {T : Finset Tid} {s s' : Sys}

/-- A computed run is a run. -/
theorem reach_of_run {ok : Sys → Act → Prop} {as : List Act}
    (hok : ∀ a ∈ as, ∀ s, ok s a) (h : run T s as = some s') :
    Reach (Step T) ok s s' := by
  induction as generalizing s with
  | nil =>
    cases h
    exact Relation.ReflTransGen.refl
  | cons a as ih =>
    obtain ⟨m, hm, hrest⟩ := Option.bind_eq_some_iff.1 h
    have htail := ih (fun b hb => hok b (.tail a hb)) hrest
    exact Relation.ReflTransGen.head ⟨a, hok a (.head _) s, hm⟩ htail

/-- What an action can do. -/
inductive Move (T : Finset Tid) (s : Sys) : Act → Sys → Prop where
  | call {t : Tid} {w r : Int} (hpc : s.pc t = .idle) (harg : w ≠ 0 ∨ r ≠ 0)
      (hassert : entryAssert t w r s.h (s.caps t) = true) :
      Move T s (.call t w r) (s.goto t (.enter (newCall w r)))
  | acquire {t : Tid} {c : Call} (hpc : s.pc t = .enter c) (hfree : s.h.lock = 0) :
      Move T s (.acquire t)
        ({ s with h := { s.h with lock := t } }.goto t (.crit .dequeue c))
  | piece {t : Tid} {ph : Phase} {c : Call} (hpc : s.pc t = .crit ph c) (hwake : ph ≠ .wake)
      (hunlock : ph ≠ .unlock) :
      Move T s (.piece t) (s.put t ph.next (ph.run t (s.cs t c)))
  | wake {t : Tid} {u : Option Tid} {c : Call} {pc : Tid → Pc} (hpc : s.pc t = .crit .wake c)
      (hwake : wakeUp T s.pc u (wakeDecision s.h) = some pc) :
      Move T s (.wake t u) ({ s with pc := pc }.goto t (.crit .unlock c))
  | unlock {t : Tid} {c : Call} (hpc : s.pc t = .crit .unlock c)
      (hassert : writerAssert t s.h (s.caps t) = true) (hlock : s.h.lock = t) :
      Move T s (.unlock t) ({ s with h := { s.h with lock := 0 } }.goto t
        (if c.waitWq || c.waitRq then .readCv c else .leave c))
  | readCv {t : Tid} {c : Call} (hpc : s.pc t = .readCv c) :
      Move T s (.readCv t)
        (s.goto t (if waitWord s.h c = 0 then .enter c else .futexWait c (waitWord s.h c)))
  | futexWait {t : Tid} {c : Call} {v : Nat} (hpc : s.pc t = .futexWait c v) :
      Move T s (.futexWait t) (s.goto t (if waitWord s.h c = v then .asleep c else .readCv c))
  | spurious {t : Tid} {c : Call} (hpc : s.pc t = .asleep c) :
      Move T s (.spurious t) (s.goto t (.readCv c))
  | leave {t : Tid} {c : Call} (hpc : s.pc t = .leave c)
      (hw : 0 ≤ (s.caps t).wrCnt.toInt) (hr : 0 ≤ (s.caps t).rdCnt.toInt) :
      Move T s (.leave t) (s.goto t .idle)

/-- Every step is one of the moves. -/
theorem move_of_step {a : Act} (h : Step T s a s') : Move T s a s' := by
  unfold Step next at h
  -- one case for each action, in the order of `next`; all other places give `none`
  split at h <;> split at h <;> try cases h
  · split_ifs at h with hif
    cases h
    exact .call ‹_› hif.1 hif.2
  · split_ifs at h with hif
    cases h
    exact .acquire ‹_› hif
  · exact .piece ‹_› ‹_› ‹_›
  · obtain ⟨pc, hw, rfl⟩ := Option.map_eq_some_iff.1 h
    exact .wake ‹_› hw
  · -- the other `if` is in the state
    split at h <;> cases h
    rename_i hif
    exact .unlock ‹_› hif.1 hif.2
  · exact .readCv ‹_›
  · exact .futexWait ‹_›
  · exact .spurious ‹_›
  · split_ifs at h with hif
    cases h
    exact .leave ‹_› hif.1 hif.2

end Sys

/-! ## What a move leaves alone -/

variable {T : Finset Tid}

theorem futexWake_other {onWord : Pc → Bool} {pc pc' : Tid → Pc} {u : Option Tid}
    (h : futexWake T onWord pc u = some pc') (x : Tid) : pc' x = pc x ∨ pc' x = (pc x).woken := by
  cases u with (simp only [futexWake] at h; split_ifs at h; cases h)
  | none => exact .inl rfl
  | some y =>
    by_cases hxy : x = y
    · subst hxy
      exact .inr (update_self ..)
    · exact .inl (update_of_ne hxy ..)

/-- A wake changes no place but that of a sleeper. -/
theorem wakeUp_other {pc pc' : Tid → Pc} {u : Option Tid} {d : Wake}
    (h : wakeUp T pc u d = some pc') (x : Tid) : pc' x = pc x ∨ pc' x = (pc x).woken := by
  cases d with
  | none =>
    cases h
    exact .inl rfl
  | single | all => exact futexWake_other h x

namespace Sys

variable {T : Finset Tid} {s s' : Sys} {a : Act}

@[simp] theorem goto_h (t : Tid) (p : Pc) : (s.goto t p).h = s.h := rfl
@[simp] theorem goto_pc_self (t : Tid) (p : Pc) : (s.goto t p).pc t = p :=
  update_self ..
theorem goto_pc_of_ne {t u : Tid} (h : u ≠ t) (p : Pc) : (s.goto t p).pc u = s.pc u :=
  update_of_ne h ..
@[simp] theorem put_h (t : Tid) (ph : Phase) (x : Cs) : (s.put t ph x).h = x.h := rfl
@[simp] theorem put_caps_self (t : Tid) (ph : Phase) (x : Cs) : (s.put t ph x).caps t = x.caps :=
  update_self ..
@[simp] theorem put_pc_self (t : Tid) (ph : Phase) (x : Cs) :
    (s.put t ph x).pc t = .crit ph x.call :=
  update_self ..

/-- A thread that does not act keeps its counts, and keeps its place or is woken. -/
theorem Move.other (h : Move T s a s') {u : Tid} (hu : u ≠ a.tid) :
    s'.caps u = s.caps u ∧ (s'.pc u = s.pc u ∨ s'.pc u = (s.pc u).woken) := by
  cases h with
  | piece =>
    exact ⟨update_of_ne hu .., .inl (update_of_ne hu ..)⟩
  | wake hpc hwake =>
    dsimp only [Act.tid] at hu
    rw [goto_pc_of_ne hu]
    exact ⟨rfl, wakeUp_other hwake u⟩
  | _ =>
    exact ⟨rfl, .inl (update_of_ne hu ..)⟩

/-- The words of the region change only in the critical section of the acting thread, or when it
takes the free lock. -/
theorem Move.region (h : Move T s a s') :
    s'.h = s.h ∨ (s.pc a.tid).inside = true ∨ s.h.lock = 0 := by
  cases h with
  | piece hpc | unlock hpc => exact .inr (.inl (by simp [Act.tid, hpc, Pc.inside]))
  | acquire _ hfree => exact .inr (.inr hfree)
  | _ => exact .inl rfl

/-- A count over the places that a wake does not change moves with the acting thread. -/
theorem Move.tally (h : Move T s a s') {q : Pc → Bool} (hq : ∀ p, q p.woken = q p)
    (ha : a.tid ∈ T) :
    tally T s'.pc q =
      tally T s.pc q - (q (s.pc a.tid)).toInt + (q (s'.pc a.tid)).toInt := by
  apply tally_change ha
  intro u hu
  rcases (h.other hu).2 with hpc | hpc
  · rw [hpc]
  · rw [hpc, hq]

end Sys

/-! ## The region when it is created -/

/-- The threads `T` have a key for the region, `tid` has just created it below a key with lock
counts `wrPar` and `rdPar`, and the others got their keys without lock counts. -/
structure Created (T : Finset Tid) (tid : Tid) (wrPar rdPar : BitVec 16) (s : Sys) : Prop where
  creator : tid ∈ T
  zero : 0 ∉ T
  words : s.h = { newRegionCaps tid with rcnt := T.card }
  own : s.caps tid = newLocalCaps wrPar rdPar
  others : ∀ t ∈ T, t ≠ tid → (s.caps t).wrCnt = 0 ∧ (s.caps t).rdCnt = 0
  outside : ∀ t, t ∉ T → s.caps t = ⟨0, 0, 0⟩
  idle : ∀ t, s.pc t = .idle

/-- The state after the creation of the region. -/
def created (T : Finset Tid) (tid : Tid) (wrPar rdPar : BitVec 16) : Sys where
  h := { newRegionCaps tid with rcnt := T.card }
  caps t :=
    if t = tid then newLocalCaps wrPar rdPar else if t ∈ T then ⟨1, 0, 0⟩ else ⟨0, 0, 0⟩
  pc _ := .idle

variable {tid : Tid}

theorem created_created (htid : tid ∈ T) (hzero : 0 ∉ T)
    (wrPar rdPar : BitVec 16) : Created T tid wrPar rdPar (created T tid wrPar rdPar) where
  creator := htid
  zero := hzero
  words := rfl
  own := by simp [created]
  others t ht hne := by simp [created, ht, hne]
  outside t ht := by
    have hne : t ≠ tid := fun e => ht (e ▸ htid)
    simp [created, ht, hne]
  idle _ := rfl

/-- The actions of one pass of the critical section in which nobody is woken. -/
def passActs (t : Tid) : List Act :=
  [.acquire t, .piece t, .piece t, .piece t, .piece t, .piece t, .wake t none, .unlock t]

/-- The actions of one pass of the critical section in which `u` is woken. -/
def wakingActs (t u : Tid) : List Act :=
  [.acquire t, .piece t, .piece t, .piece t, .piece t, .piece t, .wake t (some u), .unlock t]

/-! ## The places of the threads

These facts hold in every reachable state, whatever the threads ask for. -/

/-- What the wait flags and the value read are at a place. -/
def Pc.Regular : Pc → Prop
  | .crit .closeReaders c | .crit .write c | .leave c => c.waitWq = false ∧ c.waitRq = false
  | .crit .read c => c.waitRq = false
  | .readCv c | .asleep c => c.waitWq = true ∨ c.waitRq = true
  | .futexWait c v => v ≠ 0 ∧ (c.waitWq = true ∨ c.waitRq = true)
  | _ => True

theorem Pc.Regular.woken {p : Pc} (h : p.Regular) : p.woken.Regular := by
  cases p <;> exact h

/-- The threads in a call have a key, and the one in the critical section has the lock. -/
structure Placed (T : Finset Tid) (s : Sys) : Prop where
  zero : 0 ∉ T
  member : ∀ t, s.pc t ≠ .idle → t ∈ T
  outside : ∀ t, t ∉ T → s.caps t = ⟨0, 0, 0⟩
  holder : ∀ t, (s.pc t).inside = true → s.h.lock = t
  regular : ∀ t, (s.pc t).Regular

variable {wrPar rdPar : BitVec 16} {s : Sys}

theorem Created.placed (h : Created T tid wrPar rdPar s) : Placed T s where
  zero := h.zero
  member t ht := absurd (h.idle t) ht
  outside := h.outside
  holder t ht := by simp [h.idle t, Pc.inside] at ht
  regular t := by simp [h.idle t, Pc.Regular]

namespace Placed

variable {T : Finset Tid} {s s' : Sys} {a : Act}

theorem ne_zero (hp : Placed T s) {t : Tid} (ht : t ∈ T) : t ≠ 0 :=
  fun e => hp.zero (e ▸ ht)

/-- Only threads with a key act. -/
theorem actor (hp : Placed T s) (h : Sys.Move T s a s') : a.tid ∈ T := by
  cases h with
  | @call t w r hpc harg hassert =>
    -- a thread without a key fails the assertion on its region count
    by_contra ht
    simp [entryAssert, hp.outside t ht] at hassert
  | acquire hpc | piece hpc | wake hpc | unlock hpc | readCv hpc | futexWait hpc | spurious hpc
  | leave hpc =>
    apply hp.member _
    simp [Act.tid, hpc]

/-- While a thread is in the critical section no other thread changes the words of the region. -/
theorem region_of_inside (hp : Placed T s) (h : Sys.Move T s a s') {u : Tid} (hu : u ≠ a.tid)
    (hin : (s.pc u).inside = true) : s'.h = s.h := by
  have hlock := hp.holder u hin
  rcases h.region with hsame | hacting | hfree
  · exact hsame
  · -- two threads inside would both be the holder of the lock
    exact absurd (hlock.symm.trans (hp.holder _ hacting)) hu
  · have hidle : s.pc u ≠ .idle := by
      intro e
      simp [e, Pc.inside] at hin
    exact absurd (hlock.symm.trans hfree) (hp.ne_zero (hp.member u hidle))

@[simp] theorem run_lock (t : Tid) (ph : Phase) (x : Cs) : (ph.run t x).h.lock = x.h.lock := by
  cases ph <;> simp [Phase.run]

/-- The flags after a piece. -/
theorem regular_piece {t : Tid} {ph : Phase} {x : Cs} (hr : (Pc.crit ph x.call).Regular) :
    (Pc.crit ph.next (ph.run t x).call).Regular := by
  cases ph with
  | dequeue => simp [Phase.next, Phase.run, Pc.Regular]
  | closeReaders => simpa [Phase.next, Phase.run, Pc.Regular] using hr
  | write => simpa [Phase.next, Phase.run, Pc.Regular] using hr.2
  | read | openReaders | wake | unlock => trivial

/-- The acting thread is at a regular place after the action. -/
theorem regular_actor (hp : Placed T s) (h : Sys.Move T s a s') : (s'.pc a.tid).Regular := by
  cases h with
  | @piece t ph c hpc =>
    rw [Act.tid, Sys.put_pc_self]
    apply regular_piece
    simpa [Sys.cs, hpc] using hp.regular t
  | @unlock t c hpc =>
    rw [Act.tid, Sys.goto_pc_self]
    split_ifs with hflag
    · simpa [Pc.Regular] using hflag
    · simpa [Pc.Regular] using hflag
  | @readCv t c hpc =>
    have hreg := hp.regular t
    rw [hpc] at hreg
    rw [Act.tid, Sys.goto_pc_self]
    split_ifs with hword
    · trivial
    · exact ⟨hword, hreg⟩
  | @futexWait t c v hpc =>
    have hreg := hp.regular t
    rw [hpc] at hreg
    rw [Act.tid, Sys.goto_pc_self]
    split_ifs <;> exact hreg.2
  | @spurious t c hpc =>
    have hreg := hp.regular t
    rw [hpc] at hreg
    rwa [Act.tid, Sys.goto_pc_self]
  | _ =>
    rw [Act.tid, Sys.goto_pc_self]
    trivial

/-- The acting thread has the lock if it is in the critical section after the action. -/
theorem holder_actor (hp : Placed T s) (h : Sys.Move T s a s')
    (hin : (s'.pc a.tid).inside = true) : s'.h.lock = a.tid := by
  cases h with
  | acquire => rfl
  | @piece t ph c hpc =>
    rw [Sys.put_h, run_lock]
    exact hp.holder t (by simp [hpc, Pc.inside])
  | @wake t u c pc hpc => exact hp.holder t (by simp [hpc, Pc.inside])
  | unlock | readCv | futexWait =>
    rw [Act.tid, Sys.goto_pc_self] at hin
    split_ifs at hin <;> simp [Pc.inside] at hin
  | call | spurious | leave => simp [Act.tid, Pc.inside] at hin

/-- Every action keeps the places in order. -/
theorem step (hp : Placed T s) (hs : Sys.Step T s a s') : Placed T s' := by
  have h := Sys.move_of_step hs
  have ha := hp.actor h
  refine ⟨hp.zero, ?_, ?_, ?_, ?_⟩
  · intro u hu
    by_cases hua : u = a.tid
    · exact hua ▸ ha
    · -- an idle thread that does not act stays idle
      refine hp.member u fun e => hu ?_
      rcases (h.other hua).2 with hpc | hpc
      · rw [hpc, e]
      · rw [hpc, Pc.woken_eq_idle, e]
  · intro u hu
    have hua : u ≠ a.tid := fun e => hu (e ▸ ha)
    rw [(h.other hua).1, hp.outside u hu]
  · intro u hin
    by_cases hua : u = a.tid
    · subst hua
      exact hp.holder_actor h hin
    · have hin' : (s.pc u).inside = true := by
        rcases (h.other hua).2 with hpc | hpc
        · rwa [hpc] at hin
        · rwa [hpc, Pc.inside_woken] at hin
      -- the holder keeps the lock, since nobody else writes the words
      rw [hp.region_of_inside h hua hin', hp.holder u hin']
  · intro u
    by_cases hua : u = a.tid
    · subst hua
      exact hp.regular_actor h
    · have hreg := hp.regular u
      rcases (h.other hua).2 with hpc | hpc
      · rwa [hpc]
      · rw [hpc]
        exact hreg.woken

end Placed

/-! ## The queue counters -/

/-- The queue counters count the threads with the wait flag. -/
structure Queues (T : Finset Tid) (s : Sys) : Prop where
  writers : s.h.writerQ = tally T s.pc Pc.queuedWriter
  readers : s.h.readerQ = tally T s.pc Pc.queuedReader

theorem Created.queues (h : Created T tid wrPar rdPar s) : Queues T s := by
  constructor <;> rw [h.words, eq_comm]
  · exact tally_eq_zero_iff.2 fun t _ => by simp [h.idle t, Pc.queuedWriter, Pc.frame]
  · exact tally_eq_zero_iff.2 fun t _ => by simp [h.idle t, Pc.queuedReader, Pc.frame]

/-- A piece of the critical section changes the counters as it changes the flags, unless it leaves
the queues with both flags set. -/
theorem queues_piece {t : Tid} {ph : Phase} {x : Cs} (hr : (Pc.crit ph x.call).Regular)
    (hone : ph = .dequeue → ¬ (x.call.waitWq = true ∧ x.call.waitRq = true)) :
    (ph.run t x).h.writerQ = x.h.writerQ - x.call.waitWq.toInt +
        (ph.run t x).call.waitWq.toInt ∧
      (ph.run t x).h.readerQ = x.h.readerQ - x.call.waitRq.toInt +
        (ph.run t x).call.waitRq.toInt := by
  cases ph with
  | dequeue =>
    -- `else if`: with both flags set only the writer queue would be left
    simp only [Phase.run, dequeue_queues]
    cases hw : x.call.waitWq <;> cases hrq : x.call.waitRq <;> simp_all
  | write =>
    obtain ⟨hw, hrq⟩ := hr
    simp [Phase.run, writePart_writerQ t x hw, hw]
  | read =>
    have hrq : x.call.waitRq = false := hr
    simp [Phase.run, readPart_readerQ t x hrq, hrq]
  | closeReaders | openReaders | wake | unlock => simp [Phase.run]

/-- Every action changes the counters as it changes the flags of the acting thread. -/
theorem queues_move {s' : Sys} {a : Act} (hp : Placed T s)
    (h : Sys.Move T s a s')
    (hone : ∀ t c, s.pc t = .crit .dequeue c → ¬ (c.waitWq = true ∧ c.waitRq = true)) :
    s'.h.writerQ = s.h.writerQ - (s.pc a.tid).queuedWriter.toInt +
        (s'.pc a.tid).queuedWriter.toInt ∧
      s'.h.readerQ = s.h.readerQ - (s.pc a.tid).queuedReader.toInt +
        (s'.pc a.tid).queuedReader.toInt := by
  cases h with
  | @piece t ph c hpc =>
    have hreg := hp.regular t
    rw [hpc] at hreg
    -- the only pieces that touch the flags are those that touch the counters
    have hpiece := queues_piece (t := t) (x := s.cs t c) hreg
      (fun e => hone t c (by rw [hpc, e]))
    simpa [Act.tid, Pc.queuedWriter, Pc.queuedReader, Pc.frame, hpc, Sys.cs] using hpiece
  | @leave t c hpc =>
    have hreg := hp.regular t
    rw [hpc] at hreg
    simp [Act.tid, Pc.queuedWriter, Pc.queuedReader, Pc.frame, hpc, hreg.1, hreg.2]
  | call hpc | acquire hpc | wake hpc | spurious hpc =>
    simp [Act.tid, Pc.queuedWriter, Pc.queuedReader, Pc.frame, hpc, newCall]
  | unlock hpc | readCv hpc | futexWait hpc =>
    -- the place changes, the frame does not
    simp only [Act.tid]
    split_ifs <;> simp_all [Pc.queuedWriter, Pc.queuedReader, Pc.frame]

/-- Every action keeps the counters exact, unless a thread leaves the queues with both flags
set. -/
theorem Queues.step {s' : Sys} {a : Act} (hq : Queues T s) (hp : Placed T s)
    (hone : ∀ t c, s.pc t = .crit .dequeue c → ¬ (c.waitWq = true ∧ c.waitRq = true))
    (hs : Sys.Step T s a s') : Queues T s' := by
  have h := Sys.move_of_step hs
  have ha := hp.actor h
  obtain ⟨hw, hr⟩ := queues_move hp h hone
  constructor
  · rw [hw, hq.writers, h.tally Pc.queuedWriter_woken ha]
  · rw [hr, hq.readers, h.tally Pc.queuedReader_woken ha]

end ConcurrentCyclone.Runtime
