import ConcurrentCyclone.Runtime.CInt

/-!
# The critical section of `__xregion_lockop`

The words of a region (`struct _RegionCaps`), the counts of one thread's key (`struct _LocalCaps`)
and the frame of one call of `__xregion_lockop` (`lib/runtime_memory.c`). The part of the function
between `wait_lock` and `unlock` is cut at the places where another thread can see a difference:
the futex words `writer_cv` and `reader_cv` are read outside the lock by the waiters, all other
words only inside it. `Phase.run` executes one piece, `pass` all of them in order.
-/

set_option autoImplicit false

namespace ConcurrentCyclone.Runtime

/-- Thread identifiers (`tcb()->tid`); `0` is no thread. -/
abbrev Tid := Nat

/-- `struct _LocalCaps`: the counts of a key. -/
structure LocalCaps where
  rcnt : BitVec 16
  wrCnt : BitVec 16
  rdCnt : BitVec 16
  deriving DecidableEq

/-- `struct _RegionCaps`: the global words of a region. The queue and reader counters count
threads; they are kept as integers, as is `rcnt`. -/
structure RegionCaps where
  rcnt : Int
  lock : Tid
  writerCv : Tid
  readerCv : Nat
  writerQ : Int
  readerQ : Int
  rdCnt : Int
  deriving DecidableEq

/-- The words `_new_xregion` gives a region created by `tid`. -/
def newRegionCaps (tid : Tid) : RegionCaps :=
  { rcnt := 1, lock := 0, writerCv := tid, readerCv := 0, writerQ := 0, readerQ := 0, rdCnt := 0 }

/-- The counts `_new_xregion` gives the creator's key: the lock counts of the parent's key are
inherited, and one write count is added. -/
def newLocalCaps (wrPar rdPar : BitVec 16) : LocalCaps :=
  { rcnt := 1, wrCnt := wrPar + 1, rdCnt := rdPar }

/-- The frame of a call: its two arguments and the two wait flags. -/
structure Call where
  writeLock : Int
  readLock : Int
  waitWq : Bool
  waitRq : Bool
  deriving DecidableEq

/-- The frame of a call that has not been in the critical section yet. -/
def newCall (writeLock readLock : Int) : Call := ⟨writeLock, readLock, false, false⟩

/-- What the critical section works on: the region, the caller's key and the caller's frame. -/
structure Cs where
  h : RegionCaps
  caps : LocalCaps
  call : Call
  deriving DecidableEq

/-- The assertion on the recorded writer, made at the start of the call and before `unlock`: a
thread that is the recorded writer has a write count, and the only reader it allows is itself. -/
def writerAssert (self : Tid) (h : RegionCaps) (caps : LocalCaps) : Bool :=
  h.writerCv != self ||
    (decide (0 < caps.wrCnt.toInt) &&
      ((caps.rdCnt != 0 && h.rdCnt == 1) || (caps.rdCnt == 0 && h.rdCnt == 0)))

/-- The assertions on the counts and the arguments at the start of a call. -/
def countAssert (writeLock readLock : Int) (caps : LocalCaps) : Bool :=
  decide (0 ≤ caps.wrCnt.toInt) && decide (0 ≤ caps.rdCnt.toInt) &&
    decide (0 ≤ int32 (caps.wrCnt.toInt + writeLock)) &&
    decide (0 ≤ int32 (caps.rdCnt.toInt + readLock))

/-- All assertions a call passes before its first try for the lock. -/
def entryAssert (self : Tid) (writeLock readLock : Int) (h : RegionCaps) (caps : LocalCaps) :
    Bool :=
  caps.rcnt != 0 && countAssert writeLock readLock caps && writerAssert self h caps

/-- Leave the queue the last pass entered, and reset the wait flags. -/
def dequeue (s : Cs) : Cs :=
  if s.call.waitWq then
    { s with
      h := { s.h with writerQ := s.h.writerQ - 1 }
      call := { s.call with waitWq := false, waitRq := false } }
  else if s.call.waitRq then
    { s with
      h := { s.h with readerQ := s.h.readerQ - 1 }
      call := { s.call with waitRq := false } }
  else s

/-- `canlock`: no writer, and no reader but the caller. -/
def canlock (s : Cs) : Bool :=
  decide (s.h.rdCnt < 2) && (s.h.rdCnt == 0 || s.caps.rdCnt != 0) && s.h.writerCv == 0

/-- The write part of the call takes the write lock in this pass. -/
def takesWrite (s : Cs) : Bool :=
  s.call.writeLock != 0 && s.caps.wrCnt == 0 && canlock s

/-- `*rd_cv = 1`: readers will have to wait. -/
def closeReaders (s : Cs) : Cs :=
  if takesWrite s then { s with h := { s.h with readerCv := 1 } } else s

/-- The rest of the write part: change the own count, take the lock, or queue. -/
def writePart (self : Tid) (s : Cs) : Cs :=
  if s.call.writeLock = 0 then s
  else if s.caps.wrCnt ≠ 0 then
    -- a sum of zero releases the write lock, whoever is recorded as the writer
    let wr := addShort s.caps.wrCnt s.call.writeLock
    { s with
      caps := { s.caps with wrCnt := wr }
      h := { s.h with writerCv := if wr = 0 then 0 else s.h.writerCv } }
  else if canlock s then
    { s with
      -- the readers' word was closed by the piece before
      caps := { s.caps with wrCnt := addShort s.caps.wrCnt s.call.writeLock }
      h := { s.h with writerCv := self } }
  else
    { s with
      -- queue behind the holders; the flag makes the call go round again
      call := { s.call with waitWq := true }
      h := { s.h with writerQ := s.h.writerQ + 1 } }

/-- The read part: change the own count, queue behind another writer, or join the readers. -/
def readPart (self : Tid) (s : Cs) : Cs :=
  if s.call.readLock = 0 then s
  else if s.caps.rdCnt ≠ 0 then
    -- the last read count of the caller leaves the readers
    let rd := addShort s.caps.rdCnt s.call.readLock
    { s with
      caps := { s.caps with rdCnt := rd }
      h := { s.h with rdCnt := if rd = 0 then s.h.rdCnt - 1 else s.h.rdCnt } }
  else if s.h.writerCv ≠ self ∧ s.h.writerCv ≠ 0 then
    { s with
      -- another thread is the recorded writer
      call := { s.call with waitRq := true }
      h := { s.h with readerQ := s.h.readerQ + 1 } }
  else
    { s with
      -- no writer, or the caller itself
      caps := { s.caps with rdCnt := addShort s.caps.rdCnt s.call.readLock }
      h := { s.h with rdCnt := s.h.rdCnt + 1 } }

/-- Which sleepers the end of the critical section wakes. -/
inductive Wake where
  | none
  | single
  | all
  deriving DecidableEq

/-- The wake decision: with no writer, one queued writer if there is no reader, else all queued
readers. -/
def wakeDecision (h : RegionCaps) : Wake :=
  if h.writerCv ≠ 0 then .none
  else if h.writerQ ≠ 0 ∧ h.rdCnt = 0 then .single
  else if h.readerQ ≠ 0 then .all
  else .none

/-- `*rd_cv = 0`, before the readers are woken. -/
def openReaders (s : Cs) : Cs :=
  if wakeDecision s.h = .all then { s with h := { s.h with readerCv := 0 } } else s

/-- The pieces of the critical section, in program order. -/
inductive Phase where
  | dequeue
  | closeReaders
  | write
  | read
  | openReaders
  | wake
  | unlock
  deriving DecidableEq

/-- The piece after a piece. -/
def Phase.next : Phase → Phase
  | .dequeue => .closeReaders
  | .closeReaders => .write
  | .write => .read
  | .read => .openReaders
  | .openReaders => .wake
  | .wake => .unlock
  | .unlock => .unlock

/-- The effect of a piece on the region, the key and the frame. Waking changes none of them. -/
def Phase.run (self : Tid) : Phase → Cs → Cs
  | .dequeue, s => Runtime.dequeue s
  | .closeReaders, s => Runtime.closeReaders s
  | .write, s => writePart self s
  | .read, s => readPart self s
  | .openReaders, s => Runtime.openReaders s
  | .wake, s => s
  | .unlock, s => s

/-- One pass of the critical section: the pieces in program order. -/
def pass (self : Tid) (s : Cs) : Cs :=
  openReaders (readPart self (writePart self (closeReaders (dequeue s))))

/-! ## What the pieces leave alone

The counts and the writer word are changed by the write part and the read part only; the queue
counters by those two and `dequeue`. -/

section Fields

variable (self : Tid) (s : Cs)

/-- Leaving a queue changes the queue counters and the wait flags only. -/
@[simp] theorem dequeue_frame :
    (dequeue s).caps = s.caps ∧ (dequeue s).h.writerCv = s.h.writerCv ∧
      (dequeue s).h.rdCnt = s.h.rdCnt ∧ (dequeue s).h.rcnt = s.h.rcnt ∧
      (dequeue s).h.lock = s.h.lock ∧ (dequeue s).call.writeLock = s.call.writeLock ∧
      (dequeue s).call.readLock = s.call.readLock := by
  rw [dequeue]
  split_ifs <;> simp

@[simp] theorem dequeue_flags :
    (dequeue s).call.waitWq = false ∧ (dequeue s).call.waitRq = false := by
  rw [dequeue]
  split_ifs <;> simp_all

/-- A frame with the writer flag leaves `writer_q`, one with the reader flag alone `reader_q`. -/
theorem dequeue_queues :
    (dequeue s).h.writerQ = s.h.writerQ - s.call.waitWq.toInt ∧
      (dequeue s).h.readerQ = s.h.readerQ - (!s.call.waitWq && s.call.waitRq).toInt := by
  rw [dequeue]
  split_ifs <;> simp_all

/-- Closing the readers' word changes that word only. -/
@[simp] theorem closeReaders_frame :
    (closeReaders s).caps = s.caps ∧ (closeReaders s).call = s.call ∧
      (closeReaders s).h.writerCv = s.h.writerCv ∧ (closeReaders s).h.rdCnt = s.h.rdCnt ∧
      (closeReaders s).h.rcnt = s.h.rcnt ∧ (closeReaders s).h.lock = s.h.lock ∧
      (closeReaders s).h.writerQ = s.h.writerQ ∧ (closeReaders s).h.readerQ = s.h.readerQ := by
  rw [closeReaders]
  split_ifs <;> simp

/-- Opening the readers' word changes that word only. -/
@[simp] theorem openReaders_frame :
    (openReaders s).caps = s.caps ∧ (openReaders s).call = s.call ∧
      (openReaders s).h.writerCv = s.h.writerCv ∧ (openReaders s).h.rdCnt = s.h.rdCnt ∧
      (openReaders s).h.rcnt = s.h.rcnt ∧ (openReaders s).h.lock = s.h.lock ∧
      (openReaders s).h.writerQ = s.h.writerQ ∧ (openReaders s).h.readerQ = s.h.readerQ := by
  rw [openReaders]
  split_ifs <;> simp

/-- The write part leaves the read side and the arguments alone. -/
@[simp] theorem writePart_frame :
    (writePart self s).caps.rdCnt = s.caps.rdCnt ∧ (writePart self s).caps.rcnt = s.caps.rcnt ∧
      (writePart self s).h.rdCnt = s.h.rdCnt ∧ (writePart self s).h.rcnt = s.h.rcnt ∧
      (writePart self s).h.lock = s.h.lock ∧ (writePart self s).h.readerQ = s.h.readerQ ∧
      (writePart self s).call.waitRq = s.call.waitRq ∧
      (writePart self s).call.writeLock = s.call.writeLock ∧
      (writePart self s).call.readLock = s.call.readLock := by
  rw [writePart]
  split_ifs <;> simp

theorem writePart_writerQ (hw : s.call.waitWq = false) :
    (writePart self s).h.writerQ = s.h.writerQ + (writePart self s).call.waitWq.toInt := by
  rw [writePart]
  split_ifs <;> simp_all

/-- The read part leaves the write side and the arguments alone. -/
@[simp] theorem readPart_frame :
    (readPart self s).caps.wrCnt = s.caps.wrCnt ∧ (readPart self s).caps.rcnt = s.caps.rcnt ∧
      (readPart self s).h.writerCv = s.h.writerCv ∧ (readPart self s).h.rcnt = s.h.rcnt ∧
      (readPart self s).h.lock = s.h.lock ∧ (readPart self s).h.writerQ = s.h.writerQ ∧
      (readPart self s).call.waitWq = s.call.waitWq ∧
      (readPart self s).call.writeLock = s.call.writeLock ∧
      (readPart self s).call.readLock = s.call.readLock := by
  rw [readPart]
  split_ifs <;> simp

theorem readPart_readerQ (hw : s.call.waitRq = false) :
    (readPart self s).h.readerQ = s.h.readerQ + (readPart self s).call.waitRq.toInt := by
  rw [readPart]
  split_ifs <;> simp_all

end Fields

end ConcurrentCyclone.Runtime
