import ConcurrentCyclone.Runtime.LockMachine

/-!
# What one call of `__xregion_lockop` does to its caller's counts

A call is meant to change the caller's write count by `write_lock` and its read count by
`read_lock`, once, however often it goes round the acquire loop. `Entry` records the counts and the
arguments at the start of a call and `Entry.At` says, for every place of the code, what the counts
are in terms of them. It is kept by every action of every thread (`Entry.At.step`) as long as the
results fit in a `short` and a call with two arguments meets no obstacle for either of them when it
enters the critical section (`Undivided`). Without the second condition a retry applies one of the
two arguments again.
-/

set_option autoImplicit false

namespace ConcurrentCyclone.Runtime

open Transition

/-! ## Calls that are not divided -/

/-- The write part does not queue. -/
def writeFree (x : Cs) : Prop := x.caps.wrCnt ≠ 0 ∨ canlock x = true

/-- The read part does not queue. -/
def readFree (self : Tid) (x : Cs) : Prop :=
  x.caps.rdCnt ≠ 0 ∨ x.h.writerCv = self ∨ x.h.writerCv = 0

/-- The call has one argument, or both of its parts can proceed. -/
def Undivided (self : Tid) (x : Cs) : Prop :=
  x.call.writeLock = 0 ∨ x.call.readLock = 0 ∨ (writeFree x ∧ readFree self x)

/-- The counts of the caller's key at the start of a call, and the arguments of the call. -/
structure Entry where
  wr : Int
  rd : Int
  writeLock : Int
  readLock : Int

/-- The start of a call on a key with the counts `l`. -/
def entry (l : LocalCaps) (writeLock readLock : Int) : Entry :=
  ⟨l.wrCnt.toInt, l.rdCnt.toInt, writeLock, readLock⟩

namespace Entry

/-- The counts the call asks for are non-negative and fit in a `short`. -/
structure Fits (k : Entry) : Prop where
  wr_nonneg : 0 ≤ k.wr + k.writeLock
  wr_lt : k.wr + k.writeLock < 32768
  rd_nonneg : 0 ≤ k.rd + k.readLock
  rd_lt : k.rd + k.readLock < 32768

instance (k : Entry) : Decidable k.Fits :=
  decidable_of_iff (0 ≤ k.wr + k.writeLock ∧ k.wr + k.writeLock < 32768 ∧
    0 ≤ k.rd + k.readLock ∧ k.rd + k.readLock < 32768)
    ⟨fun h => ⟨h.1, h.2.1, h.2.2.1, h.2.2.2⟩, fun h => ⟨h.1, h.2, h.3, h.4⟩⟩

/-- The frame holds the arguments of the call. -/
structure Args (k : Entry) (c : Call) : Prop where
  writeLock : c.writeLock = k.writeLock
  readLock : c.readLock = k.readLock

/-- Nothing has changed, and at most one part waits. -/
structure Before (k : Entry) (l : LocalCaps) (c : Call) : Prop extends Args k c where
  wr : l.wrCnt.toInt = k.wr
  rd : l.rdCnt.toInt = k.rd
  single : ¬ (c.waitWq = true ∧ c.waitRq = true)

/-- Both counts have changed as asked, and nothing waits. -/
structure After (k : Entry) (l : LocalCaps) (c : Call) : Prop extends Args k c where
  wr : l.wrCnt.toInt = k.wr + k.writeLock
  rd : l.rdCnt.toInt = k.rd + k.readLock
  waitWq : c.waitWq = false
  waitRq : c.waitRq = false

/-- Between the two parts: the write part is done, or it waits and there is no read part. -/
structure Between (k : Entry) (tid : Tid) (x : Cs) : Prop extends Args k x.call where
  rd : x.caps.rdCnt.toInt = k.rd
  done : x.call.waitWq = false → x.caps.wrCnt.toInt = k.wr + k.writeLock ∧
    (k.writeLock = 0 ∨ k.readLock = 0 ∨ readFree tid x)
  waits : x.call.waitWq = true → x.caps.wrCnt.toInt = k.wr ∧ k.readLock = 0

/-- The counts at the pieces of the critical section. -/
def AtPhase (k : Entry) (self : Tid) (x : Cs) : Phase → Prop
  | .dequeue | .closeReaders | .write => k.Before x.caps x.call ∧ Undivided self x
  | .read => k.Between self x
  | .openReaders | .wake | .unlock =>
    k.After x.caps x.call ∨
      (k.Before x.caps x.call ∧ (x.call.waitWq = true ∨ x.call.waitRq = true))

/-- The counts at the places of the code. -/
def At (k : Entry) (self : Tid) (h : RegionCaps) (l : LocalCaps) : Pc → Prop
  | .idle => True
  | .enter c | .readCv c | .futexWait c _ | .asleep c => k.Before l c
  | .crit ph c => k.AtPhase self ⟨h, l, c⟩ ph
  | .leave c => k.After l c

/-! ## The pieces of the critical section -/

variable {k : Entry} {self : Tid} {x : Cs}

theorem Before.dequeue (hb : k.Before x.caps x.call) :
    k.Before (Runtime.dequeue x).caps (Runtime.dequeue x).call where
  writeLock := by simp [hb.writeLock]
  readLock := by simp [hb.readLock]
  wr := by simp [hb.wr]
  rd := by simp [hb.rd]
  single := by simp

theorem undivided_dequeue (hu : Undivided self x) : Undivided self (Runtime.dequeue x) := by
  simpa [Undivided, writeFree, readFree, canlock] using hu

theorem undivided_closeReaders (hu : Undivided self x) :
    Undivided self (Runtime.closeReaders x) := by
  simpa [Undivided, writeFree, readFree, canlock] using hu

/-- A write part that does not queue stores the sum and does not hinder the read part. -/
theorem writePart_of_free (self : Tid) (hw : x.call.writeLock ≠ 0) (hfree : writeFree x)
    (hflag : x.call.waitWq = false) (h0 : 0 ≤ x.caps.wrCnt.toInt + x.call.writeLock)
    (h1 : x.caps.wrCnt.toInt + x.call.writeLock < 32768) :
    (writePart self x).caps.wrCnt.toInt = x.caps.wrCnt.toInt + x.call.writeLock ∧
      (writePart self x).call.waitWq = false ∧
      (readFree self x → readFree self (writePart self x)) := by
  have hsum := toInt_addShort_of_range (x := x.caps.wrCnt) (d := x.call.writeLock) (by omega) h1
  rw [writePart, if_neg hw]
  by_cases hown : x.caps.wrCnt ≠ 0
  · -- the caller has a write count: the writer word is cleared or stays, and both leave
    -- the read part free
    rw [if_pos hown]
    refine ⟨hsum, hflag, ?_⟩
    rintro (hrd | hself | hzero)
    · exact .inl hrd
    · right
      dsimp only
      split_ifs
      · exact .inr rfl
      · exact .inl hself
    · right; right
      dsimp only
      split_ifs
      · rfl
      · exact hzero
  · have hcan : canlock x = true := hfree.resolve_left hown
    -- the caller becomes the recorded writer
    rw [if_neg hown, if_pos hcan]
    exact ⟨hsum, hflag, fun _ => .inr (.inl rfl)⟩

/-- A write part that queues changes no count. -/
theorem writePart_of_busy (self : Tid) (hw : x.call.writeLock ≠ 0) (hbusy : ¬ writeFree x) :
    (writePart self x).caps = x.caps ∧ (writePart self x).call.waitWq = true := by
  have hown : ¬ x.caps.wrCnt ≠ 0 := fun h => hbusy (.inl h)
  have hcan : ¬ canlock x = true := fun h => hbusy (.inr h)
  rw [writePart, if_neg hw, if_neg hown, if_neg hcan]
  exact ⟨rfl, rfl⟩

theorem writePart_of_zero (hw : x.call.writeLock = 0) : writePart self x = x := by
  rw [writePart, if_pos hw]

/-- A read part that does not queue stores the sum. -/
theorem readPart_of_free (hr : x.call.readLock ≠ 0) (hfree : readFree self x)
    (hflag : x.call.waitRq = false) (h0 : 0 ≤ x.caps.rdCnt.toInt + x.call.readLock)
    (h1 : x.caps.rdCnt.toInt + x.call.readLock < 32768) :
    (readPart self x).caps.rdCnt.toInt = x.caps.rdCnt.toInt + x.call.readLock ∧
      (readPart self x).call.waitRq = false := by
  have hsum := toInt_addShort_of_range (x := x.caps.rdCnt) (d := x.call.readLock) (by omega) h1
  rw [readPart, if_neg hr]
  split_ifs with hown hbusy
  · exact ⟨hsum, hflag⟩
  · rcases hfree.resolve_left hown with hself | hzero
    · exact absurd hself hbusy.1
    · exact absurd hzero hbusy.2
  · exact ⟨hsum, hflag⟩

/-- A read part that queues changes no count. -/
theorem readPart_of_busy (hr : x.call.readLock ≠ 0) (hbusy : ¬ readFree self x) :
    (readPart self x).caps = x.caps ∧ (readPart self x).call.waitRq = true := by
  have hown : ¬ x.caps.rdCnt ≠ 0 := fun h => hbusy (.inl h)
  have hother : x.h.writerCv ≠ self ∧ x.h.writerCv ≠ 0 :=
    ⟨fun h => hbusy (.inr (.inl h)), fun h => hbusy (.inr (.inr h))⟩
  rw [readPart, if_neg hr, if_neg hown, if_pos hother]
  exact ⟨rfl, rfl⟩

theorem readPart_of_zero (hr : x.call.readLock = 0) : readPart self x = x := by
  rw [readPart, if_pos hr]

/-- From the start of the write part to the start of the read part. -/
theorem between_writePart (hf : k.Fits) (hb : k.Before x.caps x.call) (hu : Undivided self x)
    (hflag : x.call.waitWq = false) : k.Between self (writePart self x) := by
  have hargs : k.Args (writePart self x).call :=
    ⟨by simp [hb.writeLock], by simp [hb.readLock]⟩
  have hrd : (writePart self x).caps.rdCnt.toInt = k.rd := by simp [hb.rd]
  have hundivided : k.writeLock = 0 ∨ k.readLock = 0 ∨ (writeFree x ∧ readFree self x) := by
    rw [← hb.writeLock, ← hb.readLock]
    exact hu
  by_cases hzero : x.call.writeLock = 0
  · rw [writePart_of_zero hzero]
    -- no write part at all
    have hk : k.writeLock = 0 := by rw [← hb.writeLock, hzero]
    exact ⟨hb.toArgs, hb.rd, fun _ => ⟨by rw [hb.wr, hk, add_zero], .inl hk⟩,
      fun hwait => nomatch hflag.symm.trans hwait⟩
  · by_cases hfree : writeFree x
    · have hnonneg := hf.wr_nonneg
      have hlt := hf.wr_lt
      rw [← hb.wr, ← hb.writeLock] at hnonneg hlt
      obtain ⟨hsum, hwait, hread⟩ := writePart_of_free self hzero hfree hflag hnonneg hlt
      refine ⟨hargs, hrd, fun _ => ⟨by rw [hsum, hb.wr, hb.writeLock], ?_⟩,
        fun hwait' => nomatch hwait.symm.trans hwait'⟩
      exact hundivided.imp_right fun h => h.imp_right fun h => hread h.2
    · obtain ⟨hcaps, hwait⟩ := writePart_of_busy self hzero hfree
      refine ⟨hargs, hrd, fun hwait' => (nomatch hwait.symm.trans hwait'),
        fun _ => ⟨by rw [hcaps, hb.wr], ?_⟩⟩
      -- a queued write part leaves only the one-argument case
      rcases hundivided with hw | hr | hboth
      · exact absurd (hb.writeLock.trans hw) hzero
      · exact hr
      · exact absurd hboth.1 hfree

/-- From the start of the read part to its end. -/
theorem after_or_before_readPart (hf : k.Fits) (hb : k.Between self x)
    (hflag : x.call.waitRq = false) : k.After (readPart self x).caps (readPart self x).call ∨
      (k.Before (readPart self x).caps (readPart self x).call ∧
        ((readPart self x).call.waitWq = true ∨ (readPart self x).call.waitRq = true)) := by
  have hargs : k.Args (readPart self x).call :=
    ⟨by simp [hb.writeLock], by simp [hb.readLock]⟩
  cases hwait : x.call.waitWq with
  | true =>
    -- the write part has queued, so there is no read part
    obtain ⟨hwr, hr⟩ := hb.waits hwait
    rw [readPart_of_zero (hb.readLock.trans hr)]
    refine .inr ⟨⟨hb.toArgs, hwr, hb.rd, ?_⟩, .inl hwait⟩
    rw [hflag]
    exact fun h => nomatch h.2
  | false =>
    -- the write part is done
    obtain ⟨hwr, hfree⟩ := hb.done hwait
    by_cases hzero : x.call.readLock = 0
    · rw [readPart_of_zero hzero]
      have hk : k.readLock = 0 := by rw [← hb.readLock, hzero]
      exact .inl ⟨hb.toArgs, hwr, by rw [hb.rd, hk, add_zero], hwait, hflag⟩
    · by_cases hread : readFree self x
      · have hnonneg := hf.rd_nonneg
        have hlt := hf.rd_lt
        rw [← hb.rd, ← hb.readLock] at hnonneg hlt
        obtain ⟨hsum, hwait'⟩ := readPart_of_free hzero hread hflag hnonneg hlt
        exact .inl
          ⟨hargs, by simp [hwr], by rw [hsum, hb.rd, hb.readLock], by simp [hwait], hwait'⟩
      · -- a queued read part leaves only the one-argument case
        have hw : k.writeLock = 0 := by
          rcases hfree with hw | hr | hfree
          · exact hw
          · exact absurd (hb.readLock.trans hr) hzero
          · exact absurd hfree hread
        obtain ⟨hcaps, hwait'⟩ := readPart_of_busy hzero hread
        exact .inr
          ⟨⟨hargs, by simp [hwr, hw], by rw [hcaps, hb.rd], by simp [hwait]⟩, .inr hwait'⟩

/-- A piece of the critical section moves the caller to the next phase. -/
theorem AtPhase.run {ph : Phase} (hf : k.Fits) (hreg : (Pc.crit ph x.call).Regular)
    (h : k.AtPhase self x ph) : k.AtPhase self (ph.run self x) ph.next := by
  cases ph with
  | dequeue => exact ⟨h.1.dequeue, undivided_dequeue h.2⟩
  | closeReaders =>
    refine ⟨?_, undivided_closeReaders h.2⟩
    simpa [Phase.run] using h.1
  | write => exact between_writePart hf h.1 h.2 hreg.1
  | read => exact after_or_before_readPart hf h hreg
  | openReaders => simpa [AtPhase, Phase.run, Phase.next] using h
  | wake | unlock => exact h

/-! ## The places of the code -/

variable {h : RegionCaps} {l : LocalCaps} {p : Pc}

theorem At.woken (hat : k.At self h l p) : k.At self h l p.woken := by
  cases p <;> exact hat

/-- Outside the critical section the words of the region do not matter. -/
theorem At.congr_region {h' : RegionCaps}
    (hh : p.inside = true → h' = h) (hat : k.At self h l p) : k.At self h' l p := by
  cases p with
  | crit ph c =>
    rw [hh rfl]
    exact hat
  | _ => exact hat

variable {T : Finset Tid} {s s' : Sys} {a : Act}

/-- The condition on the actions of a run: a call with two arguments finds both of its parts free
when it enters the critical section. -/
def Enters (s : Sys) : Act → Prop
  | .acquire t => ∀ c, s.pc t = .enter c → Undivided t (s.cs t c)
  | _ => True

/-- The acting thread, within a call. -/
theorem At.actor (hp : Placed T s) (h : Sys.Move T s a s') (hf : k.Fits) (hok : Enters s a)
    (hcall : ∀ w r, a ≠ .call a.tid w r) (hat : k.At a.tid s.h (s.caps a.tid) (s.pc a.tid)) :
    k.At a.tid s'.h (s'.caps a.tid) (s'.pc a.tid) := by
  cases h with
  | @call t w r => exact absurd rfl (hcall w r)
  | @acquire t c hpc =>
    simp only [Act.tid, hpc] at hat
    rw [Act.tid, Sys.goto_pc_self]
    exact ⟨hat, hok c hpc⟩
  | @piece t ph c hpc =>
    have hreg := hp.regular t
    simp only [Act.tid, hpc] at hat hreg
    simp only [Act.tid, Sys.put_caps_self, Sys.put_pc_self]
    exact AtPhase.run hf hreg hat
  | @wake _ _ _ _ hpc | @spurious _ _ hpc =>
    simp only [Act.tid, hpc] at hat
    rw [Act.tid, Sys.goto_pc_self]
    exact hat
  | @unlock t c hpc =>
    simp only [Act.tid, hpc] at hat
    rw [Act.tid, Sys.goto_pc_self]
    rcases hat with hafter | ⟨hbefore, hwait⟩
    · -- a finished call leaves the loop, a waiting one goes round
      have hw : c.waitWq = false := hafter.waitWq
      have hr : c.waitRq = false := hafter.waitRq
      rw [if_neg (by simp [hw, hr])]
      exact hafter
    · rw [if_pos (by simpa using hwait)]
      exact hbefore
  | @readCv t c hpc | @futexWait t c v hpc =>
    simp only [Act.tid, hpc] at hat
    rw [Act.tid, Sys.goto_pc_self]
    split_ifs <;> exact hat
  | leave =>
    rw [Act.tid, Sys.goto_pc_self]
    trivial

/-- Every action keeps the account of a call in progress. -/
theorem At.step (hp : Placed T s) (hs : Sys.Step T s a s') (hf : k.Fits) (hok : Enters s a)
    {u : Tid} (hcall : ∀ w r, a ≠ .call u w r) (hat : k.At u s.h (s.caps u) (s.pc u)) :
    k.At u s'.h (s'.caps u) (s'.pc u) := by
  have h := Sys.move_of_step hs
  by_cases hua : u = a.tid
  · subst hua
    exact At.actor hp h hf hok hcall hat
  · obtain ⟨hcaps, hpc⟩ := h.other hua
    -- the region has not changed if the thread is inside, and does not matter if it is not
    have hat' : k.At u s'.h (s.caps u) (s.pc u) :=
      At.congr_region (fun hin => hp.region_of_inside h hua hin) hat
    rw [hcaps]
    rcases hpc with hpc | hpc
    · rwa [hpc]
    · rw [hpc]
      exact hat'.woken

/-- A call in progress whose account starts with non-negative counts has non-negative counts. -/
theorem At.nonneg (hf : k.Fits) (hwr : 0 ≤ k.wr)
    (hrd : 0 ≤ k.rd) (hp : p ≠ .idle) (hat : k.At self h l p) :
    0 ≤ l.wrCnt.toInt ∧ 0 ≤ l.rdCnt.toInt := by
  have hbefore : ∀ {c}, k.Before l c → 0 ≤ l.wrCnt.toInt ∧ 0 ≤ l.rdCnt.toInt := by
    intro c hb
    rw [hb.wr, hb.rd]
    exact ⟨hwr, hrd⟩
  have hafter : ∀ {c}, k.After l c → 0 ≤ l.wrCnt.toInt ∧ 0 ≤ l.rdCnt.toInt := by
    intro c ha
    rw [ha.wr, ha.rd]
    exact ⟨hf.wr_nonneg, hf.rd_nonneg⟩
  cases p with
  | idle => exact absurd rfl hp
  | enter c | readCv c | futexWait c v | asleep c => exact hbefore hat
  | leave c => exact hafter hat
  | crit ph c =>
    cases ph with
    | dequeue | closeReaders | write => exact hbefore hat.1
    | read =>
      -- between the parts: the write count is the new or the old one
      obtain ⟨_, hrd', hdone, hwaits⟩ := hat
      refine ⟨?_, hrd'.symm ▸ hrd⟩
      cases hwait : c.waitWq with
      | false => exact (hdone hwait).1.symm ▸ hf.wr_nonneg
      | true => exact (hwaits hwait).1.symm ▸ hwr
    | openReaders | wake | unlock => exact hat.elim hafter fun h => hbefore h.1

end Entry

/-! ## Runs -/

/-- The condition on the actions of a run: a call starts with the property `P`, and a call with two
arguments finds both of its parts free when it enters the critical section. -/
def Admits (P : Entry → Prop) (s : Sys) (a : Act) : Prop :=
  (∀ t w r, a = .call t w r → P (entry (s.caps t) w r)) ∧ Entry.Enters s a

/-- Every call in progress is accounted for. -/
structure Accounted (P : Entry → Prop) (T : Finset Tid) (s : Sys) : Prop where
  placed : Placed T s
  queues : Queues T s
  nonneg : ∀ t, 0 ≤ (s.caps t).wrCnt.toInt ∧ 0 ≤ (s.caps t).rdCnt.toInt
  calls : ∀ t, s.pc t ≠ .idle →
    ∃ k : Entry, P k ∧ 0 ≤ k.wr ∧ 0 ≤ k.rd ∧ k.At t s.h (s.caps t) (s.pc t)

theorem Created.accounted {P : Entry → Prop} {T : Finset Tid} {tid : Tid}
    {wrPar rdPar : BitVec 16} {s : Sys} (h : Created T tid wrPar rdPar s)
    (hwr : 0 ≤ (newLocalCaps wrPar rdPar).wrCnt.toInt) (hrd : 0 ≤ rdPar.toInt) :
    Accounted P T s where
  placed := h.placed
  queues := h.queues
  nonneg t := by
    by_cases ht : t ∈ T
    · by_cases htid : t = tid
      · rw [htid, h.own]
        exact ⟨hwr, hrd⟩
      · simp [h.others t ht htid]
    · simp [h.outside t ht]
  calls t ht := absurd (h.idle t) ht

namespace Accounted

variable {P : Entry → Prop} {T : Finset Tid} {s s' : Sys} {a : Act}

/-- A thread that is in no call and does not call stays so, with its counts. -/
theorem idle_of_idle (hs : Sys.Step T s a s') {u : Tid} (hcall : ∀ w r, a ≠ .call u w r)
    (hidle : s.pc u = .idle) : s'.pc u = .idle ∧ s'.caps u = s.caps u := by
  have h := Sys.move_of_step hs
  by_cases hua : u = a.tid
  · subst hua
    cases h with
    | @call t w r => exact absurd rfl (hcall w r)
    | acquire hpc | piece hpc | wake hpc | unlock hpc | readCv hpc | futexWait hpc | spurious hpc
    | leave hpc =>
      rw [Act.tid, hpc] at hidle
      cases hidle
  · obtain ⟨hcaps, hpc | hpc⟩ := h.other hua
    · exact ⟨by rw [hpc, hidle], hcaps⟩
    · exact ⟨by rw [hpc, Pc.woken_eq_idle, hidle], hcaps⟩

/-- The account of a call at its start. -/
theorem at_call {t : Tid} {w r : Int} (hs : Sys.Step T s (.call t w r) s') :
    (entry (s.caps t) w r).At t s'.h (s'.caps t) (s'.pc t) := by
  cases Sys.move_of_step hs with
  | call =>
    rw [Sys.goto_pc_self]
    exact ⟨⟨rfl, rfl⟩, rfl, rfl, by simp [newCall]⟩

section

variable (hP : ∀ k, P k → k.Fits)

include hP

section

variable (hi : Accounted P T s) (hok : Admits P s a) (hs : Sys.Step T s a s')

include hi hok hs

theorem calls_step (u : Tid) (hu : s'.pc u ≠ .idle) :
    ∃ k : Entry, P k ∧ 0 ≤ k.wr ∧ 0 ≤ k.rd ∧ k.At u s'.h (s'.caps u) (s'.pc u) := by
  by_cases hcall : ∃ w r, a = .call u w r
  · -- the call starts with this action
    obtain ⟨w, r, rfl⟩ := hcall
    obtain ⟨hwr, hrd⟩ := hi.nonneg u
    exact ⟨entry (s.caps u) w r, hok.1 u w r rfl, hwr, hrd, at_call hs⟩
  · have hno : ∀ w r, a ≠ .call u w r := fun w r e => hcall ⟨w, r, e⟩
    -- the call was in progress before
    have hbusy : s.pc u ≠ .idle := fun e => hu (idle_of_idle hs hno e).1
    obtain ⟨k, hk, hwr, hrd, hat⟩ := hi.calls u hbusy
    exact ⟨k, hk, hwr, hrd, hat.step hi.placed hs (hP k hk) hok.2 hno⟩

/-- Every admitted action keeps the accounts. -/
theorem step : Accounted P T s' := by
  have hcalls := calls_step hP hi hok hs
  refine ⟨hi.placed.step hs, hi.queues.step hi.placed ?_ hs, ?_, hcalls⟩
  · intro t c hpc
    -- a call that is accounted for has at most one flag set
    obtain ⟨k, _, _, _, hat⟩ := hi.calls t (by simp [hpc])
    rw [hpc] at hat
    exact hat.1.single
  · intro u
    by_cases hidle : s'.pc u = .idle
    · -- the thread was idle before, or it has just passed the last assertions
      have h := Sys.move_of_step hs
      by_cases hua : u = a.tid
      · subst hua
        cases h with
        | leave _ hw hr => exact ⟨hw, hr⟩
        | piece | call | acquire | wake | spurious => simp [Act.tid] at hidle
        | unlock | readCv | futexWait =>
          rw [Act.tid, Sys.goto_pc_self] at hidle
          split_ifs at hidle
      · rw [(h.other hua).1]
        exact hi.nonneg u
    · obtain ⟨k, hk, hwr, hrd, hat⟩ := hcalls u hidle
      exact hat.nonneg (hP k hk) hwr hrd hidle

end

/-- Every state of an admitted run is accounted for. -/
theorem reach {s₀ : Sys} (h0 : Accounted P T s₀)
    (h : Reach (Sys.Step T) (Admits P) s₀ s) : Accounted P T s :=
  h.invariant (fun _ _ _ hok hs hi => hi.step hP hok hs) h0

end

end Accounted

/-- What `__xregion_lockop` owes its callers in the runs from `s₀` that `ok` admits. -/
structure LockopExact (T : Finset Tid) (ok : Sys → Act → Prop) (s₀ : Sys) : Prop where
  /-- The counts are never negative. -/
  nonneg : ∀ s, Reach (Sys.Step T) ok s₀ s →
    ∀ t, 0 ≤ (s.caps t).wrCnt.toInt ∧ 0 ≤ (s.caps t).rdCnt.toInt
  /-- The queue counters count the waiting threads, and those only. -/
  queues : ∀ s, Reach (Sys.Step T) ok s₀ s →
    s.h.writerQ = tally T s.pc Pc.queuedWriter ∧ s.h.readerQ = tally T s.pc Pc.queuedReader
  /-- A call that starts in `s` and returns in `s₃` has changed the counts by its arguments, and
  the caller is in no queue. -/
  exact : ∀ s s₁ s₂ s₃ t w r, Reach (Sys.Step T) ok s₀ s → ok s (.call t w r) →
    Sys.Step T s (.call t w r) s₁ →
    Reach (Sys.Step T) (fun s a => ok s a ∧ ∀ w r, a ≠ .call t w r) s₁ s₂ →
    Sys.Step T s₂ (.leave t) s₃ →
    (s₃.caps t).wrCnt.toInt = (s.caps t).wrCnt.toInt + w ∧
      (s₃.caps t).rdCnt.toInt = (s.caps t).rdCnt.toInt + r ∧
      (s₃.pc t).queuedWriter = false ∧ (s₃.pc t).queuedReader = false

/-- The counts at the return of a call. -/
theorem Accounted.return_counts {k : Entry} {T : Finset Tid} {s s' : Sys} {t : Tid}
    (hs : Sys.Step T s (.leave t) s') (hat : k.At t s.h (s.caps t) (s.pc t)) :
    (s'.caps t).wrCnt.toInt = k.wr + k.writeLock ∧
      (s'.caps t).rdCnt.toInt = k.rd + k.readLock ∧ s'.pc t = .idle := by
  cases Sys.move_of_step hs with
  | leave hpc =>
    rw [hpc] at hat
    exact ⟨hat.wr, hat.rd, Sys.goto_pc_self ..⟩

/-- In the runs in which every call asks for counts that fit in a `short`, and a call with two
arguments finds both of its parts free whenever it enters the critical section, a call changes the
counts by exactly its arguments. -/
theorem lockop_exact_of_admitted {T : Finset Tid} {tid : Tid} {wrPar rdPar : BitVec 16} {s₀ : Sys}
    (h₀ : Created T tid wrPar rdPar s₀) (hwr : 0 ≤ (newLocalCaps wrPar rdPar).wrCnt.toInt)
    (hrd : 0 ≤ rdPar.toInt) : LockopExact T (Admits Entry.Fits) s₀ := by
  have hacc : ∀ {s}, Reach (Sys.Step T) (Admits Entry.Fits) s₀ s → Accounted Entry.Fits T s :=
    fun hr => Accounted.reach (fun _ hk => hk) (h₀.accounted hwr hrd) hr
  refine ⟨fun s hr => (hacc hr).nonneg, fun s hr => ?_, ?_⟩
  · exact ⟨(hacc hr).queues.writers, (hacc hr).queues.readers⟩
  · intro s s₁ s₂ s₃ t w r hr hok hcall hrun hleave
    have hfits : (entry (s.caps t) w r).Fits := hok.1 t w r rfl
    -- the account of this call, carried along the run until it returns
    have hinv : Accounted Entry.Fits T s₂ ∧
        (entry (s.caps t) w r).At t s₂.h (s₂.caps t) (s₂.pc t) := by
      refine hrun.invariant (I := fun x => Accounted Entry.Fits T x ∧
        (entry (s.caps t) w r).At t x.h (x.caps t) (x.pc t)) ?_ ?_
      · intro x a x' ha hs hx
        exact ⟨hx.1.step (fun _ hk => hk) ha.1 hs,
          hx.2.step hx.1.placed hs hfits ha.1.2 ha.2⟩
      · exact ⟨(hacc hr).step (fun _ hk => hk) hok hcall, Accounted.at_call hcall⟩
    obtain ⟨hw, hr, hidle⟩ := Accounted.return_counts hleave hinv.2
    rw [hidle]
    exact ⟨hw, hr, rfl, rfl⟩

theorem lockop_exact_two_threads : LockopExact {1, 3} (Admits Entry.Fits) (created {1, 3} 1 0 0) :=
  lockop_exact_of_admitted (created_created (by decide) (by decide) 0 0) (by decide) (by decide)

/-- Thread `1` holds a read count while thread `3` asks for a write and a read count at once: the
write part of `3` queues twice, and each time its read part is applied. -/
def divided : List Act :=
  passActs 3 ++ [.readCv 3] ++ passActs 3 ++ [.call 1 0 (-1)] ++ passActs 1 ++
    [.leave 1, .readCv 3] ++ passActs 3

/-- Thread `1` gives up the write count it got with the region and takes a read count. -/
def becomeReader : List Act :=
  [.call 1 (-1) 0] ++ passActs 1 ++ [.leave 1, .call 1 0 1] ++ passActs 1 ++ [.leave 1]

/-- A call with two arguments that has to wait changes the read count three times. -/
theorem not_lockop_exact_divided : Created {1, 3} 1 0 0 (created {1, 3} 1 0 0) ∧
      ¬ LockopExact {1, 3} (fun _ _ => True) (created {1, 3} 1 0 0) := by
  refine ⟨created_created (by decide) (by decide) 0 0, fun hexact => ?_⟩
  have hrun : ((Sys.run {1, 3} (created {1, 3} 1 0 0) becomeReader).bind fun s =>
      (s.next {1, 3} (.call 3 1 1)).bind fun s₁ => (Sys.run {1, 3} s₁ divided).bind fun s₂ =>
        (s₂.next {1, 3} (.leave 3)).map fun s₃ =>
          ((s.caps 3).rdCnt.toInt, (s₃.caps 3).rdCnt.toInt)) = some (0, 3) := by
    decide +kernel
  simp only [Option.bind_eq_some_iff, Option.map_eq_some_iff] at hrun
  obtain ⟨s, hs, s₁, hcall, s₂, hmid, s₃, hleave, hcounts⟩ := hrun
  have hsame := hexact.exact s s₁ s₂ s₃ 3 1 1 (Sys.reach_of_run (fun _ _ _ => trivial) hs)
    trivial hcall (Sys.reach_of_run (by simp [divided, passActs]) hmid) hleave
  obtain ⟨hbefore, hafter⟩ := Prod.mk.inj hcounts
  omega

end ConcurrentCyclone.Runtime
