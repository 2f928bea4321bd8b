import ConcurrentCyclone.Transition.Fallible
import ConcurrentCyclone.Runtime.LockCalls

/-!
# The key tree of a thread

A thread has a key (`struct _XTreeHandle`) for every region it may use; the keys of sub-regions hang
below the key of their parent in a list of siblings (`sub_keys`, `next_key`). The file has the
operations on the keys of one thread (`lib/runtime_memory.c`): `__xregion_lockop` with its recursion
over the sub-keys, `__xregion_refcnt`, `_xregion_cap_th` and `_new_xregion`.

The operations are run one after the other: one that would have to wait in the acquire loop is
taken at a point of the run where it does not wait. A failed assertion ends the process (`Stop`).
-/

set_option autoImplicit false

namespace ConcurrentCyclone.Runtime

open Function Transition

/-- Region handles (`struct _XRegionHandle *`). -/
abbrev Rid := Nat

/-- A region: its global words, and how often its memory was released. -/
structure Region where
  caps : RegionCaps
  freed : Nat
  deriving DecidableEq

/-- All regions. -/
abbrev Regions := Rid → Region

/-- A list of sibling keys, each with its sub-keys. A key is identified by its region. -/
inductive Keys where
  /-- `NULL`. -/
  | nil
  /-- A key at address `addr`, its sub-keys and its next sibling. -/
  | key (h : Rid) (addr : Int) (caps : LocalCaps) (subKeys nextKey : Keys)
  deriving DecidableEq

/-- Why an operation does not go through. -/
inductive Stop where
  /-- `assert(*rcnt > 0)`. -/
  | refZero
  /-- `assert(*rcnt + rg >= 0)`. -/
  | refBelowZero
  /-- `assert(*g_rcnt > 0)`. -/
  | globalRef
  /-- The assertions on the counts and the arguments at the start of `__xregion_lockop`. -/
  | belowZero
  /-- The assertions on the recorded writer in `__xregion_lockop`. -/
  | writerState
  /-- The assertions on the counts at the end of `__xregion_lockop`. -/
  | exitCount
  /-- The operation has to wait for another thread. -/
  | wait
  /-- The thread has no key for the region (`get_tkey`). -/
  | noKey
  /-- `assert(*rcnt > 0)`, on a key that was given up together with a key above it. -/
  | released
  /-- `errquit("_treecopy: writer_cv")`. -/
  | treecopyWriter
  deriving DecidableEq

/-- The regions of the keys. -/
def Keys.regions : Keys → List Rid
  | .nil => []
  | .key h _ _ sub next => h :: (sub.regions ++ next.regions)

/-- Change the counts of all keys. -/
def Keys.mapCaps (f : LocalCaps → LocalCaps) : Keys → Keys
  | .nil => .nil
  | .key h a l sub next => .key h a (f l) (sub.mapCaps f) (next.mapCaps f)

/-- Every key has the property. -/
def Keys.All (p : Rid → LocalCaps → Prop) : Keys → Prop
  | .nil => True
  | .key h _ l sub next => p h l ∧ sub.All p ∧ next.All p

variable {p : Rid → LocalCaps → Prop} {ks : Keys}

instance Keys.decidableAll [∀ h l, Decidable (p h l)] : (ks : Keys) → Decidable (ks.All p)
  | .nil => inferInstanceAs (Decidable True)
  | .key h _ l sub next =>
    have := sub.decidableAll
    have := next.decidableAll
    inferInstanceAs (Decidable (p h l ∧ _ ∧ _))

variable {q : Rid → LocalCaps → Prop}

theorem Keys.All.imp (himp : ∀ h l, p h l → q h l) (hall : ks.All p) : ks.All q := by
  induction ks with
  | nil => trivial
  | key h a l sub next ihsub ihnext =>
    exact ⟨himp h l hall.1, ihsub hall.2.1, ihnext hall.2.2⟩

theorem Keys.all_of_forall (hp : ∀ h l, p h l) (ks : Keys) : ks.All p := by
  induction ks with
  | nil => trivial
  | key h a l sub next ihsub ihnext => exact ⟨hp h l, ihsub, ihnext⟩

theorem Keys.All.and (hp : ks.All p) (hq : ks.All q) : ks.All fun h l => p h l ∧ q h l := by
  induction ks with
  | nil => trivial
  | key h a l sub next ihsub ihnext =>
    exact ⟨⟨hp.1, hq.1⟩, ihsub hp.2.1 hq.2.1, ihnext hp.2.2 hq.2.2⟩

theorem Keys.all_mapCaps {f : LocalCaps → LocalCaps} :
    (ks.mapCaps f).All p ↔ ks.All fun h l => p h (f l) := by
  induction ks with
  | nil => rfl
  | key h a l sub next ihsub ihnext => simp only [mapCaps, All, ihsub, ihnext]

/-- Write the global words of a region. -/
def setCaps (g : Regions) (h : Rid) (c : RegionCaps) : Regions :=
  update g h { g h with caps := c }

/-! ## `__xregion_lockop` -/

/-- The call on one key, after the calls on its sub-keys. -/
def lockopSelf (self : Tid) (writeLock readLock : Int) (g : Regions) (h : Rid) (l : LocalCaps) :
    Except Stop (Regions × LocalCaps) :=
  -- the assertions at the start, in the order of the source
  if countAssert writeLock readLock l = false then .error .belowZero
  else if writerAssert self (g h).caps l = false then .error .writerState
  else
    let x := pass self ⟨(g h).caps, l, newCall writeLock readLock⟩
    -- the acquire loop would go round
    if x.call.waitWq || x.call.waitRq then .error .wait
    else if writerAssert self x.h x.caps = false then .error .writerState
    else if x.caps.wrCnt.toInt < 0 ∨ x.caps.rdCnt.toInt < 0 then .error .exitCount
    else .ok (setCaps g h x.h, x.caps)

/-- `__xregion_lockop` on a list of siblings: each key after its sub-keys. -/
def lockopKeys (self : Tid) (writeLock readLock : Int) (g : Regions) :
    Keys → Except Stop (Regions × Keys)
  | .nil => .ok (g, .nil)
  | .key h a l sub next =>
    if l.rcnt = 0 then .error .refZero
    else
      (lockopKeys self writeLock readLock g sub).bind fun x =>
        (lockopSelf self writeLock readLock x.1 h l).bind fun y =>
          (lockopKeys self writeLock readLock y.1 next).map fun z =>
            (z.1, .key h a y.2 x.2 z.2)

/-- The counts and the sub-keys of one key. -/
abbrev KeyData := LocalCaps × Keys

/-- `__xregion_lockop`. -/
def lockop (self : Tid) (writeLock readLock : Int) (g : Regions) (h : Rid) (k : KeyData) :
    Except Stop (Regions × KeyData) :=
  if writeLock = 0 ∧ readLock = 0 then .ok (g, k)
  else if k.1.rcnt = 0 then .error .refZero
  else
    (lockopKeys self writeLock readLock g k.2).bind fun x =>
      (lockopSelf self writeLock readLock x.1 h k.1).map fun y => (y.1, (y.2, x.2))

/-! ## `__xregion_refcnt` -/

/-- The end of `__xregion_refcnt` for a key that is given up: the thread leaves the region, and the
last one releases its memory. -/
def dropRef (g : Regions) (h : Rid) : Regions :=
  update g h
    { caps := { (g h).caps with rcnt := (g h).caps.rcnt - 1 }
      freed := if (g h).caps.rcnt = 1 then (g h).freed + 1 else (g h).freed }

/-- Give up a key whose sub-keys are already given up. -/
def releaseSelf (self : Tid) (g : Regions) (h : Rid) (l : LocalCaps) : Except Stop Regions :=
  (lockop self (-(l.wrCnt.toNat : Int)) (-(l.rdCnt.toNat : Int)) g h (l, .nil)).map fun x =>
    dropRef x.1 h

/-- Give up a list of siblings with all their sub-keys. -/
def releaseKeys (self : Tid) (g : Regions) : Keys → Except Stop Regions
  | .nil => .ok g
  | .key h _ l sub next =>
    if l.rcnt = 0 then .error .refZero
    else if (g h).caps.rcnt ≤ 0 then .error .globalRef
    else
      (releaseKeys self g sub).bind fun g₁ =>
        (releaseSelf self g₁ h l).bind fun g₂ => releaseKeys self g₂ next

/-- `__xregion_refcnt`: change the region count, or give up the key and everything below it. -/
def refcnt (self : Tid) (rg : Int) (g : Regions) (h : Rid) (k : KeyData) :
    Except Stop (Regions × Option KeyData) :=
  if k.1.rcnt = 0 then .error .refZero
  else if int32 (k.1.rcnt.toNat + rg) < 0 then .error .refBelowZero
  else if (g h).caps.rcnt ≤ 0 then .error .globalRef
  else if 0 < int32 (k.1.rcnt.toNat + rg) then
    -- the test is made on the `int` sum, the sum is stored in 16 bits
    .ok (g, some ({ k.1 with rcnt := addShort k.1.rcnt rg }, k.2))
  else
    -- the sum is zero: first the sub-keys, then the locks of the key, then the region
    (releaseKeys self g k.2).bind fun g₁ =>
      (releaseSelf self g₁ h k.1).map fun g₂ => (g₂, none)

/-- `_xregion_cap_th`. -/
def capTh (self : Tid) (rgc wc rc : Int) (g : Regions) (h : Rid) (k : KeyData) :
    Except Stop (Regions × Option KeyData) :=
  (refcnt self rgc g h k).bind fun x =>
    match x.2 with
    | none => .ok (x.1, none)
    | some k => (lockop self wc rc x.1 h k).map fun y => (y.1, some y.2)

/-! ## One key among all -/

/-- Apply an operation that may give up the key to the key of region `h`; `none` if there is no such
key (`get_tkey`). -/
def atKey (h : Rid) (f : Regions → KeyData → Except Stop (Regions × Option KeyData))
    (g : Regions) : Keys → Option (Except Stop (Regions × Keys))
  | .nil => none
  | .key h' a l sub next =>
    if h' = h then
      some ((f g (l, sub)).map fun x =>
        (x.1, match x.2 with
          | none => next
          | some k => .key h a k.1 k.2 next))
    else
      -- sub-keys before siblings
      match atKey h f g sub with
      | some r => some (r.map fun x => (x.1, .key h' a l x.2 next))
      | none => (atKey h f g next).map fun r => r.map fun x => (x.1, .key h' a l sub x.2)

/-- The operation, with the stop for a missing key. -/
def onKey (h : Rid) (f : Regions → KeyData → Except Stop (Regions × Option KeyData))
    (g : Regions) (ks : Keys) : Except Stop (Regions × Keys) :=
  (atKey h f g ks).getD (.error .noKey)

/-- `_xregion_cap`. -/
def cap (self : Tid) (h : Rid) (rgc wc rc : Int) (g : Regions) (ks : Keys) :
    Except Stop (Regions × Keys) :=
  onKey h (fun g k => capTh self rgc wc rc g h k) g ks

/-- `_new_xregion`: the new region `z` with its key at `addr`, below the key of the parent. -/
def newXregion (self : Tid) (parent : Option Rid) (z : Rid) (addr : Int) (g : Regions)
    (ks : Keys) : Except Stop (Regions × Keys) :=
  let g' := update g z ⟨newRegionCaps self, 0⟩
  match parent with
  -- a root is put in front of the other roots
  | none => .ok (g', .key z addr (newLocalCaps 0 0) .nil ks)
  | some p =>
    onKey p (fun g k =>
      .ok (g, some (k.1, .key z addr (newLocalCaps k.1.wrCnt k.1.rdCnt) .nil k.2))) g' ks

/-! ## What a call that goes through does to its key and its region -/

/-- The counts after a call. -/
def addLocks (writeLock readLock : Int) (l : LocalCaps) : LocalCaps :=
  { l with wrCnt := addShort l.wrCnt writeLock, rdCnt := addShort l.rdCnt readLock }

@[simp] theorem addLocks_zero (l : LocalCaps) : addLocks 0 0 l = l := by
  simp [addLocks]

section Pass

variable {self : Tid} {x : Cs}

theorem writePart_stored (hflag : (writePart self x).call.waitWq = false) :
    (writePart self x).caps =
      { x.caps with wrCnt := addShort x.caps.wrCnt x.call.writeLock } := by
  unfold writePart at hflag ⊢
  split_ifs at hflag ⊢ with hzero
  · rw [hzero, addShort_zero]
  · rfl
  · rfl

theorem readPart_stored (hflag : (readPart self x).call.waitRq = false) : (readPart self x).caps =
      { x.caps with rdCnt := addShort x.caps.rdCnt x.call.readLock } := by
  unfold readPart at hflag ⊢
  split_ifs at hflag ⊢ with hzero
  · rw [hzero, addShort_zero]
  · rfl
  · rfl

variable {h : RegionCaps}

variable {l : LocalCaps} {w r : Int}

/-- A pass that does not wait adds the arguments to the counts. -/
theorem pass_caps
    (hw : (pass self ⟨h, l, newCall w r⟩).call.waitWq = false)
    (hr : (pass self ⟨h, l, newCall w r⟩).call.waitRq = false) :
    (pass self ⟨h, l, newCall w r⟩).caps = addLocks w r l := by
  simp only [pass, openReaders_frame, readPart_frame] at hw hr ⊢
  rw [readPart_stored hr, writePart_stored hw]
  simp [addLocks, newCall]

/-- A pass leaves the number of threads of a region alone. -/
theorem pass_rcnt : (pass self x).h.rcnt = x.h.rcnt := by
  simp [pass]

/-- A pass makes no other thread the recorded writer, and a caller with a write count that leaves
another thread recorded keeps a write count. -/
theorem pass_writerCv {v : Tid} (hv : v ≠ self)
    (hv0 : v ≠ 0) (hcv : (pass self ⟨h, l, newCall w r⟩).h.writerCv = v)
    (hw : (pass self ⟨h, l, newCall w r⟩).call.waitWq = false) :
    h.writerCv = v ∧ (l.wrCnt ≠ 0 → addShort l.wrCnt w ≠ 0) := by
  simp only [pass, openReaders_frame, readPart_frame] at hw hcv
  simp only [writePart, closeReaders_frame, dequeue_frame, newCall] at hw hcv
  split_ifs at hw hcv with hzero hown hdone hcan
  · simp only [closeReaders_frame] at hcv
    exact ⟨hcv, fun hne => by rwa [hzero, addShort_zero]⟩
  · -- the last write count clears the writer word
    exact absurd hcv.symm hv0
  · exact ⟨hcv, fun _ => hdone⟩
  · -- the caller becomes the recorded writer
    exact absurd hcv.symm hv

end Pass

section Calls

variable {self : Tid} {w r : Int} {g g' : Regions} {z : Rid} {l l' : LocalCaps}

/-- The call on one key. -/
theorem lockopSelf_ok (h : lockopSelf self w r g z l = .ok (g', l')) :
    countAssert w r l = true ∧ l' = addLocks w r l ∧
      g' = setCaps g z (pass self ⟨(g z).caps, l, newCall w r⟩).h ∧
      (pass self ⟨(g z).caps, l, newCall w r⟩).call.waitWq = false := by
  unfold lockopSelf at h
  dsimp only at h
  split_ifs at h with hcount hwriter hwait hwriter' hexit
  simp only [Bool.or_eq_true, not_or, Bool.not_eq_true] at hwait
  cases h
  exact ⟨by simpa using hcount, pass_caps hwait.1 hwait.2, rfl, hwait.1⟩

/-- A call stops for a count below zero only if the assertion on the counts fails. -/
theorem lockopSelf_ne_belowZero (hcount : countAssert w r l = true) :
    lockopSelf self w r g z l ≠ .error .belowZero := by
  intro h
  unfold lockopSelf at h
  rw [if_neg (by simp [hcount])] at h
  dsimp only at h
  split_ifs at h <;> cases h

variable {ks' ks : Keys} {k k' : KeyData}

variable {a : Int} {sub next : Keys}

/-- The three calls on a key and its siblings that go through: its sub-keys, the key itself, and
the siblings. -/
theorem lockopKeys_key (h : lockopKeys self w r g (.key z a l sub next) = .ok (g', ks')) :
    ∃ g1 sub' g2 l' next', lockopKeys self w r g sub = .ok (g1, sub') ∧
      lockopSelf self w r g1 z l = .ok (g2, l') ∧
      lockopKeys self w r g2 next = .ok (g', next') ∧ ks' = .key z a l' sub' next' := by
  simp only [lockopKeys] at h
  split_ifs at h
  obtain ⟨x, hx, h⟩ := bind_eq_ok.1 h
  obtain ⟨y, hy, h⟩ := bind_eq_ok.1 h
  obtain ⟨n, hn, h⟩ := map_eq_ok.1 h
  cases h
  exact ⟨x.1, x.2, y.1, y.2, n.2, hx, hy, hn, rfl⟩

/-- A call without arguments does nothing; any other one that goes through is made on the sub-keys
and then on the key. -/
theorem lockop_cases (h : lockop self w r g z k = .ok (g', k')) :
    (w = 0 ∧ r = 0 ∧ g' = g ∧ k' = k) ∨
      ∃ g1, lockopKeys self w r g k.2 = .ok (g1, k'.2) ∧
        lockopSelf self w r g1 z k.1 = .ok (g', k'.1) := by
  rw [lockop] at h
  split_ifs at h with hzero hrcnt
  · cases h
    exact .inl ⟨hzero.1, hzero.2, rfl, rfl⟩
  · obtain ⟨x, hx, h⟩ := bind_eq_ok.1 h
    obtain ⟨y, hy, h⟩ := map_eq_ok.1 h
    cases h
    exact .inr ⟨x.1, hx, hy⟩

/-- Giving up a key and its siblings: its sub-keys, the key itself, and the siblings. -/
theorem releaseKeys_key (h : releaseKeys self g (.key z a l sub next) = .ok g') :
    ∃ g1 g2, releaseKeys self g sub = .ok g1 ∧ releaseSelf self g1 z l = .ok g2 ∧
      releaseKeys self g2 next = .ok g' := by
  simp only [releaseKeys] at h
  split_ifs at h
  obtain ⟨g1, hsub, h⟩ := bind_eq_ok.1 h
  obtain ⟨g2, hself, hnext⟩ := bind_eq_ok.1 h
  exact ⟨g1, g2, hsub, hself, hnext⟩

/-- The calls on a list of siblings add the arguments to all counts. -/
theorem lockopKeys_ok (h : lockopKeys self w r g ks = .ok (g', ks')) :
    ks' = ks.mapCaps (addLocks w r) ∧ ks.All fun _ l => countAssert w r l = true := by
  induction ks generalizing g g' ks' with
  | nil =>
    cases h
    exact ⟨rfl, trivial⟩
  | key h' a l sub next ihsub ihnext =>
    obtain ⟨g1, sub', g2, l', next', hx, hy, hn, rfl⟩ := lockopKeys_key h
    obtain ⟨hsub, hsubAll⟩ := ihsub hx
    obtain ⟨hnext, hnextAll⟩ := ihnext hn
    obtain ⟨hcount, hself, _⟩ := lockopSelf_ok hy
    exact ⟨by rw [hsub, hnext, hself]; rfl, hcount, hsubAll, hnextAll⟩

/-- `__xregion_lockop` adds the arguments to the counts of the key and of all keys below it. -/
theorem lockop_ok (h : lockop self w r g z k = .ok (g', k')) :
    k' = (addLocks w r k.1, k.2.mapCaps (addLocks w r)) := by
  rcases lockop_cases h with ⟨rfl, rfl, -, rfl⟩ | ⟨g1, hx, hy⟩
  · -- a call without arguments returns at once
    have hid : ∀ ks : Keys, ks.mapCaps (addLocks 0 0) = ks := by
      intro ks
      induction ks with
      | nil => rfl
      | key h a l sub next ihsub ihnext => simp [Keys.mapCaps, ihsub, ihnext]
    simp [hid]
  · exact Prod.ext (lockopSelf_ok hy).2.1 (lockopKeys_ok hx).1

/-- A call on a key with non-negative counts passes the assertions on the counts of the key and of
all keys below it. -/
theorem lockop_counts (h : lockop self w r g z k = .ok (g', k')) : (w = 0 ∧ r = 0) ∨
      (countAssert w r k.1 = true ∧ k.2.All fun _ l => countAssert w r l = true) := by
  rcases lockop_cases h with ⟨hw, hr, -, -⟩ | ⟨g1, hx, hy⟩
  · exact .inl ⟨hw, hr⟩
  · exact .inr ⟨(lockopSelf_ok hy).1, (lockopKeys_ok hx).2⟩

/-- `_xregion_cap_th` changes the region count and then the lock counts of a key, or gives up the
key and everything below it. -/
theorem capTh_ok {rgc wc rc : Int} {o : Option KeyData}
    (h : capTh self rgc wc rc g z k = .ok (g', o)) :
    (∃ k', o = some k' ∧ 0 < int32 (k.1.rcnt.toNat + rgc) ∧
      lockop self wc rc g z ({ k.1 with rcnt := addShort k.1.rcnt rgc }, k.2) = .ok (g', k')) ∨
    (o = none ∧ ∃ g1, releaseKeys self g k.2 = .ok g1 ∧ releaseSelf self g1 z k.1 = .ok g') := by
  obtain ⟨⟨g1, o1⟩, href, h⟩ := bind_eq_ok.1 h
  unfold refcnt at href
  split_ifs at href with hzero hbelow hglobal hkeep
  · -- the key stays
    cases href
    obtain ⟨y, hy, h⟩ := map_eq_ok.1 h
    cases h
    exact .inl ⟨y.2, rfl, hkeep, hy⟩
  · -- the key is given up
    obtain ⟨g2, hsub, href⟩ := bind_eq_ok.1 href
    obtain ⟨g3, hself, href⟩ := map_eq_ok.1 href
    cases href
    cases h
    exact .inr ⟨rfl, g2, hsub, hself⟩

@[simp] theorem regions_mapCaps (f : LocalCaps → LocalCaps) (ks : Keys) :
    (ks.mapCaps f).regions = ks.regions := by
  induction ks with
  | nil => rfl
  | key h a l sub next ihsub ihnext => simp [Keys.mapCaps, Keys.regions, ihsub, ihnext]

theorem Keys.forall_regions {p : Rid → Prop} :
    (∀ y ∈ (Keys.key z a l sub next).regions, p y) ↔
      p z ∧ (∀ y ∈ sub.regions, p y) ∧ ∀ y ∈ next.regions, p y := by
  rw [regions, List.forall_mem_cons, List.forall_mem_append]

/-- The parts of a list of keys have no region in common. -/
theorem Keys.nodup_key (hnodup : (Keys.key z a l sub next).regions.Nodup) :
    sub.regions.Nodup ∧ next.regions.Nodup ∧ z ∉ sub.regions ∧ z ∉ next.regions ∧
      ∀ y ∈ sub.regions, y ∉ next.regions := by
  simp only [regions, List.nodup_cons, List.nodup_append, List.mem_append, not_or] at hnodup
  obtain ⟨⟨hzsub, hznext⟩, hsub, hnext, hdisj⟩ := hnodup
  exact ⟨hsub, hnext, hzsub, hznext, fun y hy hy' => hdisj y hy y hy' rfl⟩

/-! ## Region counts and released memory -/

/-- The number of threads of a region and how often its memory was released. -/
def refs (g : Regions) (z : Rid) : Int × Nat := ((g z).caps.rcnt, (g z).freed)

/-- One thread less. -/
def dropped (n : Int × Nat) : Int × Nat := (n.1 - 1, if n.1 = 1 then n.2 + 1 else n.2)

theorem refs_dropRef (g : Regions) (z y : Rid) :
    refs (dropRef g z) y = if y = z then dropped (refs g y) else refs g y := by
  by_cases hy : y = z
  · subst hy
    rw [if_pos rfl, refs, dropRef, update_self]
    rfl
  · simp [refs, dropRef, hy]

theorem refs_lockopSelf (h : lockopSelf self w r g z l = .ok (g', l')) : refs g' = refs g := by
  obtain ⟨_, _, rfl, _⟩ := lockopSelf_ok h
  funext y
  by_cases hy : y = z
  · subst hy
    simp [refs, setCaps, pass_rcnt]
  · simp [refs, setCaps, hy]

theorem refs_lockopKeys (h : lockopKeys self w r g ks = .ok (g', ks')) : refs g' = refs g := by
  induction ks generalizing g g' ks' with
  | nil =>
    cases h
    rfl
  | key h' a l sub next ihsub ihnext =>
    obtain ⟨g1, sub', g2, l', next', hx, hy, hn, rfl⟩ := lockopKeys_key h
    rw [ihnext hn, refs_lockopSelf hy, ihsub hx]

theorem refs_lockop (h : lockop self w r g z k = .ok (g', k')) : refs g' = refs g := by
  rcases lockop_cases h with ⟨-, -, rfl, -⟩ | ⟨g1, hx, hy⟩
  · rfl
  · rw [refs_lockopSelf hy, refs_lockopKeys hx]

theorem refs_releaseSelf (h : releaseSelf self g z l = .ok g') (y : Rid) :
    refs g' y = if y = z then dropped (refs g y) else refs g y := by
  obtain ⟨x, hx, rfl⟩ := map_eq_ok.1 h
  rw [refs_dropRef, refs_lockop hx]

/-- Giving up a list of keys takes the thread out of each of their regions once. -/
theorem refs_releaseKeys (h : releaseKeys self g ks = .ok g')
    (hnodup : ks.regions.Nodup) (y : Rid) :
    refs g' y = if y ∈ ks.regions then dropped (refs g y) else refs g y := by
  induction ks generalizing g g' with
  | nil =>
    cases h
    simp [Keys.regions]
  | key z a l sub next ihsub ihnext =>
    obtain ⟨g1, g2, hsub, hself, hnext⟩ := releaseKeys_key h
    obtain ⟨hndsub, hndnext, hzsub, hznext, hdisj⟩ := Keys.nodup_key hnodup
    rw [ihnext hnext hndnext, refs_releaseSelf hself, ihsub hsub hndsub]
    -- the three parts have no region in common
    by_cases hy : y = z
    · subst hy
      simp [Keys.regions, hzsub, hznext]
    · by_cases hysub : y ∈ sub.regions
      · simp [Keys.regions, hy, hdisj y hysub]
      · simp [Keys.regions, hy, hysub]

end Calls

/-! ## Replacing one key -/

/-- `ks'` is `ks` with the key `k` of region `z` replaced by `o`, or taken out with everything below
it. -/
inductive Replaced (z : Rid) (k : KeyData) : Option KeyData → Keys → Keys → Prop where
  | removed {a : Int} {next : Keys} : Replaced z k none (.key z a k.1 k.2 next) next
  | changed {a : Int} {next : Keys} {k' : KeyData} :
      Replaced z k (some k') (.key z a k.1 k.2 next) (.key z a k'.1 k'.2 next)
  | sub {o : Option KeyData} {h : Rid} {a : Int} {l : LocalCaps} {sub sub' next : Keys}
      (hne : h ≠ z) (hsub : Replaced z k o sub sub') :
      Replaced z k o (.key h a l sub next) (.key h a l sub' next)
  | next {o : Option KeyData} {h : Rid} {a : Int} {l : LocalCaps} {sub next next' : Keys}
      (hne : h ≠ z) (hnext : Replaced z k o next next') :
      Replaced z k o (.key h a l sub next) (.key h a l sub next')

section Replace

variable {z : Rid} {f : Regions → KeyData → Except Stop (Regions × Option KeyData)}
  {g g' : Regions} {ks ks' : Keys}

/-- An operation at a key is the operation on the key's data, with its result in the key's place. -/
theorem atKey_some {res : Except Stop (Regions × Keys)} (h : atKey z f g ks = some res) :
    ∃ (k : KeyData) (put : Option KeyData → Keys),
      res = (f g k).map (fun x => (x.1, put x.2)) ∧ ∀ o, Replaced z k o ks (put o) := by
  induction ks generalizing res with
  | nil => cases h
  | key h' a l sub next ihsub ihnext =>
    simp only [atKey] at h
    split_ifs at h with heq
    · subst heq
      cases h
      refine ⟨(l, sub), fun o => o.elim next fun k => .key h' a k.1 k.2 next, ?_, fun o => ?_⟩
      · congr 1
        funext ⟨g1, o⟩
        cases o <;> rfl
      · cases o with
        | none => exact .removed
        | some k => exact .changed
    · cases hsub : atKey z f g sub with
      | some res' =>
        obtain ⟨k, put, rfl, hr⟩ := ihsub hsub
        rw [hsub] at h
        cases h
        exact ⟨k, _, by cases f g k <;> rfl, fun o => .sub heq (hr o)⟩
      | none =>
        rw [hsub] at h
        obtain ⟨res', hnext, rfl⟩ := Option.map_eq_some_iff.1 h
        obtain ⟨k, put, rfl, hr⟩ := ihnext hnext
        exact ⟨k, _, by cases f g k <;> rfl, fun o => .next heq (hr o)⟩

variable {e : Stop} {xs as rest ys : List Rid} {h : Rid}

theorem onKey_ok (h : onKey z f g ks = .ok (g', ks')) :
    ∃ k o, f g k = .ok (g', o) ∧ Replaced z k o ks ks' := by
  cases hat : atKey z f g ks with
  | none => simp [onKey, hat] at h
  | some res =>
    obtain ⟨k, put, rfl, hr⟩ := atKey_some hat
    rw [onKey, hat] at h
    obtain ⟨⟨g1, o⟩, hf, hx⟩ := map_eq_ok.1 h
    cases hx
    exact ⟨k, o, hf, hr o⟩

/-- An operation at a key stops where the operation on the key's data stops. -/
theorem onKey_error (he : e = .noKey → atKey z f g ks ≠ none) (h : onKey z f g ks = .error e) :
    ∃ k ks', f g k = .error e ∧ Replaced z k none ks ks' := by
  cases hat : atKey z f g ks with
  | none =>
    rw [onKey, hat] at h
    exact absurd hat (he (Except.error.inj h).symm)
  | some res =>
    obtain ⟨k, put, rfl, hr⟩ := atKey_some hat
    rw [onKey, hat] at h
    exact ⟨k, put none, map_eq_error.1 h, hr none⟩

/-- The regions of a key and of the keys below it. -/
def regionsOf (z : Rid) (o : Option KeyData) : List Rid :=
  match o with
  | none => []
  | some k => z :: k.2.regions

variable {k : KeyData} {o : Option KeyData}

variable {p : Rid → LocalCaps → Prop}

/-- What all keys have, the replaced key and the keys below it have. -/
theorem Replaced.all_old (h : Replaced z k o ks ks') (hall : ks.All p) : p z k.1 ∧ k.2.All p := by
  induction h with
  | removed | changed => exact ⟨hall.1, hall.2.1⟩
  | sub _ _ ih => exact ih hall.2.1
  | next _ _ ih => exact ih hall.2.2

/-- What all keys have, all keys still have if the new key and the keys below it have it. -/
theorem Replaced.all_new (h : Replaced z k o ks ks') (hall : ks.All p)
    (hnew : ∀ k', o = some k' → p z k'.1 ∧ k'.2.All p) : ks'.All p := by
  induction h with
  | removed => exact hall.2.2
  | changed =>
    obtain ⟨hself, hsub⟩ := hnew _ rfl
    exact ⟨hself, hsub, hall.2.2⟩
  | sub _ _ ih => exact ⟨hall.1, ih hall.2.1 hnew, hall.2.2⟩
  | next _ _ ih => exact ⟨hall.1, hall.2.1, ih hall.2.2 hnew⟩

/-- A permutation of the first part of a list. -/
theorem perm_left (hp : xs.Perm (as ++ rest)) :
    (h :: (xs ++ ys)).Perm (as ++ h :: (rest ++ ys)) := by
  apply ((hp.append_right ys).cons h).trans
  rw [List.append_assoc]
  exact List.perm_middle.symm

/-- A permutation of the second part of a list. -/
theorem perm_right (hp : xs.Perm (as ++ rest)) :
    (h :: (ys ++ xs)).Perm (as ++ h :: (ys ++ rest)) := by
  apply ((hp.append_left ys).cons h).trans
  exact ((List.perm_append_comm_assoc ys as rest).cons h).trans List.perm_middle.symm

/-- Replacing a key replaces its regions. -/
theorem Replaced.regions_perm (h : Replaced z k o ks ks') :
    ∃ rest, ks.regions.Perm ((z :: k.2.regions) ++ rest) ∧
      ks'.regions.Perm (regionsOf z o ++ rest) := by
  induction h with
  | @removed _ next | @changed _ next => exact ⟨next.regions, List.Perm.refl _, List.Perm.refl _⟩
  | @sub o h a l sub sub' next hne hsub ih =>
    obtain ⟨rest, hold, hnew⟩ := ih
    exact ⟨h :: (rest ++ next.regions), perm_left hold, perm_left hnew⟩
  | @next o h a l sub next next' hne hnext ih =>
    obtain ⟨rest, hold, hnew⟩ := ih
    exact ⟨h :: (sub.regions ++ rest), perm_right hold, perm_right hnew⟩

end Replace

section Same

variable {h z : Rid} {k : KeyData} {o : Option KeyData} {ks ks' : Keys}

/-- The new key has the same regions below it, with other counts. -/
def SameBelow (k : KeyData) (o : Option KeyData) : Prop :=
  ∀ k', o = some k' → ∃ f, k'.2 = k.2.mapCaps f

section

variable (hrep : Replaced h k o ks ks')

include hrep

/-- The replaced key and the keys below it were there. -/
theorem Replaced.mem_old (hz : z ∈ h :: k.2.regions) : z ∈ ks.regions := by
  obtain ⟨rest, hold, _⟩ := hrep.regions_perm
  exact hold.mem_iff.2 (List.mem_append_left _ hz)

theorem Replaced.not_mem_below (hnodup : ks.regions.Nodup) : h ∉ k.2.regions := by
  obtain ⟨rest, hold, _⟩ := hrep.regions_perm
  exact (List.nodup_cons.1 (List.nodup_append.1 (hold.nodup_iff.1 hnodup)).1).1

/-- The regions that stay. -/
theorem Replaced.mem_new (ho : SameBelow k o) (hz : z ∈ ks'.regions) : z ∈ ks.regions := by
  obtain ⟨rest, hold, hnew⟩ := hrep.regions_perm
  rw [hnew.mem_iff, List.mem_append] at hz
  rw [hold.mem_iff, List.mem_append]
  refine hz.imp_left fun hz => ?_
  cases o with
  | none => cases hz
  | some k' =>
    obtain ⟨f, hf⟩ := ho k' rfl
    rwa [regionsOf, hf, regions_mapCaps] at hz

theorem Replaced.nodup_new (ho : SameBelow k o) (hnodup : ks.regions.Nodup) :
    ks'.regions.Nodup := by
  obtain ⟨rest, hold, hnew⟩ := hrep.regions_perm
  have hparts := hold.nodup_iff.1 hnodup
  rw [hnew.nodup_iff]
  cases o with
  | none => exact (List.nodup_append.1 hparts).2.1
  | some k' =>
    obtain ⟨f, hf⟩ := ho k' rfl
    rwa [regionsOf, hf, regions_mapCaps]

end

/-- `_xregion_cap` gives up a key, or changes its counts and those of the keys below it. -/
theorem cap_replaced {self : Tid} {rgc wc rc : Int} {g g' : Regions}
    (hcall : cap self h rgc wc rc g ks = .ok (g', ks')) :
    ∃ k o, Replaced h k o ks ks' ∧ SameBelow k o ∧ ∀ k', o = some k' →
      0 < int32 (k.1.rcnt.toNat + rgc) ∧
      ((wc = 0 ∧ rc = 0) ∨
        (countAssert wc rc k.1 = true ∧ k.2.All fun _ l => countAssert wc rc l = true)) ∧
      k' = (addLocks wc rc { k.1 with rcnt := addShort k.1.rcnt rgc },
        k.2.mapCaps (addLocks wc rc)) := by
  obtain ⟨k, o, hf, hrep⟩ := onKey_ok hcall
  refine ⟨k, o, hrep, ?_⟩
  rcases capTh_ok hf with ⟨k', rfl, hkeep, hlock⟩ | ⟨rfl, _⟩
  · have hk' := lockop_ok hlock
    have hcounts := lockop_counts hlock
    constructor
    · rintro _ ⟨rfl⟩
      exact ⟨addLocks wc rc, congrArg Prod.snd hk'⟩
    · rintro _ ⟨rfl⟩
      exact ⟨hkeep, hcounts, hk'⟩
  · exact ⟨nofun, nofun⟩

end Same

end ConcurrentCyclone.Runtime
