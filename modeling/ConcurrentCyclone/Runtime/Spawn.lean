import ConcurrentCyclone.Runtime.Keys

/-!
# Spawning a thread with capabilities

A spawn passes region, write and read counts to the new thread (`lib/runtime_stack.c`).
`merge_caps` looks up the spawner's keys, sorts the array by the addresses of the keys and adds up
the entries for one key; `__treecopy` builds the new thread's key tree, hands the regions over, and
then takes the counts from the spawner through the ordinary `cap` path.

The comparison of `qsort` subtracts pointers to unrelated keys, of another type than the keys, and
`qsort` itself is only specified for consistent comparisons. What the C standard leaves open is a
parameter (`Platform`), with what it guarantees.
-/

set_option autoImplicit false

namespace ConcurrentCyclone.Runtime

open Transition

/-- An entry of the capability array of a spawn. -/
structure CapArg where
  h : Rid
  rc : Int
  wc : Int
  lc : Int
  deriving DecidableEq

/-- `struct Caps` with its region replaced by the spawner's key: the region and the address of the
key, and the region, write and read counts. -/
structure Caps extends CapArg where
  addr : Int
  deriving DecidableEq

/-- The results of a comparison are consistent with one another on an array: they define a total
preorder of its elements. -/
structure CmpOrders (cmp : Caps → Caps → Int) (cs : List Caps) : Prop where
  swap : ∀ c ∈ cs, ∀ d ∈ cs, cmp c d < 0 ↔ 0 < cmp d c
  trans : ∀ c ∈ cs, ∀ d ∈ cs, ∀ e ∈ cs, cmp c d ≤ 0 → cmp d e ≤ 0 → cmp c e ≤ 0

/-- What the C standard leaves open: the size of a key, the difference of two pointers into
different objects, and how `qsort` orders an array on which the comparison is not consistent. -/
structure Platform where
  keySize : Int
  ptrDiff : Int → Int → Int
  qsort : (Caps → Caps → Int) → List Caps → List Caps
  qsort_perm : ∀ cmp cs, (qsort cmp cs).Perm cs
  qsort_sorted : ∀ cmp cs, CmpOrders cmp cs → (qsort cmp cs).Pairwise fun c d => cmp c d ≤ 0

/-! ## `merge_caps` -/

/-- The address of the key of a region. -/
def Keys.addrOf (z : Rid) : Keys → Option Int
  | .nil => none
  | .key h a _ sub next => if h = z then some a else (sub.addrOf z).or (next.addrOf z)

/-- `caps_cmp`. -/
def capsCmp (P : Platform) (c₁ c₂ : Caps) : Int := int32 (-(P.ptrDiff c₁.addr c₂.addr))

/-- Replace the regions of the array by the keys of the spawner. -/
def treeHandles (ks : Keys) : List CapArg → Except Stop (List Caps)
  | [] => .ok []
  | c :: cs =>
    match ks.addrOf c.h with
    | none => .error .noKey
    | some a => (treeHandles ks cs).map fun cs' => ⟨c, a⟩ :: cs'

/-- The loop of `merge_caps`: `it` is the entry that collects the counts of its key. -/
def mergeLoop : Caps → List Caps → List Caps
  | it, [] => [it]
  | it, c :: cs =>
    if it.h = c.h then
      mergeLoop { it with
        rc := int32 (it.rc + c.rc), wc := int32 (it.wc + c.wc), lc := int32 (it.lc + c.lc) } cs
    else it :: mergeLoop c cs

/-- `merge_caps`. -/
def mergeCaps (P : Platform) (ks : Keys) (args : List CapArg) : Except Stop (List Caps) :=
  (treeHandles ks args).map fun cs =>
    match P.qsort (capsCmp P) cs with
    | [] => []
    | c :: cs => mergeLoop c cs

/-! ## `__treecopy` -/

/-- The first loop of `__treecopy` on the region of one entry: the region gets one more thread, the
new thread becomes its recorded writer if it gets a write count, and one more reader if it gets a
read count. -/
def shareRegion (self tid : Tid) (c : Caps) (g : Regions) : Except Stop Regions :=
  if c.wc ≠ 0 ∧ (g c.h).caps.writerCv ≠ self then .error .treecopyWriter
  else
    .ok (setCaps g c.h { (g c.h).caps with
      rcnt := (g c.h).caps.rcnt + 1
      writerCv := if c.wc ≠ 0 then tid else (g c.h).caps.writerCv
      rdCnt := if c.lc ≠ 0 then (g c.h).caps.rdCnt + 1 else (g c.h).caps.rdCnt })

/-- The first loop of `__treecopy` on the regions. -/
def shareRegions (self tid : Tid) : List Caps → Regions → Except Stop Regions
  | [], g => .ok g
  | c :: cs, g => (shareRegion self tid c g).bind fun g' => shareRegions self tid cs g'

/-- The counts of a new key: the given counts, stored in 16 bits. -/
def copyCaps (c : CapArg) : LocalCaps :=
  ⟨BitVec.ofInt 16 c.rc, BitVec.ofInt 16 c.wc, BitVec.ofInt 16 c.lc⟩

/-- A key of the new thread, with its index in the array. -/
structure Copied where
  idx : Nat
  entry : Caps
  sub : Keys

/-- A list of new keys as siblings; `n` is the address of the array of new keys. -/
def chain (P : Platform) (n : Int) : List Copied → Keys
  | [] => .nil
  | c :: cs =>
    .key c.entry.h (n + c.idx * P.keySize) (copyCaps c.entry.toCapArg) c.sub (chain P n cs)

/-- The sub-keys of a new key: later entries are linked in front of earlier ones. -/
def chainSub (P : Platform) (n : Int) (cs : List Copied) : Keys :=
  chain P n (cs.insertionSort fun c₁ c₂ => c₂.idx ≤ c₁.idx)

/-- The first loop of `__treecopy` on the keys, along the spawner's tree. The first result are the
copies of the keys of this list of siblings, which are linked below their parent's copy; the second
one are the copies below keys that are not in the array, which have no parent. If a key is in the
array more than once, the sub-keys are linked to its first entry. -/
def copyKeys (P : Platform) (n : Int) (o : List (Caps × Nat)) :
    Keys → List Copied × List Copied
  | .nil => ([], [])
  | .key h _ _ sub next =>
    let below := copyKeys P n o sub
    let beside := copyKeys P n o next
    match o.filter fun c => c.1.h = h with
    -- the key is not passed: the copies of its sub-keys have no parent
    | [] => (beside.1, below.1 ++ below.2 ++ beside.2)
    | c :: cs =>
      (⟨c.2, c.1, chainSub P n below.1⟩ :: (cs.map fun c => ⟨c.2, c.1, .nil⟩) ++ beside.1,
        below.2 ++ beside.2)

/-- The keys of the new thread. -/
def newKeys (P : Platform) (n : Int) (cs : List Caps) (ks : Keys) : Keys :=
  let x := copyKeys P n cs.zipIdx ks
  chain P n (x.1 ++ x.2)

/-- A key of the array that is not in the tree any more was given up in the same loop, with a key
above it: the array still points to it, and its region count is zero. -/
def Stop.ofHeld : Stop → Stop
  | .noKey => .released
  | e => e

/-- The second loop of `__treecopy`, over the array from its end: the spawner gives up the counts it
passed. -/
def takeCounts (self : Tid) : List Caps → Regions → Keys → Except Stop (Regions × Keys)
  | [], g, ks => .ok (g, ks)
  | c :: cs, g, ks =>
    -- `_xregion_cap_th` with the negated counts
    ((cap self c.h (int32 (-c.rc)) (int32 (-c.wc)) (int32 (-c.lc)) g ks).mapError
      Stop.ofHeld).bind fun x => takeCounts self cs x.1 x.2

/-- `__treecopy`: the regions, the spawner's keys and the new thread's keys. -/
def treecopy (P : Platform) (self tid : Tid) (n : Int) (cs : List Caps) (g : Regions) (ks : Keys) :
    Except Stop (Regions × Keys × Keys) :=
  (shareRegions self tid cs g).bind fun g₁ =>
    (takeCounts self cs.reverse g₁ ks).map fun x => (x.1, x.2, newKeys P n cs ks)

theorem Stop.ofHeld_eq_belowZero {e : Stop} : e.ofHeld = .belowZero ↔ e = .belowZero := by
  cases e <;> decide

theorem takeCounts_cons {self : Tid} {c : Caps} {cs : List Caps} {g : Regions} {ks : Keys}
    {x : Regions × Keys} (h : takeCounts self (c :: cs) g ks = .ok x) :
    ∃ y, cap self c.h (int32 (-c.rc)) (int32 (-c.wc)) (int32 (-c.lc)) g ks = .ok y ∧
      takeCounts self cs y.1 y.2 = .ok x := by
  obtain ⟨y, hy, h⟩ := bind_eq_ok.1 h
  exact ⟨y, mapError_eq_ok.1 hy, h⟩

/-- The loop stops where a call on a key stops. -/
theorem takeCounts_cons_error {self : Tid} {c : Caps} {cs : List Caps} {g : Regions} {ks : Keys}
    {e : Stop} (h : takeCounts self (c :: cs) g ks = .error e) :
    (∃ e', cap self c.h (int32 (-c.rc)) (int32 (-c.wc)) (int32 (-c.lc)) g ks = .error e' ∧
      e'.ofHeld = e) ∨
    ∃ y, cap self c.h (int32 (-c.rc)) (int32 (-c.wc)) (int32 (-c.lc)) g ks = .ok y ∧
      takeCounts self cs y.1 y.2 = .error e := by
  rcases bind_eq_error.1 h with h | ⟨y, hy, h⟩
  · exact .inl (mapError_eq_error.1 h)
  · exact .inr ⟨y, mapError_eq_ok.1 hy, h⟩

/-! ## The keys of the new thread -/

section NewKeys

variable {P : Platform} {n : Int} {o : List (Caps × Nat)}

/-- The regions of a list of new keys. -/
def copiedRegions (cs : List Copied) : List Rid := cs.flatMap fun c => c.entry.h :: c.sub.regions

theorem regions_chain (cs : List Copied) : (chain P n cs).regions = copiedRegions cs := by
  induction cs with
  | nil => rfl
  | cons c cs ih => simp [chain, Keys.regions, copiedRegions, ih]

theorem regions_chainSub (cs : List Copied) :
    (chainSub P n cs).regions.Perm (copiedRegions cs) := by
  rw [chainSub, regions_chain]
  exact (List.perm_insertionSort _ cs).flatMap_right _

theorem copiedRegions_leaves (cs : List (Caps × Nat)) :
    copiedRegions (cs.map fun c => ⟨c.2, c.1, .nil⟩) = cs.map fun c => c.1.h := by
  induction cs with
  | nil => rfl
  | cons c cs ih =>
    rw [List.map_cons, List.map_cons, ← ih]
    rfl

/-- The new keys are for the regions of the array, in the spawner's tree. -/
theorem copyKeys_regions (ks : Keys) :
    (copiedRegions (copyKeys P n o ks).1 ++ copiedRegions (copyKeys P n o ks).2).Perm
      (ks.regions.flatMap fun z => (o.map fun c => c.1.h).filter fun y => y = z) := by
  induction ks with
  | nil => exact List.Perm.refl _
  | key h a l sub next ihsub ihnext =>
    have hfilter : (o.map fun c => c.1.h).filter (fun y => y = h) =
        (o.filter fun c => c.1.h = h).map fun c => c.1.h := List.filter_map ..
    rw [List.perm_iff_count] at ihsub ihnext ⊢
    intro x
    have hs := ihsub x
    have hn := ihnext x
    simp only [Keys.regions, List.flatMap_cons, List.flatMap_append, List.count_append,
      hfilter] at hs hn ⊢
    cases hsplit : o.filter fun c => c.1.h = h with
    | nil =>
      simp only [copyKeys, hsplit, copiedRegions, List.flatMap_append, List.count_append,
        List.map_nil, List.count_nil] at hs hn ⊢
      omega
    | cons c cs =>
      -- the copies below this key are counted in its first copy
      have hsub : List.count x (chainSub P n (copyKeys P n o sub).1).regions =
          List.count x (copiedRegions (copyKeys P n o sub).1) :=
        (regions_chainSub _).count_eq x
      have hdup : List.count x (copiedRegions (cs.map fun c => ⟨c.2, c.1, .nil⟩)) =
          List.count x (cs.map fun c => c.1.h) := by
        rw [copiedRegions_leaves]
      simp only [copyKeys, hsplit, copiedRegions, List.flatMap_append, List.count_append,
        List.flatMap_cons, List.map_cons, List.cons_append, List.count_cons]
        at hs hn hsub hdup ⊢
      omega

theorem zipIdx_regions (cs : List Caps) : (cs.zipIdx.map fun c => c.1.h) = cs.map fun c => c.h := by
  rw [show (fun c : Caps × Nat => c.1.h) = (fun c : Caps => c.h) ∘ Prod.fst from rfl,
    ← List.map_map, List.zipIdx_map_fst]

theorem newKeys_regions (cs : List Caps) (ks : Keys) : (newKeys P n cs ks).regions.Perm
      (ks.regions.flatMap fun z => (cs.map fun c => c.h).filter fun y => y = z) := by
  have hperm := copyKeys_regions (P := P) (n := n) (o := cs.zipIdx) ks
  rw [zipIdx_regions] at hperm
  rw [newKeys, regions_chain, copiedRegions, List.flatMap_append]
  exact hperm

variable {cs : List Caps} {ks : Keys} {p : Rid → LocalCaps → Prop}

theorem mem_newKeys_regions {z : Rid} :
    z ∈ (newKeys P n cs ks).regions ↔ z ∈ ks.regions ∧ ∃ c ∈ cs, c.h = z := by
  rw [(newKeys_regions cs ks).mem_iff, List.mem_flatMap]
  constructor
  · rintro ⟨y, hy, hz⟩
    simp only [List.mem_filter, List.mem_map, decide_eq_true_eq] at hz
    obtain ⟨hc, rfl⟩ := hz
    exact ⟨hy, hc⟩
  · rintro ⟨hz, hc⟩
    exact ⟨z, hz, by simpa using hc⟩

/-- If every key is in the array once, every new key is there once. -/
theorem nodup_copyKeys (hks : ks.regions.Nodup) (ho : (o.map fun c => c.1.h).Nodup) :
    (copiedRegions (copyKeys P n o ks).1 ++ copiedRegions (copyKeys P n o ks).2).Nodup := by
  rw [(copyKeys_regions ks).nodup_iff, List.nodup_flatMap]
  refine ⟨fun z _ => ho.filter _, ?_⟩
  apply hks.imp
  intro y z hne x hy hz
  simp only [List.mem_filter, decide_eq_true_eq] at hy hz
  exact hne (hy.2.symm.trans hz.2)

theorem nodup_newKeys_regions (hks : ks.regions.Nodup)
    (hcs : (cs.map fun c => c.h).Nodup) : (newKeys P n cs ks).regions.Nodup := by
  rw [newKeys, regions_chain, copiedRegions, List.flatMap_append]
  exact nodup_copyKeys hks (by rwa [zipIdx_regions])

/-- A property of the new keys. `C` is a condition on the spawner's tree that goes down to its
parts; a copy gets the copies of the sub-keys, or nothing if its key is in the array before. -/
theorem copyKeys_forall {Q : Copied → Prop} {C : Keys → Prop}
    (hparts : ∀ {h a l sub next}, C (.key h a l sub next) → C sub ∧ C next)
    (hfirst : ∀ {h a l sub next}, C (.key h a l sub next) → ∀ c ∈ o, c.1.h = h →
      (∀ d ∈ (copyKeys P n o sub).1, Q d) →
        Q ⟨c.2, c.1, chainSub P n (copyKeys P n o sub).1⟩)
    (hagain : ∀ c ∈ o, Q ⟨c.2, c.1, .nil⟩) (hks : C ks) :
    ∀ d ∈ (copyKeys P n o ks).1 ++ (copyKeys P n o ks).2, Q d := by
  induction ks with
  | nil => simp [copyKeys]
  | key h a l sub next ihsub ihnext =>
    have hsub := ihsub (hparts hks).1
    have hnext := ihnext (hparts hks).2
    simp only [List.mem_append] at hsub hnext
    intro d hd
    cases hsplit : o.filter fun c => c.1.h = h with
    | nil =>
      -- no copy of this key: the copies below it lose their parent
      simp only [copyKeys, hsplit, List.mem_append] at hd
      rcases hd with hd | (hd | hd) | hd
      · exact hnext d (.inl hd)
      · exact hsub d (.inl hd)
      · exact hsub d (.inr hd)
      · exact hnext d (.inr hd)
    | cons c cs =>
      have hmem : ∀ e ∈ c :: cs, e ∈ o ∧ e.1.h = h := by
        intro e he
        rw [← hsplit, List.mem_filter, decide_eq_true_eq] at he
        exact he
      simp only [copyKeys, hsplit, List.mem_append, List.mem_cons, List.mem_map] at hd
      rcases hd with ((rfl | ⟨e, he, rfl⟩) | hd) | hd | hd
      · obtain ⟨hc, hch⟩ := hmem c (.head _)
        exact hfirst hks c hc hch fun e he => hsub e (.inl he)
      · exact hagain e (hmem e (.tail c he)).1
      · exact hnext d (.inl hd)
      · exact hsub d (.inr hd)
      · exact hnext d (.inr hd)

/-- The key has the property, and so have the keys below it. -/
def Copied.All (p : Rid → LocalCaps → Prop) (c : Copied) : Prop :=
  p c.entry.h (copyCaps c.entry.toCapArg) ∧ c.sub.All p

theorem chain_all {cs : List Copied} (hcs : ∀ c ∈ cs, c.All p) : (chain P n cs).All p := by
  induction cs with
  | nil => trivial
  | cons c cs ih =>
    obtain ⟨hself, hsub⟩ := hcs c (.head _)
    exact ⟨hself, hsub, ih fun d hd => hcs d (.tail c hd)⟩

theorem chainSub_all {cs : List Copied} (hcs : ∀ c ∈ cs, c.All p) : (chainSub P n cs).All p := by
  apply chain_all
  intro c hc
  exact hcs c ((List.perm_insertionSort _ cs).mem_iff.1 hc)

theorem copyKeys_all (hp : ∀ c ∈ o, p c.1.h (copyCaps c.1.toCapArg)) (ks : Keys) :
    ∀ c ∈ (copyKeys P n o ks).1 ++ (copyKeys P n o ks).2, c.All p := by
  refine copyKeys_forall (C := fun _ => True) (fun _ => ⟨trivial, trivial⟩) ?_ ?_ trivial
  · intro h a l sub next _ c hc _ hbelow
    exact ⟨hp c hc, chainSub_all hbelow⟩
  · intro c hc
    exact ⟨hp c hc, trivial⟩

/-- Every new key has the counts of an entry of the array. -/
theorem newKeys_all (hp : ∀ c ∈ cs, p c.h (copyCaps c.toCapArg)) : (newKeys P n cs ks).All p := by
  refine chain_all (copyKeys_all ?_ ks)
  rintro ⟨c, i⟩ hc
  exact hp c (List.fst_mem_of_mem_zipIdx hc)

end NewKeys

/-! ## The threads -/

/-- All threads with their keys, and the regions. -/
structure World where
  regions : Regions
  forest : Tid → Keys
  threads : Finset Tid
  nextRid : Rid
  nextTid : Tid
  started : ∀ t ∈ threads, t < nextTid
  positive : 0 < nextTid

/-- The operations of the threads. -/
inductive Op where
  /-- `_new_xregion`, with the address of the new key. -/
  | create (t : Tid) (parent : Option Rid) (addr : Int)
  /-- `_xregion_cap`. -/
  | cap (t : Tid) (h : Rid) (rgc wc rc : Int)
  /-- `__init_new_thread_stack`, with the address of the array of new keys. -/
  | spawn (t : Tid) (args : List CapArg) (n : Int)

namespace World

/-- The world in which the main thread starts. -/
def initial : World where
  regions _ := ⟨{ newRegionCaps 0 with rcnt := 0 }, 0⟩
  forest _ := .nil
  threads := {1}
  nextRid := 0
  nextTid := 3
  started := by simp
  positive := by decide

/-- Give thread `t` new keys. -/
def setKeys (w : World) (t : Tid) (g : Regions) (ks : Keys) : World :=
  { w with regions := g, forest := Function.update w.forest t ks }

/-- Start the next thread (`_next_tid`) with the keys `ks`. -/
def start (w : World) (ks : Keys) : World where
  regions := w.regions
  forest := Function.update w.forest w.nextTid ks
  threads := insert w.nextTid w.threads
  nextRid := w.nextRid
  nextTid := w.nextTid + 2
  started t ht := by
    rcases Finset.mem_insert.1 ht with rfl | ht
    · exact Nat.lt_add_of_pos_right (by decide)
    · exact Nat.lt_add_right 2 (w.started t ht)
  positive := Nat.add_pos_right _ (by decide)

/-- Run an operation. -/
def exec (P : Platform) (w : World) : Op → Except Stop World
  | .create t parent addr =>
    (newXregion t parent w.nextRid addr w.regions (w.forest t)).map fun x =>
      { w.setKeys t x.1 x.2 with nextRid := w.nextRid + 1 }
  | .cap t h rgc wc rc =>
    (Runtime.cap t h rgc wc rc w.regions (w.forest t)).map fun x => w.setKeys t x.1 x.2
  | .spawn t args n =>
    (mergeCaps P (w.forest t) args).bind fun cs =>
      (treecopy P t w.nextTid n cs w.regions (w.forest t)).map fun x =>
        (w.setKeys t x.1 x.2.1).start x.2.2

/-- The thread of an operation. -/
def actor : Op → Tid
  | .create t _ _ | .cap t _ _ _ _ | .spawn t _ _ => t

/-- An operation of a started thread that goes through. -/
def Step (P : Platform) (w : World) (op : Op) (w' : World) : Prop :=
  actor op ∈ w.threads ∧ w.exec P op = .ok w'

/-- The world after an operation of a started thread that goes through. -/
def next (P : Platform) (w : World) (op : Op) : Option World :=
  if actor op ∈ w.threads then (w.exec P op).toOption else none

theorem step_of_next {P : Platform} {w w' : World} {op : Op} (h : w.next P op = some w') :
    w.Step P op w' := by
  rw [next, Option.ite_none_right_eq_some] at h
  refine ⟨h.1, ?_⟩
  cases hexec : w.exec P op with
  | error e => simp [hexec, Except.toOption] at h
  | ok w₁ => simpa [hexec, Except.toOption] using h.2

/-- The parts of a spawn that goes through. -/
theorem exec_spawn {P : Platform} {w w' : World} {t : Tid} {args : List CapArg} {n : Int}
    (h : w.exec P (.spawn t args n) = .ok w') :
    ∃ cs g₁ g ks, mergeCaps P (w.forest t) args = .ok cs ∧
      shareRegions t w.nextTid cs w.regions = .ok g₁ ∧
      takeCounts t cs.reverse g₁ (w.forest t) = .ok (g, ks) ∧
      w' = (w.setKeys t g ks).start (newKeys P n cs (w.forest t)) := by
  obtain ⟨cs, hcs, h⟩ := bind_eq_ok.1 h
  obtain ⟨x, hx, rfl⟩ := map_eq_ok.1 h
  obtain ⟨g₁, hshare, hx⟩ := bind_eq_ok.1 hx
  obtain ⟨⟨g, ks⟩, htake, rfl⟩ := map_eq_ok.1 hx
  exact ⟨cs, g₁, g, ks, hcs, hshare, htake, rfl⟩

end World

end ConcurrentCyclone.Runtime
