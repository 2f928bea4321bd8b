import ConcurrentCyclone.Runtime.CInt
import ConcurrentCyclone.Transition.Guarded

/-!
# Allocation in regions

A region is a list of pages, and its blocks are cut from the newest page one after the other
(`lib/runtime_memory.c`). A page that is too small is followed by one of twice the size, or by one
that has room for the block. The heap, the unique and the reference-counted region have no pages:
each of their blocks is an object of the collector.

Sizes are computed with 32-bit words: the product of `_region_calloc`, the rounding to multiples of
eight, the size of a new page and the size of its header can all wrap around. `Fits` is the
condition under which they do not matter, and `allocations_served_iff` says that it is needed at
every request of a run and enough for all of them.
-/

set_option autoImplicit false

namespace ConcurrentCyclone.Runtime

open Transition
open List (forall_mem_cons mem_cons)
open Option (map_eq_some_iff)

/-! ## The collector -/

/-- An object of the collector: its address and the size that was asked for. -/
structure Page where
  addr : Word
  size : Word
  deriving DecidableEq

namespace Page

/-- Different objects do not overlap, and have different addresses even if one has no bytes. -/
def Apart (p q : Page) : Prop :=
  p.addr.toNat + max p.size.toNat 1 ≤ q.addr.toNat ∨
    q.addr.toNat + max q.size.toNat 1 ≤ p.addr.toNat

end Page

/-- `GC_malloc`: an object of the given size that is apart from those the region has, and that has
an address one past its end. -/
structure Collector where
  malloc : List Page → Word → Option Word
  nonnull : ∀ {ps n a}, malloc ps n = some a → a ≠ 0
  bounded : ∀ {ps n a}, malloc ps n = some a → a.toNat + n.toNat < 2 ^ 32
  apart : ∀ {ps n a}, malloc ps n = some a → ∀ p ∈ ps, (Page.mk a n).Apart p

/-- `_bounded_GC_malloc`, and `_bounded_GC_calloc` with the product of its arguments. -/
def Collector.boundedMalloc (gc : Collector) (ps : List Page) (n : Word) : Option Word :=
  if 2147483647 ≤ n then none else gc.malloc ps n

/-! ## Regions -/

/-- The regions that differ in how they allocate. -/
inductive RegionKind where
  /-- the heap and the unique region -/
  | heap
  | refcnt
  | ordinary
  /-- `is_xrgn` -/
  | extended
  deriving DecidableEq

/-- The part of a region handle that allocation uses; `curr` is the newest page. -/
structure RegionHandle where
  pages : List Page
  offset : Word
  lastPlusOne : Word
  deriving DecidableEq

namespace RegionHandle

/-- A new region. -/
def empty : RegionHandle := ⟨[], 0, 0⟩

/-- `curr`. -/
def curr (r : RegionHandle) : Word :=
  match r.pages with
  | [] => 0
  | p :: _ => p.addr

theorem curr_eq {r : RegionHandle} {p : Page} {ps : List Page} (h : r.pages = p :: ps) :
    r.curr = p.addr := by
  rw [curr, h]

/-- `sizeof(struct _RegionPage)`. -/
def header : Word := 8

/-- A new page with `size` bytes after its header. -/
def addPage (r : RegionHandle) (size p : Word) : RegionHandle where
  pages := ⟨p, header + size⟩ :: r.pages
  offset := p + header
  lastPlusOne := p + header + size

/-- Cut a block from the newest page. -/
def cut (s : Word) (r : RegionHandle) : RegionHandle × Word :=
  ({ r with offset := r.offset + s }, r.offset)

end RegionHandle

/-- Round up to the nearest multiple of `_CYC_MIN_ALIGNMENT`. -/
def roundUp (s : Word) : Word := (s + 8 - 1) &&& ~~~(8 - 1)

section Code

variable (gc : Collector) (defaultPageSize : Word)

/-- `grow_region`. -/
def growRegion (r : RegionHandle) (s : Word) : Option RegionHandle :=
  let prevSize := r.lastPlusOne - (r.curr + RegionHandle.header)
  let nextSize := prevSize * 2
  let nextSize := if nextSize < s then s + defaultPageSize else nextSize
  (gc.boundedMalloc r.pages (RegionHandle.header + nextSize)).map (r.addPage nextSize)

/-- `_get_first_region_page`. -/
def getFirstRegionPage (r : RegionHandle) (s : Word) : Option RegionHandle :=
  let pageSize := if defaultPageSize < s then s else defaultPageSize
  (gc.boundedMalloc r.pages (RegionHandle.header + pageSize)).map (r.addPage pageSize)

/-- `_xregion_malloc`. -/
def xregionMalloc (r : RegionHandle) (s : Word) : Option (RegionHandle × Word) :=
  let s := roundUp s
  let r' :=
    if r.lastPlusOne - r.offset < s then
      let nextSize :=
        if r.offset = 0 then defaultPageSize
        else (r.lastPlusOne - (r.curr + RegionHandle.header)) * 2
      let nextSize := if nextSize < s then s else nextSize
      (gc.malloc r.pages (RegionHandle.header + nextSize)).map (r.addPage nextSize)
    else some r
  r'.map (RegionHandle.cut s)

/-- `_region_malloc`; `_region_calloc` does the same with the product of its arguments. -/
def regionMalloc (kind : RegionKind) (r : RegionHandle) (s : Word) : Option (RegionHandle × Word) :=
  match kind with
  | .extended => xregionMalloc gc defaultPageSize r s
  | .ordinary =>
    let s := roundUp s
    let r' :=
      if r.curr = 0 then getFirstRegionPage gc defaultPageSize r s
      else if r.lastPlusOne - r.offset < s then growRegion gc defaultPageSize r s
      else some r
    r'.map (RegionHandle.cut s)
  | .heap =>
    (gc.boundedMalloc r.pages s).map fun p => ({ r with pages := ⟨p, s⟩ :: r.pages }, p)
  | .refcnt =>
    -- a word for the reference count
    (gc.boundedMalloc r.pages (s + 4)).map fun p =>
      ({ r with pages := ⟨p, s + 4⟩ :: r.pages }, p + 4)

/-- `_region_calloc`. -/
def regionCalloc (kind : RegionKind) (r : RegionHandle) (n t : Word) :
    Option (RegionHandle × Word) :=
  regionMalloc gc defaultPageSize kind r (n * t)

end Code

/-! ## Runs of requests -/

/-- A call, with the default page size at that time. -/
inductive AllocRequest where
  | malloc (defaultPageSize s : Word)
  | calloc (defaultPageSize n t : Word)
  deriving DecidableEq

namespace AllocRequest

/-- The requested size. -/
def size : AllocRequest → Nat
  | .malloc _ s => s.toNat
  | .calloc _ n t => n.toNat * t.toNat

/-- The requested size as the code computes it. -/
def word : AllocRequest → Word
  | .malloc _ s => s
  | .calloc _ n t => n * t

def pageSize : AllocRequest → Word
  | .malloc d _ => d
  | .calloc d _ _ => d

def run (gc : Collector) (kind : RegionKind) (r : RegionHandle) :
    AllocRequest → Option (RegionHandle × Word)
  | .malloc d s => regionMalloc gc d kind r s
  | .calloc d n t => regionCalloc gc d kind r n t

theorem run_eq (gc : Collector) (kind : RegionKind) (r : RegionHandle) (q : AllocRequest) :
    q.run gc kind r = regionMalloc gc q.pageSize kind r q.word := by
  cases q <;> rfl

theorem toNat_word (q : AllocRequest) : q.word.toNat = q.size % 2 ^ 32 := by
  cases q with
  | malloc d s => exact (Nat.mod_eq_of_lt s.isLt).symm
  | calloc d n t => exact BitVec.toNat_mul n t

end AllocRequest

/-- A block that was returned: its address and its length after rounding. -/
structure Block where
  start : Word
  len : Word
  deriving DecidableEq

namespace RegionKind

/-- The bytes in front of the blocks of an object: the header of a page, or a reference count. -/
def front : RegionKind → Word
  | .heap => 0
  | .refcnt => 4
  | .ordinary | .extended => 8

/-- Blocks are cut from pages. -/
def paged : RegionKind → Bool
  | .heap | .refcnt => false
  | .ordinary | .extended => true

/-- The length of a block for a requested size. -/
def blockLen : RegionKind → Word → Word
  | .heap, s | .refcnt, s => s
  | .ordinary, s | .extended, s => roundUp s

/-- The size of the object a request takes from the collector, if it takes one; `s` is the length of
the block. -/
def asks (kind : RegionKind) (defaultPageSize : Word) (r : RegionHandle) (s : Word) : Option Word :=
  match kind with
  | .heap => some s
  | .refcnt => some (s + 4)
  | .ordinary =>
    if r.curr = 0 then
      some (RegionHandle.header + if defaultPageSize < s then s else defaultPageSize)
    else if r.lastPlusOne - r.offset < s then
      let nextSize := (r.lastPlusOne - (r.curr + RegionHandle.header)) * 2
      some (RegionHandle.header + if nextSize < s then s + defaultPageSize else nextSize)
    else none
  | .extended =>
    if r.lastPlusOne - r.offset < s then
      let nextSize :=
        if r.offset = 0 then defaultPageSize
        else (r.lastPlusOne - (r.curr + RegionHandle.header)) * 2
      some (RegionHandle.header + if nextSize < s then s else nextSize)
    else none

end RegionKind

/-- A region and the blocks it has returned, newest first. -/
structure AllocState where
  region : RegionHandle
  blocks : List Block
  deriving DecidableEq

/-- Serve a request. -/
def AllocState.serve (gc : Collector) (kind : RegionKind) (st : AllocState) (q : AllocRequest) :
    Option AllocState :=
  (q.run gc kind st.region).map fun x => ⟨x.1, ⟨x.2, kind.blockLen q.word⟩ :: st.blocks⟩

/-- A region without blocks. -/
def AllocState.initial : AllocState := ⟨RegionHandle.empty, []⟩

/-- The block is in the object, behind what the code keeps there. -/
structure Block.InPage (kind : RegionKind) (b : Block) (p : Page) : Prop where
  front : p.addr.toNat + kind.front.toNat ≤ b.start.toNat
  back : b.start.toNat + b.len.toNat ≤ p.addr.toNat + p.size.toNat

/-- The blocks have no byte in common. -/
def Block.Disjoint (b c : Block) : Prop :=
  b.start.toNat + b.len.toNat ≤ c.start.toNat ∨ c.start.toNat + c.len.toNat ≤ b.start.toNat

/-- The request was served: the new block is as long as requested, in one page of the region, and
disjoint from all earlier ones. -/
def Served (kind : RegionKind) (st : AllocState) (q : AllocRequest) (st' : AllocState) : Prop :=
  ∃ b, st'.blocks = b :: st.blocks ∧ q.size ≤ b.len.toNat ∧
    (∃ p ∈ st'.region.pages, b.InPage kind p) ∧ ∀ c ∈ st.blocks, b.Disjoint c

/-- No size of the request wraps around: the requested size can be rounded, an object that is taken
has room for the block, and a block that is taken from a page has a page. -/
structure AllocRequest.Fits (kind : RegionKind) (st : AllocState) (q : AllocRequest) : Prop where
  size : q.size + (if kind.paged then 7 else 0) < 2 ^ 32
  room : ∀ n, kind.asks q.pageSize st.region (kind.blockLen q.word) = some n →
    kind.front.toNat + (kind.blockLen q.word).toNat ≤ n.toNat
  page : kind.asks q.pageSize st.region (kind.blockLen q.word) = none → st.region.pages ≠ []

/-! ### Rounding -/

theorem and_not_seven (x : Word) : x &&& ~~~(7#32) = (x >>> 3) <<< 3 := by
  have hseven : ∀ i < 32, (7#32).getLsbD i = decide (i < 3) := by decide
  apply BitVec.eq_of_getLsbD_eq
  intro i hi
  rw [BitVec.getLsbD_and, BitVec.getLsbD_not, hseven i hi, BitVec.getLsbD_shiftLeft,
    BitVec.getLsbD_ushiftRight]
  by_cases h : i < 3
  · simp [h]
  · simp [h, hi, show 3 + (i - 3) = i by omega]

theorem toNat_roundUp (s : Word) : (roundUp s).toNat = (s + 7).toNat / 8 * 8 := by
  have hadd : s + 8 - 1 = s + 7 := by bv_omega
  have hmask : roundUp s = ((s + 7) >>> 3) <<< 3 := by
    rw [roundUp, hadd]
    exact and_not_seven (s + 7)
  rw [hmask, BitVec.toNat_shiftLeft, BitVec.toNat_ushiftRight, Nat.shiftLeft_eq,
    Nat.shiftRight_eq_div_pow]
  exact Nat.mod_eq_of_lt (by omega)

/-- The block is as long as requested if and only if neither the product nor the rounding wraps. -/
theorem size_le_blockLen_iff (kind : RegionKind) (q : AllocRequest) :
    q.size ≤ (kind.blockLen q.word).toNat ↔ q.size + (if kind.paged then 7 else 0) < 2 ^ 32 := by
  have hword := q.toNat_word
  have hround : q.size ≤ (roundUp q.word).toNat ↔ q.size + 7 < 2 ^ 32 := by
    rw [toNat_roundUp, BitVec.toNat_add, show (7 : Word).toNat = 7 from rfl]
    omega
  have hexact : q.size ≤ q.word.toNat ↔ q.size + 0 < 2 ^ 32 := by
    omega
  cases kind with
  | heap | refcnt => exact hexact
  | ordinary | extended => exact hround

/-! ### What a request does -/

variable {a : Word}

/-- A request cuts its block from the newest page, or takes an object and puts the block behind its
front. -/
def Granted (gc : Collector) (d : Word) (kind : RegionKind) (r : RegionHandle) (len : Word)
    (r' : RegionHandle) (a : Word) : Prop :=
  (kind.asks d r len = none ∧ kind.paged = true ∧ a = r.offset ∧
      r' = { r with offset := r.offset + len }) ∨
    ∃ n p, kind.asks d r len = some n ∧ gc.malloc r.pages n = some p ∧
      (kind = .ordinary → n < 2147483647) ∧ r'.pages = ⟨p, n⟩ :: r.pages ∧ a = p + kind.front ∧
      (kind.paged = true → r'.offset = a + len ∧ r'.lastPlusOne = p + n)

theorem granted_of_regionMalloc {gc : Collector} {d : Word} {kind : RegionKind}
    {r r' : RegionHandle} {s : Word} (h : regionMalloc gc d kind r s = some (r', a)) :
    Granted gc d kind r (kind.blockLen s) r' a := by
  -- the bound on the size of an object makes requests fail
  have hbounded : ∀ {n p : Word}, gc.boundedMalloc r.pages n = some p →
      gc.malloc r.pages n = some p ∧ n < 2147483647 := by
    intro n p hp
    unfold Collector.boundedMalloc at hp
    split_ifs at hp with hlarge
    exact ⟨hp, BitVec.not_le.1 hlarge⟩
  -- a new page, and the block cut from it
  have hpage : ∀ {size len p : Word} {r1 r2 : RegionHandle} {a : Word},
      r.addPage size p = r1 → RegionHandle.cut len r1 = (r2, a) →
      r2.pages = ⟨p, 8 + size⟩ :: r.pages ∧ a = p + 8 ∧ (kind.paged = true →
        r2.offset = a + len ∧ r2.lastPlusOne = p + (8 + size)) := by
    rintro size len p r1 r2 a rfl hcut
    cases hcut
    exact ⟨rfl, rfl, fun _ => ⟨rfl, BitVec.add_assoc p 8 size⟩⟩
  cases kind with
  | heap =>
    obtain ⟨p, hp, hx⟩ := map_eq_some_iff.1 h
    cases hx
    exact .inr ⟨s, a, rfl, (hbounded hp).1, nofun, rfl, (BitVec.add_zero a).symm, nofun⟩
  | refcnt =>
    obtain ⟨p, hp, hx⟩ := map_eq_some_iff.1 h
    cases hx
    exact .inr ⟨s + 4, p, rfl, (hbounded hp).1, nofun, rfl, rfl, nofun⟩
  | ordinary =>
    obtain ⟨r1, hr1, hcut⟩ := map_eq_some_iff.1 h
    split_ifs at hr1 with hcurr hfull
    · obtain ⟨p, hp, hadd⟩ := map_eq_some_iff.1 hr1
      exact .inr ⟨_, p, if_pos hcurr, (hbounded hp).1, fun _ => (hbounded hp).2,
        hpage hadd hcut⟩
    · obtain ⟨p, hp, hadd⟩ := map_eq_some_iff.1 hr1
      exact .inr ⟨_, p, (if_neg hcurr).trans (if_pos hfull), (hbounded hp).1,
        fun _ => (hbounded hp).2, hpage hadd hcut⟩
    · obtain rfl := Option.some.inj hr1
      cases hcut
      exact .inl ⟨(if_neg hcurr).trans (if_neg hfull), rfl, rfl, rfl⟩
  | extended =>
    obtain ⟨r1, hr1, hcut⟩ := map_eq_some_iff.1 h
    split at hr1
    case isTrue hfull =>
      obtain ⟨p, hp, hadd⟩ := map_eq_some_iff.1 hr1
      exact .inr ⟨_, p, if_pos hfull, hp, nofun, hpage hadd hcut⟩
    case isFalse hfull =>
      obtain rfl := Option.some.inj hr1
      cases hcut
      exact .inl ⟨if_neg hfull, rfl, rfl, rfl⟩

/-! ### The invariant -/

/-- The pages are apart and have room for their header, each block is in one of them, and the
free part of the newest page is behind its blocks. -/
structure AllocState.Inv (kind : RegionKind) (st : AllocState) : Prop where
  apart : st.region.pages.Pairwise Page.Apart
  bounded : ∀ p ∈ st.region.pages, p.addr ≠ 0 ∧ p.addr.toNat + p.size.toNat < 2 ^ 32 ∧
    (kind = .ordinary → p.size < 2147483647)
  inPage : ∀ b ∈ st.blocks, ∃ p ∈ st.region.pages, b.InPage kind p
  newest : kind.paged = true → ∀ p ps, st.region.pages = p :: ps →
    p.addr.toNat + 8 ≤ st.region.offset.toNat ∧
    st.region.offset.toNat ≤ st.region.lastPlusOne.toNat ∧
    st.region.lastPlusOne.toNat = p.addr.toNat + p.size.toNat ∧
    ∀ b ∈ st.blocks, b.InPage kind p → b.start.toNat + b.len.toNat ≤ st.region.offset.toNat

theorem AllocState.inv_initial (kind : RegionKind) : AllocState.initial.Inv kind where
  apart := List.Pairwise.nil
  bounded := nofun
  inPage := nofun
  newest := nofun

section Steps

variable {gc : Collector} {kind : RegionKind} {st st' : AllocState} {q : AllocRequest}

variable {b : Block} {p p' : Page} {len n : Word} {ps : List Page}

theorem RegionKind.front_of_paged (hpaged : kind.paged = true) : kind.front.toNat = 8 := by
  cases kind <;> first | rfl | cases hpaged

/-- Blocks of different objects are disjoint. -/
theorem Block.InPage.disjoint {c : Block} (hb : b.InPage kind p)
    (hc : c.InPage kind p') (happ : p.Apart p') : b.Disjoint c := by
  obtain ⟨h1, h2⟩ := hb
  obtain ⟨h3, h4⟩ := hc
  rw [Page.Apart] at happ
  rw [Block.Disjoint]
  omega

/-- Two objects that are apart have no block with a front in common. -/
theorem Block.InPage.not_both (hpaged : kind.paged = true)
    (hb : b.InPage kind p) (hb' : b.InPage kind p') : ¬p.Apart p' := by
  have hfront := RegionKind.front_of_paged hpaged
  obtain ⟨h1, h2⟩ := hb
  obtain ⟨h3, h4⟩ := hb'
  rw [Page.Apart]
  omega

/-- What `serve` does, in terms of the state. -/
theorem serve_cases (h : st.serve gc kind q = some st') :
    ∃ a, st'.blocks = ⟨a, kind.blockLen q.word⟩ :: st.blocks ∧
      Granted gc q.pageSize kind st.region (kind.blockLen q.word) st'.region a := by
  obtain ⟨⟨r', a⟩, hrun, rfl⟩ := map_eq_some_iff.1 h
  rw [AllocRequest.run_eq] at hrun
  exact ⟨a, rfl, granted_of_regionMalloc hrun⟩

/-- A block that is cut from the newest page fits in it. -/
theorem AllocState.Inv.cut (hi : st.Inv kind) (hasks : kind.asks q.pageSize st.region len = none)
    (hpages : st.region.pages = p :: ps) (hpaged : kind.paged = true) :
    (Block.mk st.region.offset len).InPage kind p := by
  obtain ⟨hfront, hle, hlast, _⟩ := hi.newest hpaged p ps hpages
  have hroom : len.toNat ≤ (st.region.lastPlusOne - st.region.offset).toNat := by
    have hcurr : st.region.curr ≠ 0 := by
      rw [RegionHandle.curr_eq hpages]
      exact (hi.bounded p (by simp [hpages])).1
    cases kind with
    | heap | refcnt => cases hpaged
    | ordinary | extended =>
      simp only [RegionKind.asks, if_neg hcurr] at hasks
      split_ifs at hasks with hfull
      exact BitVec.not_lt.1 hfull
  rw [BitVec.toNat_sub_of_le hle] at hroom
  constructor
  · rw [RegionKind.front_of_paged hpaged]
    exact hfront
  · show st.region.offset.toNat + len.toNat ≤ _
    omega

/-- The block of a new object with room for it. -/
theorem Collector.inPage (gc : Collector) {p : Word}
    (hp : gc.malloc ps n = some p) (hroom : kind.front.toNat + len.toNat ≤ n.toNat) :
    (p + kind.front).toNat = p.toNat + kind.front.toNat ∧
      (Block.mk (p + kind.front) len).InPage kind ⟨p, n⟩ := by
  have hbound := gc.bounded hp
  have hstart : (p + kind.front).toNat = p.toNat + kind.front.toNat :=
    BitVec.toNat_add_of_lt (by omega)
  refine ⟨hstart, hstart.ge, ?_⟩
  show (p + kind.front).toNat + len.toNat ≤ p.toNat + n.toNat
  omega

/-- The block of a new object is in an object of the region only if the new one has room for it. -/
theorem Collector.room_of_inPage (gc : Collector) {p : Word}
    (hp : gc.malloc ps n = some p) {o : Page} (ho : o ∈ Page.mk p n :: ps)
    (hin : (Block.mk (p + kind.front) len).InPage kind o) :
    kind.front.toNat + len.toNat ≤ n.toNat := by
  have hfront : o.addr.toNat + kind.front.toNat ≤ (p + kind.front).toNat := hin.front
  have hback : (p + kind.front).toNat + len.toNat ≤ o.addr.toNat + o.size.toNat := hin.back
  -- a front that wraps around is not in any object
  have hstart : (p + kind.front).toNat = p.toNat + kind.front.toNat := by
    rw [BitVec.toNat_add] at hfront ⊢
    omega
  rcases mem_cons.1 ho with rfl | ho
  · rw [hstart] at hback
    have hback' : p.toNat + kind.front.toNat + len.toNat ≤ p.toNat + n.toNat := hback
    omega
  · have happ : p.toNat + max n.toNat 1 ≤ o.addr.toNat ∨
        o.addr.toNat + max o.size.toNat 1 ≤ p.toNat := gc.apart hp o ho
    omega

/-- A request is served if and only if its sizes fit. -/
theorem AllocState.Inv.served_iff (hi : st.Inv kind) (h : st.serve gc kind q = some st') :
    Served kind st q st' ↔ q.Fits kind st := by
  obtain ⟨a, hblocks, hcases⟩ := serve_cases h
  have hlong := size_le_blockLen_iff kind q
  constructor
  · rintro ⟨b, hb, hsize, ⟨o, ho, hin⟩, _⟩
    rw [hblocks] at hb
    obtain ⟨rfl, -⟩ := List.cons.inj hb
    obtain ⟨hasks, hpaged, rfl, hregion⟩ | ⟨n, p, hasks, hp, _, hpages, rfl, _⟩ := hcases
    · refine ⟨hlong.1 hsize, fun n hn => ?_, fun _ hnil => ?_⟩
      · exact absurd (hasks.symm.trans hn) (Option.some_ne_none n).symm
      · rw [hregion] at ho
        exact absurd (hnil ▸ ho) List.not_mem_nil
    · refine ⟨hlong.1 hsize, fun n' hn => ?_, fun hnone => ?_⟩
      · obtain rfl := Option.some.inj (hasks.symm.trans hn)
        rw [hpages] at ho
        exact gc.room_of_inPage hp ho hin
      · exact absurd (hasks.symm.trans hnone) (Option.some_ne_none n)
  · rintro ⟨hsize, hroom, hpage⟩
    refine ⟨_, hblocks, hlong.2 hsize, ?_⟩
    obtain ⟨hasks, hpaged, rfl, hregion⟩ | ⟨n, p, hasks, hp, _, hpages, rfl, _⟩ := hcases
    · obtain ⟨o, os, hos⟩ := List.exists_cons_of_ne_nil (hpage hasks)
      have hin := hi.cut hasks hos hpaged
      refine ⟨⟨o, by simp [hregion, hos], hin⟩, fun c hc => ?_⟩
      -- a block of the newest page is below the offset, the others are in other pages
      obtain ⟨o', ho', hin'⟩ := hi.inPage c hc
      rw [hos] at ho'
      rcases mem_cons.1 ho' with rfl | ho'
      · exact .inr ((hi.newest hpaged o' os hos).2.2.2 c hc hin')
      · have happ := (List.pairwise_cons.1 (hos ▸ hi.apart)).1 o' ho'
        exact hin.disjoint hin' happ
    · obtain ⟨_, hin⟩ := gc.inPage hp (hroom n hasks)
      refine ⟨⟨⟨p, n⟩, by simp [hpages], hin⟩, fun c hc => ?_⟩
      obtain ⟨o', ho', hin'⟩ := hi.inPage c hc
      exact hin.disjoint hin' (gc.apart hp o' ho')

/-- A request that fits keeps the invariant. -/
theorem AllocState.Inv.serve (hi : st.Inv kind) (h : st.serve gc kind q = some st')
    (hfits : q.Fits kind st) : st'.Inv kind := by
  obtain ⟨a, hblocks, hcases⟩ := serve_cases h
  obtain ⟨hasks, hpaged, rfl, hregion⟩ | ⟨n, p, hasks, hp, hn, hpages, rfl, hnew⟩ := hcases
  · obtain ⟨o, os, hos⟩ := List.exists_cons_of_ne_nil (hfits.page hasks)
    have hin := hi.cut hasks hos hpaged
    obtain ⟨hfront, hle, hlast, hbelow⟩ := hi.newest hpaged o os hos
    have hback : st.region.offset.toNat + (kind.blockLen q.word).toNat ≤
        o.addr.toNat + o.size.toNat := hin.back
    have hoffset : (st.region.offset + kind.blockLen q.word).toNat =
        st.region.offset.toNat + (kind.blockLen q.word).toNat := by
      exact BitVec.toNat_add_of_lt (by omega)
    refine ⟨by simpa [hregion] using hi.apart, by simpa [hregion] using hi.bounded, ?_, ?_⟩
    · rw [hblocks, hregion]
      exact forall_mem_cons.2 ⟨⟨o, by simp [hos], hin⟩, hi.inPage⟩
    · rw [hblocks, hregion]
      intro _ o' os' hos'
      obtain ⟨rfl, rfl⟩ := List.cons.inj (hos.symm.trans hos')
      dsimp only
      rw [hoffset]
      refine ⟨by omega, by omega, hlast, forall_mem_cons.2 ⟨fun _ => le_refl _, ?_⟩⟩
      intro b hb hbin
      have hend := hbelow b hb hbin
      omega
  · obtain ⟨hstart, hin⟩ := gc.inPage hp (hfits.room n hasks)
    have hback : (p + kind.front).toNat + (kind.blockLen q.word).toNat ≤ p.toNat + n.toNat :=
      hin.back
    have hbound := gc.bounded hp
    refine ⟨?_, ?_, ?_, ?_⟩
    · rw [hpages]
      exact List.pairwise_cons.2 ⟨gc.apart hp, hi.apart⟩
    · rw [hpages]
      exact forall_mem_cons.2 ⟨⟨gc.nonnull hp, hbound, hn⟩, hi.bounded⟩
    · rw [hblocks, hpages]
      refine forall_mem_cons.2 ⟨⟨_, .head _, hin⟩, fun b hb => ?_⟩
      obtain ⟨o, ho, hbin⟩ := hi.inPage b hb
      exact ⟨o, .tail _ ho, hbin⟩
    · intro hpaged o os hos
      obtain ⟨hoffset, hlast⟩ := hnew hpaged
      rw [hpages] at hos
      obtain ⟨rfl, rfl⟩ := List.cons.inj hos
      have hcut : st'.region.offset.toNat =
          (p + kind.front).toNat + (kind.blockLen q.word).toNat := by
        rw [hoffset]
        exact BitVec.toNat_add_of_lt (by omega)
      have hend : st'.region.lastPlusOne.toNat = p.toNat + n.toNat := by
        rw [hlast]
        exact BitVec.toNat_add_of_lt hbound
      have hfront := RegionKind.front_of_paged hpaged
      rw [hblocks, hcut, hend]
      dsimp only
      refine ⟨by omega, by omega, rfl, forall_mem_cons.2 ⟨fun _ => le_refl _, ?_⟩⟩
      intro b hb hbin
      obtain ⟨o, ho, hbin'⟩ := hi.inPage b hb
      exact absurd (gc.apart hp o ho) (hbin.not_both hpaged hbin')

end Steps

/-- Twice the size of the newest page of an ordinary region, which is below `2 ^ 31`. -/
theorem AllocState.Inv.doubled {st : AllocState} (hi : st.Inv .ordinary)
    (hcurr : st.region.curr ≠ 0) :
    ((st.region.lastPlusOne - (st.region.curr + RegionHandle.header)) * 2).toNat + 8 < 2 ^ 32 := by
  cases hpages : st.region.pages with
  | nil => exact absurd (by rw [RegionHandle.curr, hpages]) hcurr
  | cons p ps =>
    obtain ⟨hfront, hle, hlast, _⟩ := hi.newest rfl p ps hpages
    obtain ⟨_, hbound, hsize⟩ := hi.bounded p (by simp [hpages])
    have hsize' : p.size.toNat < 2147483647 := hsize rfl
    rw [RegionHandle.curr_eq hpages, RegionHandle.header]
    bv_omega

/-- In an ordinary region a request fits if its size and the default page size together stay below
`2 ^ 32` by the size of a header and the rounding. -/
theorem AllocState.Inv.fits_of_le {st : AllocState} {q : AllocRequest} (hi : st.Inv .ordinary)
    (hle : q.size + q.pageSize.toNat + 16 ≤ 2 ^ 32) : q.Fits .ordinary st := by
  have hlen : (roundUp q.word).toNat ≤ q.size + 7 := by
    have hword := q.toNat_word
    rw [toNat_roundUp]
    bv_omega
  -- a page size that does not wrap with its header has room for the block
  have hroom : ∀ {size : Word}, size.toNat + 8 < 2 ^ 32 → (roundUp q.word).toNat ≤ size.toNat →
      8 + (roundUp q.word).toNat ≤ (RegionHandle.header + size).toNat := by
    intro size hlt hsize
    rw [RegionHandle.header]
    bv_omega
  refine ⟨show q.size + 7 < 2 ^ 32 by omega, fun n hn => ?_, fun hnone hnil => ?_⟩
  · replace hn : RegionKind.ordinary.asks q.pageSize st.region (roundUp q.word) = some n := hn
    show 8 + (roundUp q.word).toNat ≤ n.toNat
    generalize roundUp q.word = len at *
    simp only [RegionKind.asks] at hn
    split_ifs at hn with hcurr hsmall hfull hsmall
    all_goals obtain rfl := Option.some.inj hn
    · exact hroom (by omega) (le_refl _)
    · exact hroom (by omega) (BitVec.not_lt.1 hsmall)
    · exact hroom (by bv_omega) (by bv_omega)
    · exact hroom (hi.doubled hcurr) (BitVec.not_lt.1 hsmall)
  · have hcurr : st.region.curr = 0 := by rw [RegionHandle.curr, hnil]
    simp [RegionKind.asks, hcurr] at hnone

/-- In an ordinary region all requests are served whose sizes are that small. -/
theorem ordinary_allocations_served (gc : Collector) {qs : List AllocRequest}
    (hle : ∀ q ∈ qs, q.size + q.pageSize.toNat + 16 ≤ 2 ^ 32) :
    Along (AllocState.serve gc .ordinary) (Served .ordinary) .initial qs := by
  have hi := AllocState.inv_initial .ordinary
  generalize AllocState.initial = st at hi ⊢
  induction qs generalizing st with
  | nil => trivial
  | cons q qs ih =>
    obtain ⟨hq, hqs⟩ := forall_mem_cons.1 hle
    intro st' hserve
    have hfits := hi.fits_of_le hq
    exact ⟨(hi.served_iff hserve).2 hfits, ih hqs st' (hi.serve hserve hfits)⟩

/-- Along every sequence of requests, up to one that fails: all requests are served if and only if
the sizes of all of them fit. -/
theorem allocations_served_iff (gc : Collector) (kind : RegionKind) (qs : List AllocRequest) :
    Along (AllocState.serve gc kind) (Served kind) .initial qs ↔
      Along (AllocState.serve gc kind) (fun st q _ => q.Fits kind st) .initial qs := by
  refine along_iff (I := AllocState.Inv kind) ?_ ?_ (AllocState.inv_initial kind) qs
  · intro st q st' hi hserve
    exact hi.served_iff hserve
  · intro st q st' hi hserve hfits
    exact hi.serve hserve hfits

/-- The first address behind all objects. -/
def pagesEnd : List Page → Nat
  | [] => 4096
  | p :: ps => max (p.addr.toNat + max p.size.toNat 1) (pagesEnd ps)

theorem le_pagesEnd (ps : List Page) :
    4096 ≤ pagesEnd ps ∧ ∀ p ∈ ps, p.addr.toNat + max p.size.toNat 1 ≤ pagesEnd ps := by
  induction ps with
  | nil => exact ⟨le_refl _, nofun⟩
  | cons p ps ih =>
    rw [forall_mem_cons]
    refine ⟨le_max_of_le_right ih.1, le_max_left _ _, fun p' hp' => ?_⟩
    exact le_max_of_le_right (ih.2 p' hp')

/-- The objects behind all others, while there is room. -/
def bumpMalloc (ps : List Page) (n : Word) : Option Word :=
  if pagesEnd ps + n.toNat < 2 ^ 32 then some (BitVec.ofNat 32 (pagesEnd ps)) else none

theorem bumpMalloc_eq_some {ps : List Page} {n : Word} (h : bumpMalloc ps n = some a) :
    a.toNat = pagesEnd ps ∧ pagesEnd ps + n.toNat < 2 ^ 32 := by
  unfold bumpMalloc at h
  split_ifs at h with hlt
  obtain rfl := Option.some.inj h
  exact ⟨Nat.mod_eq_of_lt (by omega), hlt⟩

/-- A collector that puts each object behind all others. -/
def bumpCollector : Collector where
  malloc := bumpMalloc
  nonnull := by
    rintro ps n a h rfl
    have hlow := (le_pagesEnd ps).1
    have hzero : 0 = pagesEnd ps := (bumpMalloc_eq_some h).1
    omega
  bounded := by
    intro ps n a h
    obtain ⟨haddr, hlt⟩ := bumpMalloc_eq_some h
    rwa [haddr]
  apart := by
    intro ps n a h p hp
    refine .inr ?_
    show _ ≤ a.toNat
    rw [(bumpMalloc_eq_some h).1]
    exact (le_pagesEnd ps).2 p hp

theorem ordinary_allocations_served_two :
    Along (AllocState.serve bumpCollector .ordinary) (Served .ordinary) .initial
      [.calloc 480 3 100, .malloc 480 600] :=
  ordinary_allocations_served bumpCollector (by decide)

/-- Requests whose sizes wrap: the product of a `calloc`, the rounding, and the size of a page that
has room for the block. -/
theorem not_allocations_served :
    (¬ Along (AllocState.serve bumpCollector .ordinary) (Served .ordinary) .initial
      [.calloc 480 65536 65536]) ∧
    (¬ Along (AllocState.serve bumpCollector .extended) (Served .extended) .initial
      [.malloc 480 0xFFFFFFFF]) ∧
    ¬ Along (AllocState.serve bumpCollector .ordinary) (Served .ordinary) .initial
      [.malloc 480 8, .malloc 480 0xFFFFFF00] := by
  refine ⟨fun h => ?_, fun h => ?_, fun h => ?_⟩
  · obtain ⟨⟨b, hb, hsize, _⟩, _⟩ :=
      h ⟨⟨[⟨4096, 488⟩], 4104, 4584⟩, [⟨4104, 0⟩]⟩ (by decide +kernel)
    cases hb
    exact absurd hsize (by decide)
  · obtain ⟨⟨b, hb, hsize, _⟩, _⟩ := h ⟨⟨[], 0, 0⟩, [⟨0, 0⟩]⟩ (by decide +kernel)
    cases hb
    exact absurd hsize (by decide)
  · obtain ⟨_, h⟩ := h ⟨⟨[⟨4096, 488⟩], 4112, 4584⟩, [⟨4104, 8⟩]⟩ (by decide +kernel)
    obtain ⟨⟨b, hb, _, ⟨p, hp, hin⟩, _⟩, _⟩ := h
      ⟨⟨[⟨4584, 232⟩, ⟨4096, 488⟩], 4336, 4816⟩, [⟨4592, 0xFFFFFF00⟩, ⟨4104, 8⟩]⟩
      (by decide +kernel)
    cases hb
    simp only [mem_cons, List.not_mem_nil, or_false] at hp
    rcases hp with rfl | rfl
    · exact absurd hin.back (by decide)
    · exact absurd hin.back (by decide)

end ConcurrentCyclone.Runtime
