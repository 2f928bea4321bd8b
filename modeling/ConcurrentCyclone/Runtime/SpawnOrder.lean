import ConcurrentCyclone.Runtime.KeyTree

/-!
# The order of a spawn's capability array

`merge_caps` sorts the capability array by the addresses of the spawner's keys, highest first, and
`__treecopy` relies on that order twice: its release loop runs over the array from the end and must
meet a key before the keys above it, and it links the new thread's keys in the order of the array,
so that all threads visit two sibling regions in the same order. The keys a thread creates are
allocated downwards, parents above children. The keys it was given when it was started are the
elements of an array in the order of the sorted entries, parents below children: when it passes them
on, the sort puts children first.

In every run, the array of a spawn has no key after one of its descendants exactly when the spawner
was not given two of the keys that it passes, one above the other (`Laid.parentsFirst_iff`), and
then the release loop touches no key that was given up before (`takeCounts_ne_released`). Siblings
keep one order in all threads as long as no thread passes two siblings that it was given
(`laid_newKeys`).
-/

set_option autoImplicit false

namespace ConcurrentCyclone.Runtime

open Function Transition
open List (pairwise_cons mem_cons pairwise_map perm_insertionSort getElem_mem)

/-- The key of region `z` is at address `a`. -/
def Keys.At (z : Rid) (a : Int) : Keys → Prop
  | .nil => False
  | .key h b _ sub next => (h = z ∧ b = a) ∨ sub.At z a ∨ next.At z a

/-- The key of region `p` has the sub-keys `s`. -/
def Keys.SubOf (ks : Keys) (p : Rid) (s : Keys) : Prop :=
  match ks with
  | .nil => False
  | .key h _ _ sub next => (h = p ∧ sub = s) ∨ sub.SubOf p s ∨ next.SubOf p s

/-- The regions in the order in which `__xregion_lockop` gets to them: each key after its
sub-keys. -/
def Keys.walk : Keys → List Rid
  | .nil => []
  | .key h _ _ sub next => sub.walk ++ h :: next.walk

/-- In every list of sub-keys, regions that were created later come first. -/
def Keys.Falling : Keys → Prop
  | .nil => True
  | .key _ _ _ sub next => sub.heads.Pairwise (· > ·) ∧ sub.Falling ∧ next.Falling

/-! ## Lists of siblings -/

section Siblings

variable {ks s : Keys} {y z p : Rid}

theorem Keys.heads_sublist_walk (ks : Keys) : ks.heads.Sublist ks.walk := by
  induction ks with
  | nil => exact List.Sublist.refl _
  | key h a l sub next _ ihnext =>
    exact (ihnext.cons_cons h).trans (List.sublist_append_right _ _)

theorem Keys.heads_sublist_regions (ks : Keys) : ks.heads.Sublist ks.regions := by
  induction ks with
  | nil => exact List.Sublist.refl _
  | key h a l sub next _ ihnext =>
    exact (ihnext.trans (List.sublist_append_right _ _)).cons_cons h

theorem Keys.walk_perm (ks : Keys) : ks.walk.Perm ks.regions := by
  induction ks with
  | nil => exact List.Perm.refl _
  | key h a l sub next ihsub ihnext =>
    exact List.perm_middle.trans ((ihsub.append ihnext).cons h)

theorem Keys.Falling.subOf (hks : ks.Falling) (hs : ks.SubOf p s) : s.heads.Pairwise (· > ·) := by
  induction ks with
  | nil => exact hs.elim
  | key h a l sub next ihsub ihnext =>
    rcases hs with ⟨_, rfl⟩ | hs | hs
    · exact hks.1
    · exact ihsub hks.2.1 hs
    · exact ihnext hks.2.2 hs

theorem Keys.SubOf.nodup (hs : ks.SubOf p s) (hnodup : ks.regions.Nodup) : s.regions.Nodup := by
  induction ks with
  | nil => exact hs.elim
  | key h a l sub next ihsub ihnext =>
    obtain ⟨hsub, hnext, _⟩ := Keys.nodup_key hnodup
    rcases hs with ⟨_, rfl⟩ | hs | hs
    · exact hsub
    · exact ihsub hs hsub
    · exact ihnext hs hnext

variable {l : List Rid}

theorem sublist_of_falling (hl : l.Pairwise (· > ·)) (hy : y ∈ l) (hz : z ∈ l)
    (hlt : z < y) : [y, z].Sublist l := by
  have hmem : [y, z] ⊆ l := by simp [hy, hz]
  have hperm := List.subperm_of_subset (by simp [hlt.ne']) hmem
  exact List.sublist_of_subperm_of_pairwise hperm (by simpa using hlt) hl

/-- Two siblings are visited in the order of their regions, the later one first. -/
theorem sublist_walk_iff (hs : s.heads.Pairwise (· > ·)) (hnodup : s.regions.Nodup)
    (hy : y ∈ s.heads) (hz : z ∈ s.heads) : [y, z].Sublist s.walk ↔ z < y := by
  have hwalk : s.walk.Nodup := s.walk_perm.nodup_iff.2 hnodup
  constructor
  · intro hyz
    by_contra hlt
    rcases Nat.lt_or_eq_of_le (Nat.not_lt.1 hlt) with hlt | rfl
    · have hzy := (sublist_of_falling hs hz hy hlt).trans s.heads_sublist_walk
      have heq := (hwalk.perm_iff_eq_of_sublist hyz hzy).1 (.swap z y [])
      exact hlt.ne (List.cons.inj heq).1
    · simpa using hwalk.sublist hyz
  · intro hlt
    exact (sublist_of_falling hs hy hz hlt).trans s.heads_sublist_walk

end Siblings

/-! ## Replacing a key -/

section Replaced

variable {h y z p : Rid} {a : Int} {k : KeyData} {o : Option KeyData} {ks ks' : Keys}

section

variable (hrep : Replaced h k o ks ks')

include hrep

theorem Replaced.heads_sublist : ks'.heads.Sublist ks.heads := by
  induction hrep with
  | removed => exact List.sublist_cons_self _ _
  | changed | sub => exact List.Sublist.refl _
  | next _ _ ih => exact ih.cons_cons _

/-- The sub-keys of the replaced key. -/
theorem Replaced.falling_old (hks : ks.Falling) : k.2.heads.Pairwise (· > ·) ∧ k.2.Falling := by
  induction hrep with
  | removed | changed => exact ⟨hks.1, hks.2.1⟩
  | sub _ _ ih => exact ih hks.2.1
  | next _ _ ih => exact ih hks.2.2

theorem Replaced.falling_new (hks : ks.Falling)
    (hnew : ∀ k', o = some k' → k'.2.heads.Pairwise (· > ·) ∧ k'.2.Falling) : ks'.Falling := by
  induction hrep with
  | removed => exact hks.2.2
  | changed => exact ⟨(hnew _ rfl).1, (hnew _ rfl).2, hks.2.2⟩
  | sub _ hrep ih => exact ⟨hks.1.sublist hrep.heads_sublist, ih hks.2.1 hnew, hks.2.2⟩
  | next _ _ ih => exact ⟨hks.1, hks.2.1, ih hks.2.2 hnew⟩

theorem Replaced.at_old (hz : k.2.At z a) : ks.At z a := by
  induction hrep with
  | removed | changed => exact .inr (.inl hz)
  | sub _ _ ih => exact .inr (.inl ih)
  | next _ _ ih => exact .inr (.inr ih)

/-- A key that is there was there before, or is below the new key. -/
theorem Replaced.at_new (hz : ks'.At z a) : ks.At z a ∨ ∃ k', o = some k' ∧ k'.2.At z a := by
  induction hrep with
  | removed => exact .inl (.inr (.inr hz))
  | changed =>
    rcases hz with hz | hz | hz
    · exact .inl (.inl hz)
    · exact .inr ⟨_, rfl, hz⟩
    · exact .inl (.inr (.inr hz))
  | sub _ _ ih =>
    rcases hz with hz | hz | hz
    · exact .inl (.inl hz)
    · exact (ih hz).imp_left fun hz => .inr (.inl hz)
    · exact .inl (.inr (.inr hz))
  | next _ _ ih =>
    rcases hz with hz | hz | hz
    · exact .inl (.inl hz)
    · exact .inl (.inr (.inl hz))
    · exact (ih hz).imp_left fun hz => .inr (.inr hz)

theorem Replaced.regions_create {b : Int} {l : LocalCaps}
    (ho : o = some (k.1, .key y b l .nil k.2)) (hz : z ∈ ks'.regions) : z ∈ ks.regions ∨ z = y := by
  obtain ⟨rest, hold, hnew⟩ := hrep.regions_perm
  rw [hnew.mem_iff, ho] at hz
  rw [hold.mem_iff]
  simp only [regionsOf, Keys.regions, List.mem_append, mem_cons, List.nil_append] at hz ⊢
  tauto

/-- A new key is added below a key: the others have the keys above them that they had. -/
theorem Replaced.above_create {b : Int} {l : LocalCaps}
    (ho : o = some (k.1, .key y b l .nil k.2)) (habove : ks'.above p z = true) :
    ks.above p z = true ∨ z = y := by
  induction hrep with
  | removed => cases ho
  | changed =>
    obtain rfl := Option.some.inj ho
    simp only [Keys.above, Keys.regions, Bool.or_eq_true, Bool.and_eq_true, beq_iff_eq,
      decide_eq_true_eq, mem_cons, List.nil_append] at habove ⊢
    tauto
  | sub _ hrep ih =>
    have hmem := hrep.regions_create ho (z := z)
    simp only [Keys.above, Bool.or_eq_true, Bool.and_eq_true, beq_iff_eq,
      decide_eq_true_eq] at habove ih ⊢
    tauto
  | next _ hrep ih =>
    simp only [Keys.above, Bool.or_eq_true, Bool.and_eq_true, beq_iff_eq,
      decide_eq_true_eq] at habove ih ⊢
    tauto

end

section

variable (f : LocalCaps → LocalCaps)

include f

@[simp] theorem Keys.heads_mapCaps (ks : Keys) : (ks.mapCaps f).heads = ks.heads := by
  induction ks with
  | nil => rfl
  | key h a l sub next _ ihnext => simp [mapCaps, heads, ihnext]

@[simp] theorem Keys.falling_mapCaps (ks : Keys) : (ks.mapCaps f).Falling ↔ ks.Falling := by
  induction ks with
  | nil => exact Iff.rfl
  | key h a l sub next ihsub ihnext => simp [mapCaps, Falling, ihsub, ihnext]

@[simp] theorem Keys.at_mapCaps (ks : Keys) : (ks.mapCaps f).At z a ↔ ks.At z a := by
  induction ks with
  | nil => exact Iff.rfl
  | key h b l sub next ihsub ihnext => simp [mapCaps, At, ihsub, ihnext]

end

end Replaced

/-! ## The keys of one thread -/

/-- The keys of a thread that was started when there were the regions below `b`: it was given the
keys of these and has created the others. There is one key for each region, all regions are below
`n`, and no two keys are at one address; regions are created after the ones above them, and in every
list of sub-keys the ones that were created later come first. A key that the thread has created is
at a lower address than the keys it had before; of two keys that it was given, one above the other,
the lower one is at the higher address. -/
structure Laid (n b : Rid) (ks : Keys) : Prop where
  nodup : ks.regions.Nodup
  below : ∀ z ∈ ks.regions, z < n
  started : b ≤ n
  apart : ∀ y z a, ks.At y a → ks.At z a → y = z
  falling : ks.Falling
  older : ∀ y z, ks.above y z = true → y < z
  created : ∀ y z, y < z → b ≤ z → ∀ a c, ks.At y a → ks.At z c → c < a
  given : ∀ y z, ks.above y z = true → z < b → ∀ a c, ks.At y a → ks.At z c → a < c

variable {n b : Rid} {ks : Keys}

theorem Laid.proper (hks : Laid n b ks) : ks.Proper n := ⟨hks.nodup, hks.below⟩

theorem Laid.mono {n' : Rid} (hks : Laid n b ks) (hn : n ≤ n') : Laid n' b ks :=
  { hks with
    below := fun z hz => Nat.lt_of_lt_of_le (hks.below z hz) hn
    started := hks.started.trans hn }

theorem Keys.mem_of_at {z : Rid} {a : Int} (h : ks.At z a) : z ∈ ks.regions := by
  induction ks with
  | nil => exact h.elim
  | key h' b' l sub next ihsub ihnext =>
    rcases h with ⟨rfl, _⟩ | h | h
    · simp [regions]
    · simp [regions, ihsub h]
    · simp [regions, ihnext h]

/-- The addresses of the keys. -/
def Keys.addrs : Keys → List Int
  | .nil => []
  | .key _ a _ sub next => a :: (sub.addrs ++ next.addrs)

theorem Keys.mem_addrs {z : Rid} {a : Int} (h : ks.At z a) : a ∈ ks.addrs := by
  induction ks with
  | nil => exact h.elim
  | key h' b' l sub next ihsub ihnext =>
    rcases h with ⟨_, rfl⟩ | h | h
    · simp [addrs]
    · simp [addrs, ihsub h]
    · simp [addrs, ihnext h]

section Thread

variable {self : Tid} {g g' : Regions} {ks ks' : Keys}

variable {rgc wc rc w r : Int} {cs : List Caps}

variable {h : Rid}

/-- `_xregion_cap`. -/
theorem Laid.cap (hks : Laid n b ks)
    (hcall : Runtime.cap self h rgc wc rc g ks = .ok (g', ks')) : Laid n b ks' := by
  obtain ⟨k, o, hrep, hsame, _⟩ := cap_replaced hcall
  have hat : ∀ {z a}, ks'.At z a → ks.At z a := by
    intro z a hz
    rcases hrep.at_new hz with hz | ⟨k', rfl, hz⟩
    · exact hz
    · obtain ⟨f, hf⟩ := hsame k' rfl
      rw [hf, Keys.at_mapCaps] at hz
      exact hrep.at_old hz
  have habove : ∀ {y z}, ks'.above y z = true → ks.above y z = true := by
    intro y z hyz
    rwa [hrep.above_eq hsame hks.nodup (Keys.mem_of_above hyz).2] at hyz
  obtain ⟨hnodup, hbelow⟩ := hks.proper.cap hcall
  refine ⟨hnodup, hbelow, hks.started, fun y z a hy hz => hks.apart y z a (hat hy) (hat hz),
    hrep.falling_new hks.falling ?_, fun y z hyz => hks.older y z (habove hyz),
    fun y z hlt hb a c hy hz => hks.created y z hlt hb a c (hat hy) (hat hz),
    fun y z hyz hb a c hy hz => hks.given y z (habove hyz) hb a c (hat hy) (hat hz)⟩
  rintro k' rfl
  obtain ⟨f, hf⟩ := hsame k' rfl
  simpa [hf] using hrep.falling_old hks.falling

variable {addr : Int} {args : List CapArg} {l : LocalCaps}

theorem Keys.above_irrefl (hnodup : ks.regions.Nodup) (z : Rid) :
    ks.above z z = false := by
  induction ks with
  | nil => rfl
  | key h a l sub next ihsub ihnext =>
    obtain ⟨hsub, hnext, hhsub, _⟩ := Keys.nodup_key hnodup
    have hself : (h == z && decide (z ∈ sub.regions)) = false := by
      rw [Bool.and_eq_false_imp, beq_iff_eq, decide_eq_false_iff_not]
      rintro rfl
      exact hhsub
    simp only [above, ihsub hsub, ihnext hnext, hself, Bool.or_false]

/-- What `_new_xregion` adds to the keys of a thread. -/
theorem Laid.newXregion_keys {parent : Option Rid} (hks : Laid n b ks)
    (hcall : newXregion self parent n addr g ks = .ok (g', ks')) :
    (∀ z a, ks'.At z a → ks.At z a ∨ (z = n ∧ a = addr)) ∧
      (∀ y z, ks'.above y z = true → ks.above y z = true ∨ z = n) ∧ ks'.Falling := by
  cases parent with
  | none =>
    cases hcall
    refine ⟨?_, ?_, List.Pairwise.nil, trivial, hks.falling⟩
    · rintro z a (hz | hz | hz)
      · exact .inr ⟨hz.1.symm, hz.2.symm⟩
      · exact hz.elim
      · exact .inl hz
    · intro y z hyz
      exact .inl (by simpa [Keys.above, Keys.regions] using hyz)
  | some p =>
    obtain ⟨k, o, hf, hrep⟩ := onKey_ok hcall
    cases hf
    refine ⟨fun z a hz => ?_, fun y z => hrep.above_create rfl, hrep.falling_new hks.falling ?_⟩
    · rcases hrep.at_new hz with hz | ⟨k', ⟨rfl⟩, hz | hz | hz⟩
      · exact .inl hz
      · exact .inr ⟨hz.1.symm, hz.2.symm⟩
      · exact hz.elim
      · exact .inl (hrep.at_old hz)
    · rintro k' ⟨rfl⟩
      obtain ⟨hheads, hsub⟩ := hrep.falling_old hks.falling
      refine ⟨pairwise_cons.2 ⟨fun z hz => ?_, hheads⟩, List.Pairwise.nil, trivial, hsub⟩
      -- the new region is the last one that was created
      have hmem := k.2.heads_sublist_regions.subset hz
      exact hks.below z (hrep.mem_old (.tail p hmem))

/-- `_new_xregion`, with an address below those of the thread's keys. -/
theorem Laid.create {parent : Option Rid} (hks : Laid n b ks)
    (hlow : ∀ a ∈ ks.addrs, addr < a)
    (hcall : newXregion self parent n addr g ks = .ok (g', ks')) : Laid (n + 1) b ks' := by
  obtain ⟨hnodup, hbelow⟩ := hks.proper.create hcall
  have hlow : ∀ y a, ks.At y a → addr < a := fun y a hy => hlow a (Keys.mem_addrs hy)
  obtain ⟨hat, habove, hfalling⟩ := hks.newXregion_keys hcall
  have hold : ∀ y a, ks'.At y a → y < n → ks.At y a := by
    intro y a hy hlt
    exact (hat y a hy).resolve_right fun h => hlt.ne h.1
  refine ⟨hnodup, hbelow, Nat.le_succ_of_le hks.started, ?_, hfalling, ?_, ?_, ?_⟩
  · intro y z a hy hz
    rcases hat y a hy with hy | ⟨hy, rfl⟩
    · rcases hat z a hz with hz | ⟨_, rfl⟩
      · exact hks.apart y z a hy hz
      · exact absurd (hlow y _ hy) (lt_irrefl _)
    · rcases hat z a hz with hz | ⟨hz, _⟩
      · exact absurd (hlow z _ hz) (lt_irrefl _)
      · exact hy.trans hz.symm
  · intro y z hyz
    rcases habove y z hyz with hyz | rfl
    · exact hks.older y z hyz
    · refine Nat.lt_of_le_of_ne (Nat.le_of_lt_succ (hbelow y (Keys.mem_of_above hyz).1)) ?_
      rintro rfl
      rw [Keys.above_irrefl hnodup] at hyz
      cases hyz
  · intro y z hlt hb a c hy hz
    have hyn := Nat.lt_of_lt_of_le hlt (Nat.le_of_lt_succ (hbelow z (Keys.mem_of_at hz)))
    rcases hat z c hz with hz | ⟨rfl, rfl⟩
    · exact hks.created y z hlt hb a c (hold y a hy hyn) hz
    · exact hlow y a (hold y a hy hyn)
  · intro y z hyz hb a c hy hz
    have hzn := Nat.lt_of_lt_of_le hb hks.started
    have hyz' := (habove y z hyz).resolve_right hzn.ne
    exact hks.given y z hyz' hb a c (hold y a hy ((hks.older y z hyz').trans hzn)) (hold z c hz hzn)

/-! ## The sorted array -/

theorem Keys.at_of_addrOf {z : Rid} {a : Int} (h : ks.addrOf z = some a) :
    ks.At z a := by
  induction ks with
  | nil => cases h
  | key h' b l sub next ihsub ihnext =>
    simp only [addrOf] at h
    split_ifs at h with hz
    · exact .inl ⟨hz, Option.some.inj h⟩
    · rcases Option.or_eq_some_iff.1 h with h | ⟨_, h⟩
      · exact .inr (.inl (ihsub h))
      · exact .inr (.inr (ihnext h))

/-- The two keys are in one list of sub-keys. -/
def Keys.siblings (y z : Rid) : Keys → Bool
  | .nil => false
  | .key _ _ _ sub next =>
    decide (y ∈ sub.heads ∧ z ∈ sub.heads) || sub.siblings y z || next.siblings y z

theorem Keys.SubOf.siblings {p y z : Rid} {s : Keys} (hs : ks.SubOf p s) (hy : y ∈ s.heads)
    (hz : z ∈ s.heads) : ks.siblings y z = true := by
  induction ks with
  | nil => exact hs.elim
  | key h a l sub next ihsub ihnext =>
    rcases hs with ⟨_, rfl⟩ | hs | hs
    · simp [Keys.siblings, hy, hz]
    · simp [Keys.siblings, ihsub hs]
    · simp [Keys.siblings, ihnext hs]

/-- The first key is above the second one, or they are siblings and the second one is for the region
that was created later. -/
def Keys.Related (ks : Keys) (y z : Rid) : Prop :=
  ks.above y z = true ∨ y < z ∧ ks.siblings y z = true

/-- `caps_cmp` compares the keys that are passed as it is meant to: it can sort them, and of two
related keys it says which one is at the higher address. -/
structure Compares (P : Platform) (ks : Keys) (args : List CapArg) : Prop where
  sortable : Sortable P ks args
  consistent : ∀ hs, treeHandles ks args = .ok hs → ∀ c ∈ hs, ∀ d ∈ hs, ks.Related c.h d.h →
    CmpOrders (capsCmp P) hs
  address : ∀ hs, treeHandles ks args = .ok hs → ∀ c ∈ hs, ∀ d ∈ hs, ks.Related c.h d.h →
    (capsCmp P c d).sign = (d.addr - c.addr).sign

/-- The key of an entry. -/
def Caps.key (c : Caps) : Rid × Int := (c.h, c.addr)

/-- The loop of `merge_caps` keeps the order of the keys. -/
theorem mergeLoop_sublist (it : Caps) (cs : List Caps) :
    ((mergeLoop it cs).map Caps.key).Sublist ((it :: cs).map Caps.key) := by
  induction cs generalizing it with
  | nil => exact List.Sublist.refl _
  | cons c cs ih =>
    rw [mergeLoop]
    split_ifs with heq
    · -- the entry is added to the collecting one, which stands in its place
      exact (ih _).trans (((List.Sublist.refl _).cons _).cons_cons _)
    · exact (ih c).cons_cons _

/-- The entries that `merge_caps` leaves, with the keys of the spawner, in the order of the sort. -/
theorem mergeCaps_keys {P : Platform} {hs : List Caps} (hhandles : treeHandles ks args = .ok hs)
    (hcs : mergeCaps P ks args = .ok cs) :
    (cs.map Caps.key).Sublist ((P.qsort (capsCmp P) hs).map Caps.key) := by
  obtain ⟨hs', hhandles', rfl⟩ := map_eq_ok.1 hcs
  obtain rfl := Except.ok.inj (hhandles.symm.trans hhandles')
  cases P.qsort (capsCmp P) hs with
  | nil => exact List.Sublist.refl _
  | cons c cs => exact mergeLoop_sublist c cs

theorem mergeCaps_key_mem {P : Platform} {hs : List Caps} (hhandles : treeHandles ks args = .ok hs)
    (hcs : mergeCaps P ks args = .ok cs) {c : Caps} (hc : c ∈ cs) :
    ∃ d ∈ hs, d.h = c.h ∧ d.addr = c.addr := by
  have hmem := (mergeCaps_keys hhandles hcs).subset (List.mem_map_of_mem hc)
  obtain ⟨d, hd, hkey⟩ := List.mem_map.1 hmem
  exact ⟨d, (P.qsort_perm _ _).mem_iff.1 hd, congrArg Prod.fst hkey, congrArg Prod.snd hkey⟩

/-- A consistent comparison is not positive along the array. -/
theorem mergeCaps_sorted {P : Platform} {hs : List Caps} (hhandles : treeHandles ks args = .ok hs)
    (hcs : mergeCaps P ks args = .ok cs) (hcons : CmpOrders (capsCmp P) hs) :
    cs.Pairwise fun c d => capsCmp P c d ≤ 0 := by
  have hsorted := P.qsort_sorted _ _ hcons
  -- the comparison only looks at the addresses
  let R : Rid × Int → Rid × Int → Prop := fun x y => int32 (-(P.ptrDiff x.2 y.2)) ≤ 0
  have hkeys : ((P.qsort (capsCmp P) hs).map Caps.key).Pairwise R := pairwise_map.2 hsorted
  exact pairwise_map.1 (hkeys.sublist (mergeCaps_keys hhandles hcs))

/-- Of two related keys, the one at the higher address is not placed after the other one. -/
theorem Compares.not_after {P : Platform} (hcmp : Compares P ks args)
    (hcs : mergeCaps P ks args = .ok cs) :
    cs.Pairwise fun c d => (ks.Related c.h d.h → d.addr ≤ c.addr) ∧
      (ks.Related d.h c.h → d.addr ≤ c.addr) := by
  obtain ⟨hs, hhandles, _⟩ := map_eq_ok.1 hcs
  -- what the comparison says about two related entries of the array
  have hrelated : ∀ c ∈ cs, ∀ d ∈ cs, ks.Related c.h d.h →
      (capsCmp P c d).sign = (d.addr - c.addr).sign ∧ (capsCmp P c d < 0 ↔ 0 < capsCmp P d c) ∧
        (capsCmp P d c < 0 ↔ 0 < capsCmp P c d) ∧ cs.Pairwise fun c d => capsCmp P c d ≤ 0 := by
    intro c hc d hd hrel
    obtain ⟨c', hc', hch, hca⟩ := mergeCaps_key_mem hhandles hcs hc
    obtain ⟨d', hd', hdh, hda⟩ := mergeCaps_key_mem hhandles hcs hd
    rw [← hch, ← hdh] at hrel
    have hcons := hcmp.consistent hs hhandles c' hc' d' hd' hrel
    have haddr := hcmp.address hs hhandles c' hc' d' hd' hrel
    have hswap := hcons.swap c' hc' d' hd'
    have hswap' := hcons.swap d' hd' c' hc'
    simp only [capsCmp, hca, hda] at haddr hswap hswap' ⊢
    exact ⟨haddr, hswap, hswap', mergeCaps_sorted hhandles hcs hcons⟩
  rw [List.pairwise_iff_forall_sublist]
  intro c d hsub
  have hc := hsub.subset (.head _)
  have hd := hsub.subset (.tail c (.head _))
  constructor
  · intro hrel
    obtain ⟨hsign, _, _, hsorted⟩ := hrelated c hc d hd hrel
    have hle := List.pairwise_iff_forall_sublist.1 hsorted hsub
    by_contra hlt
    rw [Int.sign_eq_one_of_pos (by omega : 0 < d.addr - c.addr)] at hsign
    exact absurd (Int.sign_eq_one_iff_pos.1 hsign) (not_lt.2 hle)
  · intro hrel
    obtain ⟨hsign, hswap, _, hsorted⟩ := hrelated d hd c hc hrel
    have hle := List.pairwise_iff_forall_sublist.1 hsorted hsub
    by_contra hlt
    rw [Int.sign_eq_neg_one_of_neg (by omega : c.addr - d.addr < 0)] at hsign
    exact absurd (hswap.1 (Int.sign_eq_neg_one_iff_neg.1 hsign)) (not_lt.2 hle)

/-! ## Descendants and the release loop -/

/-- No key is placed after one of its descendants. -/
def ParentsFirst (ks : Keys) (cs : List Caps) : Prop :=
  cs.Pairwise fun c d => ks.above d.h c.h = false

/-- The spawner was not given two of the passed keys, one above the other. -/
def PassesNoGivenBranch (b : Rid) (ks : Keys) (args : List CapArg) : Prop :=
  ∀ c ∈ args, ∀ d ∈ args, ks.above c.h d.h = true → b ≤ d.h

theorem mergeCaps_at {P : Platform} (hcs : mergeCaps P ks args = .ok cs) {c : Caps} (hc : c ∈ cs) :
    ks.At c.h c.addr := by
  obtain ⟨hs, hhandles, _⟩ := map_eq_ok.1 hcs
  obtain ⟨d, hd, hdh, hda⟩ := mergeCaps_key_mem hhandles hcs hc
  have haddr := (treeHandles_ok hhandles).2 d hd
  rw [hdh, hda] at haddr
  exact Keys.at_of_addrOf haddr

/-- Keys are placed before their descendants exactly when the spawner was not given two of them, one
above the other. -/
theorem Laid.parentsFirst_iff {P : Platform} (hks : Laid n b ks) (hcmp : Compares P ks args)
    (hcs : mergeCaps P ks args = .ok cs) :
    ParentsFirst ks cs ↔ PassesNoGivenBranch b ks args := by
  have hafter := hcmp.not_after hcs
  constructor
  · intro hfirst c hc d hd habove
    obtain ⟨c', hc', hcc⟩ := (mem_mergeCaps_iff hcs).2 ⟨c, hc, rfl⟩
    obtain ⟨d', hd', hdd⟩ := (mem_mergeCaps_iff hcs).2 ⟨d, hd, rfl⟩
    rw [← hcc, ← hdd] at habove
    rw [← hdd]
    by_contra hgiven
    have hlt := hks.given _ _ habove (not_le.1 hgiven) _ _ (mergeCaps_at hcs hc')
      (mergeCaps_at hcs hd')
    have hne : c' ≠ d' := by
      rintro rfl
      exact lt_irrefl _ hlt
    -- of the two orders in the array neither is possible
    have hboth : cs.Pairwise (Relation.SymmGen fun e f => ((ks.Related e.h f.h → f.addr ≤ e.addr) ∧
        (ks.Related f.h e.h → f.addr ≤ e.addr)) ∧ ks.above f.h e.h = false) :=
      (hafter.and hfirst).imp .inl
    rcases hboth.forall hc' hd' hne with ⟨⟨hle, _⟩, _⟩ | ⟨_, hnot⟩
    · exact absurd (hle (.inl habove)) (not_le.2 hlt)
    · rw [hnot] at habove
      cases habove
  · intro hown
    refine hafter.imp_of_mem ?_
    rintro c d hc hd ⟨_, hle⟩
    rw [Bool.eq_false_iff]
    intro habove
    obtain ⟨c', hc', hcc⟩ := (mem_mergeCaps_iff hcs).1 ⟨c, hc, rfl⟩
    obtain ⟨d', hd', hdd⟩ := (mem_mergeCaps_iff hcs).1 ⟨d, hd, rfl⟩
    have hb := hown d' hd' c' hc' (by rwa [hcc, hdd])
    rw [hcc] at hb
    have hlt := hks.created _ _ (hks.older _ _ habove) hb _ _ (mergeCaps_at hcs hd)
      (mergeCaps_at hcs hc)
    exact absurd (hle (.inl habove)) (not_le.2 hlt)

section Missing

-- the stops for a key that is not there
variable {e : Stop} (he : e = .noKey ∨ e = .released) {k : KeyData}

include he

theorem lockopSelf_ne_missing : lockopSelf self w r g h l ≠ .error e := by
  intro herr
  unfold lockopSelf at herr
  dsimp only at herr
  split_ifs at herr <;> cases herr <;> rcases he with he | he <;> cases he

theorem releaseSelf_ne_missing : releaseSelf self g h l ≠ .error e := fun herr =>
  lockop_ne_error (he.imp_right .inl) (k := (l, .nil)) (fun _ => lockopSelf_ne_missing he) trivial
    (map_eq_error.1 herr)

theorem capTh_ne_missing : capTh self rgc wc rc g h k ≠ .error e :=
  capTh_ne_error (he.imp_right .inl) (fun _ => releaseSelf_ne_missing he)
    (Keys.all_of_forall (fun _ _ _ => releaseSelf_ne_missing he) _)
    (fun _ _ => lockopSelf_ne_missing he)
    (Keys.all_of_forall (fun _ _ _ => lockopSelf_ne_missing he) _)

end Missing

/-- The key of a region that is there is found. -/
theorem atKey_ne_none {f : Regions → KeyData → Except Stop (Regions × Option KeyData)}
    (hmem : h ∈ ks.regions) : atKey h f g ks ≠ none := by
  induction ks with
  | nil => cases hmem
  | key h' a l sub next ihsub ihnext =>
    rw [atKey]
    split_ifs with heq
    · exact Option.some_ne_none _
    · cases hsub : atKey h f g sub with
      | some res => exact Option.some_ne_none _
      | none =>
        have hnot : h ∉ sub.regions := fun hm => ihsub hm hsub
        have hnext : h ∈ next.regions := by
          simpa [Keys.regions, Ne.symm heq, hnot] using hmem
        simpa using ihnext hnext

theorem cap_ne_missing {e : Stop} (he : e = .noKey ∨ e = .released) (hmem : h ∈ ks.regions) :
    cap self h rgc wc rc g ks ≠ .error e := by
  intro herr
  obtain ⟨k, ks', hf, _⟩ := onKey_error (fun _ => atKey_ne_none hmem) herr
  exact capTh_ne_missing he hf

variable {k : KeyData}

/-- A key that is not below the replaced one stays. -/
theorem Replaced.mem_stays {z : Rid} {o : Option KeyData}
    (hrep : Replaced h k o ks ks') (hz : z ∈ ks.regions) (hnot : z ∉ h :: k.2.regions) :
    z ∈ ks'.regions := by
  obtain ⟨rest, hold, hnew⟩ := hrep.regions_perm
  rw [hold.mem_iff, List.mem_append] at hz
  rw [hnew.mem_iff, List.mem_append]
  exact .inr (hz.resolve_left hnot)

theorem Stop.ofHeld_eq_released {e : Stop} (h : e.ofHeld = .released) :
    e = .noKey ∨ e = .released := by
  cases e <;> simp_all [ofHeld]

/-- A release loop that meets no key after a key above it touches no key that was given up. -/
theorem takeCounts_ne_released (hnodup : ks.regions.Nodup)
    (hone : (cs.map fun c => c.h).Nodup) (hmem : ∀ c ∈ cs, c.h ∈ ks.regions)
    (horder : cs.Pairwise fun c d => ks.above c.h d.h = false) :
    takeCounts self cs g ks ≠ .error .released := by
  induction cs generalizing g ks with
  | nil => exact nofun
  | cons c cs ih =>
    obtain ⟨hnot, hone'⟩ := List.nodup_cons.1 hone
    obtain ⟨hc, horder'⟩ := pairwise_cons.1 horder
    intro herr
    rcases takeCounts_cons_error herr with ⟨e, herr, he⟩ | ⟨⟨g1, ks1⟩, hcap, herr⟩
    · exact cap_ne_missing (Stop.ofHeld_eq_released he) (hmem c (.head _)) herr
    obtain ⟨k, o, hrep, hsame, _⟩ := cap_replaced hcap
    -- what may be given up now is below the key of `c`, and no later entry is
    have hstays : ∀ d ∈ cs, d.h ∈ ks1.regions := by
      intro d hd
      refine hrep.mem_stays (hmem d (.tail c hd)) ?_
      rw [mem_cons, not_or, ← hrep.above_iff hnodup, hc d hd]
      exact ⟨fun e => hnot (List.mem_map.2 ⟨d, hd, e⟩), by decide⟩
    refine ih (hrep.nodup_new hsame hnodup) hone' hstays ?_ herr
    refine horder'.imp_of_mem ?_
    intro d e _ he hde
    rw [hrep.above_eq hsame hnodup (hstays e he)]
    exact hde

end Thread

/-! ## The keys of a new thread -/

section NewKeys

variable {P : Platform} {m : Int} {o : List (Caps × Nat)} {ks : Keys}

theorem heads_chain (ds : List Copied) : (chain P m ds).heads = ds.map fun d => d.entry.h := by
  induction ds with
  | nil => rfl
  | cons d ds ih => simp [chain, Keys.heads, ih]

variable {ds : List Copied} {args : List CapArg}

theorem chain_falling
    (hds : ∀ d ∈ ds, d.sub.heads.Pairwise (· > ·) ∧ d.sub.Falling) : (chain P m ds).Falling := by
  induction ds with
  | nil => trivial
  | cons d ds ih =>
    obtain ⟨hheads, hsub⟩ := hds d (.head _)
    exact ⟨hheads, hsub, ih fun e he => hds e (.tail d he)⟩

/-- The key of region `z` is at the place of an entry of the array. -/
def PlacedAt (P : Platform) (m : Int) (o : List (Caps × Nat)) (z : Rid) (a : Int) : Prop :=
  ∃ c ∈ o, c.1.h = z ∧ a = m + c.2 * P.keySize

theorem chain_placed (hds : ∀ d ∈ ds, (d.entry, d.idx) ∈ o ∧
      ∀ z a, d.sub.At z a → PlacedAt P m o z a) {z : Rid} {a : Int} (hz : (chain P m ds).At z a) :
    PlacedAt P m o z a := by
  induction ds with
  | nil => exact hz.elim
  | cons d ds ih =>
    obtain ⟨hmem, hsub⟩ := hds d (.head _)
    rcases hz with ⟨rfl, rfl⟩ | hz | hz
    · exact ⟨(d.entry, d.idx), hmem, rfl, rfl⟩
    · exact hsub z a hz
    · exact ih (fun e he => hds e (.tail d he)) hz

theorem copyKeys_placed (ks : Keys) : ∀ d ∈ (copyKeys P m o ks).1 ++ (copyKeys P m o ks).2,
    (d.entry, d.idx) ∈ o ∧ ∀ z a, d.sub.At z a → PlacedAt P m o z a := by
  refine copyKeys_forall (C := fun _ => True) (fun _ => ⟨trivial, trivial⟩) ?_ ?_ trivial
  · intro h a l sub next _ c hc _ hbelow
    refine ⟨hc, fun z b hz => chain_placed (fun d hd => ?_) hz⟩
    exact hbelow d ((perm_insertionSort _ _).mem_iff.1 hd)
  · exact fun c hc => ⟨hc, fun _ _ hz => hz.elim⟩

/-- Of two entries for sub-keys of one key, the later one in the array is for the region that was
created later. -/
def InOrder (o : List (Caps × Nat)) (ks : Keys) : Prop :=
  ∀ p s, ks.SubOf p s → ∀ c ∈ o, ∀ d ∈ o, c.1.h ∈ s.heads → d.1.h ∈ s.heads → c.2 < d.2 →
    c.1.h < d.1.h

section

variable (hone : (o.map fun c => c.1.h).Nodup) (hidx : ∀ c ∈ o, ∀ d ∈ o, c.2 = d.2 → c = d)

include hone hidx

/-- The sub-keys of a new key, later entries first. -/
theorem heads_chainSub {sub : Keys} (hsub : sub.regions.Nodup)
    (horder : ∀ c ∈ o, ∀ d ∈ o, c.1.h ∈ sub.heads → d.1.h ∈ sub.heads → c.2 < d.2 →
      c.1.h < d.1.h) :
    (chainSub P m (copyKeys P m o sub).1).heads.Pairwise (· > ·) := by
  have hnodup : (chainSub P m (copyKeys P m o sub).1).heads.Nodup := by
    refine List.Nodup.sublist (Keys.heads_sublist_regions _) ?_
    rw [(regions_chainSub _).nodup_iff]
    exact (List.nodup_append.1 (nodup_copyKeys hsub hone)).1
  have hsorted := List.pairwise_insertionSort (fun c₁ c₂ : Copied => c₂.idx ≤ c₁.idx)
    (copyKeys P m o sub).1
  rw [chainSub, heads_chain, List.Nodup, pairwise_map] at hnodup
  rw [chainSub, heads_chain, pairwise_map]
  refine (hsorted.and hnodup).imp_of_mem ?_
  rintro d e hd he ⟨hle, hne⟩
  obtain ⟨hdo, hdh⟩ := copyKeys_heads ((perm_insertionSort _ _).mem_iff.1 hd)
  obtain ⟨heo, heh⟩ := copyKeys_heads ((perm_insertionSort _ _).mem_iff.1 he)
  -- two copies have two places in the array
  have hlt : e.idx < d.idx := by
    refine Nat.lt_of_le_of_ne hle fun heq => hne ?_
    exact congrArg (fun c => c.1.h) (hidx _ hdo _ heo heq.symm)
  exact horder _ heo _ hdo heh hdh hlt

theorem copyKeys_falling (hnodup : ks.regions.Nodup) (horder : InOrder o ks) :
    ∀ d ∈ (copyKeys P m o ks).1 ++ (copyKeys P m o ks).2,
      d.sub.heads.Pairwise (· > ·) ∧ d.sub.Falling := by
  refine copyKeys_forall (C := fun ks => ks.regions.Nodup ∧ InOrder o ks) ?_ ?_ ?_
    ⟨hnodup, horder⟩
  · rintro h a l sub next ⟨hnd, hord⟩
    obtain ⟨hsub, hnext, _⟩ := Keys.nodup_key hnd
    exact ⟨⟨hsub, fun p s hs => hord p s (.inr (.inl hs))⟩,
      ⟨hnext, fun p s hs => hord p s (.inr (.inr hs))⟩⟩
  · rintro h a l sub next ⟨hnd, hord⟩ c _ _ hbelow
    refine ⟨?_, chain_falling fun d hd => ?_⟩
    · exact heads_chainSub hone hidx (Keys.nodup_key hnd).1 (hord h sub (.inl ⟨rfl, rfl⟩))
    · exact hbelow d ((perm_insertionSort _ _).mem_iff.1 hd)
  · exact fun c _ => ⟨List.Pairwise.nil, trivial⟩

end

/-- Of two related keys that are passed, the one created later is not one that the spawner was
given. -/
def PassesOwn (b : Rid) (ks : Keys) (args : List CapArg) : Prop :=
  ∀ c ∈ args, ∀ d ∈ args, ks.Related c.h d.h → b ≤ d.h

variable {n b : Rid} {cs : List Caps}

/-- The order of the array along the spawner's lists of siblings. -/
theorem Laid.inOrder_zipIdx (hks : Laid n b ks) (hcmp : Compares P ks args)
    (hown : PassesOwn b ks args) (hcs : mergeCaps P ks args = .ok cs) : InOrder cs.zipIdx ks := by
  have hone := hcmp.sortable.nodup hcs
  rw [List.Nodup, pairwise_map] at hone
  rintro p s hs ⟨c, i⟩ hc ⟨d, j⟩ hd hch hdh hij
  rw [List.mem_zipIdx_iff_getElem?] at hc hd
  dsimp only at hc hd hch hdh hij ⊢
  obtain ⟨hi, rfl⟩ := List.getElem?_eq_some_iff.1 hc
  obtain ⟨hj, rfl⟩ := List.getElem?_eq_some_iff.1 hd
  have hle := (List.pairwise_iff_getElem.1 (hcmp.not_after hcs) i j hi hj hij).2
  have hne := List.pairwise_iff_getElem.1 hone i j hi hj hij
  by_contra hnot
  -- the later entry would be for the older sibling, which is at the higher address
  have hgt : cs[j].h < cs[i].h := Nat.lt_of_le_of_ne (Nat.not_lt.1 hnot) (Ne.symm hne)
  have hrel : ks.Related cs[j].h cs[i].h := .inr ⟨hgt, hs.siblings hdh hch⟩
  obtain ⟨c', hc', hcc⟩ := (mem_mergeCaps_iff hcs).1 ⟨cs[i], getElem_mem hi, rfl⟩
  obtain ⟨d', hd', hdd⟩ := (mem_mergeCaps_iff hcs).1 ⟨cs[j], getElem_mem hj, rfl⟩
  have hb := hown d' hd' c' hc' (by rwa [hcc, hdd])
  rw [hcc] at hb
  have hlt := hks.created _ _ hgt hb _ _ (mergeCaps_at hcs (getElem_mem hj))
    (mergeCaps_at hcs (getElem_mem hi))
  exact absurd (hle hrel) (not_le.2 hlt)

theorem above_chain {y z : Rid} (habove : (chain P m ds).above y z = true) :
    ∃ d ∈ ds, (d.entry.h = y ∧ z ∈ d.sub.regions) ∨ d.sub.above y z = true := by
  induction ds with
  | nil => cases habove
  | cons d ds ih =>
    simp only [chain, Keys.above, Bool.or_eq_true, Bool.and_eq_true, beq_iff_eq,
      decide_eq_true_eq] at habove
    rcases habove with habove | habove
    · exact ⟨d, .head _, habove⟩
    · obtain ⟨e, he, h⟩ := ih habove
      exact ⟨e, .tail d he, h⟩

/-- The new keys are below the copies of keys that were above. -/
theorem copyKeys_above {K : Rid → Rid → Prop} (hK : ∀ y z, ks.above y z = true → K y z) :
    ∀ d ∈ (copyKeys P m o ks).1 ++ (copyKeys P m o ks).2,
      (∀ z ∈ d.sub.regions, K d.entry.h z) ∧ ∀ y z, d.sub.above y z = true → K y z := by
  refine copyKeys_forall (C := fun ks => ∀ y z, ks.above y z = true → K y z) ?_ ?_ ?_ hK
  · intro h a l sub next hK
    exact ⟨fun y z hyz => hK y z (by simp [Keys.above, hyz]),
      fun y z hyz => hK y z (by simp [Keys.above, hyz])⟩
  · rintro h a l sub next hK c _ rfl hbelow
    refine ⟨fun z hz => hK _ z ?_, fun y z hyz => ?_⟩
    · -- the copies below are for regions below the key
      rw [(regions_chainSub _).mem_iff] at hz
      have hmem := (copyKeys_regions sub).mem_iff.1 (List.mem_append_left _ hz)
      obtain ⟨x, hx, hzx⟩ := List.mem_flatMap.1 hmem
      obtain rfl : z = x := of_decide_eq_true (List.mem_filter.1 hzx).2
      simp [Keys.above, hx]
    · obtain ⟨d, hd, hdz⟩ := above_chain hyz
      obtain ⟨hself, hsub⟩ := hbelow d ((perm_insertionSort _ _).mem_iff.1 hd)
      rcases hdz with ⟨rfl, hz⟩ | hz
      · exact hself z hz
      · exact hsub y z hz
  · intro c _
    exact ⟨fun z hz => absurd hz List.not_mem_nil, fun y z hyz => absurd hyz Bool.false_ne_true⟩

theorem above_of_newKeys {y z : Rid} (habove : (newKeys P m cs ks).above y z = true) :
    ks.above y z = true := by
  obtain ⟨d, hd, hdz⟩ := above_chain habove
  obtain ⟨hself, hsub⟩ := copyKeys_above (K := fun y z => ks.above y z = true)
    (fun _ _ h => h) d hd
  rcases hdz with ⟨rfl, hz⟩ | hz
  · exact hself z hz
  · exact hsub y z hz

/-- The keys of a new thread, which was given all of them. -/
theorem laid_newKeys (hks : Laid n b ks) (hsize : 0 < P.keySize) (hcmp : Compares P ks args)
    (hown : PassesOwn b ks args) (hcs : mergeCaps P ks args = .ok cs) :
    Laid n n (newKeys P m cs ks) := by
  have hone := hcmp.sortable.nodup hcs
  have hfirst := (hks.parentsFirst_iff hcmp hcs).2 fun c hc d hd habove =>
    hown c hc d hd (.inl habove)
  have hidx : ∀ c ∈ cs.zipIdx, ∀ d ∈ cs.zipIdx, c.2 = d.2 → c = d := by
    rintro ⟨c, i⟩ hc ⟨d, j⟩ hd hij
    rw [List.mem_zipIdx_iff_getElem?] at hc hd
    dsimp only at hc hd hij
    subst hij
    rw [Option.some.inj (hc.symm.trans hd)]
  obtain ⟨hnodup, hbelow⟩ := hks.proper.newKeys (P := P) (m := m) hone
  refine ⟨hnodup, hbelow, le_refl n, ?_, ?_, ?_, ?_, ?_⟩
  · intro y z a hy hz
    obtain ⟨c, hc, rfl, hca⟩ := chain_placed (copyKeys_placed ks) hy
    obtain ⟨d, hd, rfl, hda⟩ := chain_placed (copyKeys_placed ks) hz
    -- one address is one place in the array
    have hmul : (c.2 : Int) * P.keySize = d.2 * P.keySize := by omega
    have hij : c.2 = d.2 := by exact_mod_cast mul_right_cancel₀ hsize.ne' hmul
    rw [hidx c hc d hd hij]
  · exact chain_falling (copyKeys_falling (by rwa [zipIdx_regions]) hidx hks.nodup
      (hks.inOrder_zipIdx hcmp hown hcs))
  · exact fun y z hyz => hks.older y z (above_of_newKeys hyz)
  · intro y z _ hn a c _ hz
    exact absurd (hbelow z (Keys.mem_of_at hz)) (Nat.not_lt.2 hn)
  · -- the lower one of two keys has the later place in the array
    intro y z hyz _ a e hy hz
    have hyz := above_of_newKeys hyz
    obtain ⟨⟨c, i⟩, hc, rfl, rfl⟩ := chain_placed (copyKeys_placed ks) hy
    obtain ⟨⟨d, j⟩, hd, rfl, rfl⟩ := chain_placed (copyKeys_placed ks) hz
    rw [List.mem_zipIdx_iff_getElem?] at hc hd
    dsimp only at hc hd hyz ⊢
    obtain ⟨hi, rfl⟩ := List.getElem?_eq_some_iff.1 hc
    obtain ⟨hj, rfl⟩ := List.getElem?_eq_some_iff.1 hd
    have hij : i < j := by
      rcases lt_trichotomy i j with hij | rfl | hji
      · exact hij
      · rw [Keys.above_irrefl hks.nodup] at hyz
        cases hyz
      · rw [List.pairwise_iff_getElem.1 hfirst j i hj hi hji] at hyz
        cases hyz
    have hmul := Int.mul_lt_mul_of_pos_right (Int.ofNat_lt.2 hij) hsize
    omega

end NewKeys

/-! ## Runs -/

/-- The threads with their keys, and how many regions there were when each thread was started: a
thread was given its keys for these, and has created the others. -/
structure Dated where
  world : World
  born : Tid → Rid

namespace Dated

/-- The main thread is given no keys. -/
def initial : Dated := ⟨World.initial, fun _ => 0⟩

/-- A spawn dates the new thread. -/
def enter (b : Dated) : Op → Tid → Rid
  | .create _ _ _ | .cap _ _ _ _ _ => b.born
  | .spawn _ _ _ => update b.born b.world.nextTid b.world.nextRid

/-- An operation that goes through. -/
def Step (P : Platform) (b : Dated) (op : Op) (b' : Dated) : Prop :=
  b.world.Step P op b'.world ∧ b'.born = b.enter op

/-- The condition on the operations of a run: a new key is allocated below the keys of its thread;
`caps_cmp` compares the keys of a spawn as it is meant to, and of two related keys that are passed
the one created later is not one that the spawner was given. -/
def OrderFits (P : Platform) (b : Dated) : Op → Prop
  | .create t _ addr => ∀ a ∈ (b.world.forest t).addrs, addr < a
  | .cap _ _ _ _ _ => True
  | .spawn t args _ =>
    Compares P (b.world.forest t) args ∧ PassesOwn (b.born t) (b.world.forest t) args

/-- The keys of all threads are laid out. -/
def AllLaid (b : Dated) : Prop := ∀ t, Laid b.world.nextRid (b.born t) (b.world.forest t)

theorem allLaid_initial : initial.AllLaid := fun _ =>
  { nodup := List.nodup_nil
    below := fun z hz => by simp [initial, World.initial, Keys.regions] at hz
    started := le_refl 0
    apart := fun _ _ _ hy => hy.elim
    falling := trivial
    older := nofun
    created := fun _ _ _ _ _ _ hy => hy.elim
    given := nofun }

end Dated

theorem Laid.take {self : Tid} {g g' : Regions} {ks' : Keys} {cs : List Caps}
    (hks : Laid n b ks) (hcall : takeCounts self cs g ks = .ok (g', ks')) : Laid n b ks' := by
  induction cs generalizing g ks with
  | nil =>
    cases hcall
    exact hks
  | cons c cs ih =>
    obtain ⟨⟨g1, ks1⟩, hcap, hcall⟩ := takeCounts_cons hcall
    exact ih (hks.cap hcap) hcall

/-- Every operation keeps the keys of all threads laid out. -/
theorem Dated.AllLaid.step {P : Platform} {b b' : Dated} {op : Op} (hsize : 0 < P.keySize)
    (hb : b.AllLaid) (hok : b.OrderFits P op) (hstep : b.Step P op b') : b'.AllLaid := by
  obtain ⟨⟨_, hexec⟩, hborn⟩ := hstep
  rw [AllLaid, hborn]
  cases op with
  | create t parent addr =>
    obtain ⟨⟨g, ks⟩, hx, hworld⟩ := map_eq_ok.1 hexec
    rw [← hworld]
    intro u
    by_cases hu : u = t
    · subst hu
      simpa [World.setKeys, enter] using (hb u).create hok hx
    · simpa [World.setKeys, enter, hu] using (hb u).mono (Nat.le_succ _)
  | cap t h rgc wc rc =>
    obtain ⟨⟨g, ks⟩, hx, hworld⟩ := map_eq_ok.1 hexec
    rw [← hworld]
    intro u
    by_cases hu : u = t
    · subst hu
      simpa [World.setKeys, enter] using (hb u).cap hx
    · simpa [World.setKeys, enter, hu] using hb u
  | spawn t args n =>
    obtain ⟨cs, g1, g, ks, hcs, _, htake, hworld⟩ := World.exec_spawn hexec
    rw [hworld]
    -- first the spawner, then the new thread
    have hspawner : ∀ u, Laid b.world.nextRid (b.born u) (update b.world.forest t ks u) := by
      intro u
      by_cases hu : u = t
      · subst hu
        simpa using (hb u).take htake
      · simpa [hu] using hb u
    exact forall_update₂ hspawner (laid_newKeys (hb t) hsize hok.1 hok.2 hcs)

/-- The order of the capability arrays and of the key trees. -/
structure TreesOrdered (P : Platform) (b : Dated) : Prop where
  /-- If the keys are compared as they are meant to be, no key is after one of its descendants
  exactly when the spawner was not given two of the keys, one above the other. -/
  parents : ∀ t args cs, Compares P (b.world.forest t) args →
    mergeCaps P (b.world.forest t) args = .ok cs →
      (ParentsFirst (b.world.forest t) cs ↔
        PassesNoGivenBranch (b.born t) (b.world.forest t) args)
  /-- In that case the release loop touches no key that was given up with a key above it. -/
  release : ∀ t args cs g, Compares P (b.world.forest t) args →
    PassesNoGivenBranch (b.born t) (b.world.forest t) args →
      mergeCaps P (b.world.forest t) args = .ok cs →
        takeCounts t cs.reverse g (b.world.forest t) ≠ .error .released
  /-- Two threads visit two sibling regions that both of them have in the same order. -/
  siblings : ∀ t u p s s', (b.world.forest t).SubOf p s → (b.world.forest u).SubOf p s' →
    ∀ y z, y ∈ s.heads → z ∈ s.heads → y ∈ s'.heads → z ∈ s'.heads →
      ([y, z].Sublist s.walk ↔ [y, z].Sublist s'.walk)

/-- In every run in which keys are allocated downwards, `caps_cmp` compares keys as it is meant to,
and no thread passes two related keys that it was given, arrays and trees are ordered. -/
theorem trees_ordered_of_fits {P : Platform} (hsize : 0 < P.keySize) {b : Dated}
    (h : Reach (Dated.Step P) (Dated.OrderFits P) Dated.initial b) : TreesOrdered P b := by
  have hb : b.AllLaid :=
    h.invariant (fun _ _ _ hok hstep hb => hb.step hsize hok hstep) Dated.allLaid_initial
  refine ⟨?_, ?_, ?_⟩
  · intro t args cs hcmp hcs
    exact (hb t).parentsFirst_iff hcmp hcs
  · intro t args cs g hcmp hown hcs
    have hfirst := ((hb t).parentsFirst_iff hcmp hcs).2 hown
    refine takeCounts_ne_released (hb t).nodup ?_ ?_ (List.pairwise_reverse.2 hfirst)
    · rw [List.map_reverse]
      exact List.nodup_reverse.2 (hcmp.sortable.nodup hcs)
    · exact fun c hc => mergeCaps_mem hcs c (List.mem_reverse.1 hc)
  · intro t u p s s' hs hs' y z hy hz hy' hz'
    rw [sublist_walk_iff ((hb t).falling.subOf hs) (hs.nodup (hb t).nodup) hy hz,
      sublist_walk_iff ((hb u).falling.subOf hs') (hs'.nodup (hb u).nodup) hy' hz']

section Decide

variable (P : Platform) (ks : Keys)

instance (y z : Rid) : Decidable (ks.Related y z) := inferInstanceAs (Decidable (_ ∨ _))

instance (args : List CapArg) : Decidable (Compares P ks args) :=
  decidable_of_iff (_ ∧ _ ∧ _) ⟨fun ⟨hsort, hcons, haddr⟩ => ⟨hsort, hcons, haddr⟩,
    fun h => ⟨h.sortable, h.consistent, h.address⟩⟩

instance (b : Dated) : (op : Op) → Decidable (b.OrderFits P op)
  | .create _ _ _ => inferInstanceAs (Decidable (∀ a ∈ _, _ < a))
  | .cap _ _ _ _ _ => inferInstanceAs (Decidable True)
  | .spawn t args _ => inferInstanceAs
    (Decidable (_ ∧ ∀ c ∈ args, ∀ d ∈ args, (b.world.forest t).Related c.h d.h → _ ≤ d.h))

/-- The state after an operation that goes through. -/
def Dated.next (b : Dated) (op : Op) : Option Dated :=
  (b.world.next P op).map fun w => ⟨w, b.enter op⟩

variable {P}

theorem Dated.step_of_next {b b' : Dated} {op : Op} (h : b.next P op = some b') :
    b.Step P op b' := by
  obtain ⟨w, hw, rfl⟩ := Option.map_eq_some_iff.1 h
  exact ⟨World.step_of_next hw, rfl⟩

end Decide

/-- The main thread passes a region with two regions below it to a new thread, which creates a third
one below and passes it on with its parent. -/
def passDown : List Op :=
  [.create 1 none 1000, .create 1 (some 0) 900, .create 1 (some 0) 800, .cap 1 0 1 0 0,
    .cap 1 1 1 0 0, .cap 1 2 1 0 0, .spawn 1 [⟨2, 1, 0, 0⟩, ⟨0, 1, 0, 0⟩, ⟨1, 1, 0, 0⟩] 5000,
    .create 3 (some 0) 4000, .spawn 3 [⟨3, 1, 0, 0⟩, ⟨0, 1, 0, 0⟩] 7000]

theorem trees_ordered_passDown :
    ∃ b, runWhen (Dated.next plainPlatform) (Dated.OrderFits plainPlatform) Dated.initial
        passDown = some b ∧
      b.world.forest 5 = .key 0 7000 ⟨1, 0, 0⟩ (.key 3 7048 ⟨1, 0, 0⟩ .nil .nil) .nil ∧
      TreesOrdered plainPlatform b := by
  have hrun : (runWhen (Dated.next plainPlatform) (Dated.OrderFits plainPlatform) Dated.initial
      passDown).map (fun b => b.world.forest 5) =
        some (.key 0 7000 ⟨1, 0, 0⟩ (.key 3 7048 ⟨1, 0, 0⟩ .nil .nil) .nil) := by
    decide +kernel
  obtain ⟨b, hb, hforest⟩ := Option.map_eq_some_iff.1 hrun
  exact ⟨b, hb, hforest, trees_ordered_of_fits (by decide)
    (reach_of_runWhen (fun _ _ _ => Dated.step_of_next) hb)⟩

/-- The main thread creates a region and a region below it, and passes both to a new thread. When
that thread passes them on, the sort puts the lower region first, and the release loop comes to it
after it was given up with its parent. -/
theorem not_trees_ordered_spawnedSpawner :
    ∃ b, Reach (Dated.Step plainPlatform) (Dated.OrderFits plainPlatform) Dated.initial b ∧
      ∃ args cs, mergeCaps plainPlatform (b.world.forest 3) args = .ok cs ∧
        ¬ ParentsFirst (b.world.forest 3) cs ∧
        b.world.exec plainPlatform (.spawn 3 args 3000) = .error .released := by
  let args : List CapArg := [⟨0, 1, 0, 0⟩, ⟨1, 1, 0, 0⟩]
  let cs : List Caps := [⟨⟨1, 1, 0, 0⟩, 2048⟩, ⟨⟨0, 1, 0, 0⟩, 2000⟩]
  have hrun : (runWhen (Dated.next plainPlatform) (Dated.OrderFits plainPlatform) Dated.initial
      [.create 1 none 1000, .create 1 (some 0) 900, .spawn 1 args 2000]).map (fun b =>
        decide (mergeCaps plainPlatform (b.world.forest 3) args = .ok cs ∧
          (b.world.forest 3).above 0 1 = true ∧
          (b.world.exec plainPlatform (.spawn 3 args 3000)).map (fun _ => ()) =
            .error .released)) = some true := by
    decide +kernel
  obtain ⟨b, hb, hdone⟩ := Option.map_eq_some_iff.1 hrun
  obtain ⟨hcs, habove, hagain⟩ := of_decide_eq_true hdone
  refine ⟨b, reach_of_runWhen (fun _ _ _ => Dated.step_of_next) hb, args, cs, hcs, fun hfirst => ?_,
    map_eq_error.1 hagain⟩
  have hnot := (pairwise_cons.1 hfirst).1 _ (.head _)
  exact absurd (habove.symm.trans hnot) (by decide)

end ConcurrentCyclone.Runtime
