import ConcurrentCyclone.Runtime.Spawn
import Mathlib.Data.Int.ModEq
import Mathlib.Algebra.BigOperators.Group.List.Basic

/-!
# One entry for each key of a spawn's capability array

`merge_caps` sorts the capability array of a spawn by the addresses of the keys and adds up
neighbouring entries for one key (`lib/runtime_stack.c`). If the comparison is consistent on the
keys that are passed, and tells a key that is passed twice from the other ones (`Sortable`), the
sort puts the entries of each key next to each other, and what is left is one entry for each key;
its counts are the sums of the given ones exactly when the sums are `int`s (`mergeCaps_merged_iff`).

The comparison of the sort subtracts pointers to keys as if they were pointers to regions, which are
larger. The keys of a thread that was spawned are in an array, so the differences are not multiples
of the size of a region, and the result is no order (`gccPlatform`).
-/

set_option autoImplicit false

namespace ConcurrentCyclone.Runtime

open Transition

/-! ## Equal elements next to each other -/

section Together

variable {α : Type}

/-- Nothing else stands between two equal elements. -/
def Together (l : List α) : Prop := ∀ x y, List.Sublist [x, y, x] l → y = x

variable {x : α} {l : List α}

theorem Together.tail (h : Together (x :: l)) : Together l :=
  fun y z hsub => h y z (hsub.cons x)

theorem together_cons_self : Together (x :: x :: l) ↔ Together (x :: l) := by
  refine ⟨Together.tail, fun h y z hsub => ?_⟩
  rcases List.sublist_cons_iff.1 hsub with hsub | ⟨r, hr, hsub⟩
  · exact h y z hsub
  · obtain ⟨rfl, rfl⟩ := List.cons.inj hr
    -- the first of the three is the new element
    rcases List.sublist_cons_iff.1 hsub with hsub | ⟨r, hr, _⟩
    · exact h y z (hsub.cons_cons y)
    · exact (List.cons.inj hr).1

theorem together_cons_ne {y : α} (hne : x ≠ y) :
    Together (x :: y :: l) ↔ x ∉ l ∧ Together (y :: l) := by
  constructor
  · intro h
    refine ⟨fun hmem => hne (h x y ?_).symm, h.tail⟩
    exact ((List.singleton_sublist.2 hmem).cons_cons y).cons_cons x
  · rintro ⟨hnot, h⟩ z w hsub
    rcases List.sublist_cons_iff.1 hsub with hsub | ⟨r, hr, hsub⟩
    · exact h z w hsub
    · obtain ⟨rfl, rfl⟩ := List.cons.inj hr
      rcases List.mem_cons.1 (hsub.subset (by simp : z ∈ [w, z])) with heq | hmem
      · exact absurd heq hne
      · exact absurd hmem hnot

end Together

/-! ## The regions of the array -/

section Regions

variable {P : Platform} {ks : Keys} {z : Rid} {args : List CapArg} {cs : List Caps}

/-- An address is found only for a region of the tree. -/
theorem Keys.mem_of_addrOf {a : Int} (ha : ks.addrOf z = some a) : z ∈ ks.regions := by
  induction ks with
  | nil => cases ha
  | key h' a' l sub next ihsub ihnext =>
    simp only [Keys.addrOf] at ha
    split_ifs at ha with hz
    · simp [Keys.regions, hz]
    · rcases Option.or_eq_some_iff.1 ha with ha | ⟨_, ha⟩
      · simp [Keys.regions, ihsub ha]
      · simp [Keys.regions, ihnext ha]

/-- The entries of the array with the addresses of the spawner's keys. -/
theorem treeHandles_ok (hcs : treeHandles ks args = .ok cs) :
    cs.map Caps.toCapArg = args ∧ ∀ c ∈ cs, ks.addrOf c.h = some c.addr := by
  induction args generalizing cs with
  | nil =>
    cases hcs
    simp
  | cons c args ih =>
    simp only [treeHandles] at hcs
    cases ha : ks.addrOf c.h with
    | none => simp [ha] at hcs
    | some a =>
      rw [ha] at hcs
      obtain ⟨cs', hcs', rfl⟩ := map_eq_ok.1 hcs
      obtain ⟨hmap, haddr⟩ := ih hcs'
      exact ⟨by simp [hmap], List.forall_mem_cons.2 ⟨ha, haddr⟩⟩

/-- The loop of `merge_caps` keeps the regions. -/
theorem mem_mergeLoop_iff {it : Caps} :
    (∃ c ∈ mergeLoop it cs, c.h = z) ↔ ∃ c ∈ it :: cs, c.h = z := by
  induction cs generalizing it with
  | nil => simp [mergeLoop]
  | cons d ds ih =>
    rw [mergeLoop]
    split_ifs with heq
    · rw [ih]
      simp only [List.exists_mem_cons_iff, heq]
      rw [← or_assoc, or_self]
    · rw [List.exists_mem_cons_iff, List.exists_mem_cons_iff, ih]

/-- The regions of the array after `merge_caps` are those of the arguments. -/
theorem mem_mergeCaps_iff (hcs : mergeCaps P ks args = .ok cs) :
    (∃ c ∈ cs, c.h = z) ↔ ∃ c ∈ args, c.h = z := by
  obtain ⟨hs, hhandles, rfl⟩ := map_eq_ok.1 hcs
  have hsorted : (∃ c ∈ P.qsort (capsCmp P) hs, c.h = z) ↔ ∃ c ∈ args, c.h = z := by
    rw [← (treeHandles_ok hhandles).1]
    simp [(P.qsort_perm (capsCmp P) hs).mem_iff]
  rw [← hsorted]
  cases P.qsort (capsCmp P) hs with
  | nil => exact Iff.rfl
  | cons c cs => exact mem_mergeLoop_iff

/-- The regions of the entries `merge_caps` leaves are regions of the spawner. -/
theorem mergeCaps_mem (hcs : mergeCaps P ks args = .ok cs) : ∀ c ∈ cs, c.h ∈ ks.regions := by
  intro c hc
  obtain ⟨d, hd, hdc⟩ := (mem_mergeCaps_iff hcs).1 ⟨c, hc, rfl⟩
  obtain ⟨hs, hhandles, _⟩ := map_eq_ok.1 hcs
  obtain ⟨hmap, haddr⟩ := treeHandles_ok hhandles
  rw [← hmap] at hd
  obtain ⟨e, he, rfl⟩ := List.mem_map.1 hd
  rw [← hdc]
  exact Keys.mem_of_addrOf (haddr e he)

end Regions

/-! ## One entry for each key -/

/-- The loop leaves one entry for each key exactly if the entries of each key stand together. -/
theorem nodup_mergeLoop_iff (it : Caps) (cs : List Caps) :
    ((mergeLoop it cs).map fun c => c.h).Nodup ↔ Together ((it :: cs).map fun c => c.h) := by
  induction cs generalizing it with
  | nil =>
    refine iff_of_true (List.nodup_singleton _) fun x y hsub => ?_
    exact absurd hsub.length_le (by simp)
  | cons c cs ih =>
    rw [mergeLoop]
    split_ifs with heq
    · rw [ih]
      simp only [List.map_cons, heq]
      exact together_cons_self.symm
    · -- the collecting entry is done; it is the only one for its key if none is left
      have hmem : it.h ∈ (mergeLoop c cs).map (fun c => c.h) ↔ it.h ∈ cs.map fun c => c.h := by
        simp only [List.mem_map, mem_mergeLoop_iff, List.exists_mem_cons_iff, Ne.symm heq,
          false_or]
      simp only [List.map_cons, List.nodup_cons, hmem, ih, together_cons_ne heq]

/-- `caps_cmp` can sort the keys that are passed: no key is passed twice, or the comparison is
consistent on the keys and tells a key that is passed twice from all others. -/
def Sortable (P : Platform) (ks : Keys) (args : List CapArg) : Prop :=
  (args.map fun c => c.h).Nodup ∨ ∀ hs, treeHandles ks args = .ok hs →
    CmpOrders (capsCmp P) hs ∧
      ∀ c ∈ hs, ∀ d ∈ hs, c.h ≠ d.h → capsCmp P c d = 0 → (hs.map fun e => e.h).count c.h ≤ 1

section Sorted

variable {P : Platform} {ks : Keys} {args : List CapArg} {cs : List Caps}

/-- A list without duplicates is grouped. -/
theorem together_of_nodup {α : Type} {l : List α} (h : l.Nodup) : Together l := by
  intro x y hsub
  simpa using h.sublist hsub

/-- The sort groups the entries of a key. -/
theorem Sortable.together (hsort : Sortable P ks args) {hs : List Caps}
    (hhandles : treeHandles ks args = .ok hs) :
    Together ((P.qsort (capsCmp P) hs).map fun c => c.h) := by
  have hperm := P.qsort_perm (capsCmp P) hs
  obtain ⟨hmap, haddr⟩ := treeHandles_ok hhandles
  rcases hsort with hone | hcmp
  · refine together_of_nodup ((hperm.map fun c => c.h).nodup_iff.2 ?_)
    rw [← hmap, List.map_map] at hone
    exact hone
  obtain ⟨hcons, htells⟩ := hcmp hs hhandles
  intro x y hsub
  -- three entries in this order, the first and the last one for the same key
  obtain ⟨l, hl, hxyx⟩ := List.sublist_map_iff.1 hsub
  obtain ⟨c, d, e, rfl⟩ : ∃ c d e, l = [c, d, e] :=
    List.length_eq_three.1 (by rw [← List.length_map (f := fun c : Caps => c.h), ← hxyx]; rfl)
  obtain ⟨rfl, rfl, heh⟩ : x = c.h ∧ y = d.h ∧ x = e.h := by
    simpa using hxyx
  have hmem : ∀ f ∈ [c, d, e], f ∈ hs := fun f hf => hperm.mem_iff.1 (hl.subset hf)
  simp only [List.forall_mem_cons] at hmem
  obtain ⟨hc, hd, he, _⟩ := hmem
  have hsame : c.addr = e.addr := by
    have hce := haddr e he
    rw [← heh, haddr c hc] at hce
    exact Option.some.inj hce
  have hsorted := (P.qsort_sorted _ _ hcons).sublist hl
  simp only [List.pairwise_cons, List.forall_mem_cons] at hsorted
  obtain ⟨⟨hcd, _⟩, ⟨hde, _⟩, _⟩ := hsorted
  have hdc : capsCmp P d c ≤ 0 := by
    rw [capsCmp, hsame]
    exact hde
  by_contra hne
  have hzero : capsCmp P c d = 0 := by
    refine le_antisymm hcd (not_lt.1 fun hlt => ?_)
    exact absurd ((hcons.swap c hc d hd).1 hlt) (not_lt.2 hdc)
  -- the key is passed twice, so the comparison tells it from the one in between
  have hcount := htells c hc d hd (Ne.symm hne) hzero
  rw [← (hperm.map fun c => c.h).count_eq] at hcount
  have htwo := (List.Sublist.count_le c.h hsub).trans hcount
  simp [List.count_cons] at htwo

/-- After `merge_caps` there is one entry for each key. -/
theorem Sortable.nodup (hsort : Sortable P ks args) (hcs : mergeCaps P ks args = .ok cs) :
    (cs.map fun c => c.h).Nodup := by
  obtain ⟨hs, hhandles, rfl⟩ := map_eq_ok.1 hcs
  have htogether := hsort.together hhandles
  cases hq : P.qsort (capsCmp P) hs with
  | nil => exact List.nodup_nil
  | cons c cs =>
    rw [hq] at htogether
    exact (nodup_mergeLoop_iff c cs).2 htogether

end Sorted

/-! ## The sums of the counts -/

/-- The region, write and read count of a key without bound. -/
structure TrueCaps where
  rcnt : Int
  wrCnt : Int
  rdCnt : Int
  deriving DecidableEq

/-- The true counts of a thread. -/
abbrev TrueCounts := Rid → TrueCaps

namespace TrueCounts

/-- The sum of the arguments of a spawn for the regions with a property. -/
def total (p : Rid → Bool) (f : CapArg → Int) (args : List CapArg) : Int :=
  (args.map fun c => if p c.h then f c else 0).sum

/-- The true counts of the new thread: what the arguments of the spawn add up to. -/
def given (args : List CapArg) : TrueCounts := fun z =>
  { rcnt := total (· == z) CapArg.rc args
    wrCnt := total (· == z) CapArg.wc args
    rdCnt := total (· == z) CapArg.lc args }

end TrueCounts

open TrueCounts (total)

theorem int32_modEq_word (x : Int) : int32 x ≡ x [ZMOD 2 ^ 32] := Int.bmod_emod

/-- Wrapping to 32 bits does not change what is stored in 16 bits. -/
theorem int32_modEq (x : Int) : int32 x ≡ x [ZMOD 65536] :=
  (int32_modEq_word x).of_dvd (by decide)

section Sums

variable {P : Platform} {ks : Keys} {args : List CapArg} {cs : List Caps}

/-- A count of the entries that `merge_caps` adds up, modulo `2 ^ 32`. -/
def AddsUp (f : CapArg → Int) : Prop :=
  ∀ c d : CapArg, f ⟨c.h, int32 (c.rc + d.rc), int32 (c.wc + d.wc), int32 (c.lc + d.lc)⟩ ≡
    f c + f d [ZMOD 2 ^ 32]

theorem addsUp_rc : AddsUp CapArg.rc := fun _ _ => int32_modEq_word _

theorem addsUp_wc : AddsUp CapArg.wc := fun _ _ => int32_modEq_word _

theorem addsUp_lc : AddsUp CapArg.lc := fun _ _ => int32_modEq_word _

variable {p : Rid → Bool} {f : CapArg → Int}

theorem total_cons (c : CapArg) (cs : List CapArg) :
    total p f (c :: cs) = (if p c.h then f c else 0) + total p f cs := by
  simp [total]

theorem total_perm {cs ds : List CapArg} (hperm : cs.Perm ds) :
    total p f cs = total p f ds :=
  (hperm.map _).sum_eq

/-- The loop of `merge_caps` keeps the sums. -/
theorem mergeLoop_total (hf : AddsUp f) (it : Caps) (cs : List Caps) :
    total p f ((mergeLoop it cs).map Caps.toCapArg) ≡
      total p f ((it :: cs).map Caps.toCapArg) [ZMOD 2 ^ 32] := by
  induction cs generalizing it with
  | nil => exact Int.ModEq.refl _
  | cons c cs ih =>
    rw [mergeLoop]
    split_ifs with heq
    · -- two entries for one key become one
      refine (ih _).trans ?_
      simp only [List.map_cons, total_cons, ← heq, ← add_assoc]
      apply Int.ModEq.add_right
      split_ifs
      · exact hf it.toCapArg c.toCapArg
      · exact Int.ModEq.refl _
    · simp only [List.map_cons] at ih ⊢
      exact (ih c).add_left _

/-- `merge_caps` keeps the sums of the arguments. -/
theorem mergeCaps_total (hf : AddsUp f) (hcs : mergeCaps P ks args = .ok cs) :
    total p f (cs.map Caps.toCapArg) ≡ total p f args [ZMOD 2 ^ 32] := by
  obtain ⟨hs, hhandles, rfl⟩ := map_eq_ok.1 hcs
  have hperm := (P.qsort_perm (capsCmp P) hs).map Caps.toCapArg
  rw [(treeHandles_ok hhandles).1] at hperm
  rw [← total_perm hperm]
  cases P.qsort (capsCmp P) hs with
  | nil => exact Int.ModEq.refl _
  | cons c cs => exact mergeLoop_total hf c cs

/-- One entry for a key is its sum. -/
theorem total_of_nodup {cs : List CapArg} (hnodup : (cs.map fun c => c.h).Nodup) {c : CapArg}
    (hc : c ∈ cs) : total (· == c.h) f cs = f c := by
  induction cs with
  | nil => cases hc
  | cons d ds ih =>
    obtain ⟨hnot, hnodup'⟩ := List.nodup_cons.1 hnodup
    rw [total_cons]
    rcases List.mem_cons.1 hc with rfl | hc
    · -- no other entry counts
      have hzero : total (· == c.h) f ds = 0 := by
        refine List.sum_eq_zero fun x hx => ?_
        obtain ⟨e, he, rfl⟩ := List.mem_map.1 hx
        have hne : e.h ≠ c.h := fun heq => hnot (List.mem_map.2 ⟨e, he, heq⟩)
        simp [hne]
      simp [hzero]
    · have hne : d.h ≠ c.h := fun heq => hnot (List.mem_map.2 ⟨c, hc, heq.symm⟩)
      simp [hne, ih hnodup' hc]

/-- An entry of an array with one entry for each key has the sum of its key. -/
theorem mergeCaps_sum (hf : AddsUp f) (hcs : mergeCaps P ks args = .ok cs)
    (hnodup : (cs.map fun c => c.h).Nodup) {c : Caps} (hc : c ∈ cs) :
    f c.toCapArg ≡ total (· == c.h) f args [ZMOD 2 ^ 32] := by
  have hnodup' : ((cs.map Caps.toCapArg).map fun c => c.h).Nodup := by
    rw [List.map_map]
    exact hnodup
  have htotal := mergeCaps_total (p := (· == c.h)) hf hcs
  rwa [total_of_nodup hnodup' (List.mem_map_of_mem hc)] at htotal

end Sums

/-- A value of type `int`. -/
def IsInt (x : Int) : Prop := -2147483648 ≤ x ∧ x < 2147483648

theorem isInt_int32 (x : Int) : IsInt (int32 x) := by
  have hle := Int.le_bmod (x := x) (m := 2 ^ 32) (by decide)
  have hlt := Int.bmod_lt (x := x) (m := 2 ^ 32) (by decide)
  exact ⟨by simpa [int32] using hle, by simpa [int32] using hlt⟩

/-- A count that is right modulo `2 ^ 32` is right if and only if it is an `int`. -/
theorem eq_iff_isInt {x y : Int} (hx : IsInt x) (heq : x ≡ y [ZMOD 2 ^ 32]) : x = y ↔ IsInt y := by
  refine ⟨fun h => h ▸ hx, fun hy => ?_⟩
  obtain ⟨hx1, hx2⟩ := hx
  obtain ⟨hy1, hy2⟩ := hy
  rw [Int.ModEq] at heq
  omega

/-- The three counts of an entry. -/
def CapArg.counts (c : CapArg) : TrueCaps := ⟨c.rc, c.wc, c.lc⟩

/-- The three counts are `int`s. -/
@[mk_iff]
structure TrueCaps.Ints (m : TrueCaps) : Prop where
  rcnt : IsInt m.rcnt
  wrCnt : IsInt m.wrCnt
  rdCnt : IsInt m.rdCnt

theorem mergeLoop_ints (it : Caps) (cs : List Caps)
    (hint : ∀ c ∈ it :: cs, c.counts.Ints) : ∀ c ∈ mergeLoop it cs, c.counts.Ints := by
  induction cs generalizing it with
  | nil => exact hint
  | cons c cs ih =>
    rw [mergeLoop]
    split_ifs with heq
    · refine ih _ (List.forall_mem_cons.2 ⟨⟨isInt_int32 _, isInt_int32 _, isInt_int32 _⟩, ?_⟩)
      exact fun d hd => hint d (.tail it (.tail c hd))
    · obtain ⟨hit, hrest⟩ := List.forall_mem_cons.1 hint
      exact List.forall_mem_cons.2 ⟨hit, ih c hrest⟩

/-- One entry for each key of the array, with the sums of the counts given for that key. -/
structure Merged (args : List CapArg) (cs : List Caps) : Prop where
  keys : ∀ z, (∃ c ∈ cs, c.h = z) ↔ ∃ c ∈ args, c.h = z
  nodup : (cs.map fun c => c.h).Nodup
  sums : ∀ c ∈ cs, c.counts = TrueCounts.given args c.h

section Merge

variable {P : Platform} {ks : Keys} {args : List CapArg} {cs : List Caps}

theorem mergeCaps_ints (hint : ∀ c ∈ args, c.counts.Ints) (hcs : mergeCaps P ks args = .ok cs) :
    ∀ c ∈ cs, c.counts.Ints := by
  obtain ⟨hs, hhandles, rfl⟩ := map_eq_ok.1 hcs
  have hsorted : ∀ c ∈ P.qsort (capsCmp P) hs, c.counts.Ints := by
    intro c hc
    refine hint c.toCapArg ?_
    rw [← (treeHandles_ok hhandles).1]
    exact List.mem_map_of_mem ((P.qsort_perm _ _).mem_iff.1 hc)
  cases hq : P.qsort (capsCmp P) hs with
  | nil => simp
  | cons c cs => exact mergeLoop_ints c cs (hq ▸ hsorted)

/-- If `caps_cmp` can sort the keys that are passed, `merge_caps` leaves one entry for each key with
the sums of its counts exactly when the sums are `int`s. -/
theorem mergeCaps_merged_iff (hsort : Sortable P ks args) (hint : ∀ c ∈ args, c.counts.Ints)
    (hcs : mergeCaps P ks args = .ok cs) :
    Merged args cs ↔ ∀ c ∈ args, (TrueCounts.given args c.h).Ints := by
  have hints := mergeCaps_ints hint hcs
  constructor
  · intro hmerged d hd
    obtain ⟨c, hc, hch⟩ := (hmerged.keys d.h).2 ⟨d, hd, rfl⟩
    rw [← hch, ← hmerged.sums c hc]
    exact hints c hc
  · intro hsums
    have hnodup := hsort.nodup hcs
    refine ⟨fun z => mem_mergeCaps_iff hcs, hnodup, fun c hc => ?_⟩
    obtain ⟨d, hd, hdh⟩ := (mem_mergeCaps_iff hcs).1 ⟨c, hc, rfl⟩
    have hfit := hsums d hd
    rw [hdh] at hfit
    have hown := hints c hc
    -- the entry has the sum of its key modulo `2 ^ 32`
    have hrc := mergeCaps_sum addsUp_rc hcs hnodup hc
    have hwc := mergeCaps_sum addsUp_wc hcs hnodup hc
    have hlc := mergeCaps_sum addsUp_lc hcs hnodup hc
    simp only [CapArg.counts, TrueCounts.given, TrueCaps.mk.injEq]
    exact ⟨(eq_iff_isInt hown.rcnt hrc).2 hfit.rcnt, (eq_iff_isInt hown.wrCnt hwc).2 hfit.wrCnt,
      (eq_iff_isInt hown.rdCnt hlc).2 hfit.rdCnt⟩

end Merge

/-! ## What a compiler makes of the comparison -/

/-- Insertion sort sorts by a consistent comparison. -/
theorem insertionSort_sorted (cmp : Caps → Caps → Int) (cs : List Caps)
    (hcons : CmpOrders cmp cs) :
    (cs.insertionSort fun c d => cmp c d ≤ 0).Pairwise fun c d => cmp c d ≤ 0 := by
  -- on the elements of the array the comparison is a total preorder
  let r : {c // c ∈ cs} → {c // c ∈ cs} → Prop := fun c d => cmp c.1 d.1 ≤ 0
  have : Std.Total r := ⟨fun c d => by
    rcases le_or_gt (cmp c.1 d.1) 0 with hle | hgt
    · exact .inl hle
    · exact .inr ((hcons.swap d.1 d.2 c.1 c.2).2 hgt).le⟩
  have : IsTrans _ r := ⟨fun c d e => hcons.trans c.1 c.2 d.1 d.2 e.1 e.2⟩
  have hsorted := (List.pairwise_insertionSort r cs.attach).map Subtype.val
    (S := fun c d => cmp c d ≤ 0) fun _ _ h => h
  rwa [List.map_insertionSort r (fun c d => cmp c d ≤ 0) Subtype.val cs.attach
    fun _ _ _ _ => Iff.rfl, List.attach_map_subtype_val] at hsorted

/-- The platform the comments of the source assume: the difference of two pointers is that of their
addresses. -/
def plainPlatform : Platform where
  keySize := 48
  ptrDiff a b := a - b
  qsort cmp cs := cs.insertionSort fun c₁ c₂ => cmp c₁ c₂ ≤ 0
  qsort_perm _ cs := List.perm_insertionSort _ cs
  qsort_sorted := insertionSort_sorted

/-- A 64-bit platform. A region has 80 bytes and a key 48. A compiler divides the difference of two
addresses by 80, which the C standard lets it take for exact: it shifts by 4 and multiplies by the
inverse of 5 modulo `2 ^ 64`. -/
def gccPlatform : Platform where
  keySize := 48
  ptrDiff a b := Int.bmod ((a - b) / 16 * 0xCCCCCCCCCCCCCCCD) (2 ^ 64)
  qsort cmp cs := cs.insertionSort fun c₁ c₂ => cmp c₁ c₂ ≤ 0
  qsort_perm _ cs := List.perm_insertionSort _ cs
  qsort_sorted := insertionSort_sorted

/-- Three keys of a thread that was spawned, in their array. -/
def arrayKeys : Keys :=
  .key 0 2000 ⟨5, 0, 0⟩ .nil (.key 1 2048 ⟨5, 0, 0⟩ .nil (.key 2 2096 ⟨5, 0, 0⟩ .nil .nil))

/-- A spawn with three entries for one of the keys. -/
def repeatedArgs : List CapArg :=
  [⟨0, 1, 0, 0⟩, ⟨0, 1, 0, 0⟩, ⟨2, 1, 0, 0⟩, ⟨1, 1, 0, 0⟩, ⟨0, 1, 0, 0⟩]

instance (cmp : Caps → Caps → Int) (cs : List Caps) : Decidable (CmpOrders cmp cs) :=
  decidable_of_iff (_ ∧ _) ⟨fun ⟨hswap, htrans⟩ => ⟨hswap, htrans⟩,
    fun hcons => ⟨hcons.swap, hcons.trans⟩⟩

instance (P : Platform) (ks : Keys) (args : List CapArg) : Decidable (Sortable P ks args) :=
  inferInstanceAs (Decidable (_ ∨ _))

theorem mergeCaps_merged_iff_repeatedArgs :
    mergeCaps plainPlatform arrayKeys repeatedArgs =
        .ok [⟨⟨2, 1, 0, 0⟩, 2096⟩, ⟨⟨1, 1, 0, 0⟩, 2048⟩, ⟨⟨0, 3, 0, 0⟩, 2000⟩] ∧
      Merged repeatedArgs [⟨⟨2, 1, 0, 0⟩, 2096⟩, ⟨⟨1, 1, 0, 0⟩, 2048⟩, ⟨⟨0, 3, 0, 0⟩, 2000⟩] := by
  have hrun : mergeCaps plainPlatform arrayKeys repeatedArgs =
      .ok [⟨⟨2, 1, 0, 0⟩, 2096⟩, ⟨⟨1, 1, 0, 0⟩, 2048⟩, ⟨⟨0, 3, 0, 0⟩, 2000⟩] := by
    decide +kernel
  have hint : ∀ c ∈ repeatedArgs, c.counts.Ints := by
    simp [repeatedArgs, CapArg.counts, IsInt, TrueCaps.ints_iff]
  refine ⟨hrun, (mergeCaps_merged_iff (by decide +kernel) hint hrun).2 ?_⟩
  simp [repeatedArgs, TrueCounts.given, total, IsInt, TrueCaps.ints_iff]

/-- The comparison goes round in a circle on the three keys, and an entry is left over. Also, sums
that are no `int`s wrap around. -/
theorem not_merged_repeatedArgs :
    (∃ cs, mergeCaps gccPlatform arrayKeys repeatedArgs = .ok cs ∧ ¬ Merged repeatedArgs cs) ∧
      ∃ cs, mergeCaps plainPlatform arrayKeys [⟨0, 2147483647, 0, 0⟩, ⟨0, 1, 0, 0⟩] = .ok cs ∧
        ¬ Merged [⟨0, 2147483647, 0, 0⟩, ⟨0, 1, 0, 0⟩] cs := by
  constructor
  · have hrun : (mergeCaps gccPlatform arrayKeys repeatedArgs).map (fun cs =>
        decide (cs.map fun c => c.h).Nodup) = .ok false := by
      decide +kernel
    obtain ⟨cs, hcs, hdup⟩ := map_eq_ok.1 hrun
    exact ⟨cs, hcs, fun hmerged => of_decide_eq_false hdup hmerged.nodup⟩
  · refine ⟨[⟨⟨0, -2147483648, 0, 0⟩, 2000⟩], by decide +kernel, fun hmerged => ?_⟩
    have hsum := congrArg TrueCaps.rcnt (hmerged.sums _ (.head _))
    exact absurd hsum (by decide)

end ConcurrentCyclone.Runtime
