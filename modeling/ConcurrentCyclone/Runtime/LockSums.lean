import ConcurrentCyclone.Runtime.RefCount

/-!
# Lock counts along the key tree

The lock counts of a key are meant to be the counts acquired on the key itself and on all its
ancestors in the tree. A ledger records what each thread acquired, released, gave away or was given
on each region, and `Sums` says that the stored counts are the sums of the ledger along the paths
from the roots. The operations keep it (`Books.Balanced.step`) as long as the counts fit in a
`short`, a spawn has one entry for each key, and it passes lock counts only for keys none of whose
direct sub-keys it passes. `__treecopy` stores the counts it is given and adds nothing for the
ancestors of a key, so without the last condition the keys below a key that is passed with a lock
count are one short.

A thread that releases only what the ledger records cannot drive a stored count below zero
(`Books.Balanced.sumsAlongTrees`).
-/

set_option autoImplicit false

namespace ConcurrentCyclone.Runtime

open Transition
open Function (update update_self update_of_ne)

/-- Write and read counts acquired on each region. -/
abbrev Own := Rid → Int × Int

/-- Every key has the sum of the counts acquired on it and on its ancestors; `wr` and `rd` are the
sums of the ancestors of this list of siblings. -/
def Sums (own : Own) (wr rd : Int) : Keys → Prop
  | .nil => True
  | .key h _ l sub next =>
    l.wrCnt.toInt = wr + (own h).1 ∧ l.rdCnt.toInt = rd + (own h).2 ∧
      Sums own (wr + (own h).1) (rd + (own h).2) sub ∧ Sums own wr rd next

/-- The same for one key. -/
def KeySums (own : Own) (wr rd : Int) (h : Rid) (k : KeyData) : Prop :=
  k.1.wrCnt.toInt = wr + (own h).1 ∧ k.1.rdCnt.toInt = rd + (own h).2 ∧
    Sums own (wr + (own h).1) (rd + (own h).2) k.2

/-- The counts are not negative. -/
def LocalCaps.Nonneg (l : LocalCaps) : Prop := 0 ≤ l.wrCnt.toInt ∧ 0 ≤ l.rdCnt.toInt

/-- The counts plus the arguments are not too large for a `short`. -/
def LocalCaps.Below (w r : Int) (l : LocalCaps) : Prop :=
  l.wrCnt.toInt + w < 32768 ∧ l.rdCnt.toInt + r < 32768

instance (w r : Int) (l : LocalCaps) : Decidable (l.Below w r) :=
  inferInstanceAs (Decidable (_ ∧ _))

section Sums

variable {own own' : Own} {wr rd : Int} {ks ks' : Keys} {h : Rid} {k : KeyData}

/-- Only the entries of the ledger for the regions of the keys matter. -/
theorem Sums.congr (hown : ∀ z ∈ ks.regions, own' z = own z) (hs : Sums own wr rd ks) :
    Sums own' wr rd ks := by
  induction ks generalizing wr rd with
  | nil => trivial
  | key h a l sub next ihsub ihnext =>
    obtain ⟨hw, hr, hsub, hnext⟩ := hs
    obtain ⟨hh, hsubOwn, hnextOwn⟩ := Keys.forall_regions.1 hown
    refine ⟨by rw [hh, hw], by rw [hh, hr], ?_, ihnext hnextOwn hnext⟩
    rw [hh]
    exact ihsub hsubOwn hsub

/-- What a call asserted of a key makes the stored sums exact. -/
theorem addLocks_exact {w r : Int} {l : LocalCaps} (hw : -2147483648 ≤ w) (hr : -2147483648 ≤ r)
    (hcount : countAssert w r l = true) (hbelow : l.Below w r) :
    (addLocks w r l).wrCnt.toInt = l.wrCnt.toInt + w ∧
      (addLocks w r l).rdCnt.toInt = l.rdCnt.toInt + r ∧ (addLocks w r l).Nonneg := by
  simp only [countAssert, Bool.and_eq_true, decide_eq_true_eq] at hcount
  obtain ⟨⟨⟨hwn, hrn⟩, hws⟩, hrs⟩ := hcount
  obtain ⟨hwb, hrb⟩ := hbelow
  rw [int32_of_range (by omega) (by omega)] at hws hrs
  have hwx : (addLocks w r l).wrCnt.toInt = l.wrCnt.toInt + w :=
    toInt_addShort_of_range (by omega) hwb
  have hrx : (addLocks w r l).rdCnt.toInt = l.rdCnt.toInt + r :=
    toInt_addShort_of_range (by omega) hrb
  exact ⟨hwx, hrx, by rw [hwx]; exact hws, by rw [hrx]; exact hrs⟩

/-- A call on all keys of a list moves the sums of their ancestors. -/
theorem Sums.shift {w r : Int} (hw : -2147483648 ≤ w) (hr : -2147483648 ≤ r)
    (hcount : ks.All fun _ l => countAssert w r l = true)
    (hbelow : ks.All fun _ l => l.Below w r) (hs : Sums own wr rd ks) :
    Sums own (wr + w) (rd + r) (ks.mapCaps (addLocks w r)) := by
  induction ks generalizing wr rd with
  | nil => trivial
  | key h a l sub next ihsub ihnext =>
    obtain ⟨hwr, hrd, hsub, hnext⟩ := hs
    -- what the sums of the ancestors gain, every key below gains
    obtain ⟨hwx, hrx, _⟩ := addLocks_exact hw hr hcount.1 hbelow.1
    refine ⟨?_, ?_, ?_, ihnext hcount.2.2 hbelow.2.2 hnext⟩
    · rw [hwx]
      omega
    · rw [hrx]
      omega
    · have hshift := ihsub hcount.2.1 hbelow.2.1 hsub
      rwa [show wr + w + (own h).1 = wr + (own h).1 + w by omega,
        show rd + r + (own h).2 = rd + (own h).2 + r by omega]

theorem Sums.congr_ne (hown : ∀ z, z ≠ h → own' z = own z) (hh : h ∉ ks.regions)
    (hs : Sums own wr rd ks) : Sums own' wr rd ks :=
  hs.congr fun z hz => hown z fun e => hh (e ▸ hz)

/-- Replacing a key keeps the sums if the new key has them. -/
theorem Replaced.sums {o : Option KeyData} (hrep : Replaced h k o ks ks')
    (hnodup : ks.regions.Nodup) (hown : ∀ z, z ≠ h → own' z = own z)
    (hkey : ∀ wr rd, KeySums own wr rd h k → ∀ k', o = some k' → KeySums own' wr rd h k')
    (hs : Sums own wr rd ks) : Sums own' wr rd ks' := by
  induction hrep generalizing wr rd with
  | removed =>
    obtain ⟨_, _, _, hnot, _⟩ := Keys.nodup_key hnodup
    exact hs.2.2.2.congr_ne hown hnot
  | @changed a next k' =>
    obtain ⟨hw, hr, hsub, hnext⟩ := hs
    obtain ⟨_, _, _, hnot, _⟩ := Keys.nodup_key hnodup
    obtain ⟨hw', hr', hsub'⟩ := hkey wr rd ⟨hw, hr, hsub⟩ k' rfl
    exact ⟨hw', hr', hsub', hnext.congr_ne hown hnot⟩
  | @sub o h' a l sub sub' next hne hrep ih =>
    obtain ⟨hw, hr, hsub, hnext⟩ := hs
    obtain ⟨hndsub, _, _, _, hdisj⟩ := Keys.nodup_key hnodup
    rw [← hown h' hne] at hw hr hsub
    exact ⟨hw, hr, ih hndsub hkey hsub, hnext.congr_ne hown (hdisj h (hrep.mem_old (.head _)))⟩
  | @next o h' a l sub next next' hne hrep ih =>
    obtain ⟨hw, hr, hsub, hnext⟩ := hs
    obtain ⟨_, hndnext, _, _, hdisj⟩ := Keys.nodup_key hnodup
    rw [← hown h' hne] at hw hr hsub
    refine ⟨hw, hr, hsub.congr_ne hown fun hmem => ?_, ih hndnext hkey hnext⟩
    exact hdisj h hmem (hrep.mem_old (.head _))

/-- The sums of a key that is somewhere in the tree; its ancestors contribute nothing negative if
nothing negative was acquired. -/
theorem Replaced.keySums {o : Option KeyData} (hrep : Replaced h k o ks ks')
    (hnonneg : ∀ z ∈ ks.regions, 0 ≤ (own z).1 ∧ 0 ≤ (own z).2) (hs : Sums own wr rd ks) :
    ∃ wr' rd', wr ≤ wr' ∧ rd ≤ rd' ∧ KeySums own wr' rd' h k := by
  induction hrep generalizing wr rd with
  | removed | changed =>
    obtain ⟨hw, hr, hsub, _⟩ := hs
    exact ⟨wr, rd, le_refl _, le_refl _, hw, hr, hsub⟩
  | @sub o h' a l sub sub' next hne hrep ih =>
    obtain ⟨_, _, hsub, _⟩ := hs
    -- one more ancestor, with counts that are not negative
    obtain ⟨⟨hw0, hr0⟩, hnonneg, -⟩ := Keys.forall_regions.1 hnonneg
    obtain ⟨wr', rd', hwle, hrle, hkey⟩ := ih hnonneg hsub
    exact ⟨wr', rd', by omega, by omega, hkey⟩
  | @next o h' a l sub next next' hne hrep ih =>
    obtain ⟨_, _, _, hnext⟩ := hs
    exact ih (Keys.forall_regions.1 hnonneg).2.2 hnext

/-- If nothing negative was acquired, the counts are at least those of the ancestors. -/
theorem Sums.lower_bound (hnonneg : ∀ z ∈ ks.regions, 0 ≤ (own z).1 ∧ 0 ≤ (own z).2)
    (hs : Sums own wr rd ks) : ks.All fun _ l => wr ≤ l.wrCnt.toInt ∧ rd ≤ l.rdCnt.toInt := by
  induction ks generalizing wr rd with
  | nil => trivial
  | key h a l sub next ihsub ihnext =>
    obtain ⟨hw, hr, hsub, hnext⟩ := hs
    obtain ⟨⟨hw0, hr0⟩, hnonnegSub, hnonnegNext⟩ := Keys.forall_regions.1 hnonneg
    refine ⟨⟨by omega, by omega⟩, (ihsub hnonnegSub hsub).imp ?_, ihnext hnonnegNext hnext⟩
    intro z l' hle
    exact ⟨by omega, by omega⟩

end Sums

/-! ## One thread -/

/-- The keys of a thread agree with what it owns. -/
structure Balanced (own : Own) (ks : Keys) : Prop where
  nodup : ks.regions.Nodup
  sums : Sums own 0 0 ks
  nonneg : ks.All fun _ l => l.Nonneg

/-- Acquire counts on a region; a release is a negative count. -/
def Own.acquire (own : Own) (h : Rid) (w r : Int) : Own :=
  Function.update own h ((own h).1 + w, (own h).2 + r)

/-- The key of region `h` and the keys below it have the property. -/
def Keys.AllFrom (h : Rid) (p : LocalCaps → Prop) : Keys → Prop
  | .nil => True
  | .key h' _ l sub next =>
    if h' = h then p l ∧ sub.All fun _ => p else sub.AllFrom h p ∧ next.AllFrom h p

instance Keys.decidableAllFrom (h : Rid) (p : LocalCaps → Prop) [DecidablePred p] :
    (ks : Keys) → Decidable (ks.AllFrom h p)
  | .nil => inferInstanceAs (Decidable True)
  | .key h' _ _ sub next =>
    have := sub.decidableAllFrom h p
    have := next.decidableAllFrom h p
    inferInstanceAs (Decidable (if h' = h then _ else _))

theorem Replaced.allFrom {h : Rid} {k : KeyData} {o : Option KeyData} {ks ks' : Keys}
    {p : LocalCaps → Prop} (hrep : Replaced h k o ks ks') (hall : ks.AllFrom h p) :
    p k.1 ∧ k.2.All fun _ => p := by
  induction hrep with
  | removed | changed => simpa [Keys.AllFrom] using hall
  | sub hne _ ih =>
    rw [Keys.AllFrom, if_neg hne] at hall
    exact ih hall.1
  | next hne _ ih =>
    rw [Keys.AllFrom, if_neg hne] at hall
    exact ih hall.2

section Thread

variable {self : Tid} {g g' : Regions} {own : Own} {ks ks' : Keys} {h : Rid}

variable {w r : Int} {l : LocalCaps}

/-- A count that is large enough passes the assertions. -/
theorem countAssert_of_le (hw : w ≤ 0) (hr : r ≤ 0)
    (hl : -w ≤ l.wrCnt.toInt ∧ -r ≤ l.rdCnt.toInt) : countAssert w r l = true := by
  have hwlt := BitVec.toInt_lt (x := l.wrCnt)
  have hrlt := BitVec.toInt_lt (x := l.rdCnt)
  simp only [countAssert, Bool.and_eq_true, decide_eq_true_eq]
  rw [int32_of_range (by omega) (by omega), int32_of_range (by omega) (by omega)]
  omega

theorem countAssert_zero (hl : l.Nonneg) : countAssert 0 0 l = true :=
  countAssert_of_le (le_refl 0) (le_refl 0) hl

variable {rgc wc rc : Int}

/-- `_xregion_cap` keeps the keys balanced when the arguments are entered in the ledger. -/
theorem Balanced.cap (hb : Balanced own ks)
    (hcall : Runtime.cap self h rgc wc rc g ks = .ok (g', ks')) (hw : -2147483648 ≤ wc)
    (hr : -2147483648 ≤ rc) (hbelow : ks.AllFrom h fun l => l.Below wc rc) :
    Balanced (own.acquire h wc rc) ks' := by
  obtain ⟨k, o, hrep, hsame, hk'⟩ := cap_replaced hcall
  obtain ⟨hbelowKey, hbelowSub⟩ := hrep.allFrom hbelow
  obtain ⟨hnnKey, hnnSub⟩ := hrep.all_old hb.nonneg
  have hown : ∀ z, z ≠ h → own.acquire h wc rc z = own z := fun z hz => update_of_ne hz ..
  have hh : own.acquire h wc rc h = ((own h).1 + wc, (own h).2 + rc) := update_self ..
  -- a call without arguments makes no assertion, but the counts are not negative anyway
  have hcounts : ∀ k', o = some k' →
      countAssert wc rc k.1 = true ∧ k.2.All fun _ l => countAssert wc rc l = true := by
    intro k' ho
    rcases (hk' k' ho).2.1 with ⟨rfl, rfl⟩ | hcounts
    · exact ⟨countAssert_zero hnnKey, hnnSub.imp fun _ _ => countAssert_zero⟩
    · exact hcounts
  refine ⟨hrep.nodup_new hsame hb.nodup, hrep.sums hb.nodup hown ?_ hb.sums,
    hrep.all_new hb.nonneg ?_⟩
  · rintro wr rd ⟨hkw, hkr, hks⟩ k' ho
    obtain ⟨hwx, hrx, _⟩ := addLocks_exact hw hr (hcounts k' ho).1 hbelowKey
    have hshift := (hks.shift hw hr (hcounts k' ho).2 hbelowSub).congr_ne hown
      (by simpa using hrep.not_mem_below hb.nodup)
    obtain rfl := (hk' k' ho).2.2
    rw [KeySums, hh]
    exact ⟨hwx.trans (by omega), hrx.trans (by omega), by simpa [add_assoc] using hshift⟩
  · intro k' ho
    obtain ⟨hcountKey, hcountSub⟩ := hcounts k' ho
    obtain rfl := (hk' k' ho).2.2
    refine ⟨(addLocks_exact hw hr hcountKey hbelowKey).2.2, Keys.all_mapCaps.2 ?_⟩
    exact (hcountSub.and hbelowSub).imp fun _ _ hl => (addLocks_exact hw hr hl.1 hl.2).2.2

/-- `_new_xregion` keeps the keys balanced when one write count on the new region is entered in the
ledger. -/
theorem Balanced.create (hb : Balanced own ks) {parent : Option Rid} {z : Rid} {addr : Int}
    (hcall : newXregion self parent z addr g ks = .ok (g', ks')) (hfresh : z ∉ ks.regions)
    (hbelow : ∀ p ∈ parent, ks.All fun z l => z = p → l.Below 1 0) :
    Balanced (update own z (1, 0)) ks' := by
  obtain ⟨_, hperm, _⟩ := newXregion_ok hcall
  have hnodup : ks'.regions.Nodup :=
    hperm.nodup_iff.2 (List.nodup_cons.2 ⟨hfresh, hb.nodup⟩)
  have hsums : Sums (update own z (1, 0)) 0 0 ks :=
    hb.sums.congr_ne (fun y hy => update_of_ne hy ..) hfresh
  cases parent with
  | none =>
    cases hcall
    refine ⟨hnodup, ⟨?_, ?_, trivial, hsums⟩, ⟨?_, trivial, hb.nonneg⟩⟩
    · simp [newLocalCaps]
    · simp [newLocalCaps]
    · simp [LocalCaps.Nonneg, newLocalCaps]
  | some p =>
    obtain ⟨k, o, hf, hrep⟩ := onKey_ok hcall
    cases hf
    have hbelowKey := (hrep.all_old (hbelow p rfl)).1 rfl
    obtain ⟨hnnKey, hnnSub⟩ := hrep.all_old hb.nonneg
    have hnn := hnnKey.1
    -- the inherited write count plus one
    have hwr : (newLocalCaps k.1.wrCnt k.1.rdCnt).wrCnt.toInt = k.1.wrCnt.toInt + 1 :=
      toInt_addShort_of_range (x := k.1.wrCnt) (d := 1) (by omega) hbelowKey.1
    refine ⟨hnodup, hrep.sums hb.nodup (fun _ _ => rfl) ?_ hsums, hrep.all_new hb.nonneg ?_⟩
    · rintro wr rd ⟨hkw, hkr, hks⟩ k' ⟨rfl⟩
      refine ⟨hkw, hkr, ?_, ?_, trivial, hks⟩
      · rw [update_self, hwr, hkw]
      · rw [← hkr]
        simp [newLocalCaps]
    · rintro k' ⟨rfl⟩
      refine ⟨hnnKey, ⟨?_, hnnKey.2⟩, trivial, hnnSub⟩
      omega

/-! ## A new thread -/

/-- Only keys without sub-keys have lock counts. -/
def Keys.LeafLocks : Keys → Prop
  | .nil => True
  | .key _ _ l sub next =>
    (sub ≠ .nil → l.wrCnt = 0 ∧ l.rdCnt = 0) ∧ sub.LeafLocks ∧ next.LeafLocks

/-- Counts that stand on leaves only are their own sums. -/
theorem Sums.of_leafLocks (hleaf : ks.LeafLocks)
    (hown : ks.All fun z l => l.wrCnt.toInt = (own z).1 ∧ l.rdCnt.toInt = (own z).2) :
    Sums own 0 0 ks := by
  induction ks with
  | nil => trivial
  | key h a l sub next ihsub ihnext =>
    obtain ⟨hself, hleafSub, hleafNext⟩ := hleaf
    obtain ⟨⟨hw, hr⟩, hownSub, hownNext⟩ := hown
    refine ⟨by rw [hw, zero_add], by rw [hr, zero_add], ?_, ihnext hleafNext hownNext⟩
    by_cases hnil : sub = .nil
    · rw [hnil]
      trivial
    · -- a key with sub-keys has no counts of its own
      obtain ⟨hwz, hrz⟩ := hself hnil
      rw [← hw, ← hr, hwz, hrz]
      exact ihsub hleafSub hownSub

/-- The regions of the keys of this list of siblings. -/
def Keys.heads : Keys → List Rid
  | .nil => []
  | .key h _ _ _ next => h :: next.heads

/-- The array passes lock counts only for keys of the spawner none of whose direct sub-keys it
passes. -/
def Keys.PassesLeaves (cs : List Caps) : Keys → Prop
  | .nil => True
  | .key h _ _ sub next =>
    (∀ c ∈ cs, c.h = h → (∃ d ∈ cs, d.h ∈ sub.heads) → c.wc = 0 ∧ c.lc = 0) ∧
      sub.PassesLeaves cs ∧ next.PassesLeaves cs

instance Keys.decidablePassesLeaves (cs : List Caps) : (ks : Keys) → Decidable (ks.PassesLeaves cs)
  | .nil => inferInstanceAs (Decidable True)
  | .key h _ _ sub next =>
    have := sub.decidablePassesLeaves cs
    have := next.decidablePassesLeaves cs
    inferInstanceAs (Decidable ((∀ c ∈ cs, c.h = h → _ → _) ∧ _ ∧ _))

/-- The new key has no lock counts if it has sub-keys, and so have the keys below it. -/
def Copied.LeafLocks (c : Copied) : Prop :=
  (c.sub ≠ .nil → c.entry.wc = 0 ∧ c.entry.lc = 0) ∧ c.sub.LeafLocks

section LeafLocks

variable {P : Platform} {n : Int} {o : List (Caps × Nat)} {cs : List Caps}

theorem chain_leafLocks {ds : List Copied} (hds : ∀ d ∈ ds, d.LeafLocks) :
    (chain P n ds).LeafLocks := by
  induction ds with
  | nil => trivial
  | cons d ds ih =>
    obtain ⟨hself, hsub⟩ := hds d (.head _)
    refine ⟨fun hne => ?_, hsub, ih fun e he => hds e (.tail d he)⟩
    obtain ⟨hwc, hlc⟩ := hself hne
    simp [copyCaps, hwc, hlc]

/-- The keys that are linked below a parent are copies of direct sub-keys. -/
theorem copyKeys_heads {d : Copied} (hd : d ∈ (copyKeys P n o ks).1) :
    (d.entry, d.idx) ∈ o ∧ d.entry.h ∈ ks.heads := by
  induction ks with
  | nil => cases hd
  | key h a l sub next _ ihnext =>
    have hbeside : d ∈ (copyKeys P n o next).1 →
        (d.entry, d.idx) ∈ o ∧ d.entry.h ∈ (Keys.key h a l sub next).heads :=
      fun hd => (ihnext hd).imp_right (.tail h)
    cases hsplit : o.filter fun c => c.1.h = h with
    | nil =>
      simp only [copyKeys, hsplit] at hd
      exact hbeside hd
    | cons c cs =>
      -- all copies of this key are entries for its region
      have hmem : ∀ e ∈ c :: cs, e ∈ o ∧ e.1.h ∈ (Keys.key h a l sub next).heads := by
        intro e he
        rw [← hsplit, List.mem_filter, decide_eq_true_eq] at he
        exact ⟨he.1, by simp [Keys.heads, he.2]⟩
      simp only [copyKeys, hsplit, List.mem_append, List.mem_cons, List.mem_map] at hd
      rcases hd with (rfl | ⟨e, he, rfl⟩) | hd
      · exact hmem c (.head _)
      · exact hmem e (.tail c he)
      · exact hbeside hd

theorem copyKeys_leafLocks (ho : ∀ c ∈ o, c.1 ∈ cs) (hks : ks.PassesLeaves cs) :
    ∀ d ∈ (copyKeys P n o ks).1 ++ (copyKeys P n o ks).2, d.LeafLocks := by
  refine copyKeys_forall (fun h => ⟨h.2.1, h.2.2⟩) ?_ ?_ hks
  · intro h a l sub next hpass c hc hch hbelow
    refine ⟨fun hne => hpass.1 c.1 (ho c hc) hch ?_, chain_leafLocks fun e he => ?_⟩
    · -- a copy with sub-keys: some direct sub-key is in the array
      cases hcopies : (copyKeys P n o sub).1 with
      | nil => exact absurd (by rw [hcopies]; rfl) hne
      | cons e es =>
        obtain ⟨hmem, hheads⟩ := copyKeys_heads (d := e) (by
          rw [hcopies]
          exact .head _)
        exact ⟨e.entry, ho _ hmem, hheads⟩
    · exact hbelow e ((List.perm_insertionSort _ _).mem_iff.1 he)
  · exact fun c _ => ⟨fun hne => absurd rfl hne, trivial⟩

/-- The new thread has lock counts on keys without sub-keys only. -/
theorem newKeys_leafLocks (hks : ks.PassesLeaves cs) : (newKeys P n cs ks).LeafLocks :=
  chain_leafLocks (copyKeys_leafLocks (fun _ hc => List.fst_mem_of_mem_zipIdx hc) hks)

end LeafLocks

/-- What a new thread is given. -/
def given (cs : List Caps) : Own := fun z =>
  match cs.find? fun c => c.h = z with
  | none => (0, 0)
  | some c => (c.wc, c.lc)

/-- The entries of a spawn array have lock counts that are not negative and fit in a `short`. -/
def CapArg.LocksFit (c : CapArg) : Prop :=
  0 ≤ c.wc ∧ c.wc < 32768 ∧ 0 ≤ c.lc ∧ c.lc < 32768

instance (c : CapArg) : Decidable c.LocksFit := inferInstanceAs (Decidable (_ ∧ _))

variable {cs : List Caps}

theorem given_eq (hnodup : (cs.map fun c => c.h).Nodup) {c : Caps} (hc : c ∈ cs) :
    given cs c.h = (c.wc, c.lc) := by
  induction cs with
  | nil => cases hc
  | cons d ds ih =>
    obtain ⟨hnot, hnodup'⟩ := List.nodup_cons.1 hnodup
    rcases List.mem_cons.1 hc with rfl | hc
    · simp [given]
    · have hne : d.h ≠ c.h := fun e => hnot (List.mem_map.2 ⟨c, hc, e.symm⟩)
      have hrest := ih hnodup' hc
      simpa [given, hne] using hrest

theorem copyCaps_exact {c : CapArg} (hc : c.LocksFit) :
    (copyCaps c).wrCnt.toInt = c.wc ∧ (copyCaps c).rdCnt.toInt = c.lc := by
  obtain ⟨hw0, hw1, hl0, hl1⟩ := hc
  simp only [copyCaps, BitVec.toInt_ofInt]
  exact ⟨Int.bmod_eq_of_le (by omega) (by omega), Int.bmod_eq_of_le (by omega) (by omega)⟩

/-- The keys of a new thread are balanced with what it is given. -/
theorem balanced_newKeys {P : Platform} {n : Int} (hks : ks.regions.Nodup)
    (hnodup : (cs.map fun c => c.h).Nodup) (hfit : ∀ c ∈ cs, c.LocksFit)
    (hleaf : ks.PassesLeaves cs) : Balanced (given cs) (newKeys P n cs ks) where
  nodup := nodup_newKeys_regions hks hnodup
  sums := by
    refine Sums.of_leafLocks (newKeys_leafLocks hleaf) (newKeys_all ?_)
    intro c hc
    rw [given_eq hnodup hc]
    exact copyCaps_exact (hfit c hc)
  nonneg := by
    apply newKeys_all
    intro c hc
    obtain ⟨hw, hr⟩ := copyCaps_exact (hfit c hc)
    exact ⟨by rw [hw]; exact (hfit c hc).1, by rw [hr]; exact (hfit c hc).2.2.1⟩

/-- What a spawner still owns. -/
def giveUp : List Caps → Own → Own
  | [], own => own
  | c :: cs, own => giveUp cs (own.acquire c.h (-c.wc) (-c.lc))

theorem neg_int32 {x : Int} (h0 : 0 ≤ x) (h1 : x < 32768) : int32 (-x) = -x :=
  int32_of_range (by omega) (by omega)

theorem below_of_nonpos (hw : w ≤ 0) (hr : r ≤ 0) : ks.AllFrom h fun l => l.Below w r := by
  have hall : ∀ l : LocalCaps, l.Below w r := by
    intro l
    have hwlt := BitVec.toInt_lt (x := l.wrCnt)
    have hrlt := BitVec.toInt_lt (x := l.rdCnt)
    exact ⟨by omega, by omega⟩
  induction ks with
  | nil => trivial
  | key h' a l sub next ihsub ihnext =>
    rw [Keys.AllFrom]
    split_ifs
    · exact ⟨hall l, Keys.all_of_forall (fun _ => hall) sub⟩
    · exact ⟨ihsub, ihnext⟩

/-- The second loop of `__treecopy` keeps the keys of the spawner balanced. -/
theorem Balanced.take (hb : Balanced own ks) (hfit : ∀ c ∈ cs, c.LocksFit)
    (hcall : takeCounts self cs g ks = .ok (g', ks')) :
    Balanced (giveUp cs own) ks' := by
  induction cs generalizing g own ks with
  | nil =>
    cases hcall
    exact hb
  | cons c cs ih =>
    obtain ⟨⟨g1, ks1⟩, hcap, hcall⟩ := takeCounts_cons hcall
    obtain ⟨hw0, hw1, hl0, hl1⟩ := hfit c (.head _)
    rw [neg_int32 hw0 hw1, neg_int32 hl0 hl1] at hcap
    have hb1 := hb.cap hcap (by omega) (by omega) (below_of_nonpos (by omega) (by omega))
    exact ih hb1 (fun d hd => hfit d (.tail c hd)) hcall

/-! ## Releasing what one owns -/

section Stops

-- stops that are not assertions on the reference counts: only a call on one key can have them
variable {e : Stop} (he : e = .noKey ∨ e = .released ∨ e = .belowZero) {k : KeyData}

include he

theorem lockopKeys_ne_error (hall : ks.All fun h l => ∀ g, lockopSelf self w r g h l ≠ .error e) :
    lockopKeys self w r g ks ≠ .error e := by
  induction ks generalizing g with
  | nil => simp [lockopKeys]
  | key h a l sub next ihsub ihnext =>
    obtain ⟨hself, hsub, hnext⟩ := hall
    rw [lockopKeys]
    split_ifs
    · rcases he with rfl | rfl | rfl <;> simp
    · refine bind_ne_error (ihsub hsub) fun x => bind_ne_error (hself x.1) fun y herr => ?_
      exact ihnext hnext (map_eq_error.1 herr)

theorem lockop_ne_error (hself : ∀ g, lockopSelf self w r g h k.1 ≠ .error e)
    (hsub : k.2.All fun h l => ∀ g, lockopSelf self w r g h l ≠ .error e) :
    lockop self w r g h k ≠ .error e := by
  rw [lockop]
  split_ifs
  · simp
  · rcases he with rfl | rfl | rfl <;> simp
  · exact bind_ne_error (lockopKeys_ne_error he hsub) fun x herr =>
      hself x.1 (map_eq_error.1 herr)

theorem releaseKeys_ne_error (hall : ks.All fun h l => ∀ g, releaseSelf self g h l ≠ .error e) :
    releaseKeys self g ks ≠ .error e := by
  induction ks generalizing g with
  | nil => simp [releaseKeys]
  | key h a l sub next ihsub ihnext =>
    obtain ⟨hself, hsub, hnext⟩ := hall
    rw [releaseKeys]
    split_ifs
    · rcases he with rfl | rfl | rfl <;> simp
    · rcases he with rfl | rfl | rfl <;> simp
    · exact bind_ne_error (ihsub hsub) fun g1 => bind_ne_error (hself g1) fun g2 => ihnext hnext

/-- The stop comes from giving up the key, or from the call that changes its locks. -/
theorem capTh_ne_error
    (hrelease : ∀ g, releaseSelf self g h k.1 ≠ .error e)
    (hreleaseSub : k.2.All fun h l => ∀ g, releaseSelf self g h l ≠ .error e)
    (hself : ∀ n g, lockopSelf self wc rc g h { k.1 with rcnt := n } ≠ .error e)
    (hsub : k.2.All fun h l => ∀ g, lockopSelf self wc rc g h l ≠ .error e) :
    capTh self rgc wc rc g h k ≠ .error e := by
  intro herr
  rcases bind_eq_error.1 herr with href | ⟨⟨g1, o⟩, href, hlock⟩
  · unfold refcnt at href
    split_ifs at href <;> try (rcases he with rfl | rfl | rfl <;> cases href)
    rcases bind_eq_error.1 href with href | ⟨g1, _, href⟩
    · exact releaseKeys_ne_error he hreleaseSub href
    · exact hrelease g1 (map_eq_error.1 href)
  · unfold refcnt at href
    split_ifs at href
    · cases href
      exact lockop_ne_error he (k := ({ k.1 with rcnt := addShort k.1.rcnt rgc }, k.2)) (hself _)
        hsub (map_eq_error.1 hlock)
    · obtain ⟨g2, _, href⟩ := bind_eq_ok.1 href
      obtain ⟨g3, _, href⟩ := map_eq_ok.1 href
      cases href
      cases hlock

end Stops

/-- The arguments of a full release pass the assertions. -/
theorem countAssert_release (hl : l.Nonneg) :
    countAssert (-(l.wrCnt.toNat : Int)) (-(l.rdCnt.toNat : Int)) l = true := by
  have hw := toInt_eq_toNat_of_nonneg hl.1
  have hr := toInt_eq_toNat_of_nonneg hl.2
  exact countAssert_of_le (by omega) (by omega) ⟨by omega, by omega⟩

theorem releaseSelf_ne_belowZero (hl : l.Nonneg) (g : Regions) :
    releaseSelf self g h l ≠ .error .belowZero := fun herr =>
  lockop_ne_error (.inr (.inr rfl)) (k := (l, .nil))
    (fun _ => lockopSelf_ne_belowZero (countAssert_release hl)) trivial (map_eq_error.1 herr)

/-- What a thread acquired is not negative. -/
def Own.Nonneg (own : Own) (ks : Keys) : Prop :=
  ∀ z ∈ ks.regions, 0 ≤ (own z).1 ∧ 0 ≤ (own z).2

/-- The arguments release at most what the thread acquired on the region. -/
structure Releases (own : Own) (h : Rid) (wc rc : Int) : Prop where
  wr_nonpos : wc ≤ 0
  rd_nonpos : rc ≤ 0
  wr_owned : -wc ≤ (own h).1
  rd_owned : -rc ≤ (own h).2

/-- A release of what was acquired on a region drives no count below zero, neither that of its key
nor those of the keys below it. -/
theorem Balanced.cap_ne_belowZero (hb : Balanced own ks) (hown : own.Nonneg ks)
    (hrel : Releases own h wc rc) : Runtime.cap self h rgc wc rc g ks ≠ .error .belowZero := by
  intro herr
  obtain ⟨k, ks', hf, hrep⟩ := onKey_error (by rintro ⟨⟩) herr
  obtain ⟨hnnKey, hnnSub⟩ := hrep.all_old hb.nonneg
  obtain ⟨wr, rd, hwr, hrd, hkw, hkr, hks⟩ := hrep.keySums hown hb.sums
  obtain ⟨rest, hold, _⟩ := hrep.regions_perm
  have hwo := hrel.wr_owned
  have hro := hrel.rd_owned
  -- the counts of the key, and of every key below it, are at least what was acquired on the region
  have hself : countAssert wc rc k.1 = true :=
    countAssert_of_le hrel.wr_nonpos hrel.rd_nonpos ⟨by omega, by omega⟩
  have hsub : k.2.All fun _ l => countAssert wc rc l = true := by
    have hlower := hks.lower_bound fun z hz => hown z (hold.mem_iff.2 (by simp [hz]))
    apply hlower.imp
    intro z l hl
    exact countAssert_of_le hrel.wr_nonpos hrel.rd_nonpos ⟨by omega, by omega⟩
  exact capTh_ne_error (.inr (.inr rfl)) (releaseSelf_ne_belowZero hnnKey)
    (hnnSub.imp fun _ _ => releaseSelf_ne_belowZero) (fun _ _ => lockopSelf_ne_belowZero hself)
    (hsub.imp fun _ _ hl _ => lockopSelf_ne_belowZero hl) hf

theorem shareRegions_ne_belowZero {tid : Tid} : shareRegions self tid cs g ≠ .error .belowZero := by
  induction cs generalizing g with
  | nil => exact nofun
  | cons c cs ih =>
    intro herr
    rcases bind_eq_error.1 herr with herr | ⟨g1, _, herr⟩
    · unfold shareRegion at herr
      split_ifs at herr
      cases herr
    · exact ih herr

/-- The entries of a spawn array give away at most what the spawner acquired on their regions. -/
def GivesOwned (own : Own) (cs : List Caps) : Prop :=
  ∀ c ∈ cs, c.LocksFit ∧ Releases own c.h (-c.wc) (-c.lc)

/-- A spawn that gives away what was acquired drives no count of the spawner below zero. -/
theorem Balanced.take_ne_belowZero (hb : Balanced own ks) (hown : own.Nonneg ks)
    (hnodup : (cs.map fun c => c.h).Nodup) (hgives : GivesOwned own cs) :
    takeCounts self cs g ks ≠ .error .belowZero := by
  induction cs generalizing g own ks with
  | nil => exact nofun
  | cons c cs ih =>
    obtain ⟨⟨hw0, hw1, hl0, hl1⟩, hrel⟩ := hgives c (.head _)
    obtain ⟨hnot, hnodup'⟩ := List.nodup_cons.1 hnodup
    intro herr
    have hstop := takeCounts_cons_error herr
    simp only [neg_int32 hw0 hw1, neg_int32 hl0 hl1] at hstop
    rcases hstop with ⟨e, herr, he⟩ | ⟨⟨g1, ks1⟩, hcap, herr⟩
    · rw [Stop.ofHeld_eq_belowZero.1 he] at herr
      exact hb.cap_ne_belowZero hown hrel herr
    obtain ⟨k, o, hrep, hsame, _⟩ := cap_replaced hcap
    have hb1 := hb.cap hcap (by omega) (by omega) (below_of_nonpos (by omega) (by omega))
    -- the other entries are for other regions, whose records have not changed
    refine ih hb1 ?_ hnodup' ?_ herr
    · intro z hz
      by_cases hzc : z = c.h
      · have hwo := hrel.wr_owned
        have hro := hrel.rd_owned
        simp only [Own.acquire, hzc, update_self]
        exact ⟨by omega, by omega⟩
      · rw [Own.acquire, update_of_ne hzc]
        exact hown z (hrep.mem_new hsame hz)
    · intro d hd
      obtain ⟨hfit, hrel'⟩ := hgives d (.tail c hd)
      have hne : d.h ≠ c.h := fun e => hnot (List.mem_map.2 ⟨d, hd, e⟩)
      have hsame : own.acquire c.h (-c.wc) (-c.lc) d.h = own d.h := update_of_ne hne ..
      exact ⟨hfit, ⟨hrel'.wr_nonpos, hrel'.rd_nonpos, by rw [hsame]; exact hrel'.wr_owned,
        by rw [hsame]; exact hrel'.rd_owned⟩⟩

end Thread

/-! ## Runs -/

/-- The threads with their keys, and what each of them acquired. -/
structure Books where
  world : World
  ledger : Tid → Own

namespace Books

/-- Nothing was acquired before the main thread starts. -/
def initial : Books := ⟨World.initial, fun _ _ => (0, 0)⟩

/-- Enter an operation: the creator of a region has one write count, `_xregion_cap` acquires its
arguments, and a spawn gives its counts to the new thread. -/
def enter (P : Platform) (b : Books) : Op → Tid → Own
  | .create t _ _ =>
    Function.update b.ledger t (Function.update (b.ledger t) b.world.nextRid (1, 0))
  | .cap t h _ wc rc => Function.update b.ledger t ((b.ledger t).acquire h wc rc)
  | .spawn t args _ =>
    match mergeCaps P (b.world.forest t) args with
    | .error _ => b.ledger
    | .ok cs =>
      Function.update (Function.update b.ledger t (giveUp cs.reverse (b.ledger t)))
        b.world.nextTid (given cs)

/-- An operation that goes through is entered. -/
def Step (P : Platform) (b : Books) (op : Op) (b' : Books) : Prop :=
  b.world.Step P op b'.world ∧ b'.ledger = b.enter P op

/-- The condition on the operations of a run: the new lock counts of the key and of the keys below
it fit in a `short`; `caps_cmp` can sort the keys of a spawn, whose lock counts fit; and it passes
lock counts only for keys none of whose direct sub-keys it passes. -/
def LocksFit (P : Platform) (b : Books) : Op → Prop
  | .create t parent _ =>
    ∀ p ∈ parent, (b.world.forest t).All fun z l => z = p → l.Below 1 0
  | .cap t h _ wc rc => -2147483648 ≤ wc ∧ -2147483648 ≤ rc ∧
      (b.world.forest t).AllFrom h fun l => l.Below wc rc
  | .spawn t args _ => Sortable P (b.world.forest t) args ∧
      ∀ cs, mergeCaps P (b.world.forest t) args = .ok cs →
        (∀ c ∈ cs, c.LocksFit) ∧ (b.world.forest t).PassesLeaves cs

/-- The keys of every thread are balanced, and they are keys of created regions. -/
structure Balanced (b : Books) : Prop where
  thread : ∀ t, Runtime.Balanced (b.ledger t) (b.world.forest t)
  below : ∀ t, ∀ z ∈ (b.world.forest t).regions, z < b.world.nextRid

theorem balanced_initial : initial.Balanced where
  thread _ := ⟨List.nodup_nil, trivial, trivial⟩
  below _ z hz := by simp [initial, World.initial, Keys.regions] at hz

variable {P : Platform} {b b' : Books} {op : Op}

variable {t : Tid}

theorem Balanced.proper (hb : b.Balanced) (t : Tid) : (b.world.forest t).Proper b.world.nextRid :=
  ⟨(hb.thread t).nodup, hb.below t⟩

/-- One thread gets other keys. -/
theorem Balanced.update (hb : b.Balanced) {own : Own} {ks : Keys} {n : Rid}
    (hks : Runtime.Balanced own ks) (hproper : ks.Proper n) (hn : b.world.nextRid ≤ n)
    (hledger : b'.ledger = Function.update b.ledger t own)
    (hforest : b'.world.forest = Function.update b.world.forest t ks)
    (hnext : b'.world.nextRid = n) : b'.Balanced := by
  constructor
  · rw [hledger, hforest]
    exact forall_update₂ hb.thread hks
  · rw [hforest, hnext]
    exact forall_update (Q := fun ks : Keys => ∀ z ∈ ks.regions, z < n)
      (fun u z hz => Nat.lt_of_lt_of_le (hb.below u z hz) hn) hproper.below

/-- Every operation keeps the books balanced. -/
theorem Balanced.step (hb : b.Balanced) (hok : LocksFit P b op) (hstep : b.Step P op b') :
    b'.Balanced := by
  obtain ⟨⟨ht, hexec⟩, hledger⟩ := hstep
  cases op with
  | create t parent addr =>
    obtain ⟨⟨g, ks⟩, hx, hworld⟩ := map_eq_ok.1 hexec
    exact hb.update ((hb.thread t).create hx (hb.proper t).fresh hok) ((hb.proper t).create hx)
      (Nat.le_succ _) hledger (congrArg World.forest hworld.symm)
      (congrArg World.nextRid hworld.symm)
  | cap t h rgc wc rc =>
    obtain ⟨⟨g, ks⟩, hx, hworld⟩ := map_eq_ok.1 hexec
    obtain ⟨hw, hr, hbelow⟩ := hok
    exact hb.update ((hb.thread t).cap hx hw hr hbelow) ((hb.proper t).cap hx)
      (le_refl _) hledger (congrArg World.forest hworld.symm) (by rw [← hworld]; rfl)
  | spawn t args n =>
    obtain ⟨cs, g1, g, ks, hcs, _, htake, hworld⟩ := World.exec_spawn hexec
    have hnodup := hok.1.nodup hcs
    obtain ⟨hfit, hleaf⟩ := hok.2 cs hcs
    simp only [enter, hcs] at hledger
    have hks := (hb.thread t).take (fun c hc => hfit c (List.mem_reverse.1 hc)) htake
    -- first the spawner, then the new thread
    have hspawner : Balanced ⟨b.world.setKeys t g ks,
        Function.update b.ledger t (giveUp cs.reverse (b.ledger t))⟩ :=
      hb.update hks ((hb.proper t).take htake) (le_refl _) rfl rfl rfl
    exact hspawner.update (balanced_newKeys (hb.thread t).nodup hnodup hfit hleaf)
      ((hb.proper t).newKeys hnodup) (le_refl _) hledger (congrArg World.forest hworld)
      (by rw [hworld]; rfl)

end Books

/-- The counts of every key are the sums of what its thread acquired on it and on its ancestors, and
an operation of a thread that has released, and releases, only what it acquired or was given does
not fail the assertions on the counts. -/
structure SumsAlongTrees (P : Platform) (b : Books) : Prop where
  sums : ∀ t, Sums (b.ledger t) 0 0 (b.world.forest t)
  cap : ∀ t h rgc wc rc, (b.ledger t).Nonneg (b.world.forest t) → Releases (b.ledger t) h wc rc →
    b.world.exec P (.cap t h rgc wc rc) ≠ .error .belowZero
  spawn : ∀ t args n cs, (b.ledger t).Nonneg (b.world.forest t) →
    mergeCaps P (b.world.forest t) args = .ok cs → Sortable P (b.world.forest t) args →
    GivesOwned (b.ledger t) cs → b.world.exec P (.spawn t args n) ≠ .error .belowZero

theorem Books.Balanced.sumsAlongTrees {P : Platform} {b : Books} (hb : b.Balanced) :
    SumsAlongTrees P b where
  sums t := (hb.thread t).sums
  cap t _ _ _ _ hown hrel herr := (hb.thread t).cap_ne_belowZero hown hrel (map_eq_error.1 herr)
  spawn t args n cs hown hcs hsort hgives herr := by
    rcases bind_eq_error.1 herr with herr | ⟨cs', hcs', herr⟩
    · rw [hcs] at herr
      cases herr
    · obtain rfl := Except.ok.inj (hcs.symm.trans hcs')
      rcases bind_eq_error.1 (map_eq_error.1 herr) with herr | ⟨g1, _, herr⟩
      · exact shareRegions_ne_belowZero herr
      · refine (hb.thread t).take_ne_belowZero hown ?_ ?_ (map_eq_error.1 herr)
        · rw [List.map_reverse]
          exact List.nodup_reverse.2 (hsort.nodup hcs)
        · exact fun c hc => hgives c (List.mem_reverse.1 hc)

/-- In every run of operations whose lock counts fit in a `short`, whose spawns pass keys that
`caps_cmp` can sort, and lock counts only for keys none of whose direct sub-keys they pass, the
counts are the sums along the trees. -/
theorem sums_along_trees_of_fit {P : Platform} {b : Books}
    (h : Reach (Books.Step P) (Books.LocksFit P) Books.initial b) : SumsAlongTrees P b := by
  have hb : b.Balanced :=
    h.invariant (fun _ _ _ hok hstep hb => hb.step hok hstep) Books.balanced_initial
  exact hb.sumsAlongTrees

namespace Books

/-- The state after an operation that goes through. -/
def next (P : Platform) (b : Books) (op : Op) : Option Books :=
  (b.world.next P op).map fun w => ⟨w, b.enter P op⟩

theorem step_of_next {P : Platform} {b b' : Books} {op : Op} (h : b.next P op = some b') :
    b.Step P op b' := by
  obtain ⟨w, hw, rfl⟩ := Option.map_eq_some_iff.1 h
  exact ⟨World.step_of_next hw, rfl⟩

instance (P : Platform) (b : Books) : (op : Op) → Decidable (b.LocksFit P op)
  | .create _ _ _ => inferInstanceAs (Decidable (∀ p ∈ _, _))
  | .cap _ _ _ _ _ => inferInstanceAs (Decidable (_ ∧ _ ∧ _))
  | .spawn _ _ _ => inferInstanceAs (Decidable (_ ∧ _))

end Books

/-- The main thread acquires lock counts on a region with a region below it and passes both, the
lower one with a lock count; the new thread releases it, and the main thread changes its counts. -/
def lockAndPass : List Op :=
  [.create 1 none 1000, .create 1 (some 0) 900, .cap 1 0 1 1 0, .cap 1 1 2 1 0,
    .spawn 1 [⟨1, 1, 1, 0⟩, ⟨0, 1, 0, 0⟩, ⟨1, 1, 0, 0⟩] 2000, .cap 3 1 0 (-1) 0, .cap 1 0 0 (-1) 2]

theorem sums_along_trees_lockAndPass :
    ∃ b, runWhen (Books.next plainPlatform) (Books.LocksFit plainPlatform) Books.initial
        lockAndPass = some b ∧
      b.world.forest 1 = .key 0 1000 ⟨1, 1, 2⟩ (.key 1 900 ⟨1, 2, 2⟩ .nil .nil) .nil ∧
      SumsAlongTrees plainPlatform b := by
  have hrun : (runWhen (Books.next plainPlatform) (Books.LocksFit plainPlatform) Books.initial
      lockAndPass).map (fun b => b.world.forest 1) =
        some (.key 0 1000 ⟨1, 1, 2⟩ (.key 1 900 ⟨1, 2, 2⟩ .nil .nil) .nil) := by
    decide +kernel
  obtain ⟨b, hb, hforest⟩ := Option.map_eq_some_iff.1 hrun
  exact ⟨b, hb, hforest,
    sums_along_trees_of_fit (reach_of_runWhen (fun _ _ _ => Books.step_of_next) hb)⟩

/-- The main thread creates a region and a region below it, and spawns a thread that gets the region
with its write count and the other one without a lock count. The new thread has write count one on
the region and zero on the one below, and it cannot release what it was given. -/
theorem not_sums_along_trees_passedParent :
    ∃ b, Reach (Books.Step plainPlatform) (fun _ _ => True) Books.initial b ∧
      ¬ Sums (b.ledger 3) 0 0 (b.world.forest 3) ∧ (b.ledger 3).Nonneg (b.world.forest 3) ∧
      Releases (b.ledger 3) 0 (-1) 0 ∧
      b.world.exec plainPlatform (.cap 3 0 0 (-1) 0) = .error .belowZero := by
  let led₁ := Books.initial.enter plainPlatform (.create 1 none 1000)
  let led₂ := Books.enter plainPlatform ⟨oneRegion, led₁⟩ (.create 1 (some 0) 900)
  let args : List CapArg := [⟨0, 1, 1, 0⟩, ⟨1, 1, 0, 0⟩]
  have hrun : ((oneRegion.exec plainPlatform (.create 1 (some 0) 900)).bind fun w =>
      (w.exec plainPlatform (.spawn 1 args 2000)).map fun w' => decide (1 ∈ w.threads ∧
        w'.forest 3 = .key 0 2000 ⟨1, 1, 0⟩ (.key 1 2048 ⟨1, 0, 0⟩ .nil .nil) .nil ∧
        Books.enter plainPlatform ⟨w, led₂⟩ (.spawn 1 args 2000) 3 0 = (1, 0) ∧
        Books.enter plainPlatform ⟨w, led₂⟩ (.spawn 1 args 2000) 3 1 = (0, 0) ∧
        (w'.exec plainPlatform (.cap 3 0 0 (-1) 0)).map (fun _ => ()) = .error .belowZero)) =
        .ok true := by
    decide +kernel
  obtain ⟨w, hcreate, hrun⟩ := bind_eq_ok.1 hrun
  obtain ⟨w', hspawn, hrun⟩ := map_eq_ok.1 hrun
  obtain ⟨hthread, hforest, hparent, hchild, hcap⟩ := of_decide_eq_true hrun
  refine ⟨⟨w', Books.enter plainPlatform ⟨w, led₂⟩ (.spawn 1 args 2000)⟩, ?_, ?_, ?_, ?_,
    map_eq_error.1 hcap⟩
  · have h₁ : Books.initial.Step plainPlatform (.create 1 none 1000) ⟨oneRegion, led₁⟩ :=
      ⟨step_oneRegion, rfl⟩
    have h₂ : Books.Step plainPlatform ⟨oneRegion, led₁⟩ (.create 1 (some 0) 900) ⟨w, led₂⟩ :=
      ⟨⟨by decide, hcreate⟩, rfl⟩
    have h₃ : Books.Step plainPlatform ⟨w, led₂⟩ (.spawn 1 args 2000)
        ⟨w', Books.enter plainPlatform ⟨w, led₂⟩ (.spawn 1 args 2000)⟩ :=
      ⟨⟨hthread, hspawn⟩, rfl⟩
    exact ((Relation.ReflTransGen.single ⟨_, trivial, h₁⟩).tail ⟨_, trivial, h₂⟩).tail
      ⟨_, trivial, h₃⟩
  · rw [hforest]
    rintro ⟨_, _, ⟨hsum, _⟩, _⟩
    dsimp only at hsum
    rw [hparent, hchild] at hsum
    exact absurd hsum (by decide)
  · intro z hz
    rw [hforest] at hz
    simp only [Keys.regions, List.append_nil, List.mem_cons, List.not_mem_nil, or_false] at hz
    dsimp only
    rcases hz with rfl | rfl
    · rw [hparent]
      decide
    · rw [hchild]
      decide
  · refine ⟨by decide, by decide, ?_, ?_⟩ <;> dsimp only <;> rw [hparent] <;> decide

end ConcurrentCyclone.Runtime
