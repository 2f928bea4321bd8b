import ConcurrentCyclone.Runtime.KeyTree

/-!
# Stored counts and true counts

The counts of a key are 16-bit fields, the arguments of the operations are `int`s, and the counts
are narrowed whenever they are stored: in `__xregion_lockop` for a key and for everything below it,
in `__xregion_refcnt`, and in `__treecopy`, after `merge_caps` has added up arguments in 32 bits. A
ledger of true counts adds the same arguments without bound. Narrowing is a ring homomorphism, so
the stored counts are the true ones modulo `2 ^ 16` along every run (`Ledgers.Narrowed.step`), and a
stored count is the true count exactly when the true count is in the range of its field.
-/

set_option autoImplicit false

namespace ConcurrentCyclone.Runtime

open Function Transition

/-- The counts stored in the fields of a key. -/
def TrueCaps.narrow (m : TrueCaps) : LocalCaps :=
  ⟨BitVec.ofInt 16 m.rcnt, BitVec.ofInt 16 m.wrCnt, BitVec.ofInt 16 m.rdCnt⟩

/-- The keys store the true counts modulo `2 ^ 16`. -/
def Keys.Narrowed (M : TrueCounts) (ks : Keys) : Prop :=
  ks.All fun z l => l = (M z).narrow

/-! ## The true counts after an operation -/

/-- The operation on the key of region `h` changes the lock counts of the key of region `z`. -/
def Keys.reaches (ks : Keys) (h z : Rid) : Bool := h == z || ks.above h z

namespace TrueCounts

/-- The true counts after `_xregion_cap`: the region count of the key, and the lock counts of the
key and of the keys below it, change by the arguments. -/
def cap (M : TrueCounts) (ks : Keys) (h : Rid) (rgc wc rc : Int) : TrueCounts := fun z =>
  { rcnt := (M z).rcnt + if h = z then rgc else 0
    wrCnt := (M z).wrCnt + if ks.reaches h z then wc else 0
    rdCnt := (M z).rdCnt + if ks.reaches h z then rc else 0 }

/-- The true counts of the spawner: the arguments are taken from their keys, and the lock counts
also from the keys below. -/
def giveUp (M : TrueCounts) (ks : Keys) (args : List CapArg) : TrueCounts := fun z =>
  { rcnt := (M z).rcnt - total (· == z) CapArg.rc args
    wrCnt := (M z).wrCnt - total (ks.reaches · z) CapArg.wc args
    rdCnt := (M z).rdCnt - total (ks.reaches · z) CapArg.lc args }

/-- The true counts after `_new_xregion`: a new region has one region count, and one write count
more than its parent. -/
def create (M : TrueCounts) (parent : Option Rid) (z : Rid) : TrueCounts :=
  match parent with
  | none => update M z ⟨1, 1, 0⟩
  | some p => update M z ⟨1, (M p).wrCnt + 1, (M p).rdCnt⟩

end TrueCounts

open TrueCounts (total)

/-! ## Narrowing is a homomorphism -/

variable {x : Int}

theorem ofInt_eq_iff {y : Int} : BitVec.ofInt 16 x = BitVec.ofInt 16 y ↔ x ≡ y [ZMOD 65536] := by
  rw [← BitVec.toNat_inj, BitVec.toNat_ofInt, BitVec.toNat_ofInt, Int.ModEq]
  omega

theorem narrow_eq_iff {m m' : TrueCaps} :
    m.narrow = m'.narrow ↔ m.rcnt ≡ m'.rcnt [ZMOD 65536] ∧ m.wrCnt ≡ m'.wrCnt [ZMOD 65536] ∧
      m.rdCnt ≡ m'.rdCnt [ZMOD 65536] := by
  simp only [TrueCaps.narrow, LocalCaps.mk.injEq, ofInt_eq_iff]

theorem addShort_ofInt (x d : Int) : addShort (BitVec.ofInt 16 x) d = BitVec.ofInt 16 (x + d) := by
  rw [addShort, BitVec.ofInt_add]

theorem addLocks_narrow (m : TrueCaps) (rgc wc rc : Int) :
    addLocks wc rc { m.narrow with rcnt := addShort m.narrow.rcnt rgc } =
      (TrueCaps.mk (m.rcnt + rgc) (m.wrCnt + wc) (m.rdCnt + rc)).narrow := by
  simp only [addLocks, TrueCaps.narrow, addShort_ofInt]

/-! ## One thread -/

section Thread

variable {self : Tid} {g g' : Regions} {M : TrueCounts} {ks ks' : Keys} {h : Rid}

variable {P : Platform} {args : List CapArg} {cs : List Caps}

/-- True counts that agree modulo `2 ^ 16` on the regions of the keys. -/
theorem Keys.Narrowed.congr {M' : TrueCounts} (hks : ks.Narrowed M)
    (heq : ∀ z ∈ ks.regions, (M z).narrow = (M' z).narrow) : ks.Narrowed M' :=
  hks.imp_mem fun z hz _ hl => hl.trans (heq z hz)

/-- `_xregion_cap`. -/
theorem Keys.Narrowed.cap {rgc wc rc : Int} (hks : ks.Narrowed M) (hnodup : ks.regions.Nodup)
    (hcall : Runtime.cap self h rgc wc rc g ks = .ok (g', ks')) :
    ks'.Narrowed (M.cap ks h rgc wc rc) := by
  obtain ⟨k, o, hrep, _, hk'⟩ := cap_replaced hcall
  obtain ⟨hself, hsub⟩ := hrep.all_old hks
  refine hrep.all_change hnodup hks ?_ ?_
  · -- a key that is neither the one of `h` nor below it
    intro y _ hy l hl
    obtain ⟨hne, hnot⟩ : y ≠ h ∧ y ∉ k.2.regions := by simpa using hy
    have habove : ks.above h y = false :=
      Bool.eq_false_iff.2 fun habove => hnot ((hrep.above_iff hnodup).1 habove)
    simp [hl, TrueCounts.cap, Keys.reaches, Ne.symm hne, habove]
  · rintro k' ho
    obtain ⟨_, _, rfl⟩ := hk' k' ho
    constructor
    · rw [hself, addLocks_narrow]
      simp [TrueCounts.cap, Keys.reaches]
    · rw [Keys.all_mapCaps]
      refine hsub.imp_mem fun y hy l hl => ?_
      have habove : ks.above h y = true := (hrep.above_iff hnodup).2 hy
      have hne : h ≠ y := fun e => hrep.not_mem_below hnodup (e ▸ hy)
      simpa [hl, TrueCounts.cap, Keys.reaches, hne, habove] using addLocks_narrow (M y) 0 wc rc

/-- `_new_xregion`. -/
theorem Keys.Narrowed.create {parent : Option Rid} {z : Rid} {addr : Int} (hks : ks.Narrowed M)
    (hfresh : z ∉ ks.regions) (hcall : newXregion self parent z addr g ks = .ok (g', ks')) :
    ks'.Narrowed (M.create parent z) := by
  have hold : ∀ m, ks.Narrowed (update M z m) := by
    intro m
    refine hks.congr fun y hy => ?_
    rw [update_of_ne fun e : y = z => hfresh (e ▸ hy)]
  cases parent with
  | none =>
    cases hcall
    exact ⟨by simp [TrueCounts.create, TrueCaps.narrow, newLocalCaps], trivial, hold _⟩
  | some p =>
    obtain ⟨k, o, hf, hrep⟩ := onKey_ok hcall
    cases hf
    obtain ⟨hself, hsub⟩ := hrep.all_old (hold ⟨1, (M p).wrCnt + 1, (M p).rdCnt⟩)
    obtain ⟨hparent, _⟩ := hrep.all_old hks
    apply hrep.all_new (hold _)
    rintro k' ⟨rfl⟩
    refine ⟨hself, ?_, trivial, hsub⟩
    rw [hparent]
    simp [TrueCaps.narrow, newLocalCaps, BitVec.ofInt_add]

/-! ### A spawn -/

/-- The keys of a new thread store the sums of the arguments. -/
theorem narrowed_newKeys {n : Int}
    (hcs : mergeCaps P ks args = .ok cs) (hnodup : (cs.map fun c => c.h).Nodup) :
    (newKeys P n cs ks).Narrowed (TrueCounts.given args) := by
  apply newKeys_all
  intro c hc
  have hsum : ∀ {f : CapArg → Int}, AddsUp f →
      f c.toCapArg ≡ total (· == c.h) f args [ZMOD 65536] :=
    fun hf => (mergeCaps_sum hf hcs hnodup hc).of_dvd (by decide)
  show (TrueCaps.mk c.rc c.wc c.lc).narrow = _
  exact narrow_eq_iff.2 ⟨hsum addsUp_rc, hsum addsUp_wc, hsum addsUp_lc⟩

/-- The second loop of `__treecopy` takes the entries of the array from the spawner. -/
theorem Keys.Narrowed.take (hks : ks.Narrowed M) (hnodup : ks.regions.Nodup)
    (hcall : takeCounts self cs g ks = .ok (g', ks')) :
    ks'.Narrowed (M.giveUp ks (cs.map Caps.toCapArg)) ∧
      ∀ z ∈ ks'.regions, z ∈ ks.regions ∧ ∀ p, ks'.above p z = ks.above p z := by
  induction cs generalizing g ks M with
  | nil =>
    cases hcall
    refine ⟨hks.congr fun z _ => ?_, fun z hz => ⟨hz, fun _ => rfl⟩⟩
    simp [TrueCounts.giveUp, total]
  | cons c cs ih =>
    obtain ⟨⟨g1, ks1⟩, hcap, hcall⟩ := takeCounts_cons hcall
    obtain ⟨k, o, hrep, hsame, _⟩ := cap_replaced hcap
    obtain ⟨hks', hstay⟩ := ih (hks.cap hnodup hcap) (hrep.nodup_new hsame hnodup) hcall
    -- a key that is left at the end has had the same keys above it all the time
    have habove : ∀ z ∈ ks'.regions, ∀ p, ks1.above p z = ks.above p z := by
      intro z hz p
      exact hrep.above_eq hsame hnodup (hstay z hz).1
    refine ⟨hks'.congr fun z hz => ?_, fun z hz => ?_⟩
    · have hreaches : ∀ y, ks1.reaches y z = ks.reaches y z := by
        intro y
        rw [Keys.reaches, Keys.reaches, habove z hz]
      -- adding the negated entry and subtracting the entry
      have hneg : ∀ (x d y : Int) (b : Prop) [Decidable b],
          x + (if b then int32 (-d) else 0) - y ≡ x - ((if b then d else 0) + y)
            [ZMOD 65536] := by
        intro x d y b _
        have hd := int32_modEq (-d)
        split_ifs
        · have := (hd.add_left x).sub_right y
          rwa [show x - (d + y) = x + -d - y by omega]
        · rw [show x + 0 - y = x - (0 + y) by omega]
      simp only [TrueCounts.giveUp, TrueCounts.cap, List.map_cons, total_cons, hreaches,
        narrow_eq_iff, beq_iff_eq]
      exact ⟨hneg .., hneg .., hneg ..⟩
    · obtain ⟨hz1, hall⟩ := hstay z hz
      exact ⟨hrep.mem_new hsame hz1, fun p => (hall p).trans (habove z hz p)⟩

/-- The counts the spawner keeps are those left after the arguments of the spawn. -/
theorem Keys.Narrowed.spawn
    (hks : ks.Narrowed M) (hnodup : ks.regions.Nodup) (hcs : mergeCaps P ks args = .ok cs)
    (hcall : takeCounts self cs.reverse g ks = .ok (g', ks')) :
    ks'.Narrowed (M.giveUp ks args) := by
  refine (hks.take hnodup hcall).1.congr fun z _ => ?_
  have hsum : ∀ {p : Rid → Bool} {f : CapArg → Int}, AddsUp f →
      total p f (cs.reverse.map Caps.toCapArg) ≡ total p f args
        [ZMOD 65536] := by
    intro p f hf
    rw [total_perm (cs.reverse_perm.map Caps.toCapArg)]
    exact (mergeCaps_total hf hcs).of_dvd (by decide)
  exact narrow_eq_iff.2 ⟨(hsum addsUp_rc).sub_left _, (hsum addsUp_wc).sub_left _,
    (hsum addsUp_lc).sub_left _⟩

end Thread

/-! ## Runs -/

/-- The threads with their keys, and their true counts. -/
structure Ledgers where
  world : World
  counts : Tid → TrueCounts

/-- The keys of a thread store its true counts modulo `2 ^ 16`; the thread has one key for a region,
and the regions are below `n`. -/
structure StoresCounts (n : Rid) (M : TrueCounts) (ks : Keys) : Prop where
  narrowed : ks.Narrowed M
  nodup : ks.regions.Nodup
  below : ∀ z ∈ ks.regions, z < n

theorem StoresCounts.proper {n : Rid} {M : TrueCounts} {ks : Keys} (h : StoresCounts n M ks) :
    ks.Proper n :=
  ⟨h.nodup, h.below⟩

theorem StoresCounts.mono {n n' : Rid} (hn : n ≤ n') {M : TrueCounts} {ks : Keys}
    (h : StoresCounts n M ks) : StoresCounts n' M ks :=
  { h with below := fun z hz => Nat.lt_of_lt_of_le (h.below z hz) hn }

namespace Ledgers

/-- There are no counts before the main thread starts. -/
def initial : Ledgers := ⟨World.initial, fun _ _ => ⟨0, 0, 0⟩⟩

/-- The true counts after an operation. -/
def enter (b : Ledgers) : Op → Tid → TrueCounts
  | .create t parent _ =>
    update b.counts t ((b.counts t).create parent b.world.nextRid)
  | .cap t h rgc wc rc =>
    update b.counts t ((b.counts t).cap (b.world.forest t) h rgc wc rc)
  | .spawn t args _ =>
    update (update b.counts t ((b.counts t).giveUp (b.world.forest t) args))
      b.world.nextTid (TrueCounts.given args)

/-- An operation that goes through is entered. -/
def Step (P : Platform) (b : Ledgers) (op : Op) (b' : Ledgers) : Prop :=
  b.world.Step P op b'.world ∧ b'.counts = b.enter op

/-- `caps_cmp` can sort the keys that a spawn passes. -/
def Sorts (P : Platform) (b : Ledgers) : Op → Prop
  | .create _ _ _ | .cap _ _ _ _ _ => True
  | .spawn t args _ => Sortable P (b.world.forest t) args

/-- Every thread stores its true counts modulo `2 ^ 16`. -/
def Narrowed (b : Ledgers) : Prop :=
  ∀ t, StoresCounts b.world.nextRid (b.counts t) (b.world.forest t)

theorem narrowed_initial : initial.Narrowed := fun _ =>
  ⟨trivial, List.nodup_nil, fun z hz => by simp [initial, World.initial, Keys.regions] at hz⟩

/-- Every operation keeps the stored counts equal to the true ones modulo `2 ^ 16`. -/
theorem Narrowed.step {P : Platform} {b b' : Ledgers} {op : Op} (hb : b.Narrowed)
    (hok : Sorts P b op) (hstep : b.Step P op b') : b'.Narrowed := by
  obtain ⟨⟨ht, hexec⟩, hcounts⟩ := hstep
  cases op with
  | create t parent addr =>
    obtain ⟨⟨g, ks⟩, hx, hworld⟩ := map_eq_ok.1 hexec
    have hks := (hb t).proper.create hx
    rw [Narrowed, hcounts, ← hworld]
    exact forall_update₂ (fun u => (hb u).mono (Nat.le_succ _))
      ⟨(hb t).narrowed.create (hb t).proper.fresh hx, hks.nodup, hks.below⟩
  | cap t h rgc wc rc =>
    obtain ⟨⟨g, ks⟩, hx, hworld⟩ := map_eq_ok.1 hexec
    have hks := (hb t).proper.cap hx
    rw [Narrowed, hcounts, ← hworld]
    exact forall_update₂ hb ⟨(hb t).narrowed.cap (hb t).nodup hx, hks.nodup, hks.below⟩
  | spawn t args n =>
    obtain ⟨cs, g1, g, ks, hcs, _, htake, hworld⟩ := World.exec_spawn hexec
    have hks := (hb t).proper.take htake
    have hnew := (hb t).proper.newKeys (P := P) (m := n) (Sortable.nodup hok hcs)
    rw [Narrowed, hcounts, hworld]
    -- first the spawner, then the new thread
    refine forall_update₂ (forall_update₂ hb ⟨?_, hks.nodup, hks.below⟩)
      ⟨narrowed_newKeys hcs (Sortable.nodup hok hcs), hnew.nodup, hnew.below⟩
    exact (hb t).narrowed.spawn (hb t).nodup hcs htake

end Ledgers

/-- The fields of a key read back the true counts: the region count as `unsigned short`, the lock
counts as `short`. -/
@[mk_iff]
structure TrueCaps.Stored (m : TrueCaps) (l : LocalCaps) : Prop where
  rcnt : (l.rcnt.toNat : Int) = m.rcnt
  wrCnt : l.wrCnt.toInt = m.wrCnt
  rdCnt : l.rdCnt.toInt = m.rdCnt

/-- The true counts are in the range of the fields. -/
@[mk_iff]
structure TrueCaps.Fits (m : TrueCaps) : Prop where
  rcnt : 0 ≤ m.rcnt ∧ m.rcnt < 65536
  wrCnt : -32768 ≤ m.wrCnt ∧ m.wrCnt < 32768
  rdCnt : -32768 ≤ m.rdCnt ∧ m.rdCnt < 32768

theorem toNat_ofInt_eq_iff : ((BitVec.ofInt 16 x).toNat : Int) = x ↔ 0 ≤ x ∧ x < 65536 := by
  rw [BitVec.toNat_ofInt]
  omega

theorem toInt_ofInt_eq_iff : (BitVec.ofInt 16 x).toInt = x ↔ -32768 ≤ x ∧ x < 32768 := by
  rw [BitVec.toInt_ofInt, Int.bmod_def]
  omega

theorem stored_narrow_iff {m : TrueCaps} : m.Stored m.narrow ↔ m.Fits := by
  rw [TrueCaps.stored_iff, TrueCaps.fits_iff]
  exact and_congr toNat_ofInt_eq_iff (and_congr toInt_ofInt_eq_iff toInt_ofInt_eq_iff)

/-- In every run whose spawns pass keys that `caps_cmp` can sort, the stored counts of a key are its
true counts exactly when these fit in the fields. -/
theorem stored_iff_fits {P : Platform} {b : Ledgers}
    (h : Reach (Ledgers.Step P) (Ledgers.Sorts P) Ledgers.initial b) (t : Tid) :
    (b.world.forest t).All fun z l => (b.counts t z).Stored l ↔ (b.counts t z).Fits := by
  have hb : b.Narrowed :=
    h.invariant (fun _ _ _ hok hstep hb => hb.step hok hstep) Ledgers.narrowed_initial
  refine (hb t).narrowed.imp ?_
  rintro z _ rfl
  exact stored_narrow_iff

/-- The state after an operation that goes through. -/
def Ledgers.next (P : Platform) (b : Ledgers) (op : Op) : Option Ledgers :=
  (b.world.next P op).map fun w => ⟨w, b.enter op⟩

theorem Ledgers.step_of_next {P : Platform} {b b' : Ledgers} {op : Op}
    (h : b.next P op = some b') : b.Step P op b' := by
  obtain ⟨w, hw, rfl⟩ := Option.map_eq_some_iff.1 h
  exact ⟨World.step_of_next hw, rfl⟩

instance (P : Platform) (b : Ledgers) : (op : Op) → Decidable (b.Sorts P op)
  | .create _ _ _ | .cap _ _ _ _ _ => inferInstanceAs (Decidable True)
  | .spawn t args _ => inferInstanceAs (Decidable (Sortable P (b.world.forest t) args))

/-- The main thread has counts on a region and a region below it, passes the lower one in two
entries and the upper one in between, and raises the region count of the upper one. -/
def passTwice : List Op :=
  [.create 1 none 1000, .create 1 (some 0) 900, .cap 1 0 3 1 2, .cap 1 1 4 0 0,
    .spawn 1 [⟨1, 1, 1, 0⟩, ⟨0, 2, 0, 0⟩, ⟨1, 2, 0, 1⟩] 2000, .cap 1 0 65536 0 0]

theorem stored_iff_fits_passTwice :
    ∃ b, runWhen (Ledgers.next plainPlatform) (Ledgers.Sorts plainPlatform) Ledgers.initial
        passTwice = some b ∧
      b.world.forest 3 = .key 0 2000 ⟨2, 0, 0⟩ (.key 1 2048 ⟨3, 1, 1⟩ .nil .nil) .nil ∧
      (b.counts 3 1).Stored ⟨3, 1, 1⟩ ∧ (b.counts 1 0).rcnt = 65538 ∧
      ¬ (b.world.forest 1).All fun z l => (b.counts 1 z).Stored l := by
  have hrun : (runWhen (Ledgers.next plainPlatform) (Ledgers.Sorts plainPlatform) Ledgers.initial
      passTwice).map (fun b => (b.world.forest 3, b.world.forest 1, b.counts 3 1, b.counts 1 0)) =
        some (.key 0 2000 ⟨2, 0, 0⟩ (.key 1 2048 ⟨3, 1, 1⟩ .nil .nil) .nil,
          .key 0 1000 ⟨2, 2, 2⟩ (.key 1 900 ⟨2, 2, 1⟩ .nil .nil) .nil,
          ⟨3, 1, 1⟩, ⟨65538, 2, 2⟩) := by
    decide +kernel
  obtain ⟨b, hb, hstate⟩ := Option.map_eq_some_iff.1 hrun
  simp only [Prod.mk.injEq] at hstate
  obtain ⟨hnew, hold, hgiven, hraised⟩ := hstate
  have hfits := stored_iff_fits (reach_of_runWhen (fun _ _ _ => Ledgers.step_of_next) hb)
  have hfits3 := hfits 3
  have hfits1 := hfits 1
  rw [hnew] at hfits3
  rw [hold] at hfits1
  refine ⟨b, hb, hnew, hfits3.2.1.1.2 ?_, by rw [hraised], fun hall => ?_⟩
  · rw [hgiven, TrueCaps.fits_iff]
    decide
  · rw [hold] at hall
    have hfit := (hfits1.1.1 hall.1).rcnt
    rw [hraised] at hfit
    exact absurd hfit (by decide)

/-- The main thread raises the region count of its only key by 65536: the stored count is still one.
-/
theorem not_stored_narrowed :
    ∃ b, Reach (Ledgers.Step plainPlatform) (Ledgers.Sorts plainPlatform) Ledgers.initial b ∧
      ¬ (b.world.forest 1).All fun z l => (b.counts 1 z).Stored l := by
  let led₁ := Ledgers.initial.enter (.create 1 none 1000)
  let led₂ := Ledgers.enter ⟨oneRegion, led₁⟩ (.cap 1 0 65536 0 0)
  have hrun : (oneRegion.exec plainPlatform (.cap 1 0 65536 0 0)).map (fun w =>
      decide (w.forest 1 = .key 0 1000 (newLocalCaps 0 0) .nil .nil)) = .ok true := by
    decide +kernel
  have htrue : (led₂ 1 0).rcnt = 65537 := by decide +kernel
  obtain ⟨w, hexec, hforest⟩ := map_eq_ok.1 hrun
  refine ⟨⟨w, led₂⟩, ?_, ?_⟩
  · have h₁ : Ledgers.initial.Step plainPlatform (.create 1 none 1000) ⟨oneRegion, led₁⟩ :=
      ⟨step_oneRegion, rfl⟩
    exact (Relation.ReflTransGen.single ⟨.create 1 none 1000, trivial, h₁⟩).tail
      ⟨.cap 1 0 65536 0 0, trivial, ⟨⟨by decide, hexec⟩, rfl⟩⟩
  · rw [of_decide_eq_true hforest]
    rintro ⟨hstored, _⟩
    have hrcnt := hstored.rcnt
    rw [htrue] at hrcnt
    exact absurd hrcnt (by decide)

end ConcurrentCyclone.Runtime
