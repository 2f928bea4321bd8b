import ConcurrentCyclone.Runtime.RegionAlloc

/-!
# Cleared blocks from regions

A program allocates `n` cleared elements of size `s` in a region by a call of `_region_calloc`; this
is also the call that `rcalloc_exp` of `src/toc.cyc` generates, unless the type of the handle says
that the region is extended. For an extended region `_region_calloc` calls `_xregion_calloc`, whose
pages come from `GC_malloc_atomic`, which does not clear them (`not_rcalloc_obtains`). The objects
of all other regions are cleared by the collector. The free part of a page stays cleared, since the
program writes to blocks only, so there a block is cleared and long enough exactly if no size wraps
around (`rcalloc_obtains_iff`).
-/

set_option autoImplicit false

namespace ConcurrentCyclone.Runtime

open Transition
open Function (update update_of_ne)

/-- The request of the call that `rcalloc_exp` generates; `typed` says that the handle has a type
that tells its region. -/
def rcallocExp (kind : RegionKind) (typed : Bool) (defaultPageSize s n : Word) : AllocRequest :=
  if typed ∧ kind = .extended then .malloc defaultPageSize s else .calloc defaultPageSize s n

/-- A region with its blocks, and the bytes in memory. -/
structure CallocState where
  alloc : AllocState
  mem : Nat → BitVec 8

inductive CallocOp where
  | rcalloc (typed : Bool) (defaultPageSize s n : Word)
  /-- The program writes a byte of a block. -/
  | write (x : Nat) (v : BitVec 8)

def Page.Has (p : Page) (x : Nat) : Prop :=
  p.addr.toNat ≤ x ∧ x < p.addr.toNat + p.size.toNat

def Block.Has (b : Block) (x : Nat) : Prop :=
  b.start.toNat ≤ x ∧ x < b.start.toNat + b.len.toNat

instance (p : Page) (x : Nat) : Decidable (p.Has x) := inferInstanceAs (Decidable (_ ∧ _))

instance (b : Block) (x : Nat) : Decidable (b.Has x) := inferInstanceAs (Decidable (_ ∧ _))

namespace CallocState

/-- The collector clears new objects, but not those of `GC_malloc_atomic`. -/
def serve (gc : Collector) (kind : RegionKind) (st : CallocState) : CallocOp → Option CallocState
  | .rcalloc typed d s n =>
    (st.alloc.serve gc kind (rcallocExp kind typed d s n)).map fun a =>
      { alloc := a
        mem := fun x =>
          if kind ≠ .extended ∧ ∃ p ∈ a.region.pages, p ∉ st.alloc.region.pages ∧ p.Has x then 0
          else st.mem x }
  | .write x v => if ∃ b ∈ st.alloc.blocks, b.Has x then some { st with mem := update st.mem x v }
    else none

/-- Before the first allocation, with any bytes in memory. -/
def initial (mem : Nat → BitVec 8) : CallocState := ⟨.initial, mem⟩

/-- The allocation is served with a cleared block for all elements. -/
def Obtains (kind : RegionKind) (st : CallocState) : CallocOp → CallocState → Prop
  | .rcalloc _ d s n, st' => Served kind st.alloc (.calloc d s n) st'.alloc ∧
      ∀ b ∈ st'.alloc.blocks.head?, ∀ x, b.Has x → st'.mem x = 0
  | .write _ _, _ => True

/-- No size of an allocation wraps around. -/
def Fits (kind : RegionKind) (st : CallocState) : CallocOp → Prop
  | .rcalloc _ d s n => (AllocRequest.calloc d s n).Fits kind st.alloc
  | .write _ _ => True

/-- The free part of the newest page is cleared. -/
structure Inv (kind : RegionKind) (st : CallocState) : Prop where
  alloc : st.alloc.Inv kind
  free : kind.paged = true → st.alloc.region.pages ≠ [] →
    ∀ x, st.alloc.region.offset.toNat ≤ x → x < st.alloc.region.lastPlusOne.toNat → st.mem x = 0

variable {gc : Collector} {kind : RegionKind} {st st' : CallocState}

/-- The block of an allocation that fits is cleared, and so is what is left of its page. -/
theorem Inv.rcalloc (hi : st.Inv kind) (hkind : kind ≠ .extended) {typed : Bool} {d s n : Word}
    (h : st.serve gc kind (.rcalloc typed d s n) = some st')
    (hfits : (AllocRequest.calloc d s n).Fits kind st.alloc) :
    (∀ b ∈ st'.alloc.blocks.head?, ∀ x, b.Has x → st'.mem x = 0) ∧ st'.Inv kind := by
  obtain ⟨a, ha, rfl⟩ := Option.map_eq_some_iff.1 h
  rw [rcallocExp, if_neg fun h => hkind h.2] at ha
  have hinv := hi.alloc.serve ha hfits
  obtain ⟨start, hblocks, hcases⟩ := serve_cases ha
  rw [hblocks]
  rcases hcases with ⟨hasks, hpaged, rfl, hregion⟩ | ⟨m, p, hasks, hp, -, hpages, rfl, hnew⟩
  · obtain ⟨o, os, hos⟩ := List.exists_cons_of_ne_nil (hfits.page hasks)
    obtain ⟨-, hle, hlast, -⟩ := hi.alloc.newest hpaged o os hos
    obtain ⟨-, hback⟩ := hi.alloc.cut hasks hos hpaged
    dsimp only at hback
    -- no new object, so the memory is as it was
    have hmem : ∀ x, ¬ ∃ p ∈ a.region.pages, p ∉ st.alloc.region.pages ∧ p.Has x := by
      rintro x ⟨p, hp, hnot, -⟩
      rw [hregion] at hp
      exact hnot hp
    simp only [hmem, and_false, if_false]
    have hfree := hi.free hpaged (by simp [hos])
    refine ⟨?_, hinv, fun _ _ x hx hlt => ?_⟩
    · rintro b ⟨⟩ x ⟨hx, hlt⟩
      exact hfree x hx (by dsimp only at hlt; omega)
    · rw [hregion] at hx hlt
      rw [BitVec.toNat_add_of_lt (by omega)] at hx
      exact hfree x (by omega) hlt
  · obtain ⟨hstart, -, hback⟩ := gc.inPage hp (hfits.room m hasks)
    dsimp only at hback
    -- the new object is none of the others
    have hclear : ∀ x, (Page.mk p m).Has x →
        kind ≠ .extended ∧ ∃ p ∈ a.region.pages, p ∉ st.alloc.region.pages ∧ p.Has x := by
      refine fun x hx => ⟨hkind, ⟨p, m⟩, by simp [hpages], fun hold => ?_, hx⟩
      have happ := gc.apart hp _ hold
      rw [Page.Apart] at happ
      omega
    refine ⟨?_, hinv, fun hpaged _ x hx hlt => ?_⟩
    · rintro b ⟨⟩ x ⟨hx, hlt⟩
      exact if_pos (hclear x ⟨by dsimp only at hx ⊢; omega, by dsimp only at hlt ⊢; omega⟩)
    · obtain ⟨hoffset, hlast⟩ := hnew hpaged
      have hbound := gc.bounded hp
      rw [hoffset, BitVec.toNat_add_of_lt (by omega)] at hx
      rw [hlast, BitVec.toNat_add_of_lt hbound] at hlt
      exact if_pos (hclear x ⟨by dsimp only; omega, hlt⟩)

/-- A write to a block does not touch the free part. -/
theorem Inv.write (hi : st.Inv kind) {x : Nat} {v : BitVec 8}
    (h : st.serve gc kind (.write x v) = some st') : st'.Inv kind := by
  rw [serve] at h
  split_ifs at h with hblock
  cases h
  obtain ⟨b, hb, hlow, hhigh⟩ := hblock
  refine ⟨hi.alloc, fun hpaged hne y hy hlt => ?_⟩
  obtain ⟨p, ps, hps⟩ := List.exists_cons_of_ne_nil hne
  obtain ⟨hfront, -, hlast, hbelow⟩ := hi.alloc.newest hpaged p ps hps
  have hyx : y ≠ x := by
    rintro rfl
    dsimp only at hy hlt
    obtain ⟨o, ho, hin⟩ := hi.alloc.inPage b hb
    rw [hps] at ho
    rcases List.mem_cons.1 ho with rfl | ho
    · have hend := hbelow b hb hin
      omega
    · have happ := (List.pairwise_cons.1 (hps ▸ hi.alloc.apart)).1 o ho
      obtain ⟨h1, h2⟩ := hin
      rw [Page.Apart] at happ
      omega
  exact (update_of_ne hyx ..).trans (hi.free hpaged hne y hy hlt)

end CallocState

open CallocState

/-- In a region that is not extended, along every sequence of allocations and writes up to one that
fails, every allocation obtains a cleared block for its elements if and only if no size wraps. -/
theorem rcalloc_obtains_iff (gc : Collector) {kind : RegionKind} (hkind : kind ≠ .extended)
    (mem : Nat → BitVec 8) (ops : List CallocOp) :
    Along (CallocState.serve gc kind) (Obtains kind) (initial mem) ops ↔
      Along (CallocState.serve gc kind) (fun st op _ => st.Fits kind op) (initial mem) ops := by
  refine along_iff (I := CallocState.Inv kind) ?_ ?_ ?_ ops
  · rintro st (⟨typed, d, s, n⟩ | ⟨x, v⟩) st' hi h
    · obtain ⟨a, ha, rfl⟩ := Option.map_eq_some_iff.1 h
      rw [rcallocExp, if_neg fun h => hkind h.2] at ha
      have hserved := hi.alloc.served_iff ha
      exact ⟨fun hob => hserved.1 hob.1,
        fun hfits => ⟨hserved.2 hfits, (hi.rcalloc hkind h hfits).1⟩⟩
    · exact Iff.rfl
  · rintro st (⟨typed, d, s, n⟩ | ⟨x, v⟩) st' hi h hfits
    · exact (hi.rcalloc hkind h hfits).2
    · exact hi.write h
  · exact ⟨AllocState.inv_initial kind, fun _ hne => absurd rfl hne⟩

/-- Two allocations in an ordinary region, with a write to the first block between them. -/
theorem rcalloc_obtains_ordinary :
    Along (CallocState.serve bumpCollector .ordinary) (Obtains .ordinary) (initial fun _ => 7)
      [.rcalloc false 480 8 4, .write 4104 9, .rcalloc false 480 8 100] := by
  refine (rcalloc_obtains_iff bumpCollector (by decide) _ _).2 fun st₁ h₁ => ?_
  have hi : (initial fun _ => 7).Inv .ordinary :=
    ⟨AllocState.inv_initial .ordinary, fun _ hne => absurd rfl hne⟩
  have hfits₁ : (AllocRequest.calloc 480 8 4).Fits .ordinary (initial fun _ => 7).alloc :=
    hi.alloc.fits_of_le (by decide)
  have hi₁ := (hi.rcalloc (by decide) h₁ hfits₁).2
  refine ⟨hfits₁, fun st₂ h₂ => ⟨trivial, fun st₃ _ => ⟨?_, trivial⟩⟩⟩
  exact (hi₁.write h₂).alloc.fits_of_le (by decide)

/-- `_region_calloc` for a thousand elements of eight bytes in an extended region: the block is long
enough, but its first byte is what the memory held. -/
theorem not_rcalloc_obtains :
    ∃ st, CallocState.serve bumpCollector .extended (initial fun _ => 7)
        (.rcalloc false 480 8 1000) = some st ∧ st.alloc.blocks = [⟨4104, 8000⟩] ∧
      st.mem 4104 = 7 ∧
      ¬Obtains .extended (initial fun _ => 7) (.rcalloc false 480 8 1000) st := by
  refine ⟨⟨⟨⟨[⟨4096, 8008⟩], 12104, 12104⟩, [⟨4104, 8000⟩]⟩, fun _ => 7⟩, rfl, rfl, rfl, ?_⟩
  rintro ⟨-, hclear⟩
  exact absurd (hclear ⟨4104, 8000⟩ rfl 4104 (by decide)) (by decide)

end ConcurrentCyclone.Runtime
