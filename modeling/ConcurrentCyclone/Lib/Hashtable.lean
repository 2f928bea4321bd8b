import Mathlib.Data.List.Basic
import Mathlib.Logic.Function.Basic

/-!
# Hash tables

`lib/hashtable.cyc`: an array of buckets, each a list of bindings, the latest first. `remove` takes
out the first binding that it finds, so older ones of the key are seen again, and a bucket that gets
too long makes `insert` build a larger table.

What a table holds is the list of the insertions that were not removed (`Holds`). Buckets mix
bindings of different keys, and rebuilding the table does not keep their order. It keeps the order
of those with the same hash value. So `lookup` is right if keys that compare equal have one hash
value, as `hashtable.h` demands, and if the comparison does not depend on the order of its
arguments: `lookup` compares a stored key with the given one, `lookup_opt` and `remove` the other
way round.
-/

set_option autoImplicit false

namespace ConcurrentCyclone.Lib

open Function

variable {α β : Type}

/-- `struct Table`, apart from the region: `tab` has the buckets `0`, …, `numelts - 1`. -/
structure Table (α β : Type) where
  cmp : α → α → Int
  hash : α → BitVec 32
  maxLen : Int
  numelts : Nat
  tab : Nat → List (α × β)

namespace Table

/-- `create`. -/
def create (sz : Nat) (cmp : α → α → Int) (hash : α → BitVec 32) : Table α β :=
  ⟨cmp, hash, 3, sz, fun _ => []⟩

section

variable (hash : α → BitVec 32) (n : Nat)

/-- `hash(key) % numelts(tab)`. The `int` is converted to `unsigned`, the type of `numelts`. -/
def index (key : α) : Nat := (hash key).toNat % n

/-- A binding is put in front of its bucket. -/
def push (tab : Nat → List (α × β)) (b : α × β) : Nat → List (α × β) :=
  update tab (index hash n b.1) (b :: tab (index hash n b.1))

/-- `insert_bucket`. -/
def insertBucket (tab : Nat → List (α × β)) : List (α × β) → Nat → List (α × β)
  | [] => tab
  | b :: elems => push hash n (insertBucket tab elems) b

/-- The loop of `resize` over the first buckets of the old table. -/
def rehash (odata : Nat → List (α × β)) : Nat → Nat → List (α × β)
  | 0 => fun _ => []
  | i + 1 => insertBucket hash n (rehash odata i) (odata i)

end

/-- `resize`. -/
def resize (t : Table α β) : Table α β :=
  let nsize := 2 * t.numelts + 1
  { t with
    maxLen := (2 * t.maxLen).bmod 0x100000000
    numelts := nsize
    tab := rehash t.hash nsize t.tab t.numelts }

/-- `insert`. -/
def insert (t : Table α β) (key : α) (val : β) : Table α β :=
  let t := { t with tab := push t.hash t.numelts t.tab (key, val) }
  if t.maxLen < (t.tab (index t.hash t.numelts key)).length then t.resize else t

/-- `lookup`, which throws `Not_found` instead of `none`. -/
def lookup (t : Table α β) (key : α) : Option β :=
  ((t.tab (index t.hash t.numelts key)).find? fun b => t.cmp b.1 key = 0).map (·.2)

/-- `lookup_opt`. -/
def lookupOpt (t : Table α β) (key : α) : Option β :=
  ((t.tab (index t.hash t.numelts key)).find? fun b => t.cmp key b.1 = 0).map (·.2)

/-- `remove`: the first binding of the key is unlinked from its bucket. -/
def remove (t : Table α β) (key : α) : Table α β :=
  let bucket := index t.hash t.numelts key
  { t with
    tab := update t.tab bucket ((t.tab bucket).eraseP fun b => t.cmp key b.1 = 0) }

/-- The operations that change a table. -/
inductive Op (α β : Type) where
  | insert (key : α) (val : β)
  | remove (key : α)
  | resize

def Op.run (t : Table α β) : Op α β → Table α β
  | .insert key val => t.insert key val
  | .remove key => t.remove key
  | .resize => t.resize

/-- The insertions that were not removed, the latest first. -/
def Op.effect (cmp : α → α → Int) (h : List (α × β)) : Op α β → List (α × β)
  | .insert key val => (key, val) :: h
  | .remove key => h.eraseP fun b => cmp key b.1 = 0
  | .resize => h

/-! ## What a table holds -/

variable {cmp : α → α → Int} {hash : α → BitVec 32} {n : Nat} {tab : Nat → List (α × β)}
  {h : List (α × β)}

/-- The bindings with one hash value. -/
def withHash (hash : α → BitVec 32) (w : BitVec 32) (l : List (α × β)) : List (α × β) :=
  l.filter fun b => hash b.1 = w

/-- The bindings with one hash value are in one bucket, in the order of the list. -/
def Holds (hash : α → BitVec 32) (n : Nat) (tab : Nat → List (α × β)) (h : List (α × β)) : Prop :=
  ∀ w i, withHash hash w (tab i) = if i = w.toNat % n then withHash hash w h else []

theorem Holds.push (hh : Holds hash n tab h) (b : α × β) :
    Holds hash n (push hash n tab b) (b :: h) := by
  intro w i
  have hi := hh w i
  by_cases hw : hash b.1 = w <;> by_cases hib : i = index hash n b.1 <;>
    simp_all [Table.push, index, withHash]

theorem Holds.insertBucket (hh : Holds hash n tab h) :
    ∀ l : List (α × β), Holds hash n (insertBucket hash n tab l) (l ++ h)
  | [] => hh
  | b :: l => (hh.insertBucket l).push b

theorem holds_empty (hash : α → BitVec 32) (n : Nat) :
    Holds hash n (fun _ => ([] : List (α × β))) [] :=
  fun _ _ => (ite_self _).symm

/-- After the first `i` buckets the new table holds the bindings of those. -/
theorem Holds.rehash (hh : Holds hash n tab h) (m i : Nat) :
    ∃ h', Holds hash m (rehash hash m tab i) h' ∧ ∀ w : BitVec 32,
      withHash hash w h' = if w.toNat % n < i then withHash hash w h else [] := by
  induction i with
  | zero => exact ⟨[], holds_empty hash m, fun w => rfl⟩
  | succ i ih =>
    obtain ⟨h', hh', hw⟩ := ih
    refine ⟨tab i ++ h', hh'.insertBucket (tab i), fun w => ?_⟩
    have happend : withHash hash w (tab i ++ h') = withHash hash w (tab i) ++ withHash hash w h' :=
      List.filter_append ..
    rw [happend, hh w i]
    grind

theorem Holds.resized (hh : Holds hash n tab h) (hn : 0 < n) (m : Nat) :
    Holds hash m (Table.rehash hash m tab n) h := by
  obtain ⟨h', hh', hw⟩ := hh.rehash m n
  intro w i
  rw [hh' w i, hw w, if_pos (Nat.mod_lt _ hn)]

section

variable {p : α × β → Bool} {key : α} (hp : ∀ b, p b = true → hash b.1 = hash key)

include hp

theorem withHash_eraseP (w : BitVec 32) (l : List (α × β)) :
    withHash hash w (l.eraseP p) =
      if w = hash key then (withHash hash w l).eraseP p else withHash hash w l := by
  induction l with
  | nil => simp [withHash]
  | cons b l ih => grind [withHash]

theorem find?_withHash (l : List (α × β)) : (withHash hash (hash key) l).find? p = l.find? p := by
  rw [withHash, List.find?_filter]
  congr 1
  funext b
  cases hb : p b <;> simp [hp, hb]

/-- Only bindings with the hash value of the key are looked at. -/
theorem Holds.erase (hh : Holds hash n tab h) :
    Holds hash n (update tab (index hash n key) ((tab (index hash n key)).eraseP p))
      (h.eraseP p) := by
  intro w i
  have hi := hh w i
  rw [withHash_eraseP hp]
  by_cases hik : i = index hash n key
  · subst hik
    rw [update_self, withHash_eraseP hp]
    grind
  · rw [update_of_ne hik]
    grind [index]

theorem Holds.find? (hh : Holds hash n tab h) : (tab (index hash n key)).find? p = h.find? p := by
  rw [← find?_withHash hp, hh, index, if_pos rfl, find?_withHash hp]

end

/-- The table holds the list, and finds a key in it. -/
structure Refines (cmp : α → α → Int) (hash : α → BitVec 32) (t : Table α β)
    (h : List (α × β)) : Prop where
  cmp_eq : t.cmp = cmp
  hash_eq : t.hash = hash
  pos : 0 < t.numelts
  holds : Holds hash t.numelts t.tab h

/-- Keys that compare equal do so in both orders and have the same hash value. -/
def Agrees (cmp : α → α → Int) (hash : α → BitVec 32) : Prop :=
  ∀ k1 k2, cmp k1 k2 = 0 → cmp k2 k1 = 0 ∧ hash k1 = hash k2

theorem Refines.resize {t : Table α β} (ht : Refines cmp hash t h) :
    Refines cmp hash t.resize h := by
  obtain ⟨rfl, rfl, hpos, hh⟩ := ht
  exact ⟨rfl, rfl, Nat.succ_pos _, hh.resized hpos _⟩

theorem Refines.run (hagree : Agrees cmp hash) {t : Table α β} (ht : Refines cmp hash t h)
    (op : Op α β) : Refines cmp hash (op.run t) (op.effect cmp h) := by
  obtain ⟨rfl, rfl, hpos, hh⟩ := ht
  cases op with
  | insert key val =>
    have hpush : Refines t.cmp t.hash
        { t with tab := Table.push t.hash t.numelts t.tab (key, val) } ((key, val) :: h) :=
      ⟨rfl, rfl, hpos, hh.push (key, val)⟩
    simp only [Op.run, Table.insert]
    split
    · exact hpush.resize
    · exact hpush
  | remove key =>
    exact ⟨rfl, rfl, hpos, hh.erase fun b hb => (hagree _ _ (of_decide_eq_true hb)).2.symm⟩
  | resize => exact Refines.resize ⟨rfl, rfl, hpos, hh⟩

/-- A table finds the latest insertion of a key that was not removed, if keys that compare equal
have the same hash value. -/
theorem lookup_latest (sz : Nat) (hsz : 0 < sz) (cmp : α → α → Int) (hash : α → BitVec 32)
    (hagree : Agrees cmp hash) (ops : List (Op α β)) (key : α) :
    let t := ops.foldl Op.run (create sz cmp hash)
    let h := ops.foldl (Op.effect cmp) []
    t.lookup key = (h.find? fun b => cmp key b.1 = 0).map (·.2) ∧
      t.lookupOpt key = t.lookup key := by
  intro t h
  have hrun : ∀ (t : Table α β) h, Refines cmp hash t h →
      Refines cmp hash (ops.foldl Op.run t) (ops.foldl (Op.effect cmp) h) := by
    induction ops with
    | nil => exact fun t h ht => ht
    | cons op ops ih => exact fun t h ht => ih _ _ (ht.run hagree op)
  obtain ⟨hcmp, hhash, -, hh⟩ := hrun (create sz cmp hash) []
    ⟨rfl, rfl, hsz, holds_empty hash sz⟩
  have hfind := hh.find? (p := fun b => cmp key b.1 = 0) fun b hb =>
    (hagree _ _ (of_decide_eq_true hb)).2.symm
  have hsymm : (fun b : α × β => decide (cmp b.1 key = 0)) = fun b => decide (cmp key b.1 = 0) := by
    funext b
    exact decide_eq_decide.2 ⟨fun h => (hagree _ _ h).1, fun h => (hagree _ _ h).1⟩
  simp only [lookup, lookupOpt, t, h, hcmp, hhash, hsymm, hfind, and_self]

/-- A negative hash value, and a binding that a removal uncovers. -/
theorem lookup_latest_uncovered :
    ([Op.insert (-1) 10, .insert (-1) 20, .resize, .remove (-1)].foldl Op.run
      (create 2 (fun k1 k2 : Int => k1 - k2) (BitVec.ofInt 32))).lookup (-1) = some 10 :=
  (lookup_latest 2 (by decide) (fun k1 k2 : Int => k1 - k2) (BitVec.ofInt 32)
    (fun k1 k2 h => by obtain rfl := Int.sub_eq_zero.1 h; exact ⟨h, rfl⟩) _ (-1)).1.trans
      (by decide)

/-- All keys compare equal, and the key `2` alone has the bucket of `0`: what is found for `0` is
neither the latest insertion nor the latest one of `0`. -/
theorem lookup_not_latest :
    let ops : List (Op Nat Nat) := [.insert 0 10, .insert 2 20, .insert 1 30]
    let cmp : Nat → Nat → Int := fun _ _ => 0
    let h := ops.foldl (Op.effect cmp) []
    (ops.foldl Op.run (create 2 cmp (BitVec.ofNat 32))).lookup 0 = some 20 ∧
      (h.find? fun b => cmp 0 b.1 = 0) = some (1, 30) ∧
        (h.find? fun b => b.1 = 0) = some (0, 10) := by
  decide

end Table

end ConcurrentCyclone.Lib
