import ConcurrentCyclone.Memory.Chain
import ConcurrentCyclone.Runtime.Keys

/-!
# The key table of a thread

A thread finds its key for a region in a hash table with a cache of two entries
(`lib/runtime_memory.c`, "Hash table stuff"). The keys of a bucket are linked by a field of the keys
themselves (`next`), so that growing and shrinking the table relinks the keys in place.

The table stands for a finite map from regions to keys (`Represents`), and every operation does on
the map what it says (`hashtableSearch_spec`, `hashtableInsert_spec`, `hashtableRemove_spec`). An
insertion that has to grow the table fails, with result `0`, if there is no memory or no larger
prime; it then changes nothing.
-/

set_option autoImplicit false

namespace ConcurrentCyclone.Runtime

open Function Memory Transition

/-! ## The operations -/

/-- Addresses of keys (`entry_t`). -/
abbrev KeyAddr := Int

/-- The fields of the keys that the table uses: the link of the bucket, and the region. -/
structure KeyMem where
  next : KeyAddr → Option KeyAddr
  h : KeyAddr → Rid

/-- `struct hashtable`. -/
structure HashTable where
  cache : Fin 2 → Option KeyAddr
  cacheIdx : Fin 2
  tablelength : Nat
  entrycount : Nat
  upperLoadlimit : Nat
  lowerLoadlimit : Nat
  primeindex : Nat
  table : Nat → Option KeyAddr

/-- The table of a thread and the keys in memory. -/
structure ThreadTable where
  mem : KeyMem
  tbl : HashTable

/-- Why an operation of the table has no result. -/
inductive TableStop where
  /-- The bound on the steps of a loop is met. -/
  | steps
  /-- `errquit0("hashtable search for key : %p failed.", k)`. -/
  | searchFailed (k : Rid)
  /-- `errquit("Attempting to remove a non-existent key")`. -/
  | removeNonExistent
  deriving DecidableEq

/-- `indexFor`. -/
def indexFor (tablelength : Nat) (hashvalue : Rid) : Nat := hashvalue % 2 ^ 32 % tablelength

/-- `primes`. -/
def primes : List Nat :=
  [53, 97, 193, 389,
   769, 1543, 3079, 6151,
   12289, 24593, 49157, 98317,
   196613, 393241, 786433, 1572869,
   3145739, 6291469, 12582917, 25165843,
   50331653, 100663319, 201326611, 402653189,
   805306457, 1610612741]

/-- `max_load_factor`. -/
def maxLoadFactor : Nat := 200

/-- `min_load_factor`. -/
def minLoadFactor : Nat := 50

/-- `(unsigned int) (size * factor)/100`: the product is a 32-bit one. -/
def loadlimit (size factor : Nat) : Nat := size * factor % 2 ^ 32 / 100

/-- `create_hashtable`. -/
def createHashtable (minsize : Nat) : HashTable :=
  let pindex := primes.findIdx fun p => minsize < p
  let size := primes.getD pindex 53
  { cache := fun _ => none
    cacheIdx := 0
    tablelength := size
    entrycount := 0
    upperLoadlimit := loadlimit size maxLoadFactor
    lowerLoadlimit := loadlimit size minLoadFactor
    primeindex := pindex
    table := fun _ => none }

/-- Put a key into the cache. -/
def HashTable.remember (h : HashTable) (e : KeyAddr) : HashTable :=
  { h with cache := update h.cache h.cacheIdx (some e), cacheIdx := h.cacheIdx + 1 }

/-- The inner loop of `hashtable_expand`: the keys from `t` on are put in front of their new
buckets, one after the other. -/
def rehashBucket (newsize : Nat) : Nat → Option KeyAddr → KeyMem → (Nat → Option KeyAddr) →
    Except TableStop (KeyMem × (Nat → Option KeyAddr))
  | 0, _, _, _ => .error .steps
  | _ + 1, none, mem, orig => .ok (mem, orig)
  | n + 1, some t₁, mem, orig =>
    let index := indexFor newsize (mem.h t₁)
    let t := mem.next t₁
    if t = some t₁ then .ok (mem, orig)
    else
      rehashBucket newsize n t { mem with next := update mem.next t₁ (orig index) }
        (update orig index (some t₁))

/-- The outer loop of `hashtable_expand`, over the old buckets. -/
def rehash (newsize fuel : Nat) (iter : Nat → Option KeyAddr) : List Nat → KeyMem →
    (Nat → Option KeyAddr) → Except TableStop (KeyMem × (Nat → Option KeyAddr))
  | [], mem, orig => .ok (mem, orig)
  | i :: is, mem, orig =>
    (rehashBucket newsize fuel (iter i) mem orig).bind fun x =>
      rehash newsize fuel iter is x.1 x.2

/-- The rest of `hashtable_expand`, once the new size is known: `alloc` says whether there is memory
for the new table. -/
def ThreadTable.resize (s : ThreadTable) (fuel : Nat) (alloc : Bool) (pindex : Nat) :
    Except TableStop (Option ThreadTable) :=
  let newsize := primes.getD pindex 0
  if alloc then
    (rehash newsize fuel s.tbl.table (List.range s.tbl.tablelength) s.mem fun _ => none).map
      fun x => some
        { mem := x.1
          tbl := { s.tbl with
            table := x.2
            primeindex := pindex
            tablelength := newsize
            upperLoadlimit := loadlimit newsize maxLoadFactor
            lowerLoadlimit := loadlimit newsize minLoadFactor } }
  else .ok none

/-- `hashtable_expand`; `none` is the null pointer. -/
def hashtableExpand (fuel : Nat) (alloc grow : Bool) (s : ThreadTable) :
    Except TableStop (Option ThreadTable) :=
  if grow then
    if s.tbl.primeindex = primes.length - 1 then .ok none
    else s.resize fuel alloc (s.tbl.primeindex + 1)
  else
    if s.tbl.primeindex = 0 then .ok (some s)
    else s.resize fuel alloc (s.tbl.primeindex - 1)

/-- The end of `hashtable_insert`: the key goes to the front of its bucket and into the cache. -/
def ThreadTable.pushKey (s : ThreadTable) (kv : KeyAddr) : ThreadTable :=
  let index := indexFor s.tbl.tablelength (s.mem.h kv)
  let head := s.tbl.table index
  { mem := { s.mem with
      next := update s.mem.next kv (if head = some kv then none else head) }
    tbl := HashTable.remember { s.tbl with
      entrycount := s.tbl.entrycount + 1
      table := update s.tbl.table index (some kv) } kv }

/-- `hashtable_insert`. -/
def hashtableInsert (fuel : Nat) (alloc : Bool) (s : ThreadTable) (kv : KeyAddr) :
    Except TableStop (ThreadTable × Bool) :=
  if s.tbl.upperLoadlimit < s.tbl.entrycount + 1 then
    (hashtableExpand fuel alloc true s).map fun
      | none => (s, false)
      | some s' => (s'.pushKey kv, true)
  else .ok (s.pushKey kv, true)

/-- The key in a slot of the cache, if it is the one of the region. -/
def ThreadTable.slot (s : ThreadTable) (c : Fin 2) (k : Rid) : Option KeyAddr :=
  (s.tbl.cache c).filter fun e => s.mem.h e == k

/-- The loop that looks for the key of a region in its bucket; the first result is the key before
it. -/
def ThreadTable.find (s : ThreadTable) (fuel : Nat) (k : Rid) :
    Option (Option KeyAddr × Option KeyAddr) :=
  seek s.mem.next (fun e => s.mem.h e == k) fuel none
    (s.tbl.table (indexFor s.tbl.tablelength k))

/-- `hashtable_search`. -/
def hashtableSearch (fuel : Nat) (s : ThreadTable) (k : Rid) :
    Except TableStop (ThreadTable × KeyAddr) :=
  match (s.slot 0 k).or (s.slot 1 k) with
  | some e => .ok (s, e)
  | none =>
    match s.find fuel k with
    | none => .error .steps
    | some (_, none) => .error (.searchFailed k)
    | some (_, some e) => .ok ({ s with tbl := s.tbl.remember e }, e)

/-- Take the key of a region out of the cache. -/
def ThreadTable.invalidate (s : ThreadTable) (k : Rid) : ThreadTable :=
  if (s.slot 0 k).isSome then
    { s with tbl := { s.tbl with cache := update s.tbl.cache 0 none } }
  else if (s.slot 1 k).isSome then
    { s with tbl := { s.tbl with cache := update s.tbl.cache 1 none } }
  else s

/-- Take the key `e` of a region out of its bucket; `pv` is the key before it. -/
def ThreadTable.unlink (s : ThreadTable) (k : Rid) (pv : Option KeyAddr) (e : KeyAddr) :
    ThreadTable :=
  let tbl := { s.tbl with entrycount := s.tbl.entrycount - 1 }
  match pv with
  | none =>
    { s with tbl := { tbl with
      table := update s.tbl.table (indexFor s.tbl.tablelength k) (s.mem.next e) } }
  | some pv =>
    { mem := { s.mem with
        next := update s.mem.next pv
          (if s.mem.next e = some pv then none else s.mem.next e) }
      tbl := tbl }

/-- The end of `hashtable_remove`: the table shrinks if it is nearly empty. -/
def ThreadTable.compact (s : ThreadTable) (fuel : Nat) (alloc : Bool) :
    Except TableStop (ThreadTable × Bool) :=
  if 0 < s.tbl.primeindex ∧ s.tbl.entrycount ≤ s.tbl.lowerLoadlimit then
    (hashtableExpand fuel alloc false s).map fun
      | none => (s, false)
      | some s' => (s', true)
  else .ok (s, true)

/-- `hashtable_remove`. -/
def hashtableRemove (fuel : Nat) (alloc : Bool) (s : ThreadTable) (k : Rid) :
    Except TableStop (ThreadTable × Bool) :=
  let s := s.invalidate k
  match s.find fuel k with
  | none => .error .steps
  | some (_, none) => .error .removeNonExistent
  | some (pv, some e) => (s.unlink k pv e).compact fuel alloc

/-! ## The map that a table stands for -/

/-- Finite maps from regions to keys. -/
abbrev KeyMap := Rid → Option KeyAddr

/-- The key is in the map, as the key of its region. -/
def KeyMem.In (mem : KeyMem) (m : KeyMap) (a : KeyAddr) : Prop := m (mem.h a) = some a

/-- The buckets hold the keys of the map, each in the bucket of its region. -/
def Bucketed (mem : KeyMem) (len : Nat) (table : Nat → Option KeyAddr)
    (bs : Nat → List KeyAddr) (P : KeyAddr → Prop) : Prop :=
  Chains mem.next table bs ∧ ∀ i a, a ∈ bs i ↔ P a ∧ indexFor len (mem.h a) = i

/-- The table stands for the map. -/
structure Represents (s : ThreadTable) (m : KeyMap) : Prop where
  /-- The buckets hold the keys of the map. -/
  buckets : ∃ bs, Bucketed s.mem s.tbl.tablelength s.tbl.table bs (s.mem.In m)
  /-- The keys have the regions they are mapped from. -/
  region : ∀ z a, m z = some a → s.mem.h a = z
  /-- The keys are counted. -/
  count : ∃ keys : Finset KeyAddr, (∀ a, a ∈ keys ↔ s.mem.In m a) ∧ keys.card = s.tbl.entrycount
  /-- The cache holds keys of the map. -/
  cached : ∀ c a, s.tbl.cache c = some a → s.mem.In m a
  /-- No key is in both slots of the cache. -/
  cached_once : ∀ c c' a, s.tbl.cache c = some a → s.tbl.cache c' = some a → c = c'
  /-- The size of the table is one of the primes. -/
  prime : s.tbl.primeindex < primes.length
  size : s.tbl.tablelength = primes.getD s.tbl.primeindex 0

theorem primes_pos {i : Nat} (hi : i < primes.length) : 0 < primes.getD i 0 := by
  have hall : ∀ i < primes.length, 0 < primes.getD i 0 := by decide
  exact hall i hi

theorem indexFor_lt {len : Nat} (hlen : 0 < len) (z : Rid) : indexFor len z < len :=
  Nat.mod_lt _ hlen

/-- The new table of a thread stands for the empty map. -/
theorem represents_create (mem : KeyMem) :
    Represents ⟨mem, createHashtable 25⟩ (fun _ => none) where
  buckets := ⟨fun _ => [], chains_empty mem.next, fun i a => by simp [KeyMem.In]⟩
  region := nofun
  count := ⟨∅, fun a => by simp [KeyMem.In], rfl⟩
  cached := nofun
  cached_once := nofun
  prime := (by decide : (createHashtable 25).primeindex < primes.length)
  size := (by decide : (createHashtable 25).tablelength = primes.getD 0 0)

section Spec

variable {s : ThreadTable} {m : KeyMap} {z : Rid} {a : KeyAddr} {fuel : Nat}

theorem KeyMem.in_of_eq (hregion : s.mem.h a = z) (hz : m z = some a) : s.mem.In m a := by
  rw [KeyMem.In, hregion, hz]

/-- Two keys of the map with one region are the same key. -/
theorem KeyMem.In.eq {mem : KeyMem} {b : KeyAddr} (hb : mem.In m b) (hz : m z = some a)
    (hregion : mem.h b = z) : b = a := by
  rw [KeyMem.In, hregion, hz] at hb
  exact (Option.some.inj hb).symm

variable {bs : Nat → List KeyAddr}

section

variable (h : Represents s m)
  (hbs : Bucketed s.mem s.tbl.tablelength s.tbl.table bs (s.mem.In m))

include h hbs

/-- A bucket has at most as many keys as the table counts. -/
theorem Represents.bucket_length (i : Nat) : (bs i).length ≤ s.tbl.entrycount := by
  obtain ⟨keys, hkeys, hcard⟩ := h.count
  rw [← List.toFinset_card_of_nodup (hbs.1.chain i).nodup, ← hcard]
  refine Finset.card_le_card fun b hb => (hkeys b).2 ?_
  exact ((hbs.2 i b).1 (List.mem_toFinset.1 hb)).1

/-- The loop over a bucket finds the key of the region. -/
theorem Represents.find_eq (hz : m z = some a) (hfuel : s.tbl.entrycount < fuel) :
    ∃ l1 l2, bs (indexFor s.tbl.tablelength z) = l1 ++ a :: l2 ∧
      s.find fuel z = some (l1.getLast?, some a) := by
  have ha : s.mem.In m a := KeyMem.in_of_eq (h.region z a hz) hz
  have hmem : a ∈ bs (indexFor s.tbl.tablelength z) :=
    (hbs.2 _ a).2 ⟨ha, by rw [h.region z a hz]⟩
  obtain ⟨l1, l2, hl⟩ := List.append_of_mem hmem
  have hchain := hbs.1.chain (indexFor s.tbl.tablelength z)
  have hlen := h.bucket_length hbs (indexFor s.tbl.tablelength z)
  rw [hl] at hchain hlen
  refine ⟨l1, l2, hl, ?_⟩
  have hbefore : ∀ b ∈ l1, (s.mem.h b == z) = false := by
    intro b hb
    refine beq_eq_false_iff_ne.2 fun hregion => ?_
    have hbm : b ∈ bs (indexFor s.tbl.tablelength z) := by
      rw [hl]
      exact List.mem_append_left _ hb
    have hba : b = a := ((hbs.2 _ b).1 hbm).1.eq hz hregion
    exact (List.nodup_append.1 hchain.nodup).2.2 b hb a (.head _) hba
  have hlt : l1.length < fuel := by
    rw [List.length_append] at hlen
    omega
  have hseek := hchain.seek_eq hbefore (beq_iff_eq.2 (h.region z a hz)) hlt none
  rw [Option.or_none] at hseek
  exact hseek

end

/-! ## The cache -/

/-- A key of the map that is in no slot may be put into the cache. -/
theorem Represents.remember (h : Represents s m) (ha : s.mem.In m a)
    (hnew : ∀ c, s.tbl.cache c ≠ some a) : Represents { s with tbl := s.tbl.remember a } m where
  __ := h
  cached c b hb := by
    rcases eq_or_ne c s.tbl.cacheIdx with rfl | hc
    · obtain rfl : a = b := by simpa [HashTable.remember] using hb
      exact ha
    · exact h.cached c b (by simpa [HashTable.remember, hc] using hb)
  cached_once c c' b hb hb' := by
    by_cases hc : c = s.tbl.cacheIdx <;> by_cases hc' : c' = s.tbl.cacheIdx <;>
      simp only [HashTable.remember, update_apply, if_pos, if_neg, hc, hc',
        not_false_eq_true] at hb hb' ⊢
    · cases hb
      exact absurd hb' (hnew c')
    · cases hb'
      exact absurd hb (hnew c)
    · exact h.cached_once c c' b hb hb'

theorem ThreadTable.slot_eq_some {c : Fin 2} :
    s.slot c z = some a ↔ s.tbl.cache c = some a ∧ s.mem.h a = z := by
  simp [ThreadTable.slot]

/-- A cache slot with a key of the region has the key that the map has for it. -/
theorem Represents.slot_eq (h : Represents s m) (hz : m z = some a) {c : Fin 2} {e : KeyAddr}
    (he : s.slot c z = some e) : e = a := by
  obtain ⟨hc, hregion⟩ := ThreadTable.slot_eq_some.1 he
  exact (h.cached c e hc).eq hz hregion

/-- A search of a region of the map answers with its key. -/
theorem hashtableSearch_spec (h : Represents s m) (hz : m z = some a)
    (hfuel : s.tbl.entrycount < fuel) :
    ∃ s', hashtableSearch fuel s z = .ok (s', a) ∧ s'.mem.h = s.mem.h ∧ Represents s' m := by
  rw [hashtableSearch]
  cases hslot : (s.slot 0 z).or (s.slot 1 z) with
  | some e =>
    have he : e = a := by
      rcases Option.or_eq_some_iff.1 hslot with he | ⟨-, he⟩
      · exact h.slot_eq hz he
      · exact h.slot_eq hz he
    exact ⟨s, by rw [he], rfl, h⟩
  | none =>
    have hslots : ∀ c, s.slot c z = none :=
      Fin.forall_fin_two.2 (Option.or_eq_none_iff.1 hslot)
    have hregion := h.region z a hz
    have hnew : ∀ c, s.tbl.cache c ≠ some a := by
      intro c hc
      have hfound : s.slot c z = some a := ThreadTable.slot_eq_some.2 ⟨hc, hregion⟩
      exact Option.some_ne_none a (hfound.symm.trans (hslots c))
    obtain ⟨bs, hbs⟩ := h.buckets
    obtain ⟨l1, l2, -, hfind⟩ := h.find_eq hbs hz hfuel
    refine ⟨{ s with tbl := s.tbl.remember a }, ?_, rfl, h.remember ?_ hnew⟩
    · simp only [hfind]
    · exact KeyMem.in_of_eq hregion hz

end Spec

/-! ## Growing and shrinking -/

section Bucketed

variable {mem : KeyMem} {len : Nat} {table : Nat → Option KeyAddr} {bs : Nat → List KeyAddr}
  {P Q : KeyAddr → Prop}

theorem Bucketed.imp (h : Bucketed mem len table bs P) (hPQ : ∀ a, P a ↔ Q a) :
    Bucketed mem len table bs Q :=
  ⟨h.1, fun i a => by rw [h.2 i a, hPQ a]⟩

/-- A new key in front of its bucket. -/
theorem Bucketed.push (h : Bucketed mem len table bs P) {a : KeyAddr} (ha : ¬ P a) :
    ∃ bs', Bucketed
      { mem with next := update mem.next a (table (indexFor len (mem.h a))) } len
      (update table (indexFor len (mem.h a)) (some a)) bs' (fun b => P b ∨ b = a) := by
  have hnew : ∀ j, a ∉ bs j := fun j hj => ha ((h.2 j a).1 hj).1
  refine ⟨_, h.1.push (indexFor len (mem.h a)) hnew, fun i b => ?_⟩
  rcases eq_or_ne i (indexFor len (mem.h a)) with rfl | hi
  · rw [update_self, List.mem_cons, h.2]
    by_cases hb : b = a <;> simp [hb]
  · rw [update_of_ne hi, h.2]
    by_cases hb : b = a
    · simp [hb, hi.symm]
    · simp [hb]

/-- The inner loop puts the keys of an old bucket into the new ones, and changes no other key. -/
theorem rehashBucket_spec {l : List KeyAddr} {t : Option KeyAddr} {fuel : Nat}
    (hbs : Bucketed mem len table bs P) (hl : Chain mem.next t l) (hfuel : l.length < fuel)
    (hnew : ∀ a ∈ l, ¬ P a) :
    ∃ mem' table' bs', rehashBucket len fuel t mem table = .ok (mem', table') ∧
      mem'.h = mem.h ∧ (∀ a, a ∉ l → mem'.next a = mem.next a) ∧
      Bucketed mem' len table' bs' (fun a => P a ∨ a ∈ l) := by
  -- the keys that are still to be moved are the list `l`: their links are as they were
  induction l generalizing t mem table bs P fuel with
  | nil =>
    obtain ⟨n, rfl⟩ := Nat.exists_eq_add_of_lt hfuel
    cases (show t = none from hl)
    refine ⟨mem, table, bs, rfl, rfl, fun _ _ => rfl, hbs.imp fun a => ?_⟩
    simp
  | cons t₁ l ih =>
    have hnodup := hl.nodup
    obtain ⟨rfl, hl⟩ := hl
    obtain ⟨n, rfl⟩ := Nat.exists_eq_add_of_lt (Nat.zero_lt_of_lt hfuel)
    obtain ⟨ht1, hnodup⟩ := List.nodup_cons.1 hnodup
    obtain ⟨hP, hnew⟩ := List.forall_mem_cons.1 hnew
    -- a key is not its own successor
    have hself : mem.next t₁ ≠ some t₁ := by
      intro hself
      rw [hself] at hl
      exact ht1 hl.head_mem
    obtain ⟨bs1, hbs1⟩ := hbs.push hP
    have hnew1 : ∀ a ∈ l, ¬ (P a ∨ a = t₁) := by
      rintro a ha (hPa | rfl)
      · exact hnew a ha hPa
      · exact ht1 ha
    have hfuel1 : l.length < 0 + n := by
      rw [List.length_cons] at hfuel
      omega
    obtain ⟨mem', table', bs', hrun, hh, hframe, hbs'⟩ :=
      ih hbs1 (hl.write ht1) hfuel1 hnew1
    refine ⟨mem', table', bs', ?_, hh, fun a ha => ?_, hbs'.imp fun a => ?_⟩
    · rw [rehashBucket, if_neg hself]
      exact hrun
    · obtain ⟨hne, ha⟩ := not_or.1 (mt List.mem_cons.2 ha)
      rw [hframe a ha]
      exact update_of_ne hne _ _
    · rw [List.mem_cons, or_assoc]

/-- The outer loop moves the keys of the old buckets. -/
theorem rehash_spec {iter : Nat → Option KeyAddr} {obs : Nat → List KeyAddr} {fuel : Nat}
    {is : List Nat} (hbs : Bucketed mem len table bs P)
    (hold : ∀ i ∈ is, Chain mem.next (iter i) (obs i)) (his : is.Nodup)
    (hdisjoint : ∀ i j a, a ∈ obs i → a ∈ obs j → i = j) (hfuel : ∀ i, (obs i).length < fuel)
    (hnew : ∀ i ∈ is, ∀ a ∈ obs i, ¬ P a) :
    ∃ mem' table' bs', rehash len fuel iter is mem table = .ok (mem', table') ∧
      mem'.h = mem.h ∧ Bucketed mem' len table' bs' (fun a => P a ∨ ∃ i ∈ is, a ∈ obs i) := by
  induction is generalizing mem table bs P with
  | nil =>
    refine ⟨mem, table, bs, rfl, rfl, hbs.imp fun a => ?_⟩
    simp
  | cons i is ih =>
    obtain ⟨hi, his⟩ := List.nodup_cons.1 his
    obtain ⟨holdi, hold⟩ := List.forall_mem_cons.1 hold
    obtain ⟨hnewi, hnew⟩ := List.forall_mem_cons.1 hnew
    obtain ⟨mem1, table1, bs1, hrun1, hh1, hframe, hbs1⟩ :=
      rehashBucket_spec hbs holdi (hfuel i) hnewi
    -- the later buckets have no key of this one
    have hlater : ∀ j ∈ is, ∀ a ∈ obs j, a ∉ obs i := by
      rintro j hj a haj hai
      exact hi (hdisjoint i j a hai haj ▸ hj)
    have hold1 : ∀ j ∈ is, Chain mem1.next (iter j) (obs j) := fun j hj =>
      (hold j hj).congr fun a ha => hframe a (hlater j hj a ha)
    have hnew1 : ∀ j ∈ is, ∀ a ∈ obs j, ¬ (P a ∨ a ∈ obs i) := by
      rintro j hj a ha (hPa | hai)
      · exact hnew j hj a ha hPa
      · exact hlater j hj a ha hai
    obtain ⟨mem', table', bs', hrun, hh, hbs'⟩ := ih hbs1 hold1 his hnew1
    refine ⟨mem', table', bs', ?_, hh.trans hh1, hbs'.imp fun a => ?_⟩
    · rw [rehash, hrun1]
      exact hrun
    · simp only [List.mem_cons, exists_eq_or_imp, or_assoc]

end Bucketed

section Spec

variable {s : ThreadTable} {m : KeyMap} {z : Rid} {a : KeyAddr} {fuel : Nat}

/-- A table of another size stands for the same map. -/
theorem ThreadTable.resize_spec (h : Represents s m) (hfuel : s.tbl.entrycount < fuel)
    (alloc : Bool) {pindex : Nat} (hpindex : pindex < primes.length) :
    ∃ r, s.resize fuel alloc pindex = .ok r ∧
      ∀ s', r = some s' → Represents s' m ∧ s'.mem.h = s.mem.h := by
  rw [ThreadTable.resize]
  cases alloc with
  | false => exact ⟨none, rfl, nofun⟩
  | true =>
    obtain ⟨obs, hobs⟩ := h.buckets
    have hempty : Bucketed s.mem (primes.getD pindex 0) (fun _ => none) (fun _ => [])
        (fun _ => False) :=
      ⟨chains_empty s.mem.next, fun i a => by simp⟩
    obtain ⟨mem', table', bs', hrun, hh, hbs'⟩ :=
      rehash_spec hempty (fun i _ => hobs.1.chain i) List.nodup_range hobs.1.disjoint
        (fun i => (h.bucket_length hobs i).trans_lt hfuel) (fun _ _ _ _ => not_false)
    refine ⟨_, by rw [hrun]; rfl, fun s' hs' => ?_⟩
    cases hs'
    have hin : ∀ a, mem'.In m a ↔ s.mem.In m a := fun a => by rw [KeyMem.In, hh, KeyMem.In]
    have hsize : 0 < s.tbl.tablelength := h.size ▸ primes_pos h.prime
    have hall : ∀ a, (False ∨ ∃ i ∈ List.range s.tbl.tablelength, a ∈ obs i) ↔ mem'.In m a := by
      intro a
      rw [hin, false_or]
      constructor
      · rintro ⟨i, -, ha⟩
        exact ((hobs.2 i a).1 ha).1
      · intro ha
        exact ⟨_, List.mem_range.2 (indexFor_lt hsize (s.mem.h a)), (hobs.2 _ a).2 ⟨ha, rfl⟩⟩
    obtain ⟨keys, hkeys, hcard⟩ := h.count
    exact ⟨{
      buckets := ⟨bs', hbs'.imp hall⟩
      region := fun z a hz => (congrFun hh a).trans (h.region z a hz)
      count := ⟨keys, fun a => (hkeys a).trans (hin a).symm, hcard⟩
      cached := fun c a hc => (hin a).2 (h.cached c a hc)
      cached_once := h.cached_once
      prime := hpindex
      size := rfl }, hh⟩

theorem hashtableExpand_spec (h : Represents s m) (hfuel : s.tbl.entrycount < fuel)
    (alloc grow : Bool) :
    ∃ r, hashtableExpand fuel alloc grow s = .ok r ∧
      ∀ s', r = some s' → Represents s' m ∧ s'.mem.h = s.mem.h := by
  have hprime := h.prime
  rw [hashtableExpand]
  cases grow with
  | true =>
    rw [if_pos rfl]
    split_ifs with hlast
    · exact ⟨none, rfl, nofun⟩
    · exact ThreadTable.resize_spec h hfuel alloc (by omega)
  | false =>
    rw [if_neg Bool.false_ne_true]
    split_ifs with hfirst
    · refine ⟨some s, rfl, fun s' hs' => ?_⟩
      cases hs'
      exact ⟨h, rfl⟩
    · exact ThreadTable.resize_spec h hfuel alloc (by omega)

/-! ## Insertion -/

variable {mem : KeyMem}

/-- The keys of the map with one more key. -/
theorem KeyMem.in_update (hz : m (mem.h a) = none) (b : KeyAddr) :
    mem.In (update m (mem.h a) (some a)) b ↔ mem.In m b ∨ b = a := by
  rw [KeyMem.In, KeyMem.In, update_apply]
  split_ifs with hb
  · rw [hb, hz]
    simp [eq_comm]
  · refine ⟨.inl, ?_⟩
    rintro (hin | rfl)
    · exact hin
    · exact absurd rfl hb

/-- A new key in its bucket and in the cache. -/
theorem Represents.pushKey (h : Represents s m) (hz : m (s.mem.h a) = none) :
    Represents (s.pushKey a) (update m (s.mem.h a) (some a)) := by
  have hnew : ¬ s.mem.In m a := by rw [KeyMem.In, hz]; exact (Option.some_ne_none a).symm
  obtain ⟨bs, hbs⟩ := h.buckets
  obtain ⟨keys, hkeys, hcard⟩ := h.count
  -- the head of the bucket is another key
  have hhead : s.tbl.table (indexFor s.tbl.tablelength (s.mem.h a)) ≠ some a := by
    intro hhead
    have hchain := hbs.1.chain (indexFor s.tbl.tablelength (s.mem.h a))
    rw [hhead] at hchain
    exact hnew ((hbs.2 _ a).1 hchain.head_mem).1
  obtain ⟨bs', hbs'⟩ := hbs.push hnew
  have hin := KeyMem.in_update hz
  -- the table with the key in its bucket, before the key is put into the cache
  have hpushed : Represents
      { mem := { s.mem with
          next := update s.mem.next a
            (s.tbl.table (indexFor s.tbl.tablelength (s.mem.h a))) }
        tbl := { s.tbl with
          entrycount := s.tbl.entrycount + 1
          table := update s.tbl.table (indexFor s.tbl.tablelength (s.mem.h a))
            (some a) } } (update m (s.mem.h a) (some a)) :=
    { h with
      buckets := ⟨bs', hbs'.imp fun b => (hin b).symm⟩
      region := fun z b hb => by
        rw [update_apply] at hb
        split_ifs at hb with hza
        · cases hb
          exact hza.symm
        · exact h.region z b hb
      count := by
        refine ⟨insert a keys, fun b => ?_, ?_⟩
        · rw [Finset.mem_insert, hkeys, or_comm]
          exact (hin b).symm
        · rw [Finset.card_insert_of_notMem fun ha => hnew ((hkeys a).1 ha), hcard]
      cached := fun c b hb => (hin b).2 (.inl (h.cached c b hb)) }
  have hcache := hpushed.remember ((hin a).2 (.inr rfl)) fun c hc => hnew (h.cached c a hc)
  rw [ThreadTable.pushKey, if_neg hhead]
  exact hcache

/-- The table cannot be made larger: there is no memory, or no larger prime. -/
def ThreadTable.Stuck (s : ThreadTable) (alloc : Bool) : Prop :=
  alloc = false ∨ s.tbl.primeindex = primes.length - 1

/-- A table that can be made larger is made larger. -/
theorem stuck_of_expand_none {alloc : Bool} (hnull : hashtableExpand fuel alloc true s = .ok none) :
    s.Stuck alloc := by
  rw [hashtableExpand, if_pos rfl] at hnull
  split_ifs at hnull with hlast
  · exact .inr hlast
  · cases alloc with
    | false => exact .inl rfl
    | true =>
      rw [ThreadTable.resize] at hnull
      obtain ⟨x, -, hx⟩ := map_eq_ok.1 hnull
      cases hx

/-- The insertion of a key for a new region adds the key to the map. It fails only if the table
cannot be made larger, and then changes nothing. -/
theorem hashtableInsert_spec (h : Represents s m) (hfuel : s.tbl.entrycount < fuel) (alloc : Bool)
    (hz : m (s.mem.h a) = none) :
    ∃ s' done, hashtableInsert fuel alloc s a = .ok (s', done) ∧
      s'.mem.h = s.mem.h ∧ (done = false → s.Stuck alloc) ∧
      Represents s' (if done then update m (s.mem.h a) (some a) else m) := by
  rw [hashtableInsert]
  split_ifs with hfull
  · obtain ⟨r, hr, hspec⟩ := hashtableExpand_spec h hfuel alloc true
    rw [hr]
    cases r with
    | none => exact ⟨s, false, rfl, rfl, fun _ => stuck_of_expand_none hr, h⟩
    | some s' =>
      obtain ⟨h', hh⟩ := hspec s' rfl
      refine ⟨s'.pushKey a, true, rfl, hh, nofun, ?_⟩
      rw [← hh]
      exact h'.pushKey (by rw [hh]; exact hz)
  · exact ⟨s.pushKey a, true, rfl, rfl, nofun, h.pushKey hz⟩

/-! ## Removal -/

/-- The keys of the map without the key of a region. -/
theorem KeyMem.in_remove (hregion : mem.h a = z) (hz : m z = some a)
    (b : KeyAddr) : mem.In (update m z none) b ↔ mem.In m b ∧ b ≠ a := by
  rw [KeyMem.In, KeyMem.In, update_apply]
  split_ifs with hb
  · rw [hb, hz]
    simp [eq_comm]
  · refine ⟨fun hin => ⟨hin, ?_⟩, And.left⟩
    rintro rfl
    exact hb hregion

/-- After the invalidation the key is not in the cache. -/
theorem Represents.invalidate (h : Represents s m) (hz : m z = some a) :
    Represents (s.invalidate z) m ∧ (s.invalidate z).mem = s.mem ∧
      (s.invalidate z).tbl.entrycount = s.tbl.entrycount ∧
      ∀ c, (s.invalidate z).tbl.cache c ≠ some a := by
  have hregion := h.region z a hz
  -- one slot is cleared; the other one holds another key or nothing
  have hclear : ∀ c, (s.slot c z).isSome →
      Represents { s with tbl := { s.tbl with cache := update s.tbl.cache c none } } m ∧
        ∀ c', update s.tbl.cache c none c' ≠ some a := by
    intro c hc
    obtain ⟨e, he⟩ := Option.isSome_iff_exists.1 hc
    obtain rfl := h.slot_eq hz he
    obtain ⟨hce, -⟩ := ThreadTable.slot_eq_some.1 he
    have hkeep : ∀ c' b, update s.tbl.cache c none c' = some b →
        c' ≠ c ∧ s.tbl.cache c' = some b := by
      intro c' b hb
      rw [update_apply] at hb
      split_ifs at hb with hc'
      exact ⟨hc', hb⟩
    refine ⟨{ h with
      cached := fun c' b hb => h.cached c' b (hkeep c' b hb).2
      cached_once := fun c' c'' b hb hb' =>
        h.cached_once c' c'' b (hkeep c' b hb).2 (hkeep c'' b hb').2 }, fun c' hc' => ?_⟩
    exact (hkeep c' e hc').1 (h.cached_once c' c e (hkeep c' e hc').2 hce)
  rw [ThreadTable.invalidate]
  split_ifs with h0 h1
  · exact ⟨(hclear 0 h0).1, rfl, rfl, (hclear 0 h0).2⟩
  · exact ⟨(hclear 1 h1).1, rfl, rfl, (hclear 1 h1).2⟩
  · refine ⟨h, rfl, rfl, fun c hc => ?_⟩
    have hslot : (s.slot c z).isSome := by
      rw [ThreadTable.slot_eq_some.2 ⟨hc, hregion⟩]
      rfl
    have hnone : ∀ c, ¬ (s.slot c z).isSome := Fin.forall_fin_two.2 ⟨h0, h1⟩
    exact hnone c hslot

variable {bs : Nat → List KeyAddr} {l1 l2 : List KeyAddr}

/-- One bucket loses a key. -/
theorem Bucketed.drop {len : Nat} {table : Nat → Option KeyAddr} {P : KeyAddr → Prop}
    (h : Bucketed mem len table bs P) {i : Nat} (hl : bs i = l1 ++ a :: l2)
    {next' : KeyAddr → Option KeyAddr} {q : Option KeyAddr} (hchain : Chain next' q (l1 ++ l2))
    (hframe : ∀ b, b ∉ bs i → next' b = mem.next b) :
    ∃ bs', Bucketed { mem with next := next' } len (update table i q) bs'
      (fun b => P b ∧ b ≠ a) := by
  have hnodup := (h.1.chain i).nodup
  rw [hl] at hnodup
  have hmem : ∀ b, b ∈ l1 ++ l2 ↔ b ∈ bs i ∧ b ≠ a := by
    intro b
    rw [hl]
    rcases eq_or_ne b a with rfl | hb
    · simpa using (List.nodup_middle.1 hnodup).notMem
    · simp [hb]
  have hother : ∀ j ≠ i, ∀ b ∈ bs j, b ∉ bs i := fun j hj b hbj hbi =>
    hj (h.1.disjoint j i b hbj hbi)
  refine ⟨_, h.1.replace hchain (fun j hj b hb => hframe b (hother j hj b hb))
    (fun b hb j hj hbj => hother j hj b hbj ((hmem b).1 hb).1), fun j b => ?_⟩
  rcases eq_or_ne j i with rfl | hj
  · rw [update_self, hmem, h.2, and_right_comm]
  · have hne : b ∈ bs j → b ≠ a := by
      rintro hb rfl
      refine hother j hj b hb ?_
      rw [hl]
      exact List.mem_append_right _ (.head _)
    rw [update_of_ne hj, and_right_comm, ← h.2, and_iff_left_of_imp hne]

/-- The key of a region is taken out of its bucket. -/
theorem Represents.unlink (h : Represents s m) (hz : m z = some a)
    (hcache : ∀ c, s.tbl.cache c ≠ some a)
    (hbs : Bucketed s.mem s.tbl.tablelength s.tbl.table bs (s.mem.In m))
    (hl : bs (indexFor s.tbl.tablelength z) = l1 ++ a :: l2) :
    Represents (s.unlink z l1.getLast? a) (update m z none) ∧
      (s.unlink z l1.getLast? a).mem.h = s.mem.h ∧
      (s.unlink z l1.getLast? a).tbl.entrycount = s.tbl.entrycount - 1 := by
  have hregion := h.region z a hz
  have hin := KeyMem.in_remove hregion hz
  obtain ⟨keys, hkeys, hcard⟩ := h.count
  have hcount : (keys.erase a).card = s.tbl.entrycount - 1 := by
    rw [Finset.card_erase_of_mem ((hkeys a).2 (KeyMem.in_of_eq hregion hz)), hcard]
  have hmapped : ∀ z' b, update m z none z' = some b → s.mem.h b = z' := by
    intro z' b hb
    rw [update_apply] at hb
    split_ifs at hb
    exact h.region z' b hb
  -- what is left to show for both ways to unlink: the buckets have the other keys
  have hrest : ∀ next' table', (∃ bs', Bucketed { s.mem with next := next' } s.tbl.tablelength
      table' bs' (fun b => s.mem.In m b ∧ b ≠ a)) →
      Represents ⟨{ s.mem with next := next' },
        { s.tbl with entrycount := s.tbl.entrycount - 1, table := table' }⟩
        (update m z none) := by
    rintro next' table' ⟨bs', hbs'⟩
    exact { h with
      buckets := ⟨bs', hbs'.imp fun b => (hin b).symm⟩
      region := hmapped
      count := by
        refine ⟨keys.erase a, fun b => ?_, hcount⟩
        rw [Finset.mem_erase, hkeys, and_comm]
        exact (hin b).symm
      cached := fun c b hb => (hin b).2 ⟨h.cached c b hb, fun hba => hcache c (hba ▸ hb)⟩ }
  have hchain := hbs.1.chain (indexFor s.tbl.tablelength z)
  rw [hl] at hchain
  rcases List.eq_nil_or_concat l1 with rfl | ⟨l, pv, rfl⟩
  · refine ⟨hrest s.mem.next _ ?_, rfl, rfl⟩
    exact hbs.drop hl hchain.tail fun _ _ => rfl
  · rw [List.concat_eq_append, List.append_assoc] at hchain
    -- the key before is not behind the key
    have hpv : s.mem.next a ≠ some pv := by
      intro hpv
      have hsuffix : Chain s.mem.next (some pv) l2 := hpv ▸ hchain.suffix.2.2
      have hnodup := hchain.suffix.nodup
      exact (List.nodup_cons.1 hnodup).1 (.tail a hsuffix.head_mem)
    have hunlinked := hchain.unlink
    have hlast : (l.concat pv).getLast? = some pv := by simp
    rw [hlast, ThreadTable.unlink, if_neg hpv]
    refine ⟨hrest _ s.tbl.table ?_, rfl, rfl⟩
    rw [← update_eq_self (indexFor s.tbl.tablelength z) s.tbl.table]
    refine hbs.drop hl ?_ fun b hb => update_of_ne ?_ _ _
    · simpa using hunlinked
    · rintro rfl
      refine hb ?_
      rw [hl]
      simp

theorem ThreadTable.compact_spec (h : Represents s m) (hfuel : s.tbl.entrycount < fuel)
    (alloc : Bool) :
    ∃ s' done, s.compact fuel alloc = .ok (s', done) ∧ s'.mem.h = s.mem.h ∧ Represents s' m := by
  rw [ThreadTable.compact]
  split_ifs with hsmall
  · obtain ⟨r, hr, hspec⟩ := hashtableExpand_spec h hfuel alloc false
    rw [hr]
    cases r with
    | none => exact ⟨s, false, rfl, rfl, h⟩
    | some s' =>
      obtain ⟨h', hh⟩ := hspec s' rfl
      exact ⟨s', true, rfl, hh, h'⟩
  · exact ⟨s, true, rfl, rfl, h⟩

/-- The removal of a region of the map removes its key, also if the table cannot shrink. -/
theorem hashtableRemove_spec (h : Represents s m) (hfuel : s.tbl.entrycount < fuel) (alloc : Bool)
    (hz : m z = some a) :
    ∃ s' done, hashtableRemove fuel alloc s z = .ok (s', done) ∧ s'.mem.h = s.mem.h ∧
      Represents s' (update m z none) := by
  obtain ⟨h1, hmem, hcount, hcache⟩ := h.invalidate hz
  rw [← hcount] at hfuel
  obtain ⟨bs, hbs⟩ := h1.buckets
  obtain ⟨l1, l2, hl, hfind⟩ := h1.find_eq hbs hz hfuel
  obtain ⟨h2, hh, hcount2⟩ := h1.unlink hz hcache hbs hl
  have hfuel2 := (hcount2.trans_le (Nat.sub_le _ 1)).trans_lt hfuel
  obtain ⟨s', done, hrun, hh', h'⟩ := ThreadTable.compact_spec h2 hfuel2 alloc
  refine ⟨s', done, ?_, ?_, h'⟩
  · rw [hashtableRemove]
    simp only [hfind]
    exact hrun
  · rw [hh', hh, hmem]

end Spec

end ConcurrentCyclone.Runtime
