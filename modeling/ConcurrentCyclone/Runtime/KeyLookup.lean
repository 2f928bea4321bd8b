import ConcurrentCyclone.Runtime.KeyTable

/-!
# Looking up the key of a region

A run of insertions, removals and searches on the key table of one thread is answered as by a finite
map (`refinesMap`). The runtime makes such runs on the tables of all threads: `_new_xregion` inserts
the key of a new region, `__treecopy` inserts the keys of a new thread, `__xregion_refcnt` removes a
key (`lib/runtime_memory.c`, `lib/runtime_stack.c`). A region that only the thread that created it
has used stores the key of this thread (`single_thread_key`), and `get_tkey` takes that one without
a search. The two keys are the same, since the stored key is cleared before another thread gets a
key (`KeySystem.Inv`).
-/

set_option autoImplicit false

namespace ConcurrentCyclone.Runtime

open Function Memory Transition

/-! ## Runs on one table -/

/-- Operations on a table; `alloc` says whether there is memory for a table of another size. -/
inductive TableOp where
  /-- `tkey->h = z; hinsert(tkey)`. -/
  | insert (tkey : KeyAddr) (z : Rid) (alloc : Bool)
  | remove (z : Rid) (alloc : Bool)
  | search (z : Rid)
  deriving DecidableEq

/-- Results of the operations. -/
inductive TableAnswer where
  | done (ok : Bool)
  | found (tkey : KeyAddr)
  deriving DecidableEq

/-- Set the region of a key. -/
def ThreadTable.setRegion (s : ThreadTable) (tkey : KeyAddr) (z : Rid) : ThreadTable :=
  { s with mem := { s.mem with h := update s.mem.h tkey z } }

/-- An operation on the table. -/
def ThreadTable.exec (fuel : Nat) (s : ThreadTable) :
    TableOp → Except TableStop (ThreadTable × TableAnswer)
  | .insert tkey z alloc =>
    (hashtableInsert fuel alloc (s.setRegion tkey z) tkey).map fun x => (x.1, .done x.2)
  | .remove z alloc => (hashtableRemove fuel alloc s z).map fun x => (x.1, .done x.2)
  | .search z => (hashtableSearch fuel s z).map fun x => (x.1, .found x.2)

/-- A key for a new region is inserted, and a region with a key is removed or searched. -/
def KeyMap.Admits (m : KeyMap) : TableOp → Prop
  | .insert tkey z _ => m z = none ∧ ∀ z', m z' ≠ some tkey
  | .remove z _ | .search z => m z ≠ none

/-- The answer is the one of the map. Only an insertion into a table that cannot be made larger may
fail. -/
def KeyMap.Answered (m : KeyMap) (s : ThreadTable) : TableOp → TableAnswer → Prop
  | .insert _ _ alloc, ans => ans = .done true ∨ ans = .done false ∧ s.Stuck alloc
  | .remove _ _, ans => ∃ ok, ans = .done ok
  | .search z, ans => ∃ a, m z = some a ∧ ans = .found a

/-- The map after an operation. -/
def KeyMap.after (m : KeyMap) : TableOp → TableAnswer → KeyMap
  | .insert tkey z _, .done true => update m z (some tkey)
  | .remove z _, _ => update m z none
  | _, _ => m

/-- A key is in at most one slot of the cache, and at one position of one bucket. -/
def ThreadTable.KeysOnce (s : ThreadTable) : Prop :=
  (∀ c c' a, s.tbl.cache c = some a → s.tbl.cache c' = some a → c = c') ∧
    ∀ i j n n' a, nodeAt s.mem.next (s.tbl.table i) n = some a →
      nodeAt s.mem.next (s.tbl.table j) n' = some a → i = j ∧ n = n'

/-- Every operation of the run returns and is answered as by the map, up to an operation that is not
admitted. -/
def RefinesMap (fuel : Nat) : ThreadTable → KeyMap → List TableOp → Prop
  | _, _, [] => True
  | s, m, op :: ops =>
    m.Admits op → ∃ s' ans, s.exec fuel op = .ok (s', ans) ∧ m.Answered s op ans ∧
      s'.KeysOnce ∧ RefinesMap fuel s' (m.after op ans) ops

section Table

variable {s s' : ThreadTable} {m m' : KeyMap} {z : Rid} {a : KeyAddr} {fuel : Nat}

section

variable (h : Represents s m)

include h

theorem Represents.keysOnce : s.KeysOnce := by
  obtain ⟨bs, hbs⟩ := h.buckets
  exact ⟨h.cached_once, fun i j n n' a => hbs.1.position_unique⟩

/-- The region of a key that is not in the map may be set. -/
theorem Represents.setRegion (hnew : ∀ z', m z' ≠ some a) (z : Rid) :
    Represents (s.setRegion a z) m := by
  have hother : ∀ b ≠ a, (s.setRegion a z).mem.h b = s.mem.h b := fun b hb =>
    update_of_ne hb _ _
  have hin : ∀ b, (s.setRegion a z).mem.In m b ↔ s.mem.In m b := by
    intro b
    rcases eq_or_ne b a with rfl | hb
    · exact iff_of_false (hnew _) (hnew _)
    · rw [KeyMem.In, hother b hb, KeyMem.In]
  have hsame : ∀ b, s.mem.In m b → (s.setRegion a z).mem.h b = s.mem.h b := by
    intro b hb
    refine hother b ?_
    rintro rfl
    exact hnew _ hb
  obtain ⟨bs, hbs⟩ := h.buckets
  obtain ⟨keys, hkeys, hcard⟩ := h.count
  refine { h with
    buckets := ⟨bs, hbs.1, fun i b => ?_⟩
    region := fun z' b hb => ?_
    count := ⟨keys, fun b => (hkeys b).trans (hin b).symm, hcard⟩
    cached := fun c b hb => (hin b).2 (h.cached c b hb) }
  · rw [hbs.2, hin]
    refine and_congr_right fun hb => ?_
    rw [hsame b hb]
    rfl
  · have hregion := h.region z' b hb
    rw [hsame b (KeyMem.in_of_eq hregion hb), hregion]

/-- With one more key the table counts at most one more. -/
theorem Represents.entrycount_le (h' : Represents s' m') (hh : s'.mem.h = s.mem.h)
    (hkeys : ∀ b, s.mem.In m' b → s.mem.In m b ∨ b = a) :
    s'.tbl.entrycount ≤ s.tbl.entrycount + 1 := by
  obtain ⟨keys, hin, hcard⟩ := h.count
  obtain ⟨keys', hin', hcard'⟩ := h'.count
  rw [← hcard, ← hcard']
  refine (Finset.card_le_card fun b hb => ?_).trans (Finset.card_insert_le a keys)
  have hb' := (hin' b).1 hb
  rw [KeyMem.In, hh] at hb'
  rcases hkeys b hb' with hb | hb
  · exact Finset.mem_insert_of_mem ((hin b).2 hb)
  · exact hb ▸ Finset.mem_insert_self b keys

/-- One operation is answered as by the map. -/
theorem Represents.exec (hfuel : s.tbl.entrycount < fuel) {op : TableOp}
    (hop : m.Admits op) :
    ∃ s' ans, s.exec fuel op = .ok (s', ans) ∧ m.Answered s op ans ∧
      Represents s' (m.after op ans) ∧ s'.tbl.entrycount ≤ s.tbl.entrycount + 1 := by
  cases op with
  | insert tkey z alloc =>
    obtain ⟨hz, hnew⟩ := hop
    have hset := h.setRegion hnew z
    have hregion : (s.setRegion tkey z).mem.h tkey = z := update_self ..
    have hz' : m ((s.setRegion tkey z).mem.h tkey) = none := by rw [hregion]; exact hz
    obtain ⟨s', done, hrun, hh, hfail, h'⟩ := hashtableInsert_spec hset hfuel alloc hz'
    have hadded := KeyMem.in_update hz'
    rw [hregion] at h' hadded
    refine ⟨s', .done done, by rw [ThreadTable.exec, hrun]; rfl, ?_, ?_, ?_⟩
    · cases done with
      | true => exact .inl rfl
      | false => exact .inr ⟨rfl, hfail rfl⟩
    · cases done <;> exact h'
    · have hcount := hset.entrycount_le (a := tkey) h' hh fun b hb => by
        cases done with
        | true => exact (hadded b).1 hb
        | false => exact .inl hb
      exact hcount
  | remove z alloc =>
    obtain ⟨a, hz⟩ := Option.ne_none_iff_exists'.1 hop
    obtain ⟨s', done, hrun, hh, h'⟩ := hashtableRemove_spec h hfuel alloc hz
    refine ⟨s', .done done, by rw [ThreadTable.exec, hrun]; rfl, ⟨done, rfl⟩, h', ?_⟩
    refine h.entrycount_le (a := a) h' hh fun b hb => .inl ?_
    exact ((KeyMem.in_remove (h.region z a hz) hz b).1 hb).1
  | search z =>
    obtain ⟨a, hz⟩ := Option.ne_none_iff_exists'.1 hop
    obtain ⟨s', hrun, hh, h'⟩ := hashtableSearch_spec h hz hfuel
    exact ⟨s', .found a, by rw [ThreadTable.exec, hrun]; rfl, ⟨a, hz, rfl⟩, h',
      h.entrycount_le (a := a) h' hh fun _ => .inl⟩

/-- A run on a table that stands for a map is answered as by the map. -/
theorem refinesMap {ops : List TableOp}
    (hfuel : s.tbl.entrycount + ops.length < fuel) : RefinesMap fuel s m ops := by
  induction ops generalizing s m with
  | nil => trivial
  | cons op ops ih =>
    intro hop
    rw [List.length_cons] at hfuel
    have hfuel1 : s.tbl.entrycount < fuel := by omega
    obtain ⟨s', ans, hrun, hans, h', hcount⟩ := h.exec hfuel1 hop
    exact ⟨s', ans, hrun, hans, h'.keysOnce, ih h' (by omega)⟩

end

/-- The key is in a bucket of the table, as the key of the region. -/
def ThreadTable.Has (s : ThreadTable) (z : Rid) (a : KeyAddr) : Prop :=
  ∃ i n, nodeAt s.mem.next (s.tbl.table i) n = some a ∧ s.mem.h a = z

theorem Represents.has_iff (h : Represents s m) : s.Has z a ↔ m z = some a := by
  obtain ⟨bs, hbs⟩ := h.buckets
  constructor
  · rintro ⟨i, n, hnode, rfl⟩
    rw [(hbs.1.chain i).nodeAt_eq] at hnode
    exact ((hbs.2 i a).1 (List.mem_of_getElem? hnode)).1
  · intro hz
    have hregion := h.region z a hz
    have hmem : a ∈ bs (indexFor s.tbl.tablelength z) :=
      (hbs.2 _ a).2 ⟨KeyMem.in_of_eq hregion hz, by rw [hregion]⟩
    obtain ⟨n, hn⟩ := List.mem_iff_getElem?.1 hmem
    exact ⟨_, n, by rw [(hbs.1.chain _).nodeAt_eq, hn], hregion⟩

end Table

/-! ## The tables of all threads -/

/-- The fields of a region that the lookup uses, and whether its handle is allocated. -/
structure RegionEntry where
  allocated : Bool
  rcnt : Nat
  singleThreadKey : Option KeyAddr

/-- The regions and the tables of the threads. -/
structure KeySystem where
  regions : Rid → RegionEntry
  tables : Tid → ThreadTable

/-- More steps than a loop over a bucket can make. -/
def ThreadTable.steps (s : ThreadTable) : Nat := s.tbl.entrycount + 1

/-- `get_tkey`, in a thread. -/
def getTkey (w : KeySystem) (t : Tid) (z : Rid) : Except TableStop (KeySystem × KeyAddr) :=
  let search := (hashtableSearch (w.tables t).steps (w.tables t) z).map fun x =>
    ({ w with tables := update w.tables t x.1 }, x.2)
  if (w.regions z).rcnt = 1 then
    match (w.regions z).singleThreadKey with
    | some ret => .ok (w, ret)
    | none => search
  else search

/-- What the runtime does to the tables. -/
inductive KeyEvent where
  /-- `_new_xregion` in thread `t`: the handle `z` is allocated, its key is `tkey`. -/
  | newXregion (t : Tid) (z : Rid) (tkey : KeyAddr)
  /-- `__treecopy` in thread `t`, for one region: the new thread `u` gets the key `n`. -/
  | treecopy (t u : Tid) (z : Rid) (n : KeyAddr)
  /-- `__xregion_refcnt` in thread `t`, when its last reference to the region goes. -/
  | refcnt (t : Tid) (z : Rid)
  /-- `get_tkey` in thread `t`. -/
  | getTkey (t : Tid) (z : Rid)

/-- The region is given up by a thread: the handle is freed with the last reference. -/
def RegionEntry.unref (r : RegionEntry) : RegionEntry :=
  { r with allocated := r.allocated && r.rcnt != 1, rcnt := r.rcnt - 1 }

/-- A step of the runtime. The insertions are those that do not fail. -/
inductive KeyStep : KeySystem → KeyEvent → KeySystem → Prop
  | newXregion {w : KeySystem} {t : Tid} {z : Rid} {tkey : KeyAddr} {alloc : Bool}
      {s : ThreadTable}
      (hrun : (w.tables t).exec (w.tables t).steps (.insert tkey z alloc) = .ok (s, .done true)) :
      KeyStep w (.newXregion t z tkey)
        { regions := update w.regions z ⟨true, 1, some tkey⟩
          tables := update w.tables t s }
  | treecopy {w : KeySystem} {t u : Tid} {z : Rid} {n : KeyAddr} {alloc : Bool}
      {s : ThreadTable}
      (hrun : (w.tables u).exec (w.tables u).steps (.insert n z alloc) = .ok (s, .done true)) :
      KeyStep w (.treecopy t u z n)
        { regions := update w.regions z
            { w.regions z with rcnt := (w.regions z).rcnt + 1, singleThreadKey := none }
          tables := update w.tables u s }
  | refcnt {w : KeySystem} {t : Tid} {z : Rid} {alloc ok : Bool} {s : ThreadTable}
      (hrun : (w.tables t).exec (w.tables t).steps (.remove z alloc) = .ok (s, .done ok)) :
      KeyStep w (.refcnt t z)
        { regions := update w.regions z (w.regions z).unref
          tables := update w.tables t s }
  | getTkey {w w' : KeySystem} {t : Tid} {z : Rid} {ret : KeyAddr}
      (hrun : Runtime.getTkey w t z = .ok (w', ret)) : KeyStep w (.getTkey t z) w'

/-- A new region gets a handle that is not allocated, and a new key is in no table. A thread gives
up, passes on or looks up a region that it has a key for. -/
def KeySystem.Admits (w : KeySystem) : KeyEvent → Prop
  | .newXregion _ z tkey =>
    (w.regions z).allocated = false ∧ ∀ t z', ¬ (w.tables t).Has z' tkey
  | .treecopy t u z n =>
    (∃ a, (w.tables t).Has z a) ∧ (∀ a, ¬ (w.tables u).Has z a) ∧
      ∀ t z', ¬ (w.tables t).Has z' n
  | .refcnt t z | .getTkey t z => ∃ a, (w.tables t).Has z a

/-- At the start no region is allocated, and the tables are new. -/
structure KeySystem.Initial (w : KeySystem) : Prop where
  regions : ∀ z, (w.regions z).allocated = false
  tables : ∀ t, (w.tables t).tbl = createHashtable 25

/-- How a region stands to the maps of the threads: its reference count is the number of threads
with a key, and a stored key is the key of the only one. -/
structure RegionEntry.Agrees (r : RegionEntry) (keys : Tid → Option KeyAddr) : Prop where
  freed : r.allocated = false → ∀ t, keys t = none
  count : r.allocated = true → ∃ S : Finset Tid, (∀ t, t ∈ S ↔ keys t ≠ none) ∧ S.card = r.rcnt
  single : r.allocated = true → ∀ a, r.singleThreadKey = some a →
    ∀ t, keys t ≠ none → keys t = some a

/-- The tables stand for maps that agree with the regions. -/
def KeySystem.Inv (w : KeySystem) (maps : Tid → KeyMap) : Prop :=
  (∀ t, Represents (w.tables t) (maps t)) ∧ ∀ z, (w.regions z).Agrees fun t => maps t z

section System

variable {w w' : KeySystem} {maps : Tid → KeyMap} {r : RegionEntry} {keys : Tid → Option KeyAddr}
  {t u : Tid} {z : Rid} {a : KeyAddr}

section

variable (h : r.Agrees keys)

include h

theorem RegionEntry.Agrees.allocated (ht : keys t ≠ none) : r.allocated = true := by
  cases hr : r.allocated with
  | true => rfl
  | false => exact absurd (h.freed hr t) ht

/-- The creating thread gets the only key of a new region. -/
theorem RegionEntry.Agrees.create (hr : r.allocated = false) (t : Tid)
    (a : KeyAddr) :
    (⟨true, 1, some a⟩ : RegionEntry).Agrees (update keys t (some a)) where
  freed hfreed := by cases hfreed
  count _ := by
    refine ⟨{t}, fun u => ?_, rfl⟩
    rw [Finset.mem_singleton, update_apply]
    split_ifs with hu
    · exact iff_of_true hu (Option.some_ne_none a)
    · exact iff_of_false hu (not_not.2 (h.freed hr u))
  single _ b hb u hu := by
    cases hb
    rw [update_apply] at hu ⊢
    split_ifs at hu ⊢ with hut
    · rfl
    · exact absurd (h.freed hr u) hu

/-- The thread `u` gets a key of a region that the thread `t` has. -/
theorem RegionEntry.Agrees.share (ht : keys t ≠ none) (hu : keys u = none)
    (a : KeyAddr) :
    ({ r with rcnt := r.rcnt + 1, singleThreadKey := none } : RegionEntry).Agrees
      (update keys u (some a)) where
  freed hfreed := absurd hfreed (by simp [h.allocated ht])
  count hr := by
    obtain ⟨S, hS, hcard⟩ := h.count hr
    refine ⟨insert u S, fun v => ?_, ?_⟩
    · rw [Finset.mem_insert, update_apply, hS]
      split_ifs with hv
      · exact iff_of_true (.inl hv) (Option.some_ne_none a)
      · exact or_iff_right hv
    · rw [Finset.card_insert_of_notMem fun hmem => (hS u).1 hmem hu, hcard]
  single _ b hb := by cases hb

/-- The thread `t` gives up its key. -/
theorem RegionEntry.Agrees.unref (ht : keys t ≠ none) : r.unref.Agrees (update keys t none) := by
  have hr := h.allocated ht
  obtain ⟨S, hS, hcard⟩ := h.count hr
  have hkeys : ∀ v, update keys t none v ≠ none ↔ v ≠ t ∧ keys v ≠ none := by
    intro v
    rw [update_apply]
    split_ifs with hv
    · exact iff_of_false (not_not.2 rfl) fun hne => hne.1 hv
    · exact (and_iff_right hv).symm
  exact {
    freed := by
      intro hfreed v
      have hone : r.rcnt = 1 := by simpa [RegionEntry.unref, hr] using hfreed
      obtain ⟨x, rfl⟩ := Finset.card_eq_one.1 (hcard.trans hone)
      by_contra hne
      obtain ⟨hvt, hv⟩ := (hkeys v).1 hne
      exact hvt ((Finset.mem_singleton.1 ((hS v).2 hv)).trans
        (Finset.mem_singleton.1 ((hS t).2 ht)).symm)
    count := by
      intro _
      refine ⟨S.erase t, fun v => ?_, ?_⟩
      · rw [Finset.mem_erase, hS, hkeys]
      · rw [Finset.card_erase_of_mem ((hS t).2 ht), hcard]
        rfl
    single := by
      intro _ b hb v hv
      obtain ⟨hvt, hv⟩ := (hkeys v).1 hv
      rw [update_of_ne hvt]
      exact h.single hr b hb v hv }

end

/-- One thread changes its key for one region. -/
theorem KeySystem.Inv.change (h : w.Inv maps) {v : Option KeyAddr} {s : ThreadTable}
    (hs : Represents s (update (maps t) z v))
    (hr : r.Agrees (update (fun u => maps u z) t v)) :
    KeySystem.Inv ⟨update w.regions z r, update w.tables t s⟩
      (update maps t (update (maps t) z v)) := by
  refine ⟨forall_update₂ h.1 hs, fun z' => ?_⟩
  have hkeys : (fun u => update maps t (update (maps t) z v) u z') =
      update (fun u => maps u z') t (update (maps t) z v z') :=
    funext fun u => apply_update (fun _ m => m z') maps t _ u
  rw [hkeys]
  rcases eq_or_ne z' z with rfl | hz
  · simpa using hr
  · simpa [hz] using h.2 z'

/-- The operation of a thread on its own table. -/
theorem Represents.exec_steps {s s' : ThreadTable} {m : KeyMap} (h : Represents s m) {op : TableOp}
    {ans : TableAnswer} (hop : m.Admits op) (hrun : s.exec s.steps op = .ok (s', ans)) :
    m.Answered s op ans ∧ Represents s' (m.after op ans) := by
  obtain ⟨s'', ans', hrun', hans, h', -⟩ := h.exec (Nat.lt_succ_self _) hop
  cases hrun.symm.trans hrun'
  exact ⟨hans, h'⟩

/-- A search of a key that the thread has. -/
theorem KeySystem.Inv.search (h : w.Inv maps) (hz : maps t z = some a) :
    ∃ s, hashtableSearch (w.tables t).steps (w.tables t) z = .ok (s, a) ∧
      KeySystem.Inv { w with tables := update w.tables t s } maps := by
  obtain ⟨s, hrun, -, hs⟩ := hashtableSearch_spec (h.1 t) hz (Nat.lt_succ_self _)
  refine ⟨s, hrun, fun u => ?_, h.2⟩
  rcases eq_or_ne u t with rfl | hu
  · simpa using hs
  · simpa [hu] using h.1 u

/-- `get_tkey` returns the key that the thread has, with and without a search. -/
theorem KeySystem.Inv.getTkey (h : w.Inv maps) (hz : maps t z = some a) :
    ∃ w', Runtime.getTkey w t z = .ok (w', a) ∧ w'.Inv maps := by
  obtain ⟨s, hrun, hs⟩ := h.search hz
  have hne : maps t z ≠ none := by simp [hz]
  rw [Runtime.getTkey]
  split_ifs with hone
  · cases hsingle : (w.regions z).singleThreadKey with
    | none => exact ⟨_, by rw [hrun]; rfl, hs⟩
    | some ret =>
      have hkey := (h.2 z).single ((h.2 z).allocated (t := t) hne) ret hsingle t hne
      obtain rfl : a = ret := Option.some.inj (hz.symm.trans hkey)
      exact ⟨w, rfl, h⟩
  · exact ⟨_, by rw [hrun]; rfl, hs⟩

theorem KeySystem.Inv.step {e : KeyEvent} (h : w.Inv maps) (he : w.Admits e)
    (hstep : KeyStep w e w') : ∃ maps', w'.Inv maps' := by
  have hfresh : ∀ {n : KeyAddr}, (∀ t z', ¬ (w.tables t).Has z' n) → ∀ t z', maps t z' ≠ some n :=
    fun hn t z' hz' => hn t z' ((h.1 t).has_iff.2 hz')
  have hhas : ∀ {t z}, (∃ a, (w.tables t).Has z a) → ∃ a, maps t z = some a := by
    rintro t z ⟨a, ha⟩
    exact ⟨a, (h.1 t).has_iff.1 ha⟩
  cases hstep with
  | @newXregion t z tkey alloc s hrun =>
    obtain ⟨hz, hnew⟩ := he
    have hadmits : (maps t).Admits (.insert tkey z alloc) :=
      ⟨(h.2 z).freed hz t, hfresh hnew t⟩
    obtain ⟨-, hs⟩ := (h.1 t).exec_steps hadmits hrun
    exact ⟨_, h.change hs ((h.2 z).create hz t tkey)⟩
  | @treecopy t u z n alloc s hrun =>
    obtain ⟨ht, hu, hnew⟩ := he
    obtain ⟨a, ha⟩ := hhas ht
    have hune : maps u z = none :=
      Option.eq_none_iff_forall_ne_some.2 fun a ha => hu a ((h.1 u).has_iff.2 ha)
    have hadmits : (maps u).Admits (.insert n z alloc) := ⟨hune, hfresh hnew u⟩
    obtain ⟨-, hs⟩ := (h.1 u).exec_steps hadmits hrun
    exact ⟨_, h.change hs ((h.2 z).share (t := t) (by simp [ha]) hune n)⟩
  | @refcnt t z alloc ok s hrun =>
    obtain ⟨a, ha⟩ := hhas he
    have hadmits : (maps t).Admits (.remove z alloc) := Option.ne_none_iff_exists'.2 ⟨a, ha⟩
    obtain ⟨-, hs⟩ := (h.1 t).exec_steps hadmits hrun
    exact ⟨_, h.change hs ((h.2 z).unref (t := t) hadmits)⟩
  | getTkey hrun =>
    obtain ⟨a, ha⟩ := hhas he
    obtain ⟨w'', hrun', hinv⟩ := h.getTkey ha
    cases hrun.symm.trans hrun'
    exact ⟨maps, hinv⟩

/-- In every run the tables stand for maps that agree with the regions. -/
theorem KeySystem.inv_of_reach (h0 : w.Initial) (h : Reach KeyStep KeySystem.Admits w w') :
    ∃ maps, w'.Inv maps := by
  refine h.invariant (I := fun w => ∃ maps, w.Inv maps)
    (fun w e w' he hstep ⟨maps, hinv⟩ => hinv.step he hstep)
    ⟨fun _ _ => none, fun t => ?_, fun z => ?_⟩
  · have hrep := represents_create (w.tables t).mem
    rw [← h0.tables t] at hrep
    exact hrep
  · exact {
      freed := fun _ _ => rfl
      count := fun hr => absurd hr (by simp [h0.regions z])
      single := fun hr => absurd hr (by simp [h0.regions z]) }

end System

/-- A run of insertions for new regions, removals and searches on the table of a thread is answered
as by a finite map, and a key is never in two slots of the cache or at two positions of the buckets.
In every run of the runtime a search for a key that the thread has returns the key, and `get_tkey`
returns the same one. -/
theorem key_tables_refine_maps :
    (∀ mem ops fuel, ops.length < fuel →
      RefinesMap fuel ⟨mem, createHashtable 25⟩ (fun _ => none) ops) ∧
    ∀ w₀ w : KeySystem, w₀.Initial → Reach KeyStep KeySystem.Admits w₀ w →
      ∀ t z a, (w.tables t).Has z a → (w.tables t).KeysOnce ∧
        (∃ s, hashtableSearch (w.tables t).steps (w.tables t) z = .ok (s, a)) ∧
        ∃ w', getTkey w t z = .ok (w', a) := by
  refine ⟨fun mem ops fuel hfuel => ?_, fun w₀ w h₀ hreach t z a ha => ?_⟩
  · refine refinesMap (represents_create mem) ?_
    rw [show (createHashtable 25).entrycount = 0 from rfl, Nat.zero_add]
    exact hfuel
  · obtain ⟨maps, hinv⟩ := KeySystem.inv_of_reach h₀ hreach
    have hz := (hinv.1 t).has_iff.1 ha
    obtain ⟨s, hsearch, -⟩ := hinv.search hz
    obtain ⟨w', hget, -⟩ := hinv.getTkey hz
    exact ⟨(hinv.1 t).keysOnce, ⟨s, hsearch⟩, w', hget⟩

/-- No region is allocated, and the keys in memory are not linked. -/
def freshSystem : KeySystem where
  regions _ := ⟨false, 0, none⟩
  tables _ := ⟨⟨fun _ => none, fun _ => 0⟩, createHashtable 25⟩

theorem freshSystem_initial : freshSystem.Initial := ⟨fun _ => rfl, fun _ => rfl⟩

/-- The operations, one after the other. -/
def ThreadTable.run (fuel : Nat) (s : ThreadTable) (ops : List TableOp) :
    Except TableStop ThreadTable :=
  ops.foldlM (fun s op => (s.exec fuel op).map Prod.fst) s

/-- Insertions for `n` regions, which are at the starts of pages. -/
def newRegions (n : Nat) : List TableOp :=
  (List.range n).map fun i : Nat => .insert (5000 + 32 * (i : Int)) (4096 * (i + 1)) true

/-- The table gets more keys than it may have, the first one is looked up, and most keys are removed
again. -/
def growAndShrink : List TableOp :=
  newRegions 107 ++ .search 4096 :: (List.range 70).map fun i => .remove (4096 * (i + 1)) true

/-- The key is the first one of a bucket, or it is behind another key. -/
def ThreadTable.Linked (s : ThreadTable) (a : KeyAddr) : Prop :=
  (∃ i, s.tbl.table i = some a) ∨ ∃ b, s.mem.next b = some a

theorem linked_of_nodeAt {next : KeyAddr → Option KeyAddr} {p : Option KeyAddr} {a : KeyAddr}
    {n : Nat} (h : nodeAt next p n = some a) : p = some a ∨ ∃ b, next b = some a := by
  induction n generalizing p with
  | zero =>
    cases p with
    | none => cases h
    | some b => exact .inl h
  | succ n ih =>
    cases p with
    | none => cases h
    | some b => exact .inr ((ih h).elim (fun hb => ⟨b, hb⟩) id)

theorem ThreadTable.Has.linked {s : ThreadTable} {z : Rid} {a : KeyAddr} (h : s.Has z a) :
    s.Linked a := by
  obtain ⟨i, n, hnode, -⟩ := h
  exact (linked_of_nodeAt hnode).imp_left fun hi => ⟨i, hi⟩

/-- An insertion that does not grow the table. -/
def ThreadTable.withKey (s : ThreadTable) (tkey : KeyAddr) (z : Rid) : ThreadTable :=
  (s.setRegion tkey z).pushKey tkey

theorem ThreadTable.Linked.of_withKey {s : ThreadTable} {z : Rid} {tkey a : KeyAddr}
    (h : (s.withKey tkey z).Linked a) : a = tkey ∨ s.Linked a := by
  rcases h with ⟨i, hi⟩ | ⟨b, hb⟩
  · simp only [withKey, pushKey, HashTable.remember, setRegion, update_apply, if_true] at hi
    split_ifs at hi
    · exact .inl (Option.some.inj hi).symm
    · exact .inr (.inl ⟨i, hi⟩)
  · simp only [withKey, pushKey, setRegion, update_apply] at hb
    split_ifs at hb
    · exact .inr (.inl ⟨_, hb⟩)
    · exact .inr (.inr ⟨b, hb⟩)

/-- Thread 1 creates two regions whose keys are in the same bucket, and passes the first one to
thread 3. -/
theorem key_tables_refine_maps_growAndShrink :
    RefinesMap 200 (freshSystem.tables 1) (fun _ => none) growAndShrink ∧
    ((freshSystem.tables 1).run 200 (newRegions 107)).toOption.map (·.tbl.tablelength) = some 97 ∧
    ((freshSystem.tables 1).run 200 growAndShrink).toOption.map (·.tbl.tablelength) = some 53 ∧
    ∃ w, Reach KeyStep KeySystem.Admits freshSystem w ∧
      (w.regions 4096).singleThreadKey = none ∧ (w.tables 1).mem.next 5032 = some 5000 ∧
      (∃ w', getTkey w 1 4096 = .ok (w', 5000)) ∧ ∃ w', getTkey w 3 4096 = .ok (w', 6000) := by
  have hfresh : ∀ t a, ¬ (freshSystem.tables t).Linked a := by
    rintro t a (⟨i, hi⟩ | ⟨b, hb⟩)
    · cases hi
    · cases hb
  let s₁ := (freshSystem.tables 1).withKey 5000 4096
  let s₂ := s₁.withKey 5032 221184
  let w₁ : KeySystem := ⟨update freshSystem.regions 4096 ⟨true, 1, some 5000⟩,
    update freshSystem.tables 1 s₁⟩
  let w₂ : KeySystem := ⟨update w₁.regions 221184 ⟨true, 1, some 5032⟩, update w₁.tables 1 s₂⟩
  let w₃ : KeySystem := ⟨update w₂.regions 4096 ⟨true, 2, none⟩,
    update w₂.tables 3 ((w₂.tables 3).withKey 6000 4096)⟩
  have hlinked₁ : ∀ t a, (w₁.tables t).Linked a → a = 5000 :=
    forall_update (Q := fun s : ThreadTable => ∀ a, s.Linked a → a = 5000)
      (fun t a h => absurd h (hfresh t a)) fun a h => h.of_withKey.resolve_right (hfresh 1 a)
  have hlinked₂ : ∀ t a, (w₂.tables t).Linked a → a = 5032 ∨ a = 5000 :=
    forall_update (Q := fun s : ThreadTable => ∀ a, s.Linked a → a = 5032 ∨ a = 5000)
      (fun t a h => .inr (hlinked₁ t a h)) fun a h => h.of_withKey.imp_right (hlinked₁ 1 a)
  have hok₁ : freshSystem.Admits (.newXregion 1 4096 5000) :=
    ⟨rfl, fun t z' h => hfresh t _ h.linked⟩
  have hok₂ : w₁.Admits (.newXregion 1 221184 5032) :=
    ⟨rfl, fun t z' h => absurd (hlinked₁ t _ h.linked) (by decide)⟩
  have hok₃ : w₂.Admits (.treecopy 1 3 4096 6000) :=
    ⟨⟨5000, indexFor 53 4096, 1, by decide +kernel, rfl⟩, fun a h => hfresh 3 a h.linked,
      fun t z' h => absurd (hlinked₂ t _ h.linked) (by decide)⟩
  have hreach : Reach KeyStep KeySystem.Admits freshSystem w₃ :=
    .tail (.tail (.single ⟨_, hok₁, @KeyStep.newXregion freshSystem 1 4096 5000 true _ rfl⟩)
      ⟨_, hok₂, @KeyStep.newXregion w₁ 1 221184 5032 true _ rfl⟩)
      ⟨_, hok₃, @KeyStep.treecopy w₂ 1 3 4096 6000 true _ rfl⟩
  have hget := key_tables_refine_maps.2 freshSystem w₃ freshSystem_initial hreach
  exact ⟨key_tables_refine_maps.1 _ _ 200 (by simp [growAndShrink, newRegions]),
    by decide +kernel, by decide +kernel, w₃, hreach, rfl, by decide +kernel,
    (hget 1 4096 5000 ⟨indexFor 53 4096, 1, by decide +kernel, rfl⟩).2.2,
    (hget 3 4096 6000 ⟨indexFor 53 4096, 0, by decide +kernel, rfl⟩).2.2⟩

end ConcurrentCyclone.Runtime
