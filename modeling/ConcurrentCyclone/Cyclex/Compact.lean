import ConcurrentCyclone.Comb.Rows
import ConcurrentCyclone.Cyclex.Automata

/-!
# Packing the automaton's tables

`tools/cyclex/compact.cyc`: the moves of all shift states go into one pair of arrays, `trans` for
the next state and `check` for the state that the entry belongs to, with `-1` in `check` where
nothing is stored. A state stores only the moves that differ from its most frequent one, at the
first offset where the cells it needs are free; the arrays grow while the offset is searched.

Everything from `last_used` on is free, which is a field of `Packing`: it is why the search ends and
why a growing array may forget what lies beyond. The cells of a packing are the shared table of
`Comb`, in which placing a row is `Comb.put` (`cells_placeRow`), and what one step of the loop over
the states does to the tables is `Packed.step`.
-/

set_option autoImplicit false

namespace ConcurrentCyclone.Cyclex

/-- `struct Lex_tables`. -/
structure LexTables where
  base : Array Int
  backtrk : Array Int
  defaultX : Array Int
  trans : Array Int
  check : Array Int

/-- The loop of `most_frequent_elt`, with the table of frequencies so far. -/
def mostFrequentLoop (freq : Int → Nat) (maxFreq : Nat) (mostFreq : Int) : List Int → Int
  | [] => mostFreq
  | e :: v =>
    let f := freq e + 1
    let freq := Function.update freq e f
    if f > maxFreq then mostFrequentLoop freq f e v else mostFrequentLoop freq maxFreq mostFreq v

/-- `most_frequent_elt`. -/
def mostFrequentElt (v : List Int) : Int := mostFrequentLoop (fun _ => 0) 0 0 v

/-- `non_default_elements`, on an array of 257 elements. -/
def nonDefaultElements (dflt : Int) (v : Symbol → Int) : List (Symbol × Int) :=
  ((List.finRange 257).map fun i => (i, v i)).filter fun e => e.2 ≠ dflt

/-- The arrays `trans` and `check` with `last_used`: everything from there on is free. -/
structure Packing where
  trans : Array Int
  check : Array Int
  lastUsed : Nat
  size_check : check.size = trans.size
  size_pos : 0 < trans.size
  used_le : lastUsed ≤ trans.size
  free : ∀ j (h : j < check.size), lastUsed ≤ j → check[j] = -1

namespace Packing

/-- The arrays as `compact_tables` allocates them. -/
def start : Packing where
  trans := Array.replicate 1024 0
  check := Array.replicate 1024 (-1)
  lastUsed := 0
  size_check := by rw [Array.size_replicate, Array.size_replicate]
  size_pos := by rw [Array.size_replicate]; decide
  used_le := Nat.zero_le _
  free := by
    intro j h _
    exact Array.getElem_replicate ..

/-- `grow_transitions`; what is copied lies within the arrays (`used_le`). -/
def growTransitions (t : Packing) : Packing where
  trans := Array.ofFn fun i : Fin (2 * t.trans.size) =>
    if i.val < t.lastUsed then t.trans.getD i.val 0 else 0
  check := Array.ofFn fun i : Fin (2 * t.trans.size) =>
    if i.val < t.lastUsed then t.check.getD i.val (-1) else -1
  lastUsed := t.lastUsed
  size_check := by rw [Array.size_ofFn, Array.size_ofFn]
  size_pos := by
    rw [Array.size_ofFn]
    exact Nat.mul_pos (by decide) t.size_pos
  used_le := by
    have := t.used_le
    rw [Array.size_ofFn]
    omega
  free := by
    intro j h hj
    rw [Array.getElem_ofFn]
    exact if_neg (Nat.not_lt.2 hj)

theorem size_growTransitions (t : Packing) :
    t.growTransitions.trans.size = 2 * t.trans.size := Array.size_ofFn

/-- The loop of `pack_from` that grows the arrays to at least `need` cells. -/
def growTo (t : Packing) (need : Nat) : Packing :=
  if need ≤ t.trans.size then t else growTo t.growTransitions need
  termination_by need - t.trans.size
  decreasing_by
    have := t.size_pos
    rw [size_growTransitions]
    omega

theorem le_size_growTo (t : Packing) (need : Nat) : need ≤ (t.growTo need).trans.size := by
  fun_induction growTo t need with
  | case1 t h => exact h
  | case2 t h ih => exact ih

@[simp]
theorem lastUsed_growTo (t : Packing) (need : Nat) : (t.growTo need).lastUsed = t.lastUsed := by
  fun_induction growTo t need with
  | case1 t h => rfl
  | case2 t h ih => exact ih

theorem lt_lastUsed {t : Packing} {j : Nat} (h : j < t.check.size) (ht : t.check[j] ≠ -1) :
    j < t.lastUsed := by
  by_contra hlt
  exact ht (t.free j h (Nat.not_lt.1 hlt))

end Packing

mutual

/-- `pack_from`. -/
def packFrom (nondef : List (Symbol × Int)) (b : Nat) (t : Packing) : Nat × Packing :=
  tryPack nondef nondef b (t.growTo (b + 257)) (t.le_size_growTo (b + 257))
  termination_by (t.lastUsed - b, 1, 0)
  decreasing_by
    rw [Packing.lastUsed_growTo]
    exact Prod.Lex.right _ (Prod.Lex.left _ _ Nat.one_pos)

/-- `try_pack`; the arrays reach far enough for every symbol. -/
def tryPack (nondef rem : List (Symbol × Int)) (b : Nat) (t : Packing)
    (h : b + 257 ≤ t.trans.size) : Nat × Packing :=
  match rem with
  | [] => (b, t)
  | (pos, _) :: rem2 =>
    have hpos : b + pos.val < t.check.size := by
      rw [t.size_check]
      omega
    if hfree : t.check[b + pos.val] = -1 then tryPack nondef rem2 b t h
    else packFrom nondef (b + 1) t
  termination_by (t.lastUsed - b, 0, rem.length)
  decreasing_by
    · exact Prod.Lex.right _ (Prod.Lex.right _ (Nat.lt_succ_self _))
    · have hlt := Packing.lt_lastUsed hpos hfree
      exact Prod.Lex.left _ _ (by omega)

end

/-- The arrays `trans` and `check` as a shared table of rows. -/
def cellsOf (a : Array Int × Array Int) : Comb.Cells Int Int := fun j =>
  if a.2.getD j (-1) = -1 then none else some (a.2.getD j (-1), a.1.getD j 0)

/-- The cells of a packing. -/
def Packing.cells (t : Packing) : Comb.Cells Int Int := cellsOf (t.trans, t.check)

/-- The row that is stored for a state. -/
def rowOf (nondef : List (Symbol × Int)) : Comb.Row Int := nondef.map fun e => (e.1.val, e.2)

namespace Packing

theorem check_eq_free {t : Packing} {j : Nat} (h : t.lastUsed ≤ j) : t.check.getD j (-1) = -1 := by
  rw [Array.getD_eq_getD_getElem?]
  by_cases hj : j < t.check.size
  · rw [Array.getElem?_eq_getElem hj]
    exact t.free j hj h
  · rw [Array.getElem?_eq_none (Nat.not_lt.1 hj)]
    rfl

theorem cells_growTransitions (t : Packing) : t.growTransitions.cells = t.cells := by
  funext j
  by_cases hj : j < t.lastUsed
  · have hsize : j < 2 * t.trans.size := by
      have := t.used_le
      omega
    simp only [cells, cellsOf, growTransitions, Array.getD_eq_getD_getElem?, Array.getElem?_ofFn,
      hsize, dif_pos, hj, if_true, Option.getD_some]
  · have hnew : t.growTransitions.check.getD j (-1) = -1 :=
      check_eq_free (t := t.growTransitions) (Nat.not_lt.1 hj)
    rw [cells, cells, cellsOf, cellsOf, if_pos hnew, if_pos (check_eq_free (Nat.not_lt.1 hj))]

theorem cells_growTo (t : Packing) (need : Nat) : (t.growTo need).cells = t.cells := by
  fun_induction growTo t need with
  | case1 t h => rfl
  | case2 t h ih => rw [ih, cells_growTransitions]

end Packing

/-- An offset at which the row fits, in arrays that reach far enough and hold what they held. -/
structure Found (nondef : List (Symbol × Int)) (t : Packing) (r : Nat × Packing) : Prop where
  cells : r.2.cells = t.cells
  lastUsed : r.2.lastUsed = t.lastUsed
  size : r.1 + 257 ≤ r.2.trans.size
  fits : Comb.Fits t.cells r.1 (rowOf nondef)

variable {t : Packing} {j i : Nat} {stateV : List Automata}

variable {nondef : List (Symbol × Int)} {base stateNum : Nat} {a : Array Int × Array Int}

theorem Found.of_growTo {need : Nat}
    {r : Nat × Packing} (h : Found nondef (t.growTo need) r) : Found nondef t r :=
  ⟨h.cells.trans (t.cells_growTo need), h.lastUsed.trans (t.lastUsed_growTo need), h.size,
    t.cells_growTo need ▸ h.fits⟩

theorem packFrom_found (nondef : List (Symbol × Int)) (b : Nat) (t : Packing) :
    Found nondef t (packFrom nondef b t) := by
  -- in `try_pack` the cells of the entries before `rem` have been found free
  refine packFrom.induct nondef (fun b t => Found nondef t (packFrom nondef b t))
    (fun rem b t h => (∀ e ∈ nondef, e ∈ rem ∨ t.cells (b + e.1.val) = none) →
      Found nondef t (tryPack nondef rem b t h)) ?_ ?_ ?_ ?_ b t
  · intro b t ih
    rw [packFrom]
    exact (ih fun e he => .inl he).of_growTo
  · intro b t h hrem
    rw [tryPack]
    refine ⟨rfl, rfl, h, ?_⟩
    intro e he
    obtain ⟨f, hf, rfl⟩ := List.mem_map.1 he
    exact (hrem f hf).resolve_left List.not_mem_nil
  · intro b t h pos v rem2 hpos hfree ih hrem
    rw [tryPack, dif_pos hfree]
    refine ih fun e he => ?_
    rcases hrem e he with he | he
    · rcases List.mem_cons.1 he with rfl | he
      · right
        rw [Packing.cells, cellsOf, Array.getD_eq_getD_getElem?, Array.getElem?_eq_getElem hpos]
        exact if_pos hfree
      · exact .inl he
    · exact .inr he
  · intro b t h pos v rem2 hpos hused ih _
    rw [tryPack, dif_neg hused]
    exact ih

/-- The loop of `pack_moves` that stores a row in `trans` and `check`. -/
def storeMoves (stateNum base : Nat) : List (Symbol × Int) → Array Int × Array Int →
    Array Int × Array Int
  | [], a => a
  | (pos, v) :: nondef, a =>
    storeMoves stateNum base nondef
      (a.1.setIfInBounds (base + pos.val) v, a.2.setIfInBounds (base + pos.val) stateNum)

theorem size_storeMoves (stateNum base : Nat) (nondef : List (Symbol × Int))
    (a : Array Int × Array Int) : (storeMoves stateNum base nondef a).1.size = a.1.size ∧
      (storeMoves stateNum base nondef a).2.size = a.2.size := by
  induction nondef generalizing a with
  | nil => exact ⟨rfl, rfl⟩
  | cons e nondef ih =>
    rw [storeMoves, (ih _).1, (ih _).2]
    exact ⟨Array.size_setIfInBounds, Array.size_setIfInBounds⟩

theorem check_storeMoves_of_le (hj : base + 257 ≤ j) (stateNum : Nat)
    (nondef : List (Symbol × Int)) (a : Array Int × Array Int) :
    (storeMoves stateNum base nondef a).2[j]? = a.2[j]? := by
  induction nondef generalizing a with
  | nil => rfl
  | cons e nondef ih =>
    have hne : base + e.1.val ≠ j := by omega
    rw [storeMoves, ih]
    exact Array.getElem?_setIfInBounds_ne hne

/-- The packing once the row of `stateNum` is stored at `base`. -/
def Packing.placeRow (t : Packing) (stateNum base : Nat) (h : base + 257 ≤ t.trans.size)
    (nondef : List (Symbol × Int)) : Packing where
  trans := (storeMoves stateNum base nondef (t.trans, t.check)).1
  check := (storeMoves stateNum base nondef (t.trans, t.check)).2
  lastUsed := if base + 257 > t.lastUsed then base + 257 else t.lastUsed
  size_check := by
    rw [(size_storeMoves ..).1, (size_storeMoves ..).2]
    exact t.size_check
  size_pos := by
    rw [(size_storeMoves ..).1]
    exact t.size_pos
  used_le := by
    have := t.used_le
    rw [(size_storeMoves ..).1]
    split_ifs <;> omega
  free := by
    intro j hj hle
    have hbase : base + 257 ≤ j := by split_ifs at hle <;> omega
    have hused : t.lastUsed ≤ j := by split_ifs at hle <;> omega
    have hjt : j < t.check.size := by rwa [(size_storeMoves ..).2] at hj
    have hget := check_storeMoves_of_le hbase stateNum nondef (t.trans, t.check)
    rw [Array.getElem?_eq_getElem hj, Array.getElem?_eq_getElem hjt] at hget
    rw [Option.some.inj hget]
    exact t.free j hjt hused

/-- The code of a move in the tables. -/
def AutomataMove.code : AutomataMove → Int
  | .backtrack => -1
  | .goto n => n

/-- `pack_moves`. -/
def packMoves (stateNum : Nat) (moves : Symbol → AutomataMove) (t : Packing) :
    (Nat × Int) × Packing :=
  let movesV : Symbol → Int := fun i => (moves i).code
  let dflt := mostFrequentElt ((List.finRange 257).map movesV)
  let nondef := nonDefaultElements dflt movesV
  let r := packFrom nondef 0 t
  ((r.1, dflt), r.2.placeRow stateNum r.1 (packFrom_found nondef 0 t).size nondef)

/-- The tables while `compact_tables` runs. -/
structure Compacting where
  packing : Packing
  base : Array Int
  backtrk : Array Int
  defaultX : Array Int

/-- What is recorded of a state for backtracking; `-1` stands for nothing. -/
def AutomataTrans.code : AutomataTrans → Int
  | .noRemember => -1
  | .remember m => m

/-- The body of the loop of `compact_tables`. -/
def compactState (s : Compacting) (i : Nat) : Automata → Compacting
  | .perform m => { s with base := s.base.setIfInBounds i (-(m + 1 : Int)) }
  | .shift tr move =>
    let backtrk := match tr with
      | .noRemember => s.backtrk
      | .remember m => s.backtrk.setIfInBounds i m
    let r := packMoves i move s.packing
    { packing := r.2
      base := s.base.setIfInBounds i r.1.1
      backtrk := backtrk
      defaultX := s.defaultX.setIfInBounds i r.1.2 }

/-- The loop of `compact_tables`, from the state `i` on. -/
def compactStates (s : Compacting) (i : Nat) : List Automata → Compacting
  | [] => s
  | a :: stateV => compactStates (compactState s i a) (i + 1) stateV

/-- `compact_tables`, when it runs for the first time: `last_used` is then `0`. -/
def compactTables (stateV : List Automata) : LexTables :=
  let n := stateV.length
  let s := compactStates
    { packing := Packing.start
      base := Array.replicate n 0
      backtrk := Array.replicate n (-1)
      defaultX := Array.replicate n 0 } 0 stateV
  { base := s.base
    backtrk := s.backtrk
    defaultX := s.defaultX
    trans := s.packing.trans.take s.packing.lastUsed
    check := s.packing.check.take s.packing.lastUsed }

/-! ### What a placed row reads as -/

theorem cellsOf_set {x : Nat} {k v : Int} (h1 : x < a.1.size)
    (h2 : x < a.2.size) (hk : k ≠ -1) : cellsOf (a.1.setIfInBounds x v, a.2.setIfInBounds x k) =
      Function.update (cellsOf a) x (some (k, v)) := by
  funext j
  by_cases hj : j = x
  · subst hj
    simp [cellsOf, h1, h2, hk]
  · have hne : x ≠ j := Ne.symm hj
    rw [Function.update_of_ne hj]
    simp [cellsOf, Array.getElem?_setIfInBounds_ne hne]

theorem cellsOf_storeMoves (h1 : base + 257 ≤ a.1.size) (h2 : base + 257 ≤ a.2.size) :
    cellsOf (storeMoves stateNum base nondef a) =
      Comb.put (cellsOf a) (stateNum : Int) base (rowOf nondef) := by
  induction nondef generalizing a with
  | nil => rfl
  | cons e nondef ih =>
    have hstate : (stateNum : Int) ≠ -1 := by omega
    rw [storeMoves, ih (by simpa using h1) (by simpa using h2),
      cellsOf_set (by omega) (by omega) hstate]
    rfl

theorem cells_placeRow (t : Packing) (stateNum base : Nat) (h : base + 257 ≤ t.trans.size)
    (nondef : List (Symbol × Int)) : (t.placeRow stateNum base h nondef).cells =
      Comb.put t.cells (stateNum : Int) base (rowOf nondef) :=
  cellsOf_storeMoves h (t.size_check ▸ h)

theorem rowOf_pairwise (dflt : Int) (v : Symbol → Int) :
    (rowOf (nonDefaultElements dflt v)).Pairwise fun e f => e.1 ≠ f.1 := by
  rw [rowOf, List.pairwise_map]
  apply List.Pairwise.filter
  rw [List.pairwise_map]
  apply (List.nodup_finRange 257).imp
  intro i j hne heq
  exact hne (Fin.ext heq)

/-- What is not stored is the default. -/
theorem find?_rowOf (dflt : Int) (v : Symbol → Int) (c : Symbol) :
    (((rowOf (nonDefaultElements dflt v)).find? fun e => e.1 == c.val).map Prod.snd).getD dflt =
      v c := by
  cases hfind : (rowOf (nonDefaultElements dflt v)).find? fun e => e.1 == c.val with
  | some e =>
    have hec : e.1 = c.val := by simpa using List.find?_some hfind
    obtain ⟨f, hf, rfl⟩ := List.mem_map.1 (List.mem_of_find?_eq_some hfind)
    obtain ⟨i, -, rfl⟩ := List.mem_map.1 (List.mem_filter.1 hf).1
    have hic : i = c := Fin.ext hec
    rw [hic]
    rfl
  | none =>
    by_contra hne
    have hmem : (c.val, v c) ∈ rowOf (nonDefaultElements dflt v) := by
      refine List.mem_map.2 ⟨(c, v c), List.mem_filter.2 ⟨?_, ?_⟩, rfl⟩
      · exact List.mem_map.2 ⟨c, List.mem_finRange c, rfl⟩
      · simpa using fun h => hne h.symm
    exact List.find?_eq_none.1 hfind _ hmem (by simp)

/-- What `pack_moves` does to the cells: the moves of the state are read back as they are, and the
other states' moves are not touched. -/
structure Placed (stateNum : Nat) (moves : Symbol → AutomataMove) (t : Packing)
    (r : (Nat × Int) × Packing) : Prop where
  size : r.1.1 + 257 ≤ r.2.lastUsed
  lastUsed_le : t.lastUsed ≤ r.2.lastUsed
  self : ∀ c : Symbol, Comb.entry r.2.cells (stateNum : Int) r.1.1 r.1.2 c = (moves c).code
  other : ∀ j : Int, j ≠ stateNum → ∀ b d c,
    Comb.entry r.2.cells j b d c = Comb.entry t.cells j b d c
  owned : ∀ j : Int, j ≠ stateNum → ∀ x v, r.2.cells x = some (j, v) → t.cells x = some (j, v)

theorem packMoves_placed
    (hnew : ∀ x v, t.cells x ≠ some ((stateNum : Int), v)) (moves : Symbol → AutomataMove) :
    Placed stateNum moves t (packMoves stateNum moves t) := by
  let movesV : Symbol → Int := fun i => (moves i).code
  let dflt := mostFrequentElt ((List.finRange 257).map movesV)
  let nondef := nonDefaultElements dflt movesV
  have hfound := packFrom_found nondef 0 t
  have hcells : (packMoves stateNum moves t).2.cells =
      Comb.put t.cells (stateNum : Int) (packFrom nondef 0 t).1 (rowOf nondef) := by
    rw [← hfound.cells]
    exact cells_placeRow _ stateNum _ hfound.size nondef
  have hused : (packMoves stateNum moves t).2.lastUsed =
      if (packFrom nondef 0 t).1 + 257 > t.lastUsed then (packFrom nondef 0 t).1 + 257
      else t.lastUsed := by
    rw [← hfound.lastUsed]
    rfl
  refine ⟨?_, ?_, ?_, ?_, ?_⟩
  · rw [hused]
    change (packFrom nondef 0 t).1 + 257 ≤ _
    split_ifs <;> omega
  · rw [hused]
    split_ifs <;> omega
  · intro c
    rw [hcells]
    exact (Comb.entry_put_self (rowOf_pairwise dflt movesV) hnew dflt c).trans
      (find?_rowOf dflt movesV c)
  · intro j hj b d c
    rw [hcells]
    exact Comb.entry_put_other hfound.fits hj b d c
  · intro j hj x v hx
    rw [hcells] at hx
    rcases Comb.put_cases (rowOf nondef) x with h | ⟨w, h⟩
    · rwa [h] at hx
    · rw [h] at hx
      injection hx with hx
      exact absurd (congrArg Prod.fst hx).symm hj

/-! ### The loop over the states -/

/-- The tables hold the state `a`, which has the number `j`. -/
def Holds (s : Compacting) (j : Nat) : Automata → Prop
  | .perform m => s.base[j]? = some (-(m + 1 : Int))
  | .shift tr move =>
    s.backtrk[j]? = some tr.code ∧
      ∃ (b : Nat) (d : Int), s.base[j]? = some (b : Int) ∧ s.defaultX[j]? = some d ∧
        b + 257 ≤ s.packing.lastUsed ∧
        ∀ c : Symbol, Comb.entry s.packing.cells (j : Int) b d c = (move c).code

/-- The tables of `n` states, of which the first `i` have been entered. -/
structure Packed (stateV : List Automata) (i : Nat) (s : Compacting) : Prop where
  base_size : s.base.size = stateV.length
  backtrk_size : s.backtrk.size = stateV.length
  default_size : s.defaultX.size = stateV.length
  done : ∀ j a, j < i → stateV[j]? = some a → Holds s j a
  rest : ∀ j, i ≤ j → j < stateV.length → s.backtrk[j]? = some (-1)
  fresh : ∀ j : Nat, i ≤ j → ∀ x v, s.packing.cells x ≠ some ((j : Int), v)

theorem packed_start (stateV : List Automata) : Packed stateV 0
      { packing := Packing.start
        base := Array.replicate stateV.length 0
        backtrk := Array.replicate stateV.length (-1)
        defaultX := Array.replicate stateV.length 0 } := by
  refine ⟨Array.size_replicate, Array.size_replicate, Array.size_replicate, ?_, ?_, ?_⟩
  · intro j a hj
    exact absurd hj (Nat.not_lt_zero j)
  · intro j _ hj
    rw [Array.getElem?_replicate, if_pos hj]
  · intro j _ x v h
    have hfree : Packing.start.check.getD x (-1) = -1 := Packing.check_eq_free (Nat.zero_le x)
    rw [Packing.cells, cellsOf, if_pos hfree] at h
    cases h

variable {s : Compacting}

/-- What a table holds of the state `j` depends on that state's entries only. -/
theorem Holds.congr {s' : Compacting} {a : Automata} (h : Holds s j a)
    (hbase : s'.base[j]? = s.base[j]?) (hback : s'.backtrk[j]? = s.backtrk[j]?)
    (hdef : s'.defaultX[j]? = s.defaultX[j]?) (hused : s.packing.lastUsed ≤ s'.packing.lastUsed)
    (hentry : ∀ b d c, Comb.entry s'.packing.cells (j : Int) b d c =
      Comb.entry s.packing.cells (j : Int) b d c) :
    Holds s' j a := by
  cases a with
  | perform m => exact hbase.trans h
  | shift tr move =>
    obtain ⟨hb, b, d, hbd, hdd, hle, hmove⟩ := h
    refine ⟨hback.trans hb, b, d, hbase.trans hbd, hdef.trans hdd, hle.trans hused, ?_⟩
    intro c
    rw [hentry]
    exact hmove c

/-- A state that performs an action. -/
theorem Packed.perform {m : Nat} (h : Packed stateV i s) (hi : stateV[i]? = some (.perform m)) :
    Packed stateV (i + 1) (compactState s i (.perform m)) := by
  have hlt : i < stateV.length := (List.getElem?_eq_some_iff.1 hi).1
  refine ⟨?_, h.backtrk_size, h.default_size, ?_, ?_, ?_⟩
  · exact (Array.size_setIfInBounds).trans h.base_size
  · intro j a hj ha
    by_cases hji : j = i
    · subst hji
      rw [hi] at ha
      cases ha
      exact Array.getElem?_setIfInBounds_self_of_lt (h.base_size ▸ hlt)
    · have hbase : (compactState s i (.perform m)).base[j]? = s.base[j]? :=
        Array.getElem?_setIfInBounds_ne (Ne.symm hji)
      exact (h.done j a (by omega) ha).congr hbase rfl rfl (Nat.le_refl _) fun _ _ _ => rfl
  · intro j hj hlen
    exact h.rest j (by omega) hlen
  · intro j hj
    exact h.fresh j (by omega)

/-- A state that shifts. -/
theorem Packed.shift {tr : AutomataTrans} {move : Symbol → AutomataMove} (h : Packed stateV i s)
    (hi : stateV[i]? = some (.shift tr move)) :
    Packed stateV (i + 1) (compactState s i (.shift tr move)) := by
  have hlt : i < stateV.length := (List.getElem?_eq_some_iff.1 hi).1
  have hplaced := packMoves_placed (h.fresh i (Nat.le_refl i)) move
  have hback_size : (compactState s i (.shift tr move)).backtrk.size = stateV.length := by
    cases tr with
    | noRemember => exact h.backtrk_size
    | remember m => exact Array.size_setIfInBounds.trans h.backtrk_size
  have hback_ne : ∀ j, j ≠ i →
      (compactState s i (.shift tr move)).backtrk[j]? = s.backtrk[j]? := by
    intro j hji
    cases tr with
    | noRemember => rfl
    | remember m => exact Array.getElem?_setIfInBounds_ne (Ne.symm hji)
  have hback_self : (compactState s i (.shift tr move)).backtrk[i]? = some tr.code := by
    cases tr with
    | noRemember => exact h.rest i (Nat.le_refl i) hlt
    | remember m => exact Array.getElem?_setIfInBounds_self_of_lt (h.backtrk_size ▸ hlt)
  refine ⟨?_, hback_size, ?_, ?_, ?_, ?_⟩
  · exact Array.size_setIfInBounds.trans h.base_size
  · exact Array.size_setIfInBounds.trans h.default_size
  · intro j a hj ha
    by_cases hji : j = i
    · subst hji
      rw [hi] at ha
      cases ha
      refine ⟨hback_self, (packMoves j move s.packing).1.1, (packMoves j move s.packing).1.2, ?_,
        ?_, hplaced.size, hplaced.self⟩
      · exact Array.getElem?_setIfInBounds_self_of_lt (h.base_size ▸ hlt)
      · exact Array.getElem?_setIfInBounds_self_of_lt (h.default_size ▸ hlt)
    · apply (h.done j a (by omega) ha).congr _ (hback_ne j hji) _ hplaced.lastUsed_le
      · intro b d c
        exact hplaced.other j (by omega) b d c
      · exact Array.getElem?_setIfInBounds_ne (Ne.symm hji)
      · exact Array.getElem?_setIfInBounds_ne (Ne.symm hji)
  · intro j hj hlen
    rw [hback_ne j (by omega)]
    exact h.rest j (by omega) hlen
  · intro j hj x v hx
    exact h.fresh j (by omega) x v (hplaced.owned j (by omega) x v hx)

theorem Packed.run (h : Packed stateV i s) (rest : List Automata) (hrest : stateV.drop i = rest) :
    Packed stateV (i + rest.length) (compactStates s i rest) := by
  induction rest generalizing s i with
  | nil => exact h
  | cons a rest ih =>
    have hi : stateV[i]? = some a := by
      rw [← List.head?_drop, hrest]
      rfl
    have hstep : Packed stateV (i + 1) (compactState s i a) := by
      cases a with
      | perform m => exact h.perform hi
      | shift tr move => exact h.shift hi
    have hdrop : stateV.drop (i + 1) = rest := by
      rw [← List.drop_drop, hrest]
      rfl
    rw [List.length_cons, Nat.add_comm rest.length, ← Nat.add_assoc]
    exact ih hstep hdrop

/-! ### The packed tables -/

/-- A move as the engine reads it: a negative entry is no move. -/
def decodeMove (z : Int) : AutomataMove := if z < 0 then .backtrack else .goto z.toNat

theorem decodeMove_code (m : AutomataMove) : decodeMove m.code = m := by
  cases m with
  | backtrack => rfl
  | goto n =>
    have hn : ¬ (n : Int) < 0 := by omega
    exact (if_neg hn).trans (by rw [AutomataMove.code, Int.toNat_natCast])

/-- The tables give the state `a`, which has the number `i`: a state that performs an action by its
base, and a state that shifts by what it remembers and, for every symbol `c`, by the cell at
`base + c` if that cell is its own and by its default otherwise. -/
def LexTables.Gives (t : LexTables) (i : Nat) : Automata → Prop
  | .perform m => t.base[i]? = some (-(m + 1 : Int))
  | .shift tr move =>
    t.backtrk[i]? = some tr.code ∧
      ∃ (b : Nat) (d : Int), t.base[i]? = some (b : Int) ∧ t.defaultX[i]? = some d ∧
        ∀ c : Symbol, ∃ v k : Int, t.trans[b + c.val]? = some v ∧ t.check[b + c.val]? = some k ∧
          decodeMove (if k = i then v else d) = move c

theorem getElem?_take {a : Array Int} {n : Nat} (hn : j < n) (hj : j < a.size) :
    (a.take n)[j]? = some a[j] := by
  rw [Array.getElem?_extract, if_pos (by omega)]
  simp [hj]

/-- An entry of a row is read from the arrays as the engine reads it. -/
theorem exists_cell {b : Nat} {d : Int} (hb : b + 257 ≤ t.lastUsed) (c : Symbol) :
    ∃ v k : Int, (t.trans.take t.lastUsed)[b + c.val]? = some v ∧
      (t.check.take t.lastUsed)[b + c.val]? = some k ∧
      Comb.entry t.cells (i : Int) b d c = if k = i then v else d := by
  have hlt : b + c.val < t.lastUsed := by omega
  have htrans : b + c.val < t.trans.size := Nat.lt_of_lt_of_le hlt t.used_le
  have hcheck : b + c.val < t.check.size := t.size_check ▸ htrans
  refine ⟨t.trans[b + c.val], t.check[b + c.val], ?_, ?_, ?_⟩
  · exact getElem?_take hlt htrans
  · exact getElem?_take hlt hcheck
  · have hi : (-1 : Int) ≠ i := by omega
    rw [Comb.entry, Packing.cells, cellsOf, Array.getD_eq_getD_getElem?,
      Array.getD_eq_getD_getElem?, Array.getElem?_eq_getElem htrans,
      Array.getElem?_eq_getElem hcheck]
    simp only [Option.getD_some]
    by_cases hfree : t.check[b + c.val] = -1
    · rw [hfree]
      exact (if_neg hi).symm
    · rw [if_neg hfree]

/-- The packed tables give back every state of the automaton. -/
theorem compactTables_gives (stateV : List Automata) (i : Fin stateV.length) :
    (compactTables stateV).Gives i stateV[i] := by
  have hpacked := (packed_start stateV).run stateV rfl
  rw [Nat.zero_add] at hpacked
  have hdone := hpacked.done i stateV[i] i.isLt (List.getElem?_eq_getElem i.isLt)
  cases ha : stateV[i] with
  | perform m =>
    rw [ha] at hdone
    exact hdone
  | shift tr move =>
    rw [ha] at hdone
    obtain ⟨hback, b, d, hbase, hdef, hused, hmove⟩ := hdone
    refine ⟨hback, b, d, hbase, hdef, ?_⟩
    intro c
    obtain ⟨v, k, hv, hk, hentry⟩ := exists_cell (i := i) (d := d) hused c
    refine ⟨v, k, hv, hk, ?_⟩
    rw [← hentry, hmove c, decodeMove_code]

end ConcurrentCyclone.Cyclex
