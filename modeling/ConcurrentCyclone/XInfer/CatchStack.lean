import ConcurrentCyclone.XInfer.CatchTree

/-!
# Exceptions and the handlers that catch them

For the constructors that an expression may throw, `derive_comblist` walks over the enclosing `try`
blocks from the inside and collects for each constructor the handlers that may catch it, and whether
it may stay uncaught. The first part follows the source.

An exception is caught by the first block whose tree has a handler for it; a block that throws it
again passes it on to the next one (`caughtBy`). The handler that catches an exception is then among
those of its constructor, which is marked if the exception escapes (`deriveComblist_sound`), unless
the exception gets to a block with a default handler and is thrown again by it (`passesDefault`):
`combine` forgets such constructors when it finds a default handler, and the blocks outside are not
looked at (`not_deriveComblist_sound`).
-/

set_option autoImplicit false

namespace ConcurrentCyclone.XInfer.Exn

open List (mem_cons mem_filter not_mem_nil mem_map map_cons map_map)

variable {Q T P H V : Type}

/-! ## The source -/

/-- `combined_t`: a constructor, the handlers that may catch it, and whether it may stay
uncaught. -/
structure Combined (Q H : Type) where
  q : Qvar Q
  handlers : List H
  uncaught : Bool

section Source

variable [DecidableEq Q] [DecidableEq H]

/-- `remove_duplicates` for `cmp`. The source takes the elements equal to the first one out before
it goes on; taking them out of the result gives the same list. -/
def removeDuplicates : List H → List H
  | [] => []
  | a :: l => a :: (removeDuplicates l).filter (· ≠ a)

/-- `sum_catch`, with a bound on the number of calls. -/
def sumCatchUpTo : Nat → List (Qvar Q × H) → List (Combined Q H)
  | _, [] => []
  | 0, _ => []
  | k + 1, (q, h) :: cl =>
    ⟨q, removeDuplicates ((((q, h) :: cl).filter fun c => c.1 = q).map Prod.snd), false⟩ ::
      sumCatchUpTo k (((q, h) :: cl).filter fun c => c.1 ≠ q)

/-- `sum_catch`; the list gets shorter with each call. -/
def sumCatch (cl : List (Qvar Q × H)) : List (Combined Q H) := sumCatchUpTo cl.length cl

/-- `set_nocatch_flag`. -/
def setNocatchFlag (nc : List (Qvar Q)) (c : Combined Q H) : Combined Q H :=
  if c.q ∈ nc then { c with uncaught := true } else c

/-- `combine`. -/
def combine (leaves : Leaves Q H) : List (Combined Q H) × Option H :=
  let sum := sumCatch leaves.catches
  let dflt := sum.filter fun c => c.q = .default
  let ret := sum.filter fun c => c.q ≠ .default
  match dflt.head?.bind fun c => c.handlers.head? with
  | none => (ret.map (setNocatchFlag leaves.nocatches), none)
  | some defstmt => (ret, some defstmt)

/-- The update that `comb_comb` makes. -/
def Combined.add (c new : Combined Q H) : Combined Q H :=
  if c.uncaught then
    { c with handlers := removeDuplicates (c.handlers ++ new.handlers), uncaught := new.uncaught }
  else c

/-- `comb_comb`: the first entry for the constructor is updated; without one, the new entry is added
if `any` is set. -/
def combComb (any : Bool) (comb : List (Combined Q H)) (new : Combined Q H) : List (Combined Q H) :=
  if comb.any (fun c => c.q = new.q) then update comb
  else if any then new :: comb else comb
where
  /-- The loop up to the first entry. -/
  update : List (Combined Q H) → List (Combined Q H)
    | [] => []
    | c :: comb => if c.q = new.q then c.add new :: comb else c :: update comb

/-- `defstmt_comb`. -/
def defstmtComb (dflt : H) (c : Combined Q H) : Combined Q H :=
  if c.uncaught then
    { c with handlers := removeDuplicates (dflt :: c.handlers), uncaught := false }
  else c

/-- `q2comb`. -/
def q2comb (q : Qvar Q) : Combined Q H := ⟨q, [], true⟩

/-- The loop of `derive_comblist`; the flag says that the default handler was found for `any`. -/
def deriveLoop (isExnStmt : H → Bool) (any : Bool) : List (Decision Q T P H) →
    List (Combined Q H) → Option (List (Combined Q H) × Bool)
  | [], comb => some (comb, false)
  | d :: blocks, comb =>
    (analyzeTree isExnStmt .default d 0).bind fun leaves =>
      let comb := (combine leaves).1.foldl (combComb any) comb
      match (combine leaves).2 with
      | some defstmt =>
        let comb := comb.map (defstmtComb defstmt)
        some (if any then ⟨.any, [defstmt], false⟩ :: comb else comb, any)
      | none =>
        if !any && !comb.any (·.uncaught) then some (comb, false)
        else deriveLoop isExnStmt any blocks comb

/-- `derive_comblist`. -/
def deriveComblist (isExnStmt : H → Bool) (blocks : List (Decision Q T P H)) (ql : List (Qvar Q))
    (any : Bool) : Option (List (Combined Q H)) :=
  (deriveLoop isExnStmt any blocks (ql.map q2comb)).map fun r =>
    if any && !r.2 then ⟨.any, [], true⟩ :: r.1 else r.1

end Source

/-- The handler that catches an exception, for blocks from the inside to the outside. -/
def caughtBy [DecidableEq Q] (isExnStmt : H → Bool) (con : V → Q)
    (passes : P → PatTest Q T → V → Bool) : List (Decision Q T P H) → V → Option H
  | [], _ => none
  | d :: blocks, v =>
    match d.run isExnStmt con passes 0 v with
    | .caught h => some h
    | _ => caughtBy isExnStmt con passes blocks v

/-- The exception gets to a block with a default handler, and is thrown again by it. -/
def passesDefault [DecidableEq Q] (isExnStmt : H → Bool) (con : V → Q)
    (passes : P → PatTest Q T → V → Bool) : List (Decision Q T P H) → V → Bool
  | [], _ => false
  | d :: blocks, v =>
    match d.run isExnStmt con passes 0 v with
    | .caught _ => false
    | _ => (d.defaultHandler isExnStmt).isSome || passesDefault isExnStmt con passes blocks v

/-! ## Combining the blocks -/

section Combine

variable [DecidableEq H]

variable {h : H} {l : Leaves Q H} {c : Combined Q H}

theorem mem_removeDuplicates {l : List H} : h ∈ removeDuplicates l ↔ h ∈ l := by
  induction l with
  | nil => rfl
  | cons a l ih =>
    rw [removeDuplicates, mem_cons, mem_filter, ih]
    by_cases ha : h = a
    · simp [ha]
    · simp [ha]

theorem Combined.add_q (c new : Combined Q H) : (c.add new).q = c.q := by
  unfold add
  split <;> rfl

theorem Combined.subset_add (c new : Combined Q H) : c.handlers ⊆ (c.add new).handlers := by
  intro h hh
  unfold add
  split
  · exact mem_removeDuplicates.2 (List.mem_append_left _ hh)
  · exact hh

theorem subset_foldl_add (l : List (Combined Q H)) (c : Combined Q H) :
    c.handlers ⊆ (l.foldl Combined.add c).handlers := by
  induction l generalizing c with
  | nil => exact fun _ hh => hh
  | cons n l ih => exact fun _ hh => ih (c.add n) (c.subset_add n hh)

/-- An uncaught constructor gets the handlers of the first entry. -/
theorem mem_foldl_add {n : Combined Q H} (hc : c.uncaught = true) (hh : h ∈ n.handlers)
    (l : List (Combined Q H)) : h ∈ ((n :: l).foldl Combined.add c).handlers := by
  apply subset_foldl_add l (c.add n)
  rw [Combined.add, if_pos hc]
  exact mem_removeDuplicates.2 (List.mem_append_right _ hh)

/-- It stays uncaught if all entries are flagged. -/
theorem uncaught_foldl_add (hc : c.uncaught = true) {l : List (Combined Q H)}
    (hl : ∀ n ∈ l, n.uncaught = true) : (l.foldl Combined.add c).uncaught = true := by
  induction l generalizing c with
  | nil => exact hc
  | cons n l ih =>
    apply ih _ fun m hm => hl m (.tail _ hm)
    rw [Combined.add, if_pos hc]
    exact hl n (.head _)

theorem defstmtComb_q (dflt : H) (c : Combined Q H) : (defstmtComb dflt c).q = c.q := by
  unfold defstmtComb
  split <;> rfl

theorem subset_defstmtComb (dflt : H) (c : Combined Q H) :
    c.handlers ⊆ (defstmtComb dflt c).handlers := by
  intro h hh
  unfold defstmtComb
  split
  · exact mem_removeDuplicates.2 (.tail _ hh)
  · exact hh

variable [DecidableEq Q]

theorem sumCatchUpTo_spec {k : Nat} {cl : List (Qvar Q × H)} (hk : cl.length ≤ k) :
    (∀ c ∈ sumCatchUpTo k cl, c.handlers ≠ [] ∧ ∀ h, h ∈ c.handlers ↔ (c.q, h) ∈ cl) ∧
    ∀ q h, (q, h) ∈ cl → ∃ c ∈ sumCatchUpTo k cl, c.q = q := by
  induction k generalizing cl with
  | zero =>
    obtain rfl := List.eq_nil_of_length_eq_zero (Nat.le_zero.1 hk)
    simp [sumCatchUpTo]
  | succ k ih =>
    cases cl with
    | nil => simp [sumCatchUpTo]
    | cons p cl =>
      obtain ⟨q0, h0⟩ := p
      -- the first constructor is taken out, so the rest is shorter
      have hrest : (((q0, h0) :: cl).filter fun c => c.1 ≠ q0).length ≤ k := by
        rw [List.filter_cons_of_neg (by simp)]
        exact Nat.le_trans (List.length_filter_le _ _) (Nat.le_of_succ_le_succ hk)
      obtain ⟨hspec, hexists⟩ := ih hrest
      constructor
      · intro c hc
        rcases mem_cons.1 hc with rfl | hc
        · have hhandlers : ∀ h, h ∈ removeDuplicates
              ((((q0, h0) :: cl).filter fun c => c.1 = q0).map Prod.snd) ↔
              (q0, h) ∈ (q0, h0) :: cl := by
            intro h
            simp [mem_removeDuplicates]
          exact ⟨List.ne_nil_of_mem ((hhandlers h0).2 (.head _)), hhandlers⟩
        · obtain ⟨hne, hhandlers⟩ := hspec c hc
          refine ⟨hne, fun h => ?_⟩
          -- the constructor of a later entry is not the first one
          obtain ⟨h1, hh1⟩ := List.exists_mem_of_ne_nil _ hne
          have hq : c.q ≠ q0 := by
            simpa using (mem_filter.1 ((hhandlers h1).1 hh1)).2
          rw [hhandlers h]
          simp [hq]
      · intro q h hmem
        by_cases hq : q = q0
        · exact ⟨_, .head _, hq.symm⟩
        · obtain ⟨c, hc, hcq⟩ := hexists q h (mem_filter.2 ⟨hmem, by simpa using hq⟩)
          exact ⟨c, .tail _ hc, hcq⟩

/-- The entries of `sum_catch` have the handlers of their constructor. -/
theorem sumCatch_spec (cl : List (Qvar Q × H)) :
    (∀ c ∈ sumCatch cl, c.handlers ≠ [] ∧ ∀ h, h ∈ c.handlers ↔ (c.q, h) ∈ cl) ∧
    ∀ q h, (q, h) ∈ cl → ∃ c ∈ sumCatch cl, c.q = q :=
  sumCatchUpTo_spec (Nat.le_refl _)

/-- `combine` finds the default handler. -/
theorem combine_snd {dflt : Option H}
    (hdefault : ∀ h, (.default, h) ∈ l.catches ↔ dflt = some h) : (combine l).2 = dflt := by
  obtain ⟨hspec, hexists⟩ := sumCatch_spec l.catches
  have hhead : ((sumCatch l.catches).filter fun c => c.q = .default).head?.bind
      (fun c => c.handlers.head?) = dflt := by
    rw [List.head?_filter]
    cases hfind : (sumCatch l.catches).find? fun c => c.q = .default with
    | none =>
      refine (Option.eq_none_iff_forall_ne_some.2 fun h hh => ?_).symm
      obtain ⟨c, hc, hq⟩ := hexists .default h ((hdefault h).2 hh)
      simpa [hq] using List.find?_eq_none.1 hfind c hc
    | some c =>
      have hq := List.find?_some hfind
      obtain ⟨hne, hhandlers⟩ := hspec c (List.mem_of_find?_eq_some hfind)
      obtain ⟨h, hs, hh⟩ := List.exists_cons_of_ne_nil hne
      have hin := (hhandlers h).1 (by rw [hh]; exact .head _)
      rw [of_decide_eq_true hq] at hin
      rw [Option.bind_some, hh, List.head?_cons, (hdefault h).1 hin]
  rw [combine]
  simp only [hhead]
  cases dflt with
  | none | some => rfl

omit [DecidableEq H] in
theorem setNocatchFlag_q (nc : List (Qvar Q)) (c : Combined Q H) :
    (setNocatchFlag nc c).q = c.q ∧ (setNocatchFlag nc c).handlers = c.handlers := by
  unfold setNocatchFlag
  split <;> exact ⟨rfl, rfl⟩

/-- The entries of `combine` are those of `sum_catch` for constructors, with the flag of those that
are thrown again if there is no default handler. -/
theorem mem_combine_fst : c ∈ (combine l).1 ↔ ∃ c0 ∈ sumCatch l.catches, c0.q ≠ .default ∧
      c = if (combine l).2.isNone then setNocatchFlag l.nocatches c0 else c0 := by
  have mem_ret : ∀ {c0}, c0 ∈ (sumCatch l.catches).filter (fun c => c.q ≠ .default) ↔
      c0 ∈ sumCatch l.catches ∧ c0.q ≠ .default := by
    intro c0
    rw [mem_filter, decide_eq_true_eq]
  rw [combine]
  split
  · simp only [mem_map, mem_ret, and_assoc, eq_comm]
    rfl
  · rw [mem_ret]
    constructor
    · rintro ⟨hc, hq⟩
      exact ⟨c, hc, hq, rfl⟩
    · rintro ⟨c0, hc0, hq, rfl⟩
      exact ⟨hc0, hq⟩

/-- An entry of `combine` has all handlers of its constructor, and at least one; it is flagged if
the constructor is thrown again and there is no default handler. -/
theorem combine_fst_spec (hc : c ∈ (combine l).1) :
    (∀ h, (c.q, h) ∈ l.catches → h ∈ c.handlers) ∧ (∃ h, (c.q, h) ∈ l.catches) ∧
      ((combine l).2 = none → c.q ∈ l.nocatches → c.uncaught = true) := by
  obtain ⟨c0, hc0, -, hcase⟩ := mem_combine_fst.1 hc
  obtain ⟨hne, hhandlers⟩ := (sumCatch_spec l.catches).1 c0 hc0
  have hsame : c.q = c0.q ∧ c.handlers = c0.handlers := by
    rw [hcase]
    split
    · exact setNocatchFlag_q _ _
    · exact ⟨rfl, rfl⟩
  rw [hsame.1, hsame.2]
  refine ⟨fun h hmem => (hhandlers h).2 hmem, ?_, fun hnone hmem => ?_⟩
  · obtain ⟨h, hh⟩ := List.exists_mem_of_ne_nil _ hne
    exact ⟨h, (hhandlers h).1 hh⟩
  · rw [hcase, hnone, setNocatchFlag, if_pos hmem]
    rfl

/-- A constructor with a handler has an entry. -/
theorem exists_combine_fst {q : Q} (hmem : (.named q, h) ∈ l.catches) :
    ∃ c ∈ (combine l).1, c.q = .named q := by
  obtain ⟨c, hc, hq⟩ := (sumCatch_spec l.catches).2 _ h hmem
  refine ⟨_, mem_combine_fst.2 ⟨c, hc, by simp [hq], rfl⟩, ?_⟩
  split
  · rw [(setNocatchFlag_q _ _).1, hq]
  · exact hq

/-! ## Updates of the entries -/

/-- The entry of a constructor. -/
def entry (comb : List (Combined Q H)) (q : Q) : Option (Combined Q H) :=
  comb.find? fun c => c.q = .named q

omit [DecidableEq H] in
theorem mem_of_entry {comb : List (Combined Q H)} {q : Q}
    (h : entry comb q = some c) : c ∈ comb ∧ c.q = .named q := by
  unfold entry at h
  have hq := List.find?_some h
  exact ⟨List.mem_of_find?_eq_some h, by simpa using hq⟩

/-- Without `any`, no entry is added. -/
theorem combComb_false (comb : List (Combined Q H)) (new : Combined Q H) :
    combComb false comb new = combComb.update new comb := by
  rw [combComb]
  split
  · rfl
  · rename_i hnone
    rw [if_neg Bool.false_ne_true]
    induction comb with
    | nil => rfl
    | cons c comb ih =>
      rw [List.any_cons, Bool.or_eq_true, not_or, decide_eq_true_eq] at hnone
      rw [combComb.update, if_neg hnone.1, ← ih hnone.2]

/-- `comb_comb` updates the entry of the constructor and no other. -/
theorem entry_combComb (comb : List (Combined Q H)) (new : Combined Q H) (q : Q) :
    entry (combComb false comb new) q =
      (entry comb q).map fun c => if new.q = .named q then c.add new else c := by
  rw [combComb_false]
  induction comb with
  | nil => rfl
  | cons c comb ih =>
    rw [combComb.update]
    by_cases hnew : c.q = new.q
    · by_cases hq : new.q = .named q
      · simp [entry, Combined.add_q, hnew, hq]
      · simp [entry, Combined.add_q, hnew, hq]
    · by_cases hq : c.q = .named q
      · have hnewq : new.q ≠ .named q := fun h => hnew (hq.trans h.symm)
        simp [entry, hq, hnewq, hnewq.symm]
      · simpa [entry, hnew, hq] using ih

/-- All entries for the constructor are added to its entry. -/
theorem entry_foldl (new : List (Combined Q H)) (comb : List (Combined Q H)) (q : Q) :
    entry (new.foldl (combComb false) comb) q =
      (entry comb q).map fun c => (new.filter fun n => n.q = .named q).foldl Combined.add c := by
  induction new generalizing comb with
  | nil => simp
  | cons n new ih =>
    rw [List.foldl_cons, ih, entry_combComb]
    by_cases hn : n.q = .named q
    · rw [List.filter_cons_of_pos (by simpa using hn)]
      simp [hn, Function.comp_def]
    · rw [List.filter_cons_of_neg (by simpa using hn)]
      simp [hn]

theorem entry_map_defstmtComb (dflt : H) (comb : List (Combined Q H)) (q : Q) :
    entry (comb.map (defstmtComb dflt)) q = (entry comb q).map (defstmtComb dflt) := by
  unfold entry
  rw [List.find?_map]
  congr 2
  funext c
  simp [defstmtComb_q]

/-- The constructors of the entries stay, in their order. -/
theorem names_foldl (new comb : List (Combined Q H)) :
    (new.foldl (combComb false) comb).map (·.q) = comb.map (·.q) := by
  induction new generalizing comb with
  | nil => rfl
  | cons n new ih =>
    rw [List.foldl_cons, ih, combComb_false]
    induction comb with
    | nil => rfl
    | cons c comb ih =>
      rw [combComb.update]
      split
      · rw [map_cons, Combined.add_q, map_cons]
      · rw [map_cons, ih, map_cons]

end Combine

/-! ## Soundness -/

section Soundness

variable [DecidableEq Q] [DecidableEq H] {isExnStmt : H → Bool}

variable {blocks : List (Decision Q T P H)} {comb : List (Combined Q H)}
  {r : List (Combined Q H) × Bool}

/-- What the loop does with one block, for a list of constructors. -/
theorem deriveLoop_cons {d : Decision Q T P H}
    (h : deriveLoop isExnStmt false (d :: blocks) comb = some r) :
    ∃ l, analyzeTree isExnStmt .default d 0 = some l ∧
      ((∃ dflt, d.defaultHandler isExnStmt = some dflt ∧
          r.1 = ((combine l).1.foldl (combComb false) comb).map (defstmtComb dflt)) ∨
        (d.defaultHandler isExnStmt = none ∧
          ((((combine l).1.foldl (combComb false) comb).any (·.uncaught) = false ∧
              r.1 = (combine l).1.foldl (combComb false) comb) ∨
            deriveLoop isExnStmt false blocks ((combine l).1.foldl (combComb false) comb) =
              some r))) := by
  obtain ⟨l, hl, h⟩ := Option.bind_eq_some_iff.1 h
  refine ⟨l, hl, ?_⟩
  simp only [combine_snd (root_leaves isExnStmt d hl)] at h
  cases hdflt : d.defaultHandler isExnStmt with
  | some dflt =>
    rw [hdflt] at h
    cases h
    exact .inl ⟨dflt, rfl, rfl⟩
  | none =>
    rw [hdflt] at h
    refine .inr ⟨rfl, ?_⟩
    simp only [Bool.not_false, Bool.true_and, Bool.not_eq_true'] at h
    split at h
    · rename_i hall
      cases h
      exact .inl ⟨hall, rfl⟩
    · exact .inr h

variable {c : Combined Q H}

/-- The entries that a block has for a constructor. -/
def entriesOf (l : Leaves Q H) (q : Q) : List (Combined Q H) :=
  (combine l).1.filter fun n => n.q = .named q

section

variable {l : Leaves Q H} {q : Q} {n : Combined Q H}

theorem mem_entriesOf : n ∈ entriesOf l q ↔ n ∈ (combine l).1 ∧ n.q = .named q := by
  rw [entriesOf, mem_filter, decide_eq_true_eq]

/-- A handler among the leaves of the constructor is added. -/
theorem mem_handlers_of_covers {hd : H} (hc : c.uncaught = true)
    (h : l.Covers (.named q) (.caught hd)) :
    hd ∈ ((entriesOf l q).foldl Combined.add c).handlers := by
  obtain ⟨n, hn⟩ := exists_combine_fst h
  cases hnew : entriesOf l q with
  | nil => exact absurd (hnew ▸ mem_entriesOf.2 hn) not_mem_nil
  | cons n' new =>
    obtain ⟨hn', hq⟩ := mem_entriesOf.1 (hnew ▸ List.mem_cons_self)
    apply mem_foldl_add hc
    apply (combine_fst_spec hn').1
    rw [hq]
    exact h

/-- A constructor that is thrown again stays uncaught, if there is no default handler. -/
theorem uncaught_of_covers (hc : c.uncaught = true) (hnone : (combine l).2 = none)
    (h : l.Covers (.named q) .rethrown) :
    ((entriesOf l q).foldl Combined.add c).uncaught = true := by
  refine uncaught_foldl_add hc fun n hn => ?_
  obtain ⟨hmem, hq⟩ := mem_entriesOf.1 hn
  apply (combine_fst_spec hmem).2.2 hnone
  rw [hq]
  exact h

theorem entriesOf_of_omits (h : l.Omits (.named q)) : entriesOf l q = [] := by
  apply List.eq_nil_iff_forall_not_mem.2
  intro n hn
  obtain ⟨hmem, hq⟩ := mem_entriesOf.1 hn
  obtain ⟨hd, hhd⟩ := (combine_fst_spec hmem).2.1
  rw [hq] at hhd
  exact h.1 hd hhd

end

/-- What the loop does with one block to the entry of a constructor: the entries of the block are
added, and then those of the default handler or of the remaining blocks. -/
theorem entry_deriveLoop_cons {d : Decision Q T P H}
    (h : deriveLoop isExnStmt false (d :: blocks) comb = some r) {q : Q}
    (hc : entry comb q = some c) :
    ∃ l c₁, analyzeTree isExnStmt .default d 0 = some l ∧
      (entriesOf l q).foldl Combined.add c = c₁ ∧
      ((∃ dflt, d.defaultHandler isExnStmt = some dflt ∧
          entry r.1 q = some (defstmtComb dflt c₁)) ∨
        (d.defaultHandler isExnStmt = none ∧
          ((¬ c₁.uncaught = true ∧ entry r.1 q = some c₁) ∨
            ∃ comb', deriveLoop isExnStmt false blocks comb' = some r ∧
              entry comb' q = some c₁))) := by
  obtain ⟨l, hl, hcases⟩ := deriveLoop_cons h
  have hfold := entry_foldl (combine l).1 comb q
  rw [hc] at hfold
  refine ⟨l, _, hl, rfl, ?_⟩
  rcases hcases with ⟨dflt, hdflt, hr⟩ | ⟨hnone, ⟨hall, hr⟩ | hrest⟩
  · rw [hr, entry_map_defstmtComb, hfold]
    exact .inl ⟨dflt, hdflt, rfl⟩
  · rw [hr]
    exact .inr ⟨hnone, .inl ⟨List.any_eq_false.1 hall _ (mem_of_entry hfold).1, hfold⟩⟩
  · exact .inr ⟨hnone, .inr ⟨_, hrest, hfold⟩⟩

/-- Later blocks keep the handlers of a constructor. -/
theorem deriveLoop_keeps (h : deriveLoop isExnStmt false blocks comb = some r) {q : Q}
    (hc : entry comb q = some c) :
    ∃ c', entry r.1 q = some c' ∧ c.handlers ⊆ c'.handlers := by
  induction blocks generalizing comb c with
  | nil =>
    cases h
    exact ⟨c, hc, fun _ hh => hh⟩
  | cons d blocks ih =>
    obtain ⟨l, c₁, -, rfl, hcases⟩ := entry_deriveLoop_cons h hc
    have hsub := subset_foldl_add (entriesOf l q) c
    rcases hcases with ⟨dflt, -, hr⟩ | ⟨-, ⟨-, hr⟩ | ⟨comb', hrest, hc'⟩⟩
    · exact ⟨_, hr, fun h hh => subset_defstmtComb dflt _ (hsub hh)⟩
    · exact ⟨_, hr, hsub⟩
    · obtain ⟨c', hc', hsub'⟩ := ih hrest hc'
      exact ⟨c', hc', fun h hh => hsub' (hsub hh)⟩

theorem names_deriveLoop (h : deriveLoop isExnStmt false blocks comb = some r) :
    r.1.map (·.q) = comb.map (·.q) := by
  induction blocks generalizing comb with
  | nil =>
    cases h
    rfl
  | cons d blocks ih =>
    obtain ⟨l, -, ⟨dflt, -, hr⟩ | ⟨-, ⟨-, hr⟩ | hrest⟩⟩ := deriveLoop_cons h
    · rw [hr, map_map, ← names_foldl (combine l).1 comb]
      apply List.map_congr_left
      intro c _
      exact defstmtComb_q dflt c
    · rw [hr, names_foldl]
    · rw [ih hrest, names_foldl]

variable (con : V → Q) (passes : P → PatTest Q T → V → Bool)

/-- An exception that escaped so far: its constructor gets the handler that catches it in one of the
remaining blocks, or stays uncaught. -/
theorem deriveLoop_sound (h : deriveLoop isExnStmt false blocks comb = some r) {v : V}
    (hpass : passesDefault isExnStmt con passes blocks v = false)
    (hc : entry comb (con v) = some c) (huncaught : c.uncaught = true) :
    ∃ c', entry r.1 (con v) = some c' ∧
      (∀ hd, caughtBy isExnStmt con passes blocks v = some hd → hd ∈ c'.handlers) ∧
      (caughtBy isExnStmt con passes blocks v = none → c'.uncaught = true) := by
  induction blocks generalizing comb c with
  | nil =>
    cases h
    exact ⟨c, hc, fun hd hcaught => (by cases hcaught), fun _ => huncaught⟩
  | cons d blocks ih =>
    obtain ⟨l, c₁, hl, hc₁, hcases⟩ := entry_deriveLoop_cons h hc
    rw [passesDefault] at hpass
    rw [caughtBy]
    -- an exception that the block passes on, when its constructor stays uncaught
    have pass : d.defaultHandler isExnStmt = none →
        passesDefault isExnStmt con passes blocks v = false → c₁.uncaught = true →
        ∃ c', entry r.1 (con v) = some c' ∧
          (∀ hd, caughtBy isExnStmt con passes blocks v = some hd → hd ∈ c'.handlers) ∧
          (caughtBy isExnStmt con passes blocks v = none → c'.uncaught = true) := by
      intro hnone hpass hstays
      rcases hcases with ⟨dflt, hsome, -⟩ | ⟨-, ⟨hall, -⟩ | ⟨comb', hrest, hc'⟩⟩
      · exact absurd (hnone.symm.trans hsome) (Option.some_ne_none dflt).symm
      · exact absurd hstays hall
      · exact ih hrest hpass hc' hstays
    rcases root_run isExnStmt con passes v d hl with hcovers | ⟨homits, hrun⟩
    · cases hrun : d.run isExnStmt con passes 0 v with
      | caught hd =>
        -- the handler is among the leaves of the constructor
        rw [hrun] at hcovers
        have hhd : hd ∈ c₁.handlers := hc₁ ▸ mem_handlers_of_covers huncaught hcovers
        obtain ⟨c', hc', hsub⟩ : ∃ c', entry r.1 (con v) = some c' ∧
            c₁.handlers ⊆ c'.handlers := by
          rcases hcases with ⟨dflt, -, hr⟩ | ⟨-, ⟨-, hr⟩ | ⟨comb', hrest, hc'⟩⟩
          · exact ⟨_, hr, subset_defstmtComb dflt _⟩
          · exact ⟨_, hr, fun _ hh => hh⟩
          · exact deriveLoop_keeps hrest hc'
        refine ⟨c', hc', fun hd' hcaught => ?_, fun hescapes => ?_⟩
        · cases hcaught
          exact hsub hhd
        · cases hescapes
      | rethrown =>
        -- the block has no default handler, so the constructor stays uncaught
        rw [hrun] at hcovers hpass
        obtain ⟨hdflt, hpass⟩ := Bool.or_eq_false_iff.1 hpass
        have hnone : d.defaultHandler isExnStmt = none :=
          Option.isNone_iff_eq_none.1 (Option.isSome_eq_false_iff.1 hdflt)
        have hsnd : (combine l).2 = none := (combine_snd (root_leaves isExnStmt d hl)).trans hnone
        exact pass hnone hpass (hc₁ ▸ uncaught_of_covers huncaught hsnd hcovers)
      | failed =>
        rw [hrun] at hcovers
        exact hcovers.elim
    · -- the constructor is not tested: the entry is left to the default handler
      rw [entriesOf_of_omits homits] at hc₁
      obtain rfl : c = c₁ := hc₁
      rw [hrun]
      rcases hcases with ⟨dflt, hdflt, hr⟩ | ⟨hnone, -⟩
      · rw [hdflt]
        refine ⟨_, hr, fun hd hcaught => ?_, fun hescapes => ?_⟩
        · cases hcaught
          rw [defstmtComb, if_pos huncaught]
          exact mem_removeDuplicates.2 (.head _)
        · cases hescapes
      · rw [hrun, hnone] at hpass
        rw [hnone]
        exact pass hnone (Bool.or_eq_false_iff.1 hpass).2 huncaught

/-- The handler that catches an exception is among those of its constructor, and a constructor with
an exception that escapes is marked, if the exception is not thrown again by a block with a default
handler. -/
theorem deriveComblist_sound (isExnStmt : H → Bool) (con : V → Q)
    (passes : P → PatTest Q T → V → Bool) (blocks : List (Decision Q T P H)) (ql : List Q)
    (hnodup : ql.Nodup) (comb : List (Combined Q H))
    (h : deriveComblist isExnStmt blocks (ql.map .named) false = some comb)
    (v : V) (hv : con v ∈ ql) (hpass : passesDefault isExnStmt con passes blocks v = false) :
    ∃ c ∈ comb, c.q = .named (con v) ∧ (∀ c' ∈ comb, c'.q = .named (con v) → c' = c) ∧
      (∀ hd, caughtBy isExnStmt con passes blocks v = some hd → hd ∈ c.handlers) ∧
      (caughtBy isExnStmt con passes blocks v = none → c.uncaught = true) := by
  obtain ⟨r, hr, rfl⟩ := Option.map_eq_some_iff.1 h
  have hnames : (r.1.map (·.q)).Nodup := by
    rw [names_deriveLoop hr, map_map, map_map]
    apply hnodup.map
    intro q q' heq
    cases heq
    rfl
  have hstart : entry ((ql.map Qvar.named).map (q2comb (H := H))) (con v) =
      some ⟨.named (con v), [], true⟩ := by
    cases hfind : entry ((ql.map Qvar.named).map (q2comb (H := H))) (con v) with
    | none =>
      rw [entry, List.find?_eq_none] at hfind
      refine absurd (decide_eq_true rfl) (hfind (q2comb (.named (con v))) ?_)
      exact List.mem_map_of_mem (List.mem_map_of_mem hv)
    | some c =>
      obtain ⟨hmem, hq⟩ := mem_of_entry hfind
      obtain ⟨n, -, rfl⟩ := mem_map.1 hmem
      exact congrArg (fun q => some (q2comb q)) hq
  obtain ⟨c, hc, hcaught, hescapes⟩ := deriveLoop_sound con passes hr hpass hstart rfl
  obtain ⟨hmem, hq⟩ := mem_of_entry hc
  refine ⟨c, hmem, hq, fun c' hc' hq' => ?_, hcaught, hescapes⟩
  exact List.inj_on_of_nodup_map hnames hc' hmem (hq'.trans hq.symm)

end Soundness

/-! ## Blocks over numbers

Exceptions are a constructor and an argument, tests below the constructor compare the argument, and
handler `0` is `throw exn`. -/

/-- Handler `0` throws again. -/
def isThrow (h : Nat) : Bool := h == 0

/-- A test of the argument. -/
def argIs (_ : Unit) (pt : PatTest Nat Nat) (v : Nat × Nat) : Bool :=
  match pt with
  | .eqExtensibleDatatype _ => false
  | .other t => v.2 == t

/-- A block with one constructor and one test of its argument: the handlers for the argument, for
other arguments, and for other constructors. -/
def testBlock (q t h other dflt : Nat) : Decision Nat Nat Unit Nat :=
  .switchDec () (.cons (.eqExtensibleDatatype q)
    (.switchDec () (.cons (.other t) (.success h) .nil) (.success other)) .nil) (.success dflt)

/-- The inner block catches argument `1` of constructor `1` and throws everything else again, the
next one throws argument `3` again and catches everything else, and the outer one is not looked
at. -/
def threeBlocks : List (Decision Nat Nat Unit Nat) :=
  [testBlock 1 1 10 0 0, testBlock 1 3 0 20 21, testBlock 2 1 0 30 30]

/-- Argument `2` is caught by the second block, although it throws argument `3` again. -/
theorem deriveComblist_sound_nested :
    deriveComblist isThrow threeBlocks ([1, 2].map .named) false =
        some [⟨.named 1, [10, 20], false⟩, ⟨.named 2, [21], false⟩] ∧
      caughtBy isThrow Prod.fst argIs threeBlocks (1, 2) = some 20 ∧
      ∃ c ∈ [(⟨.named 1, [10, 20], false⟩ : Combined Nat Nat), ⟨.named 2, [21], false⟩],
        c.q = .named 1 ∧ 20 ∈ c.handlers := by
  refine ⟨rfl, rfl, ?_⟩
  obtain ⟨c, hc, hq, -, hcaught, -⟩ := deriveComblist_sound isThrow Prod.fst argIs
    threeBlocks [1, 2] (by decide) [⟨.named 1, [10, 20], false⟩, ⟨.named 2, [21], false⟩] rfl
    (1, 2) (by decide) rfl
  exact ⟨c, hc, hq, hcaught 20 rfl⟩

/-- A block that throws constructor `1` with argument `1` again, and catches everything else: the
exception escapes, but its constructor is not marked. -/
theorem not_deriveComblist_sound : deriveComblist isThrow [testBlock 1 1 0 5 5] [.named 1] false =
        some [⟨.named 1, [5], false⟩] ∧
      caughtBy isThrow Prod.fst argIs [testBlock 1 1 0 5 5] (1, 1) = none :=
  ⟨rfl, rfl⟩

end ConcurrentCyclone.XInfer.Exn
