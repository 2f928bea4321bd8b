import ConcurrentCyclone.Transition.Fallible
import ConcurrentCyclone.XInfer.Constraint
import Mathlib.Data.List.AList

/-!
# The check of loop bodies

On a back edge, `node_in_flow` checks that the effect of one round of the loop changes no count:
`cons_is_zero` sums up the changes of each region in a table, and the entries of the table have to
be zero at the end. At a join, the second branch works on a copy of the table, and the tables of the
two branches are compared.

The comparison `ht_eq` goes over the entries of the first table only. A region that has an entry
only in the second one is not seen, and the table of the first branch is the one that is kept.
`JoinsClosed` says that this does no harm: along the second branch of each join, the regions without
an entry after the first branch do not change. With this and without overflow, the check is exact
(`net_eq_zero_iff`).
-/

set_option autoImplicit false

namespace ConcurrentCyclone.XInfer

open Transition

variable {R : Type}

/-- `xcaps_t`: a table of counts. -/
abbrev XCaps (R : Type) := AList fun _ : R => XCap

/-- The errors of the check. -/
inductive ZeroErr (R : Type) where
  /-- `Paths of join node %s do not match in join node (edge from %s to %s).`. -/
  | joinPaths (loc : Seg) (c : List (Con R)) (locs : Seg × Seg)
  /-- `Expected zero capability of %s in loop node (from %s to %s) but found (%d,%d,%d).`. -/
  | expectedZero (loc : Seg) (r : R) (locs : Seg × Seg) (x : XCap)

/-- `xcaps_zero`, for all entries of a table. -/
def xcapsZero (locs : Seg × Seg) (ca : XCaps R) : List (ZeroErr R) :=
  (ca.entries.filter fun s => s.2.ref ≠ 0 || s.2.wr ≠ 0 || s.2.rd ≠ 0).map fun s =>
    .expectedZero locs.2 s.1 locs s.2

variable [DecidableEq R]

/-- `ht_eq`: every entry of the first table is one of the second. -/
def htEq (ca ca₀ : XCaps R) : Bool := ca.entries.all fun s => ca₀.lookup s.1 = some s.2

/-- Insert `x` for a region without an entry, or change its entry. -/
def XCaps.change (ca : XCaps R) (r : R) (x : XCap) (f : XCap → XCap) : XCaps R :=
  ca.insert r ((ca.lookup r).elim x f)

/-- The loop of `cons_is_zero` over the counts that a spawn passes. -/
def spawnIsZero : List (Con R) → XCaps R → Except EnvErr (XCaps R)
  | [], ca => .ok ca
  | .cap x r _ :: cs, ca => spawnIsZero cs (XCaps.change ca r (-x) fun y => y - x)
  | _ :: _, _ => .error .zeroSpawn

mutual

/-- `cons_is_zero`. -/
def consIsZero : List (Con R) → XCaps R → Seg × Seg →
    Except EnvErr (List (ZeroErr R) × XCaps R)
  | [], ca, _ => .ok ([], ca)
  | con :: cs, ca, locs =>
    (con.isZero ca locs).bind fun x =>
      (consIsZero cs x.2 locs).map fun y => (x.1 ++ y.1, y.2)

/-- The body of the loop of `cons_is_zero`. -/
def Con.isZero : Con R → XCaps R → Seg × Seg → Except EnvErr (List (ZeroErr R) × XCaps R)
  | .access _ _ _, ca, _ => .ok ([], ca)
  -- the effect of the new thread is not looked at
  | .spawn c₁ _ _, ca, _ => (spawnIsZero c₁ ca).map fun ca' => ([], ca')
  | .call c₂ _ _, ca, locs => consIsZero c₂ ca locs
  | .join c₁₁ c₂ loc, ca, locs =>
    (consIsZero c₁₁ ca locs).bind fun x =>
      -- the second branch works on a clone of the table before the join
      (consIsZero c₂ ca locs).map fun x₀ =>
        (x.1 ++ x₀.1 ++ if htEq x.2 x₀.2 then [] else [.joinPaths loc c₁₁ locs], x.2)
  | .cap x r _, ca, _ => .ok ([], XCaps.change ca r x fun y => y + x)
  | .empty, ca, _ => .ok ([], ca)
  | .undefined, _, _ => .error .zeroUndefined

end

/-- The check of a back edge in `node_in_flow`: `cons_is_zero` on an empty table, and `xcaps_zero`
on the entries of the result. -/
def loopCheck (c : List (Con R)) (locs : Seg × Seg) : Except EnvErr (List (ZeroErr R)) :=
  (consIsZero c ∅ locs).map fun x => x.1 ++ xcapsZero locs x.2

/-! ## Tables -/

/-- The counts of a region in a table; a missing entry is zero. -/
def XCaps.value (ca : XCaps R) (r : R) : XCap := (ca.lookup r).getD 0

variable {r : R} {x : XCap} {f : XCap → XCap} {tr : List (Event R)}

variable {ca : XCaps R}

theorem XCaps.value_of_notMem (h : r ∉ ca) : XCaps.value ca r = 0 := by
  rw [XCaps.value, AList.lookup_eq_none.2 h, Option.getD_none]

/-- A change that adds the same amount to a missing entry and to an entry. -/
theorem XCaps.value_change (hf : ∀ y, f y = y + x) (r' : R) :
    XCaps.value (XCaps.change ca r x f) r' = XCaps.value ca r' + if r = r' then x else 0 := by
  by_cases hr : r = r'
  · subst hr
    rw [XCaps.value, XCaps.change, XCaps.value]
    cases ca.lookup r with
    | none => simp
    | some y => simp [hf]
  · rw [XCaps.value, XCaps.change, AList.lookup_insert_ne (Ne.symm hr), if_neg hr, XCap.add_zero]
    rfl

theorem XCaps.mem_change {r' : R} : r' ∈ XCaps.change ca r x f ↔ r' = r ∨ r' ∈ ca :=
  AList.mem_insert ..

/-- `ht_eq` compares the regions with an entry in the first table. -/
theorem value_eq_of_htEq {ca0 : XCaps R} (h : htEq ca ca0 = true) (hr : r ∈ ca) :
    XCaps.value ca0 r = XCaps.value ca r := by
  obtain ⟨x, hx⟩ := Option.isSome_iff_exists.1 (AList.lookup_isSome.2 hr)
  have hentry := List.all_eq_true.1 h ⟨r, x⟩ (AList.mem_lookup_iff.1 hx)
  rw [XCaps.value, XCaps.value, of_decide_eq_true hentry, hx]

/-- No entry is left over if `xcaps_zero` reports no error. -/
theorem value_eq_zero_of_xcapsZero {locs : Seg × Seg} (h : xcapsZero locs ca = [])
    (r : R) : XCaps.value ca r = 0 := by
  by_cases hr : r ∈ ca
  · obtain ⟨x, hx⟩ := Option.isSome_iff_exists.1 (AList.lookup_isSome.2 hr)
    have hnone := List.filter_eq_nil_iff.1 (List.map_eq_nil_iff.1 h) ⟨r, x⟩
      (AList.mem_lookup_iff.1 hx)
    simp only [Bool.or_eq_true, decide_eq_true_eq, not_or, not_not] at hnone
    rw [XCaps.value, hx]
    exact XCap.ext hnone.1.1 hnone.1.2 hnone.2
  · exact XCaps.value_of_notMem hr

/-! ## Recorded regions -/

/-- The event makes an entry for region `r`. -/
def Event.Records (r : R) : Event R → Prop
  | .access _ _ => False
  | .cap _ r' => r' = r
  | .spawn c₁ _ => ∃ x loc, .cap x r loc ∈ c₁

/-- Some event of the path makes an entry for region `r`. -/
def Records (r : R) (tr : List (Event R)) : Prop := ∃ e ∈ tr, e.Records r

omit [DecidableEq R] in
theorem records_cons {e : Event R} : Records r (e :: tr) ↔ e.Records r ∨ Records r tr := by
  simp [Records]

omit [DecidableEq R] in
theorem records_append {tr1 tr2 : List (Event R)} :
    Records r (tr1 ++ tr2) ↔ Records r tr1 ∨ Records r tr2 := by
  simp [Records, or_and_right, exists_or]

theorem given_eq_zero_of_not_cap {c₁ : List (Con R)}
    (h : ¬ ∃ x loc, .cap x r loc ∈ c₁) : given r c₁ = 0 := by
  induction c₁ with
  | nil => rfl
  | cons con cs ih =>
    have hcs : given r cs = 0 := ih fun ⟨x, loc, hmem⟩ => h ⟨x, loc, .tail _ hmem⟩
    cases con with
    | cap x r' loc =>
      have hne : r' ≠ r := by
        rintro rfl
        exact h ⟨x, loc, .head _⟩
      simp [given, hne, hcs]
    | _ => exact hcs

/-- A region without an entry does not change. -/
theorem net_eq_zero_of_not_records (h : ¬ Records r tr) : net r tr = 0 := by
  induction tr with
  | nil => rfl
  | cons e tr ih =>
    rw [records_cons, not_or] at h
    rw [net_cons, ih h.2, add_zero]
    cases e with
    | access => rfl
    | cap x r' => exact if_neg h.1
    | spawn c₁ c₂ =>
      rw [Event.change, given_eq_zero_of_not_cap h.1, neg_zero]

mutual

/-- Along the second branch of every join, the regions that have no entry after the first branch do
not change; `D` are the regions that have an entry before. -/
def JoinsClosed : List (Con R) → (R → Prop) → Prop
  | [], _ => True
  | con :: cs, D => con.Closed D ∧ JoinsClosed cs fun r => D r ∨ Records r con.first

/-- The same for the joins inside one constraint. -/
def Con.Closed : Con R → (R → Prop) → Prop
  | .join c₁ c₂ _, D => JoinsClosed c₁ D ∧ JoinsClosed c₂ D ∧
      ∀ r, ¬ D r → ¬ Records r (firstPath c₁) → ∀ tr, Path c₂ tr → net r tr = 0
  | .call c _ _, D => JoinsClosed c D
  | _, _ => True

end

/-! ## The check along the paths -/

section Check

variable {ca ca' : XCaps R} {locs : Seg × Seg} {c cs : List (Con R)} {con : Con R}
  {x : List (ZeroErr R) × XCaps R}

theorem spawnIsZero_ok (h : spawnIsZero c ca = .ok ca') (r : R) :
    XCaps.value ca' r = XCaps.value ca r + .ofCounts (-given r c) ∧
      (r ∈ ca' ↔ r ∈ ca ∨ ∃ x loc, .cap x r loc ∈ c) := by
  induction c generalizing ca with
  | nil =>
    cases h
    simp [given]
  | cons con cs ih =>
    cases con with
    | cap x r' loc =>
      obtain ⟨hvalue, hmem⟩ := ih h
      constructor
      · rw [hvalue, XCaps.value_change (fun y => XCap.sub_eq_add_neg y x), XCap.add_assoc]
        congr 1
        by_cases hr : r' = r
        · rw [given, if_pos hr, if_pos hr, neg_add, XCap.ofCounts_add,
            XCap.ofCounts_neg x.counts, XCap.ofCounts_counts]
        · simp [given, hr]
      · rw [hmem, XCaps.mem_change]
        simp [exists_or, or_assoc, or_left_comm]
    | _ => cases h

theorem consIsZero_cons (h : consIsZero (con :: cs) ca locs = .ok x) :
    ∃ x1 x2, con.isZero ca locs = .ok x1 ∧ consIsZero cs x1.2 locs = .ok x2 ∧
      x = (x1.1 ++ x2.1, x2.2) := by
  obtain ⟨x1, hx1, h⟩ := bind_eq_ok.1 h
  obtain ⟨x2, hx2, rfl⟩ := map_eq_ok.1 h
  exact ⟨x1, x2, hx1, hx2, rfl⟩

theorem isZero_join {c₁ c₂ : List (Con R)} {loc : Seg}
    (h : (Con.join c₁ c₂ loc).isZero ca locs = .ok x) :
    ∃ x1 x0, consIsZero c₁ ca locs = .ok x1 ∧ consIsZero c₂ ca locs = .ok x0 ∧ x.2 = x1.2 ∧
      (x.1 = [] → x1.1 = [] ∧ x0.1 = [] ∧ htEq x1.2 x0.2 = true) := by
  obtain ⟨x1, hx1, h⟩ := bind_eq_ok.1 h
  obtain ⟨x0, hx0, rfl⟩ := map_eq_ok.1 h
  refine ⟨x1, x0, hx1, hx0, rfl, fun hnil => ?_⟩
  obtain ⟨hnil, heq⟩ := List.append_eq_nil_iff.1 hnil
  obtain ⟨hnil1, hnil0⟩ := List.append_eq_nil_iff.1 hnil
  refine ⟨hnil1, hnil0, ?_⟩
  by_contra hne
  simp [hne] at heq

mutual

/-- A list that the check goes through has a path, and the regions with an entry after the check
are those on the first one. -/
theorem consIsZero_ok : ∀ {c : List (Con R)} {ca : XCaps R} {x}, consIsZero c ca locs = .ok x →
    Defined c ∧ ∀ r, r ∈ x.2 ↔ r ∈ ca ∨ Records r (firstPath c)
  | [], _, _, h => by
    cases h
    simp [Defined, firstPath, Records]
  | _ :: _, _, _, h => by
    obtain ⟨x1, x2, hcon, hcs, rfl⟩ := consIsZero_cons h
    obtain ⟨hdef, hmem⟩ := isZero_ok hcon
    refine ⟨⟨hdef, (consIsZero_ok hcs).1⟩, fun r => ?_⟩
    rw [(consIsZero_ok hcs).2, hmem, firstPath, records_append, or_assoc]

theorem isZero_ok : ∀ {con : Con R} {ca : XCaps R} {x}, con.isZero ca locs = .ok x →
    con.IsDefined ∧ ∀ r, r ∈ x.2 ↔ r ∈ ca ∨ Records r con.first
  | .access .., _, _, h | .empty, _, _, h => by
    cases h
    simp [Con.IsDefined, Con.first, Records, Event.Records]
  | .cap .., _, _, h => by
    cases h
    simp [Con.IsDefined, XCaps.mem_change, Con.first, Records, Event.Records, or_comm, eq_comm]
  | .join .., _, _, h => by
    obtain ⟨y1, y0, hy1, hy0, hsame, _⟩ := isZero_join h
    obtain ⟨hdef, hmem⟩ := consIsZero_ok hy1
    exact ⟨⟨hdef, (consIsZero_ok hy0).1⟩, by rwa [hsame, Con.first]⟩
  | .spawn .., _, _, h => by
    obtain ⟨ca', hca', rfl⟩ := map_eq_ok.1 h
    simp [Con.IsDefined, (spawnIsZero_ok hca' _).2, Con.first, Records, Event.Records]
  | .call .., _, _, h => by exact consIsZero_ok h
  | .undefined, _, _, h => by cases h

end

/-- The rest of a list is closed for the table after its first constraint. -/
theorem joinsClosed_rest (h : JoinsClosed (con :: cs) (· ∈ ca))
    (hcon : con.isZero ca locs = .ok x) : JoinsClosed cs (· ∈ x.2) := by
  have hmem : (fun r => r ∈ x.2) = fun r => r ∈ ca ∨ Records r con.first :=
    funext fun r => propext ((isZero_ok hcon).2 r)
  rw [hmem]
  exact h.2

mutual

/-- On every path, the table has the change of each region. -/
theorem value_consIsZero : ∀ {c : List (Con R)} {tr : List (Event R)} {ca : XCaps R} {x},
    Path c tr → consIsZero c ca locs = .ok x → x.1 = [] → JoinsClosed c (· ∈ ca) →
    XCaps.value x.2 r = XCaps.value ca r + .ofCounts (net r tr)
  | [], _, _, _, hpath, h, _, _ => by
    cases hpath
    cases h
    simp
  | _ :: _, _, _, _, hpath, h, hnil, hclosed => by
    obtain ⟨tr1, tr2, rfl, hpath1, hpath2⟩ := path_cons_iff.1 hpath
    obtain ⟨x1, x2, hcon, hcs, rfl⟩ := consIsZero_cons h
    obtain ⟨hnil1, hnil2⟩ := List.append_eq_nil_iff.1 hnil
    rw [value_consIsZero hpath2 hcs hnil2 (joinsClosed_rest hclosed hcon),
      value_isZero hpath1 hcon hnil1 hclosed.1, net_append, XCap.ofCounts_add, XCap.add_assoc]

theorem value_isZero : ∀ {con : Con R} {tr : List (Event R)} {ca : XCaps R} {x},
    con.Takes tr → con.isZero ca locs = .ok x → x.1 = [] → con.Closed (· ∈ ca) →
    XCaps.value x.2 r = XCaps.value ca r + .ofCounts (net r tr)
  | .access .., _, _, _, htr, h, _, _ | .empty, _, _, _, htr, h, _, _ => by
    cases htr
    cases h
    simp [Event.change]
  | .cap y r' _, _, _, _, htr, h, _, _ => by
    cases htr
    cases h
    rw [XCaps.value_change fun _ => rfl, net_cons, Event.change]
    split_ifs <;> simp
  | .spawn .., _, _, _, htr, h, _, _ => by
    cases htr
    obtain ⟨ca', hca', rfl⟩ := map_eq_ok.1 h
    simp [(spawnIsZero_ok hca' r).1, Event.change]
  | .call .., _, _, _, htr, h, hnil, hclosed => by exact value_consIsZero htr h hnil hclosed
  | .join .., tr, ca, _, htr, h, hnil, hclosed => by
    obtain ⟨y1, y0, hy1, hy0, hsame, herrs⟩ := isZero_join h
    obtain ⟨hnil1, hnil0, heq⟩ := herrs hnil
    rw [hsame]
    rcases htr with htr | htr
    · exact value_consIsZero htr hy1 hnil1 hclosed.1
    by_cases hr : r ∈ y1.2
    · -- the tables of the branches were compared
      rw [← value_eq_of_htEq heq hr]
      exact value_consIsZero htr hy0 hnil0 hclosed.2.1
    · -- the region has no entry, so only the condition on joins helps
      have hnot := hr
      rw [(consIsZero_ok hy1).2, not_or] at hnot
      rw [XCaps.value_of_notMem hr, XCaps.value_of_notMem hnot.1,
        hclosed.2.2 r hnot.1 hnot.2 tr htr]
      simp

end

end Check

/-! ## Effects with the same change on all paths -/

/-- All paths change the counts of each region by the same amounts. -/
def Uniform (c : List (Con R)) : Prop :=
  ∀ tr tr', Path c tr → Path c tr' → ∀ r, net r tr = net r tr'

mutual

theorem joinsClosed_of_uniform : ∀ {c : List (Con R)}, Defined c → Uniform c → ∀ D, JoinsClosed c D
  | [], _, _, _ => trivial
  | con :: cs, hdef, h, D => by
    have hcon := takes_first hdef.1
    have hcs := path_firstPath hdef.2
    -- paths that differ in one part only
    have hsame : ∀ {tr1 tr2 tr1' tr2'}, con.Takes tr1 → Path cs tr2 → con.Takes tr1' →
        Path cs tr2' → ∀ r, net r (tr1 ++ tr2) = net r (tr1' ++ tr2') := fun h1 h2 h1' h2' =>
      h _ _ (path_cons_iff.2 ⟨_, _, rfl, h1, h2⟩) (path_cons_iff.2 ⟨_, _, rfl, h1', h2'⟩)
    refine ⟨closed_of_uniform hdef.1 (fun tr tr' hp hp' r => ?_) D,
      joinsClosed_of_uniform hdef.2 (fun tr tr' hp hp' r => ?_) _⟩
    · simpa using hsame hp hcs hp' hcs r
    · simpa using hsame hcon hp hcon hp' r

theorem closed_of_uniform : ∀ {con : Con R}, con.IsDefined →
    (∀ tr tr', con.Takes tr → con.Takes tr' → ∀ r, net r tr = net r tr') → ∀ D, con.Closed D
  | .join .., hdef, h, D => by
    refine ⟨joinsClosed_of_uniform hdef.1 (fun tr tr' hp hp' => h tr tr' (.inl hp) (.inl hp')) D,
      joinsClosed_of_uniform hdef.2 (fun tr tr' hp hp' => h tr tr' (.inr hp) (.inr hp')) D,
      fun r _ hnot tr hp => ?_⟩
    -- the first path of the first branch does not change the region
    rw [h _ _ (.inr hp) (.inl (path_firstPath hdef.1)) r, net_eq_zero_of_not_records hnot]
  | .call .., hdef, h, D => by exact joinsClosed_of_uniform hdef h D
  | .access .., _, _, _ | .cap .., _, _, _ | .spawn .., _, _, _ | .empty, _, _, _
  | .undefined, _, _, _ => trivial

end

/-! ## The result -/

/-- For an effect that passes the check of a back edge: it changes no count of any region on any
path, exactly if every region that the second branch of a join changes has an entry after the first
branch, and the changes are C integers. -/
theorem net_eq_zero_iff {c : List (Con R)} {locs : Seg × Seg} (h : loopCheck c locs = .ok []) :
    (∀ tr, Path c tr → ∀ r, net r tr = 0) ↔
      JoinsClosed c (fun _ => False) ∧ ∀ tr, Path c tr → ∀ r, IntRange (net r tr) := by
  obtain ⟨x, hx, hnil⟩ := map_eq_ok.1 h
  obtain ⟨hnil, hzero⟩ := List.append_eq_nil_iff.1 hnil
  constructor
  · intro hnet
    -- no change on any path: all paths agree
    refine ⟨joinsClosed_of_uniform (consIsZero_ok hx).1 ?_ _, fun tr hpath r => ?_⟩
    · intro tr tr' hp hp' r
      rw [hnet tr hp r, hnet tr' hp' r]
    · rw [hnet tr hpath r]
      exact XCap.intRange_counts 0
  · rintro ⟨hclosed, hrange⟩ tr hpath r
    have hempty : (fun r : R => r ∈ (∅ : XCaps R)) = fun _ => False := by
      funext r
      simp
    -- the table has the net change of the path, modulo `2^32`
    have hvalue := value_consIsZero (r := r) hpath hx hnil (hempty ▸ hclosed)
    rw [value_eq_zero_of_xcapsZero hzero, XCaps.value_of_notMem (AList.notMem_empty r),
      XCap.zero_add] at hvalue
    rw [← XCap.counts_ofCounts (hrange tr hpath r), ← hvalue]
    rfl

/-- Both branches of a join take and give back a count of region `0`. -/
def balancedJoin : List (Con Nat) :=
  [.join [.cap ⟨1, 0, 0⟩ 0 1, .cap ⟨-1, 0, 0⟩ 0 2] [.cap ⟨0, 1, 0⟩ 0 3, .cap ⟨0, -1, 0⟩ 0 4] 5]

theorem net_eq_zero_iff_balancedJoin : (∀ tr, Path balancedJoin tr → ∀ r, net r tr = 0) ↔
      JoinsClosed balancedJoin (fun _ => False) ∧
        ∀ tr, Path balancedJoin tr → ∀ r, IntRange (net r tr) :=
  net_eq_zero_iff (show loopCheck balancedJoin (0, 0) = .ok [] from rfl)

/-- The first branch of a join does nothing, the second one takes a count of region `0`. -/
def unseenBranch : List (Con Nat) := [.join [] [.cap ⟨1, 0, 0⟩ 0 1] 2]

theorem not_net_eq_zero_unseenBranch : loopCheck unseenBranch (0, 0) = .ok [] ∧
      ∃ tr, Path unseenBranch tr ∧ net 0 tr = (1, 0, 0) :=
  ⟨rfl, _, .right (.cap .nil) .nil, by decide⟩

end ConcurrentCyclone.XInfer
