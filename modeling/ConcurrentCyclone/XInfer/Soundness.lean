import ConcurrentCyclone.XInfer.Translate
import Mathlib.Algebra.Order.Group.Unbundled.Basic

/-!
# What the translation accepts

The main thread starts with reference count one and write count one. If `cons_translate` reports no
error for a region without parent, then the counts along every path are as the accesses need them
(`SafeFrom`), and they end with reference count zero.

The proof goes in two steps. `Accepts.checks` turns the acceptance of a constraint list into a check
of each event of each path (`Check`), which is the only induction on constraint lists. The rest is
about one path: the counts of the checker are C integers, the counts of the path are integers, and
`Tracks` relates them. They agree until an addition overflows; then the checker has a negative
count, and it accepts no event of the region any more (`check_dead`).

Overflow is caught in this way for all additions but one. The test whether a spawn passes any count
of the region is `a0 + b0 + c0 == 0`; if this sum is a multiple of `2^32`, the spawn is ignored, and
the checker goes on with counts that were given away. `Fits` excludes this, and sums of entries that
overflow themselves.

The end of the effect of a spawned thread is translated with `depth > 0`, so the count it ends with
is not looked at.
-/

set_option autoImplicit false

namespace ConcurrentCyclone.XInfer

open Transition

/-! ## Additions of the checker -/

theorem counts_nonneg_iff {n : Counts} : 0 ≤ n ↔ 0 ≤ n.1 ∧ 0 ≤ n.2.1 ∧ 0 ≤ n.2.2 := Iff.rfl

theorem xcapOk_iff {x : XCap} :
    xcapOk x = true ↔ 0 < x.counts.1 ∧ 0 ≤ x.counts.2.1 ∧ 0 ≤ x.counts.2.2 := by
  have hneg : (-1 : Int32).toInt = -1 := by decide
  simp only [xcapOk, Bool.and_eq_true, decide_eq_true_eq, Int32.lt_iff_toInt_lt, hneg,
    Int32.toInt_zero, XCap.counts]
  omega

/-- A C addition of a negative number to a positive one is exact. -/
theorem toInt_add_of_neg {a b : Int32} (ha : 0 ≤ a.toInt) (hb : b.toInt < 0) :
    (a + b).toInt = a.toInt + b.toInt := by
  have halt := a.toInt_lt
  have hble := b.le_toInt
  rw [Int32.toInt_add]
  exact Int.bmod_eq_of_le (by omega) (by omega)

/-- One component of `xcap_add`. -/
theorem nonneg_add_of_not {a b : Int32} (ha : 0 ≤ a.toInt) (h : ¬ (b < 0 ∧ a + b < 0)) :
    0 ≤ a.toInt + b.toInt := by
  simp only [Int32.lt_iff_toInt_lt, Int32.toInt_zero] at h
  by_cases hb : b.toInt < 0
  · rw [toInt_add_of_neg ha hb] at h
    omega
  · omega

variable {w w' : XCap}

theorem xcapAdd_some {d : XCap} (h : xcapAdd w d = some w') :
    xcapOk w = true ∧ 0 ≤ w.counts + d.counts ∧ w' = .ofCounts (w.counts + d.counts) := by
  unfold xcapAdd at h
  split_ifs at h with hbad
  simp only [not_or] at hbad
  obtain ⟨href, hwr, hrd, haddRef, haddWr, haddRd⟩ := hbad
  have hone : (1 : Int32).toInt = 1 := by decide
  simp only [Int32.lt_iff_toInt_lt, hone, not_lt] at href hwr hrd
  refine ⟨xcapOk_iff.2 ⟨href, hwr, hrd⟩, ⟨?_, ?_, ?_⟩, ?_⟩
  · exact nonneg_add_of_not (by omega) haddRef
  · exact nonneg_add_of_not hwr haddWr
  · exact nonneg_add_of_not hrd haddRd
  · rw [XCap.ofCounts_add, XCap.ofCounts_counts, XCap.ofCounts_counts]
    exact (Option.some.inj h).symm

theorem xcapXadd_some {s : XCap} (h : xcapXadd w s = some w') :
    xcapOk w = true ∧ xcapOk s = true ∧ s.counts ≤ w.counts ∧
      (s.counts.2.1 = 0 ∨ s.counts.2.1 = w.counts.2.1 ∧ s.counts.2.2 = w.counts.2.2) ∧
      w' = .ofCounts (w.counts - s.counts) := by
  unfold xcapXadd at h
  split_ifs at h with hbad
  simp only [not_or, Bool.not_eq_false, Bool.not_eq_true'] at hbad
  obtain ⟨hw, hs, hall, _, href, hwr, hrd⟩ := hbad
  simp only [Int32.lt_iff_toInt_lt, not_lt] at href hwr hrd
  refine ⟨hw, hs, ⟨href, hwr, hrd⟩, ?_, ?_⟩
  · -- a write count is passed only with all write and read counts
    by_cases hpos : 0 < s.wr
    · right
      simp only [hpos, true_or, true_and, not_or, not_not] at hall
      rw [XCap.counts, hall.1, hall.2]
      exact ⟨rfl, rfl⟩
    · left
      obtain ⟨_, hswr, _⟩ := xcapOk_iff.1 hs
      rw [Int32.lt_iff_toInt_lt, Int32.toInt_zero] at hpos
      simp only [XCap.counts] at hswr ⊢
      omega
  · rw [XCap.ofCounts_sub, XCap.ofCounts_counts, XCap.ofCounts_counts]
    exact (Option.some.inj h).symm

/-! ## Inversion of the translation -/

variable {R : Type}

@[simp] theorem map_finish_succ (te : TransEnv R) (depth : Nat)
    (e : Except EnvErr (Translated R)) : e.map (finish te (depth + 1)) = e := by
  cases e with
  | error _ => rfl
  | ok x => simp [Except.map, finish]

variable [DecidableEq R] {r : R} {s y : XCap} {c cs : List (Con R)}

/-- The loop of `cons_translate` reports no error for a region `r` without parent, starting with the
counts `s` and ending with `y`. -/
def Accepts (r : R) (s : XCap) (c : List (Con R)) (y : XCap) : Prop :=
  ∃ (te : TransEnv R) (depth : Nat) (x : Translated R), te.r = r ∧ te.c = s ∧ te.p = none ∧
    consLoop c te depth = .ok x ∧ x.errs = [] ∧ x.c = y

/-- The same for one constraint. -/
def Con.Accepts (r : R) (s : XCap) (con : Con R) (y : XCap) : Prop :=
  ∃ (te : TransEnv R) (depth : Nat) (x : Translated R), te.r = r ∧ te.c = s ∧ te.p = none ∧
    con.translate te depth = .ok x ∧ x.errs = [] ∧ x.c = y

theorem accepts_nil (h : Accepts r s [] y) : y = s := by
  obtain ⟨te, depth, x, _, hc, _, hx, _, hy⟩ := h
  cases hx
  exact hy.symm.trans hc

theorem accepts_cons {con : Con R} (h : Accepts r s (con :: cs) y) :
    ∃ s', con.Accepts r s s' ∧ Accepts r s' cs y := by
  obtain ⟨te, depth, x, hr, hc, hp, hx, herr, hy⟩ := h
  obtain ⟨x1, hx1, hx⟩ := bind_eq_ok.1 hx
  obtain ⟨y1, hy1, rfl⟩ := map_eq_ok.1 hx
  obtain ⟨herr1, herr2⟩ := List.append_eq_nil_iff.1 herr
  exact ⟨x1.c, ⟨te, depth, x1, hr, hc, hp, hx1, herr1, rfl⟩,
    ⟨{ te with c := x1.c }, depth, y1, hr, rfl, hp, hy1, herr2, hy⟩⟩

namespace Con.Accepts

variable {r' : R} {loc : Seg}

theorem access {a : Access} (h : (Con.access a r' loc).Accepts r s y) :
    y = s ∧ (r' = r → (solve true a s).isSome) := by
  obtain ⟨te, depth, x, rfl, rfl, hp, hx, herr, rfl⟩ := h
  simp only [Con.translate] at hx
  split_ifs at hx with hr
  · cases hx
    unfold conTranslate at herr ⊢
    rw [hp] at herr ⊢
    cases hsolve : solve true a te.c with
    | none => simp [hsolve] at herr
    | some a' => simp [hsolve]
  · cases hx
    exact ⟨rfl, fun h => absurd h hr⟩

theorem cap {x : XCap} (h : (Con.cap x r' loc).Accepts r s y) :
    if r' = r then xcapAdd s x = some y else y = s := by
  obtain ⟨te, depth, z, rfl, rfl, _, hz, herr, rfl⟩ := h
  simp only [Con.translate] at hz
  split_ifs at hz ⊢ with hr
  · cases hz
    unfold capTranslate at herr ⊢
    cases hadd : xcapAdd te.c x with
    | none => simp [hadd] at herr
    | some x0 => simp
  · cases hz
    rfl

theorem call {ca : List (Con R)} {f : String} (h : (Con.call ca loc f).Accepts r s y) :
    XInfer.Accepts r s ca y := by
  obtain ⟨te, depth, z, hr, hc, hp, hz, herr, hy⟩ := h
  simp only [Con.translate, map_finish_succ] at hz
  obtain ⟨x, hx, rfl⟩ := map_eq_ok.1 hz
  exact ⟨{ te with path := loc :: te.path }, _, x, hr, hc, hp, hx, herr, hy⟩

theorem join {ca cb : List (Con R)} (h : (Con.join ca cb loc).Accepts r s y) :
    XInfer.Accepts r s ca y ∧ XInfer.Accepts r s cb y := by
  obtain ⟨te, depth, z, hr, hc, hp, hz, herr, hy⟩ := h
  simp only [Con.translate, map_finish_succ] at hz
  obtain ⟨x0, hx0, hz⟩ := bind_eq_ok.1 hz
  obtain ⟨x1, hx1, rfl⟩ := map_eq_ok.1 hz
  obtain ⟨herrs, hsame⟩ := List.append_eq_nil_iff.1 herr
  obtain ⟨herr0, herr1⟩ := List.append_eq_nil_iff.1 herrs
  -- both branches end with the same counts, or an error is reported
  have heq : x1.c = x0.c := by
    by_contra hne
    simp [hne] at hsame
  exact ⟨⟨{ te with path := loc :: te.path }, _, x0, hr, hc, hp, hx0, herr0, heq.symm.trans hy⟩,
    ⟨{ te with path := loc :: te.path }, _, x1, hr, hc, hp, hx1, herr1, hy⟩⟩

theorem empty (h : (Con.empty : Con R).Accepts r s y) : y = s := by
  obtain ⟨te, depth, x, _, hc, _, hx, _, hy⟩ := h
  cases hx
  exact hy.symm.trans hc

theorem undefined (h : (Con.undefined : Con R).Accepts r s y) : False := by
  obtain ⟨te, depth, x, _, _, _, hx, _⟩ := h
  cases hx

end Con.Accepts

/-! ## Spawns -/

/-- The entries of a spawn are counts, with a positive reference count and no negative count. -/
def Passes (c₁ : List (Con R)) : Prop :=
  ∀ con ∈ c₁, ∃ x r loc, con = .cap x r loc ∧ xcapOk x = true

/-- The test of the checker whether a spawn passes no count of the region. -/
def Ignored (x : XCap) : Prop := x.ref + x.wr + x.rd = 0

instance (x : XCap) : Decidable (Ignored x) := inferInstanceAs (Decidable (_ = _))

variable {c₁ : List (Con R)}

theorem spawnCaps_ok {te : TransEnv R} {s s' : SpawnCaps R}
    (h : spawnCaps te c₁ s = .ok s') (herr : s'.errs = []) :
    s.errs = [] ∧ Passes c₁ ∧ s'.caps = s.caps + .ofCounts (given te.r c₁) := by
  induction c₁ generalizing s with
  | nil =>
    cases h
    refine ⟨herr, nofun, ?_⟩
    simp [given]
  | cons con cs ih =>
    cases con with
    | cap x r' loc =>
      obtain ⟨herr', hpass, hcaps⟩ := ih h
      have hentry : s.errs = [] ∧ xcapOk x = true := by
        simp only [SpawnCaps.add] at herr'
        split_ifs at herr' with hbad
        · simp at herr'
        · simp only [not_or, Bool.not_eq_true', Bool.not_eq_false] at hbad
          exact ⟨herr', hbad.1⟩
      refine ⟨hentry.1, ?_, ?_⟩
      · intro con hcon
        rcases List.mem_cons.1 hcon with rfl | hcon
        · exact ⟨x, r', loc, rfl, hentry.2⟩
        · exact hpass con hcon
      · rw [hcaps]
        by_cases hr : r' = te.r
        · simp [SpawnCaps.add, given, hr, XCap.ofCounts_add, XCap.add_assoc]
        · simp [SpawnCaps.add, given, hr]
    | _ => cases h

/-- What an accepted spawn has passed to the checker: nothing, if the sum of the three counts is
zero as a C integer, and else counts that could be taken away, from which the effect of the new
thread was accepted. -/
theorem Con.Accepts.spawn {c₂ : List (Con R)} {loc : Seg}
    (h : (Con.spawn c₁ c₂ loc).Accepts r s y) :
    Passes c₁ ∧
      if Ignored (.ofCounts (given r c₁)) then y = s
      else xcapXadd s (.ofCounts (given r c₁)) = some y ∧
        ∃ z, XInfer.Accepts r (.ofCounts (given r c₁)) c₂ z := by
  obtain ⟨te, depth, z, rfl, rfl, hp, hz, herr, rfl⟩ := h
  simp only [Con.translate, map_finish_succ] at hz
  obtain ⟨sc, hsc, hz⟩ := bind_eq_ok.1 hz
  have hcaps : sc.errs = [] → Passes c₁ ∧ sc.caps = .ofCounts (given te.r c₁) := by
    intro hnil
    obtain ⟨_, hpass, hcaps⟩ := spawnCaps_ok hsc hnil
    exact ⟨hpass, by rw [hcaps, XCap.zero_add]⟩
  -- the test of the source: an `int` sum
  split at hz
  case isTrue hzero =>
    cases hz
    obtain ⟨hpass, hcaps⟩ := hcaps herr
    rw [hcaps] at hzero
    exact ⟨hpass, by rw [if_pos (show Ignored _ from hzero)]⟩
  case isFalse hzero =>
    obtain ⟨sp, hsp, rfl⟩ := map_eq_ok.1 hz
    obtain ⟨herrs, hnone⟩ := List.append_eq_nil_iff.1 herr
    obtain ⟨herr1, herr2⟩ := List.append_eq_nil_iff.1 herrs
    obtain ⟨hpass, hcaps⟩ := hcaps herr1
    rw [hcaps] at hzero
    refine ⟨hpass, ?_⟩
    rw [if_neg (show ¬ Ignored _ from hzero), ← hcaps]
    refine ⟨?_, sp.c, te.spawned c₁ sc.caps, _, sp, rfl, rfl, ?_, hsp, herr2, rfl⟩
    · cases hx : xcapXadd te.c sc.caps with
      | none => simp [hx] at hnone
      | some x => simp [afterSpawn, hx]
    · simp [TransEnv.spawned, hp]

/-! ## The checks along a path -/

/-- The check of one event of a path. -/
inductive Check (r : R) : XCap → Event R → XCap → Prop where
  | access {a x} : (solve true a x).isSome → Check r x (.access a r) x
  | cap {d x x'} : xcapAdd x d = some x' → Check r x (.cap d r) x'
  | otherAccess {a r' x} : r' ≠ r → Check r x (.access a r') x
  | otherCap {d r' x} : r' ≠ r → Check r x (.cap d r') x
  | spawn {c₁ c₂ x x' z} : Passes c₁ → ¬ Ignored (.ofCounts (given r c₁)) →
      xcapXadd x (.ofCounts (given r c₁)) = some x' →
      Accepts r (.ofCounts (given r c₁)) c₂ z → Check r x (.spawn c₁ c₂) x'
  | ignored {c₁ c₂ x} : Passes c₁ → Ignored (.ofCounts (given r c₁)) →
      Check r x (.spawn c₁ c₂) x

/-- The checks of the events of a path, one after another. -/
inductive Checks (r : R) : XCap → List (Event R) → XCap → Prop where
  | nil {x} : Checks r x [] x
  | cons {x e x' tr y} : Check r x e x' → Checks r x' tr y → Checks r x (e :: tr) y

theorem Checks.append {x x' : XCap} {tr1 tr2 : List (Event R)} (h1 : Checks r x tr1 x')
    (h2 : Checks r x' tr2 y) : Checks r x (tr1 ++ tr2) y := by
  induction h1 with
  | nil => exact h2
  | cons hcheck _ ih => exact .cons hcheck (ih h2)

variable {tr : List (Event R)}

/-- If the translation accepts a list, then it accepts every event of every path, and all paths end
with the same counts. -/
theorem Accepts.checks (h : Accepts r s c y) (hpath : Path c tr) : Checks r s tr y := by
  induction hpath generalizing s y with
  | nil =>
    rw [accepts_nil h]
    exact .nil
  | @access a r' loc cs tr _ ih =>
    obtain ⟨s', hcon, hcs⟩ := accepts_cons h
    obtain ⟨rfl, hsolve⟩ := hcon.access
    by_cases hr : r' = r
    · subst hr
      exact .cons (.access (hsolve rfl)) (ih hcs)
    · exact .cons (.otherAccess hr) (ih hcs)
  | @cap x r' loc cs tr _ ih =>
    obtain ⟨s', hcon, hcs⟩ := accepts_cons h
    have hcap := hcon.cap
    split_ifs at hcap with hr
    · subst hr
      exact .cons (.cap hcap) (ih hcs)
    · subst hcap
      exact .cons (.otherCap hr) (ih hcs)
  | left _ _ ih1 ih =>
    obtain ⟨s', hcon, hcs⟩ := accepts_cons h
    exact (ih1 hcon.join.1).append (ih hcs)
  | right _ _ ih1 ih =>
    obtain ⟨s', hcon, hcs⟩ := accepts_cons h
    exact (ih1 hcon.join.2).append (ih hcs)
  | spawn _ ih =>
    obtain ⟨s', hcon, hcs⟩ := accepts_cons h
    obtain ⟨hpass, hspawn⟩ := hcon.spawn
    split_ifs at hspawn with hzero
    · subst hspawn
      exact .cons (.ignored hpass hzero) (ih hcs)
    · obtain ⟨hadd, z, hthread⟩ := hspawn
      exact .cons (.spawn hpass hzero hadd hthread) (ih hcs)
  | call _ _ ih1 ih =>
    obtain ⟨s', hcon, hcs⟩ := accepts_cons h
    exact (ih1 hcon.call).append (ih hcs)
  | empty _ ih =>
    obtain ⟨s', hcon, hcs⟩ := accepts_cons h
    obtain rfl := hcon.empty
    exact ih hcs

/-! ## The counts along a path -/

/-- What an access needs of the counts of its region. -/
def Access.Needs (x : Counts) : Access → Prop
  | .live => 0 < x.1
  | .rd => 0 < x.1 ∧ 0 < x.2.1 + x.2.2
  | .wr => 0 < x.1 ∧ 0 < x.2.1
  | _ => True

/-- What an event needs of the counts of region `r`: an access as above, and a spawn passes no write
count or all write and read counts. -/
def Event.Needs (r : R) (x : Counts) : Event R → Prop
  | .access a r' => r' = r → a.Needs x
  | .cap _ _ => True
  | .spawn c₁ _ => (given r c₁).2.1 = 0 ∨
      (given r c₁).2.1 = x.2.1 ∧ (given r c₁).2.2 = x.2.2

/-- Along the path, starting with the counts `x`, every event finds what it needs and no count of
region `r` becomes negative. -/
def SafeFrom (r : R) : Counts → List (Event R) → Prop
  | _, [] => True
  | x, e :: tr => e.Needs r x ∧ 0 ≤ x + e.change r ∧ SafeFrom r (x + e.change r) tr

/-- The counts that a spawn passes are C integers, and their sum is not `2^32`. -/
def Fits (n : Counts) : Prop :=
  n.1 < 2147483648 ∧ n.2.1 < 2147483648 ∧ n.2.2 < 2147483648 ∧ n.1 + n.2.1 + n.2.2 ≠ 4294967296

theorem given_nonneg (h : Passes c₁) :
    0 ≤ given r c₁ ∧ ((given r c₁).1 = 0 → r ∉ xrgnsOfCons c₁ ∧ given r c₁ = 0) := by
  induction c₁ with
  | nil => exact ⟨le_refl _, fun _ => ⟨by simp [xrgnsOfCons], rfl⟩⟩
  | cons con cs ih =>
    obtain ⟨x, r', loc, rfl, hx⟩ := h con (.head _)
    obtain ⟨hnonneg, hzero⟩ := ih fun d hd => h d (.tail _ hd)
    obtain ⟨href, hwr, hrd⟩ := xcapOk_iff.1 hx
    by_cases hr : r' = r
    · subst hr
      simp only [given, if_true]
      refine ⟨add_nonneg ⟨href.le, hwr, hrd⟩ hnonneg, fun h => ?_⟩
      have hpos := hnonneg.1
      simp only [Prod.fst_add, Prod.fst_zero] at h hpos
      omega
    · simp only [given, hr, if_false, zero_add]
      refine ⟨hnonneg, fun h => ⟨?_, (hzero h).2⟩⟩
      simp [xrgnsOfCons, Con.xrgns, (hzero h).1, Ne.symm hr]

theorem ignored_iff {n : Counts} :
    Ignored (.ofCounts n) ↔ (n.1 + n.2.1 + n.2.2) % 4294967296 = 0 := by
  simp only [Ignored, XCap.ofCounts]
  rw [← Int32.ofInt_add, ← Int32.ofInt_add, ← Int32.toInt_inj, Int32.toInt_ofInt, Int32.toInt_zero,
    Int32.size, Int.bmod_def]
  omega

/-- A spawn whose counts fit is ignored only if it passes no count. -/
theorem given_eq_zero_of_ignored (hpass : Passes c₁) (hfit : Fits (given r c₁))
    (h : Ignored (.ofCounts (given r c₁))) : given r c₁ = 0 := by
  obtain ⟨hfr, hfw, hfl, hsum⟩ := hfit
  obtain ⟨hnonneg, hzero⟩ := given_nonneg hpass (r := r)
  obtain ⟨hgr, hgw, hgl⟩ := counts_nonneg_iff.1 hnonneg
  rw [ignored_iff] at h
  exact (hzero (by omega)).2

/-- The counts of the checker against those of the path: they are the same, or the checker has an
overflow behind it and only knows whether the reference count is zero. -/
structure Tracks (w : XCap) (x : Counts) : Prop where
  nonneg : 0 ≤ x
  eq_or_dead : x = w.counts ∨ xcapOk w = false ∧ (w.ref = 0 ↔ x.1 = 0)

variable {e : Event R}

/-- A checker without proper counts accepts no change. -/
theorem check_dead (hdead : xcapOk w = false) (h : Check r w e w') : w' = w := by
  cases h with
  | access | otherAccess | otherCap | ignored => rfl
  | cap hadd =>
    rw [(xcapAdd_some hadd).1] at hdead
    cases hdead
  | spawn _ _ hadd _ =>
    rw [(xcapXadd_some hadd).1] at hdead
    cases hdead

theorem checks_dead (hdead : xcapOk w = false) (h : Checks r w tr w') : w' = w := by
  induction h with
  | nil => rfl
  | cons hcheck _ ih =>
    obtain rfl := check_dead hdead hcheck
    exact ih hdead

variable {x : Counts}

theorem Tracks.eq_of_ok (h : Tracks w x) (hok : xcapOk w = true) : x = w.counts := by
  rcases h.eq_or_dead with heq | ⟨hdead, _⟩
  · exact heq
  · rw [hok] at hdead
    cases hdead

/-- A number that is too large for a C integer is stored as a negative one. -/
theorem toInt_ofInt_of_nonneg {n : Int} (h0 : 0 ≤ n) (h1 : n < 4294967296) :
    (Int32.ofInt n).toInt = if n < 2147483648 then n else n - 4294967296 := by
  rw [Int32.toInt_ofInt, Int32.size, Int.bmod_def]
  split_ifs <;> omega

/-- After an addition, the counts agree or the checker is dead. -/
theorem tracks_ofCounts (hx : 0 ≤ x)
    (hlt : x.1 < 4294967296 ∧ x.2.1 < 4294967296 ∧ x.2.2 < 4294967296) :
    Tracks (.ofCounts x) x := by
  refine ⟨hx, ?_⟩
  obtain ⟨hx1, hx2, hx3⟩ := counts_nonneg_iff.1 hx
  have href : (XCap.ofCounts x).counts.1 = _ := toInt_ofInt_of_nonneg hx1 hlt.1
  have hwr : (XCap.ofCounts x).counts.2.1 = _ := toInt_ofInt_of_nonneg hx2 hlt.2.1
  have hrd : (XCap.ofCounts x).counts.2.2 = _ := toInt_ofInt_of_nonneg hx3 hlt.2.2
  -- without overflow the counts agree; with one, a stored count is negative
  by_cases hsmall : x.1 < 2147483648 ∧ x.2.1 < 2147483648 ∧ x.2.2 < 2147483648
  · rw [if_pos hsmall.1] at href
    rw [if_pos hsmall.2.1] at hwr
    rw [if_pos hsmall.2.2] at hrd
    exact .inl (Prod.ext href.symm (Prod.ext hwr.symm hrd.symm))
  · right
    constructor
    · rw [Bool.eq_false_iff, Ne, xcapOk_iff]
      split_ifs at href hwr hrd <;> omega
    · rw [← Int32.toInt_inj]
      change (XCap.ofCounts x).counts.1 = 0 ↔ x.1 = 0
      split_ifs at href <;> omega

/-- An access that is solved without a parent finds what it needs. -/
theorem needs_of_solve {a : Access} (h : (solve true a w).isSome) :
    a = .notLive ∨ xcapOk w = true ∧ a.Needs w.counts := by
  by_cases hok : xcapOk w = true
  · refine or_iff_not_imp_left.2 fun hnot => ⟨hok, ?_⟩
    obtain ⟨href, hwr, hrd⟩ := xcapOk_iff.1 hok
    simp only [XCap.counts] at hwr hrd
    cases a with
    | live => exact href
    | rd =>
      have hsum : 0 < (w.wr + w.rd).toInt := by
        simpa [solve, hok, Int32.lt_iff_toInt_lt] using h
      refine ⟨href, ?_⟩
      -- if both counts are zero, then so is their sum
      by_contra hle
      simp only [XCap.counts] at hle
      rw [Int32.toInt_add, show w.wr.toInt + w.rd.toInt = 0 by omega] at hsum
      exact absurd hsum (by decide)
    | wr =>
      have hpos : 0 < w.wr.toInt := by
        simpa [solve, hok, Int32.lt_iff_toInt_lt] using h
      exact ⟨href, hpos⟩
    | notLive => exact absurd rfl hnot
    | notRW | notW => trivial
  · by_cases hnot : a = .notLive
    · exact .inl hnot
    · simp [solve, hok, hnot] at h

/-- One event: if the checker accepts it, and it is not a spawn whose counts are too large, then it
finds what it needs, and the counts of the checker keep up with those of the path. -/
theorem Tracks.step (h : Tracks w x)
    (hcheck : Check r w e w') (hfit : ∀ c₁ c₂, e = .spawn c₁ c₂ → Fits (given r c₁)) :
    e.Needs r x ∧ Tracks w' (x + e.change r) := by
  cases hcheck with
  | @access a _ hsolve =>
    refine ⟨fun _ => ?_, by simpa [Event.change] using h⟩
    rcases needs_of_solve hsolve with rfl | ⟨hok, hneeds⟩
    · trivial
    · rw [h.eq_of_ok hok]
      exact hneeds
  | otherAccess hr =>
    exact ⟨fun he => absurd he hr, by simpa [Event.change] using h⟩
  | otherCap hr =>
    exact ⟨trivial, by simpa [Event.change, hr] using h⟩
  | @cap d _ _ hadd =>
    obtain ⟨hok, hnonneg, rfl⟩ := xcapAdd_some hadd
    obtain ⟨⟨_, hr⟩, ⟨_, hw⟩, _, hl⟩ := w.intRange_counts
    obtain ⟨⟨_, hr'⟩, ⟨_, hw'⟩, _, hl'⟩ := d.intRange_counts
    refine ⟨trivial, ?_⟩
    rw [h.eq_of_ok hok]
    simp only [Event.change]
    -- the sum of two C integers is below `2^32`
    apply tracks_ofCounts hnonneg
    simp only [Prod.fst_add, Prod.snd_add]
    omega
  | @spawn c₁ c₂ _ _ _ hpass _ hadd _ =>
    obtain ⟨hfr, hfw, hfl, _⟩ := hfit c₁ c₂ rfl
    obtain ⟨hgr, hgw, hgl⟩ := counts_nonneg_iff.1 (given_nonneg hpass (r := r)).1
    have hgiven : (XCap.ofCounts (given r c₁)).counts = given r c₁ :=
      XCap.counts_ofCounts ⟨⟨by omega, hfr⟩, ⟨by omega, hfw⟩, by omega, hfl⟩
    obtain ⟨hok, _, hle, hall, rfl⟩ := xcapXadd_some hadd
    rw [hgiven] at hle hall ⊢
    rw [h.eq_of_ok hok]
    refine ⟨hall, ?_⟩
    obtain ⟨⟨_, hr⟩, ⟨_, hw⟩, _, hl⟩ := w.intRange_counts
    apply tracks_ofCounts (sub_nonneg.2 hle)
    simp only [Prod.fst_sub, Prod.snd_sub]
    omega
  | @ignored c₁ c₂ _ hpass hzero =>
    have hnone := given_eq_zero_of_ignored hpass (hfit c₁ c₂ rfl) hzero
    simp only [Event.Needs, Event.change, hnone]
    exact ⟨.inl rfl, by simpa using h⟩

/-- A whole path: it is safe, and the counts of the checker keep up. -/
theorem Tracks.run (h : Tracks w x)
    (hchecks : Checks r w tr y) (hfit : ∀ c₁ c₂, .spawn c₁ c₂ ∈ tr → Fits (given r c₁)) :
    SafeFrom r x tr ∧ Tracks y (x + net r tr) := by
  induction hchecks generalizing x with
  | nil => exact ⟨trivial, by simpa using h⟩
  | @cons _ e _ tr _ hcheck _ ih =>
    obtain ⟨hneeds, hnext⟩ := h.step hcheck
      (fun c₁ c₂ he => hfit c₁ c₂ (he ▸ (.head _)))
    obtain ⟨hsafe, hend⟩ := ih hnext fun c₁ c₂ hmem => hfit c₁ c₂ (.tail e hmem)
    refine ⟨⟨hneeds, hnext.nonneg, hsafe⟩, ?_⟩
    rw [net_cons, ← add_assoc]
    exact hend

theorem Tracks.ref_eq_zero_iff (h : Tracks w x) : w.ref = 0 ↔ x.1 = 0 := by
  rcases h.eq_or_dead with rfl | ⟨_, hiff⟩
  · rw [← Int32.toInt_inj]
    rfl
  · exact hiff

/-! ## Spawns that are ignored wrongly -/

/-- The reference count of the path is behind that of the checker, or the latter is negative. -/
def Lags (w : XCap) (x : Counts) : Prop := w.counts.1 < 0 ∨ x.1 < w.counts.1

theorem toInt_ofInt_le {n : Int} (h : 0 ≤ n) : (Int32.ofInt n).toInt ≤ n := by
  rw [Int32.toInt_ofInt, Int32.size, Int.bmod_def]
  split_ifs <;> omega

theorem Lags.step (h : Lags w x) (hcheck : Check r w e w') : Lags w' (x + e.change r) := by
  cases hcheck with
  | access | otherAccess => simpa [Event.change] using h
  | otherCap hr => simpa [Event.change, hr] using h
  | @cap d _ _ hadd =>
    obtain ⟨hok, hnonneg, rfl⟩ := xcapAdd_some hadd
    obtain ⟨href, _⟩ := xcapOk_iff.1 hok
    have hlag : x.1 < w.counts.1 := h.resolve_left (by omega)
    obtain ⟨⟨_, hw⟩, _⟩ := w.intRange_counts
    obtain ⟨⟨_, hd⟩, _⟩ := d.intRange_counts
    -- an overflow makes the count of the checker negative
    have hnew : (XCap.ofCounts (w.counts + d.counts)).counts.1 = _ :=
      toInt_ofInt_of_nonneg hnonneg.1 (by simp only [Prod.fst_add]; omega)
    rw [Lags, hnew]
    simp only [Event.change, Prod.fst_add]
    split_ifs <;> omega
  | @spawn c₁ c₂ _ _ _ hpass _ hadd _ =>
    obtain ⟨hok, hok', hle, _, rfl⟩ := xcapXadd_some hadd
    obtain ⟨href, _⟩ := xcapOk_iff.1 hok
    have hlag : x.1 < w.counts.1 := h.resolve_left (by omega)
    -- the checker takes away at most what the path gives away
    have hgiven : (XCap.ofCounts (given r c₁)).counts.1 ≤ (given r c₁).1 :=
      toInt_ofInt_le (given_nonneg hpass).1.1
    obtain ⟨hle1, hle2, hle3⟩ : _ ∧ _ ∧ _ := hle
    obtain ⟨h1, h2, h3⟩ := xcapOk_iff.1 hok'
    obtain ⟨⟨_, hwr⟩, ⟨_, hww⟩, _, hwl⟩ := w.intRange_counts
    right
    rw [XCap.counts_ofCounts ⟨⟨?_, ?_⟩, ⟨?_, ?_⟩, ?_, ?_⟩]
    all_goals simp only [Event.change, Prod.fst_sub, Prod.snd_sub, Prod.fst_add, Prod.fst_neg]
    all_goals omega
  | ignored hpass _ =>
    have hpos := (given_nonneg hpass (r := r)).1.1
    unfold Lags at h ⊢
    simp only [Event.change, Prod.fst_add, Prod.fst_neg, Prod.fst_zero] at hpos ⊢
    omega

theorem Lags.run (h : Lags w x) (hchecks : Checks r w tr y) : Lags y (x + net r tr) := by
  induction hchecks generalizing x with
  | nil => simpa using h
  | cons hcheck _ ih =>
    rw [net_cons, ← add_assoc]
    exact ih (h.step hcheck)

theorem SafeFrom.nonneg (h : SafeFrom r x tr) (hx : 0 ≤ x) : 0 ≤ x + net r tr := by
  induction tr generalizing x with
  | nil => simpa using hx
  | cons e tr ih =>
    rw [net_cons, ← add_assoc]
    exact ih h.2.2 h.2.1

theorem Check.passes {c₂ : List (Con R)} (h : Check r w (.spawn c₁ c₂) w') : Passes c₁ := by
  cases h with
  | spawn hpass | ignored hpass => exact hpass

/-- If a path is safe and the checker ends with reference count zero, then the counts of its spawns
fit. -/
theorem fits_of_safe (h : Tracks w x)
    (hchecks : Checks r w tr y) (hy : y.ref = 0) (hsafe : SafeFrom r x tr) :
    ∀ c₁ c₂, .spawn c₁ c₂ ∈ tr → Fits (given r c₁) := by
  induction hchecks generalizing x with
  | nil => exact nofun
  | @cons w e w' tr y hcheck hrest ih =>
    obtain ⟨_, hnonneg, hsafe'⟩ := hsafe
    have hhead : ∀ c₁ c₂, e = .spawn c₁ c₂ → Fits (given r c₁) := by
      rintro c₁ c₂ rfl
      obtain ⟨hgiven, hzero⟩ := given_nonneg hcheck.passes (r := r)
      obtain ⟨hgr, hgw, hgl⟩ := counts_nonneg_iff.1 hgiven
      obtain ⟨hr, hw, hl⟩ := counts_nonneg_iff.1 hnonneg
      simp only [Event.change, Prod.fst_add, Prod.snd_add, Prod.fst_neg, Prod.snd_neg] at hr hw hl
      rcases h.eq_or_dead with rfl | ⟨hdead, hiff⟩
      · obtain ⟨⟨_, hwr⟩, ⟨_, hww⟩, _, hwl⟩ := w.intRange_counts
        refine ⟨by omega, by omega, by omega, fun hsum => ?_⟩
        -- the spawn is ignored, and the path never catches up with the checker
        cases hcheck with
        | spawn _ hnot => exact hnot (ignored_iff.2 (by omega))
        | ignored _ _ =>
          have hlag : Lags w (w.counts + Event.change r (.spawn c₁ c₂)) := by
            right
            simp only [Event.change, Prod.fst_add, Prod.fst_neg]
            omega
          have hend : (0 : Int) ≤ _ := (hsafe'.nonneg hnonneg).1
          have hy0 : y.counts.1 = 0 := by rw [XCap.counts, hy, Int32.toInt_zero]
          rcases hlag.run hrest with hneg | hlt
          · omega
          · omega
      · -- the checker accepts no change any more, so its reference count is zero already
        obtain rfl := checks_dead hdead (.cons hcheck hrest)
        have hx := hiff.1 hy
        obtain ⟨_, hnone⟩ := hzero (by omega)
        rw [hnone]
        exact ⟨by decide, by decide, by decide, by decide⟩
    intro c₁ c₂ hmem
    rcases List.mem_cons.1 hmem with rfl | hmem
    · exact hhead c₁ c₂ rfl
    · exact ih (h.step hcheck hhead).2 hy hsafe' c₁ c₂ hmem

end ConcurrentCyclone.XInfer
