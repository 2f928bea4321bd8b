import ConcurrentCyclone.Tcpat.MatchCorrect

/-!
# Exhaustive and redundant rules

What the type checker reads off a decision tree: the rules are not exhaustive if the tree has a
failure, and a rule is redundant if its right-hand side is not in the tree. `matchCompile_correct`
says when the two reports are exact; the run of the tree is right in any case.
-/

set_option autoImplicit false

namespace ConcurrentCyclone.Tcpat

open Lib ConcurrentCyclone.Runtime

universe u v

/-! ## The reports -/

section Reports

variable {ρ : Type v}

/-- The report has an outcome. -/
def Found.Has (f : Found ρ) : Outcome ρ → Prop
  | .failure => f.notExhaust.isSome
  | .success r => r ∈ f.appears

variable {o : Outcome ρ}

mutual

/-- `check_exhaust_overlap` reports what is in the tree. -/
theorem checkExhaustOverlap_has_iff : ∀ (d : Decision ρ) (f : Found ρ),
    (checkExhaustOverlap d f).Has o ↔ f.Has o ∨ o ∈ d.leaves
  | .failure _, f | .success _, f => by
    cases o <;> simp [Found.Has, checkExhaustOverlap, Decision.leaves]
  | .switchDec _ clauses dflt, f => by
    rw [checkExhaustOverlap, checkExhaustOverlap_has_iff dflt, checkClauses_has_iff clauses,
      Decision.leaves, List.mem_append, or_assoc]

theorem checkClauses_has_iff : ∀ (cs : Clauses ρ) (f : Found ρ),
    (checkClauses cs f).Has o ↔ f.Has o ∨ o ∈ cs.leaves
  | .nil, f => by simp [checkClauses, Clauses.leaves]
  | .cons _ d rest, f => by
    rw [checkClauses, checkClauses_has_iff rest, checkExhaustOverlap_has_iff d, Clauses.leaves,
      List.mem_append, or_assoc]

end

end Reports

/-! ## The result -/

section Result

variable {ρ : Type v} {v : Value}

variable {rules : List (SimplePat × ρ)}

theorem firstMatch_eq_failure :
    firstMatch rules v = .failure ↔ ∀ r ∈ rules, r.1.matches v = false := by
  induction rules with
  | nil => simp [firstMatch]
  | cons r rules ih =>
    rw [firstMatch, List.forall_mem_cons, ← ih]
    cases r.1.matches v with
    | false | true => simp

theorem mem_of_firstMatch {r : ρ}
    (h : firstMatch rules v = .success r) : r ∈ rules.map Prod.snd := by
  induction rules with
  | nil => cases h
  | cons r' rules ih =>
    rw [firstMatch] at h
    split_ifs at h
    · obtain rfl := Outcome.success.inj h
      exact List.mem_cons_self ..
    · exact .tail _ (ih h)

/-- The right-hand side of rule `i` is the outcome if the rule matches and no earlier one does. -/
theorem firstMatch_eq_success (hrhs : (rules.map Prod.snd).Nodup)
    {i : Nat} {r : SimplePat × ρ} (hi : rules[i]? = some r) : firstMatch rules v = .success r.2 ↔
      r.1.matches v = true ∧ ∀ r' ∈ rules.take i, r'.1.matches v = false := by
  induction rules generalizing i with
  | nil => cases hi
  | cons r' rules ih =>
    obtain ⟨hnot, hrhs⟩ := List.nodup_cons.1 hrhs
    cases i with
    | zero =>
      obtain rfl := Option.some.inj hi
      have hne : firstMatch rules v ≠ .success r'.2 := fun h => hnot (mem_of_firstMatch h)
      rw [firstMatch]
      cases r'.1.matches v with
      | false => simpa using hne
      | true => simp
    | succ i =>
      have hmem : r ∈ rules := List.mem_of_getElem? hi
      have hne : r'.2 ≠ r.2 := fun heq => hnot (heq ▸ List.mem_map_of_mem hmem)
      rw [firstMatch, List.take_succ_cons, List.forall_mem_cons]
      cases r'.1.matches v with
      | false => simpa using ih hrhs hi
      | true => simpa using hne

variable {Ty : Type u} {S : Signature Ty} {K : Ty → Con → Prop} {τ₀ : Ty}

/-- The tree of typed rules: for every value the run ends at the first rule that matches. If no
comparison overflows and every type without span has an unused constructor, the tree also has a
failure only if some value is not matched, and lacks a right-hand side only if earlier rules match
all that its rule matches. -/
theorem matchCompile_correct (hS : S.WellFormed) {rules : List (SimplePat × ρ)}
    (hrules : ∀ r ∈ rules, r.1.Typed S K τ₀) (hrhs : (rules.map Prod.snd).Nodup) :
    ∃ t, matchCompile rules = some t ∧
      (∀ v, HasType S τ₀ v → t.run v = some (firstMatch rules v)) ∧
      (∀ v, HasType S τ₀ v →
        (t.run v = some .failure ↔ ∀ r ∈ rules, r.1.matches v = false)) ∧
      (AllNear (matchCompileCmps rules) → S.LeavesOpen K →
        (.failure ∈ t.leaves ↔ ∃ v, HasType S τ₀ v ∧ ∀ r ∈ rules, r.1.matches v = false) ∧
        ∀ i r, rules[i]? = some r →
          (.success r.2 ∉ t.leaves ↔ ∀ v, HasType S τ₀ v → r.1.matches v = true →
            ∃ r' ∈ rules.take i, r'.1.matches v = true)) := by
  obtain ⟨t, ht, hspec⟩ := matchCompile_spec (R := fun _ => True) hS id
    fun r hr => ⟨hrules r hr, trivial⟩
  have hrun : ∀ v, HasType S τ₀ v → t.run v = some (firstMatch rules v) :=
    hspec.run
  refine ⟨t, ht, hrun, fun v hv => ?_, fun hfit hopen => ?_⟩
  · rw [hrun v hv, Option.some.injEq, firstMatch_eq_failure]
  · -- a leaf is in the tree iff some value gets to it
    have hleaf : ∀ o, o ∈ t.leaves ↔ ∃ v, HasType S τ₀ v ∧ firstMatch rules v = o := by
      refine fun o => ⟨fun ho => ?_, ?_⟩
      · obtain ⟨v, hv, hout⟩ := hspec.reached (fun _ => .inr ⟨hfit, hopen⟩) o ho
        exact ⟨v, hv, hout⟩
      · rintro ⟨v, hv, rfl⟩
        exact t.run_mem_leaves (hrun v hv)
    refine ⟨?_, fun i r hi => ?_⟩
    · simp only [hleaf, firstMatch_eq_failure]
    · simp only [hleaf, firstMatch_eq_success hrhs hi]
      push Not
      simp only [Bool.not_eq_false]

end Result

/-! ## Integers, and pairs of them -/

/-- The types `int` and `$(int, int)`. -/
inductive PairTy where
  | int
  | pair

/-- The constructors of `int` and `$(int, int)`. -/
def pairSig : Signature PairTy where
  args
    | .int, .int i => if -2147483648 ≤ i ∧ i < 2147483648 then some [] else none
    | .pair, .name s => if s = "$" then some [.int, .int] else none
    | _, _ => none
  span
    | .int => none
    | .pair => some 1
  access _ _ i := .tupleField i

theorem isSome_pairSig_int {n : NameValue} :
    (pairSig.args .int n).isSome ↔ ∃ i, n = .int i ∧ -2147483648 ≤ i ∧ i < 2147483648 := by
  cases n with
  | name | int => simp [pairSig]

theorem isSome_pairSig_pair {n : NameValue} :
    (pairSig.args .pair n).isSome ↔ n = .name "$" := by
  cases n with
  | name | int => simp [pairSig]

theorem wellFormed_pairSig : pairSig.WellFormed where
  span_right := by
    rintro (_ | _) k hk
    · cases hk
    · obtain rfl := Option.some.inj hk
      refine ⟨[.name "$"], by decide, rfl, fun n => ?_⟩
      rw [isSome_pairSig_pair, List.mem_singleton]
  inhabited := by
    have hzero : HasType pairSig .int (.con (.int 0) []) := .con rfl .nil
    rintro (_ | _)
    · exact ⟨_, hzero⟩
    · exact ⟨.con (.name "$") [_, _], .con rfl (.cons hzero (.cons hzero .nil))⟩
  access_inj := by
    -- only pairs have arguments
    have hpair : ∀ {τ n τs σ} {i : Nat}, pairSig.args τ n = some τs → τs[i]? = some σ →
        n = .name "$" := by
      rintro (_ | _) n τs σ i hargs hi
      · obtain ⟨j, rfl, hj⟩ := isSome_pairSig_int.1 (Option.isSome_of_eq_some hargs)
        cases (if_pos hj).symm.trans hargs
        cases hi
      · exact isSome_pairSig_pair.1 (Option.isSome_of_eq_some hargs)
    intro τ n n' i i' τs τs' σ σ' hn hi hn' hi' _ hsame
    exact ⟨(hpair hn hi).trans (hpair hn' hi').symm, by simpa [pairSig, sameAccess] using hsame⟩
  int_range := by
    rintro (_ | _) i hi
    · obtain ⟨j, hj, hrange⟩ := isSome_pairSig_int.1 hi
      cases hj
      exact hrange
    · simp [isSome_pairSig_pair] at hi
  span_fits := by
    rintro (_ | _) k i j hk hi hj
    · cases hk
    · simp [isSome_pairSig_pair] at hi

/-- An integer pattern. -/
def intPat (i : Int) : SimplePat := .con (intCon i (.pattern .int)) []

/-- A pattern for a pair of integers. -/
def pairPat (i j : Int) : SimplePat := .con (tupleCon 2 (.pattern .tuple)) [intPat i, intPat j]

variable {K : PairTy → Con → Prop}

theorem typed_intPat {i : Int} (hrange : -2147483648 ≤ i ∧ i < 2147483648)
    (hK : K .int (intCon i (.pattern .int))) : (intPat i).Typed pairSig K .int := by
  refine .con ⟨if_pos hrange, rfl, rfl, ?_, fun _ => rfl, hK⟩ .nil
  exact fun j hj => absurd hj (Nat.not_lt_zero j)

theorem typed_pairPat {i j : Int} (hi : (intPat i).Typed pairSig K .int)
    (hj : (intPat j).Typed pairSig K .int) (hK : K .pair (tupleCon 2 (.pattern .tuple))) :
    (pairPat i j).Typed pairSig K .pair :=
  .con ⟨rfl, rfl, rfl, fun _ _ => rfl, fun h => absurd rfl h, hK⟩ (.cons hi (.cons hj .nil))

/-- `case $(0,2147483647):`, `case $(1,-2):` and `case _:`. -/
def pairRules : List (SimplePat × Nat) :=
  [(pairPat 0 2147483647, 0), (pairPat 1 (-2), 1), (.any, 2)]

/-- The constructors of the patterns. -/
def pairUsed (_ : PairTy) (c : Con) : Prop :=
  c = tupleCon 2 (.pattern .tuple) ∨
    c ∈ [0, 2147483647, 1, -2].map fun i => intCon i (.pattern .int)

/-- The two integers that are far apart are never compared: every pair is matched, and every rule is
needed. -/
theorem matchCompile_correct_pairRules : ∃ t, matchCompile pairRules = some t ∧
      (∀ v, HasType pairSig .pair v → t.run v = some (firstMatch pairRules v)) ∧
      .failure ∉ t.leaves ∧ .success 1 ∈ t.leaves := by
  have hint : ∀ i ∈ [0, 2147483647, 1, -2], (intPat i).Typed pairSig pairUsed .int := by
    intro i hi
    refine typed_intPat ?_ (.inr (List.mem_map_of_mem hi))
    revert i
    decide
  have htyped : ∀ r ∈ pairRules, r.1.Typed pairSig pairUsed .pair := by
    simp only [pairRules, List.forall_mem_cons, List.not_mem_nil, false_implies, implies_true,
      and_true]
    exact ⟨typed_pairPat (hint _ (by decide)) (hint _ (by decide)) (.inl rfl),
      typed_pairPat (hint _ (by decide)) (hint _ (by decide)) (.inl rfl), .any⟩
  obtain ⟨t, ht, hrun, _, hexact⟩ := matchCompile_correct wellFormed_pairSig htyped (by decide)
  have hnear : AllNear (matchCompileCmps pairRules) := by
    unfold AllNear
    decide +kernel
  have hopen : pairSig.LeavesOpen pairUsed := by
    rintro (_ | _) hspan
    · refine ⟨.int 4, rfl, ?_⟩
      rintro c (rfl | hc)
      · decide
      · revert c
        decide
    · cases hspan
  obtain ⟨hfailure, hredundant⟩ := hexact hnear hopen
  refine ⟨t, ht, hrun, fun h => ?_, by_contra fun h => ?_⟩
  · obtain ⟨v, -, hv⟩ := hfailure.1 h
    cases hv (.any, 2) (by simp [pairRules])
  · have hv : HasType pairSig .pair (.con (.name "$") [.con (.int 1) [], .con (.int (-2)) []]) :=
      .con rfl (.cons (.con rfl .nil) (.cons (.con rfl .nil) .nil))
    obtain ⟨r, hr, hmatch⟩ := (hredundant 1 _ rfl).1 h _ hv (by decide)
    obtain rfl := List.mem_singleton.1 hr
    revert hmatch
    decide

/-- Rules for `0`, `2147483647`, `-2` and again `2147483647`. -/
def farRules : List (SimplePat × Nat) :=
  [(intPat 0, 0), (intPat 2147483647, 1), (intPat (-2), 2), (intPat 2147483647, 3)]

/-- The last rule is the same as the second, but it is in the tree: `compare_con` overflows on
`2147483647` and `-2`, so `member` does not find the constructor of the second rule. -/
theorem redundant_rule_appears :
    pairSig.WellFormed ∧ (∀ r ∈ farRules, r.1.Typed pairSig (fun _ _ => True) .int) ∧
      (farRules.map Prod.snd).Nodup ∧
      (∀ r, farRules[3]? = some r → ∀ v, r.1.matches v = true →
        ∃ r' ∈ farRules.take 3, r'.1.matches v = true) ∧
      ∃ t, matchCompile farRules = some t ∧ .success 3 ∈ t.leaves := by
  refine ⟨wellFormed_pairSig, ?_, by decide, ?_, ?_⟩
  · simp only [farRules, List.forall_mem_cons, List.not_mem_nil, false_implies, implies_true,
      and_true]
    exact ⟨typed_intPat (by decide) trivial, typed_intPat (by decide) trivial,
      typed_intPat (by decide) trivial, typed_intPat (by decide) trivial⟩
  · intro r hr v hv
    obtain rfl := Option.some.inj hr
    exact ⟨(intPat 2147483647, 1), by simp [farRules], hv⟩
  · have hleaves : (matchCompile farRules).map Decision.leaves =
        some [.success 0, .success 1, .success 2, .success 3, .failure] := by decide +kernel
    obtain ⟨t, ht, heq⟩ := Option.map_eq_some_iff.1 hleaves
    exact ⟨t, ht, by simp [heq]⟩

end ConcurrentCyclone.Tcpat
