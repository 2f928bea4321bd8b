import Mathlib.Data.List.TakeWhile

/-!
# Search for a string in a string

`strstr` of `lib/string.cyc`, with `strlen`, `strncmp` and `strchr`. The search goes from one
occurrence of the first character to the next. It looks for each of them twice: at the end of a
round behind the last one, and in the test of the loop from there on, which finds the same place or
the null pointer again. The answer is the first place where the string occurs (`strstr_first`).
-/

set_option autoImplicit false

namespace ConcurrentCyclone.Lib.Str

/-- The elements of an array from a pointer on. -/
abbrev Cells := List (BitVec 8)

/-- A string pointer that is not null: there is a NUL among the elements. -/
structure Text where
  cells : Cells
  nul : 0#8 ∈ cells

/-- Why a call has no result. -/
inductive Stop where
  | invalidArgument (s : String)
  | assertion
  /-- The bound on the rounds of the loop is met. -/
  | rounds

def strlen (s : Cells) : Nat := s.findIdx (· = 0#8)

/-- The loop of `ncmp`; `none` when it finds no difference. -/
def ncmpLoop : Nat → Cells → Cells → Option Int
  | bound + 1, a :: s1, b :: s2 =>
    if a.toInt - b.toInt ≠ 0 then some (a.toInt - b.toInt) else ncmpLoop bound s1 s2
  | _, _, _ => none

def ncmp (s1 : Cells) (len1 : Nat) (s2 : Cells) (len2 n : Nat) : Except Stop Int :=
  if n ≤ 0 then .ok 0
  else
    let bound := min n (min len1 len2)
    if bound ≤ s1.length ∧ bound ≤ s2.length then
      .ok ((ncmpLoop bound s1 s2).getD (if len1 < n ∨ len2 < n then (len1 : Int) - len2 else 0))
    else .error .assertion

def strncmp (s1 s2 : Cells) (n : Nat) : Except Stop Int := ncmp s1 (strlen s1) s2 (strlen s2) n

/-- The characters of a string: the elements before the NUL. -/
def chars (s : Cells) : Cells := s.takeWhile (· ≠ 0#8)

/-- The loop of `strchr`, up to the NUL or the end of the array. -/
def strchrLoop (c : BitVec 8) : Cells → Option Cells
  | [] => none
  | c2 :: s => if c2 = 0#8 then none else if c2 = c then some (c2 :: s) else strchrLoop c s

/-- `strchr`; the null pointer has no elements. -/
def strchr (s : Option Cells) (c : BitVec 8) : Option Cells := s.bind (strchrLoop c)

/-- The loop of `strstr`, for at most the given number of rounds. -/
def strstrLoop (needle : Cells) (c : BitVec 8) (len : Nat) :
    Nat → Option Cells → Except Stop (Option Cells)
  | 0, _ => .error .rounds
  | k + 1, start =>
    match strchr start c with
    | none => .ok none
    | some start =>
      (strncmp start needle len).bind fun r =>
        if r = 0 then .ok (some start)
        else strstrLoop needle c len k (strchr (some start.tail) c)

def strstr : Option Text → Option Text → Except Stop (Option Cells)
  | some haystack, some needle =>
    let c := needle.cells.head (List.ne_nil_of_mem needle.nul)
    if c = 0#8 then .ok (some haystack.cells)
    else
      strstrLoop needle.cells c (strlen needle.cells) (haystack.cells.length + 1)
        (some haystack.cells)
  | _, _ => .error (.invalidArgument "strstr")

/-- The characters `n` stand in the string `h` at place `k`. -/
def OccursAt (n h : Cells) (k : Nat) : Prop := n <+: (chars h).drop k

/-- The pointer is to the first place where `n` occurs in `h`, and null exactly if there is none. -/
structure First (n h : Cells) (p : Option Cells) : Prop where
  place : ∀ t, p = some t → ∃ k, t = h.drop k ∧ OccursAt n h k ∧ ∀ j < k, ¬ OccursAt n h j
  null : p = none ↔ ∀ k, ¬ OccursAt n h k

variable {s s1 s2 n : Cells} {c : BitVec 8} {k : Nat}

/-! ## Comparisons -/

theorem strlen_le (s : Cells) : strlen s ≤ s.length := List.findIdx_le_length

theorem chars_eq (s : Cells) : chars s = s.take (strlen s) := by
  rw [chars, List.takeWhile_eq_take_findIdx_not]
  simp [strlen]

theorem length_chars (s : Cells) : (chars s).length = strlen s := by
  rw [chars_eq, List.length_take, Nat.min_eq_left (strlen_le s)]

theorem ncmpLoop_getD {d : Int} (h1 : k ≤ s1.length) (h2 : k ≤ s2.length) :
    (ncmpLoop k s1 s2).getD d = 0 ↔ s1.take k = s2.take k ∧ d = 0 := by
  induction k generalizing s1 s2 with
  | zero => simp [ncmpLoop]
  | succ k ih =>
    obtain ⟨a, s1, rfl⟩ := List.exists_cons_of_length_pos (Nat.zero_lt_of_lt h1)
    obtain ⟨b, s2, rfl⟩ := List.exists_cons_of_length_pos (Nat.zero_lt_of_lt h2)
    have hrest := ih (Nat.le_of_succ_le_succ h1) (Nat.le_of_succ_le_succ h2)
    by_cases hab : a = b
    · simpa [ncmpLoop, hab] using hrest
    · have hdiff : a.toInt - b.toInt ≠ 0 := fun h => hab (BitVec.toInt_inj.1 (Int.sub_eq_zero.1 h))
      simp [ncmpLoop, hdiff, hab]

/-- The comparison over the length of the second string finds out whether the first one starts with
it. -/
theorem strncmp_spec (s1 : Cells) (hpos : 0 < strlen s2) :
    ∃ r, strncmp s1 s2 (strlen s2) = .ok r ∧ (r = 0 ↔ chars s2 <+: chars s1) := by
  have hle1 := strlen_le s1
  have hle2 := strlen_le s2
  simp only [strncmp, ncmp, Nat.not_le.2 hpos, if_false]
  rw [if_pos (by omega)]
  refine ⟨_, rfl, ?_⟩
  rw [ncmpLoop_getD (by omega) (by omega)]
  by_cases hle : strlen s2 ≤ strlen s1
  · rw [if_neg (by omega), min_eq_left (by omega), List.prefix_iff_eq_take, length_chars,
      chars_eq s1, chars_eq s2, List.take_take, min_eq_left hle, eq_comm]
    exact and_iff_left rfl
  · refine iff_of_false (fun h => ?_) fun h => hle ?_
    · rw [if_pos (by omega)] at h
      omega
    · simpa only [length_chars] using h.length_le

/-! ## The search -/

theorem chars_cons (hc : c ≠ 0#8) : chars (c :: s) = c :: chars s := by
  simp [chars, hc]

theorem first_here (h : n <+: chars s) : First n s (some s) where
  place := by
    rintro _ ⟨rfl⟩
    exact ⟨0, rfl, h, nofun⟩
  null := iff_of_false nofun fun hno => hno 0 h

/-- A character where `n` does not start is passed. -/
theorem First.cons {p : Option Cells} (hc : c ≠ 0#8) (hno : ¬ n <+: chars (c :: s))
    (h : First n s p) : First n (c :: s) p := by
  have hsucc : ∀ k, OccursAt n (c :: s) (k + 1) ↔ OccursAt n s k := fun k => by
    rw [OccursAt, chars_cons hc, List.drop_succ_cons, OccursAt]
  constructor
  · intro t ht
    obtain ⟨k, rfl, hk, hbefore⟩ := h.place t ht
    refine ⟨k + 1, rfl, (hsucc k).2 hk, ?_⟩
    rintro (_ | j) hj hocc
    · exact hno hocc
    · exact hbefore j (Nat.lt_of_succ_lt_succ hj) ((hsucc j).1 hocc)
  · rw [h.null, ← Nat.and_forall_add_one (p := fun k => ¬ OccursAt n (c :: s) k)]
    simp only [hsucc]
    exact (and_iff_right hno).symm

/-- A string does not occur before its first character does. -/
theorem strchrLoop_first (c : BitVec 8) (n s : Cells) :
    strchrLoop c s = none ∧ First (c :: n) s none ∨
      ∃ t, strchrLoop c s = some (c :: t) ∧ c ≠ 0#8 ∧ t.length < s.length ∧
        ∀ p, First (c :: n) (c :: t) p → First (c :: n) s p := by
  fun_induction strchrLoop c s with
  | case1 | case2 => exact .inl ⟨rfl, nofun, iff_of_true rfl (by simp [OccursAt, chars])⟩
  | case3 s hc => exact .inr ⟨s, rfl, hc, Nat.lt_succ_self _, fun _ h => h⟩
  | case4 a s ha hne ih =>
    have hno : ¬ c :: n <+: chars (a :: s) := by
      rw [chars_cons ha, List.cons_prefix_cons]
      exact fun h => hne h.1.symm
    rcases ih with ⟨hnone, hfirst⟩ | ⟨t, hsome, hc, hlt, hfirst⟩
    · exact .inl ⟨hnone, hfirst.cons ha hno⟩
    · exact .inr ⟨t, hsome, hc, Nat.lt_succ_of_lt hlt, fun p h => (hfirst p h).cons ha hno⟩

/-- Each round passes a place, so the rounds are enough. -/
theorem strstrLoop_first {needle : Cells} (hn : chars needle = c :: n) (hk : s.length < k) :
    ∃ p, strstrLoop needle c (strlen needle) k (some s) = .ok p ∧ First (c :: n) s p := by
  have hpos : 0 < strlen needle := by
    rw [← length_chars, hn]
    exact Nat.succ_pos _
  induction k generalizing s with
  | zero => exact absurd hk (Nat.not_lt_zero _)
  | succ k ih =>
    rw [strstrLoop, strchr, Option.bind_some]
    rcases strchrLoop_first c n s with ⟨hs, hfirst⟩ | ⟨t, hs, hc, hlt, hfirst⟩
    · rw [hs]
      exact ⟨none, rfl, hfirst⟩
    · obtain ⟨r, hr, hzero⟩ := strncmp_spec (c :: t) hpos
      rw [hn] at hzero
      simp only [hs, hr, Except.bind]
      split_ifs with h0
      · exact ⟨_, rfl, hfirst _ (first_here (hzero.1 h0))⟩
      · rw [strchr, List.tail_cons, Option.bind_some]
        -- the test of the loop looks for the character once more
        rcases strchrLoop_first c n t with ⟨ht, hnext⟩ | ⟨t', ht, -, hlt', hnext⟩
        · rw [ht]
          obtain ⟨k, rfl⟩ := Nat.exists_eq_succ_of_ne_zero (by omega : k ≠ 0)
          exact ⟨none, rfl, hfirst _ (hnext.cons hc (mt hzero.2 h0))⟩
        · rw [ht]
          obtain ⟨p, hp, hpfirst⟩ := ih (by rw [List.length_cons]; omega : (c :: t').length < k)
          exact ⟨p, hp, hfirst _ ((hnext p hpfirst).cons hc (mt hzero.2 h0))⟩

/-- For all strings, `strstr` finds the first place where `needle` occurs in `haystack`. -/
theorem strstr_first (haystack needle : Text) :
    ∃ p, strstr (some haystack) (some needle) = .ok p ∧
      First (chars needle.cells) haystack.cells p := by
  obtain ⟨c, l, hn⟩ := List.exists_cons_of_ne_nil (List.ne_nil_of_mem needle.nul)
  simp only [strstr, hn, List.head_cons]
  split_ifs with hc
  · exact ⟨_, rfl, first_here (by simp [chars, hc])⟩
  · rw [chars_cons hc]
    exact strstrLoop_first (chars_cons hc) (Nat.lt_succ_self _)

end ConcurrentCyclone.Lib.Str
