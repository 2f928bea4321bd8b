import ConcurrentCyclone.Tcpat.Values
import Mathlib.Data.Int.Interval
import Mathlib.Data.Set.Finite.Lemmas

/-!
# Names of constructors and run-time tests

`compare_con` compares the names that `compile_pat` gives the constructors, and a `switch` makes the
tests of `get_pat_test` (`src/tcpat.cyc`). Patterns of all arithmetic types can be used for a value
of one of them. An enum constant is named by its identifier, a floating-point constant by its text,
and a field of a datatype by its identifier without the namespace, while the tests compare numbers
and fields. Integers are named by themselves, but the sign of their difference in 32 bits tells
which of them is the next one on a circle: it orders them exactly if they are on a half of it.
-/

set_option autoImplicit false

namespace ConcurrentCyclone.Tcpat

open Lib

/-- The patterns that have a test. -/
inductive TestPat where
  | null
  | pointer
  | int (i : Int)
  | char (c : Int)
  | float (f : String)
  | enum (ef : String)
  | datatype (nmspace : List String) (tuf : String)
  | union (f : String)

/-- The name of the constructor in `compile_pat`. -/
def TestPat.name : TestPat → NameValue
  | .null => .name "NULL"
  | .pointer => .name "&"
  | .int i | .char i => .int i
  | .float s | .enum s | .datatype _ s | .union s => .name s

/-- What constants are when they are compared with a value of the scrutinee's type, and the values
of the enum constants. -/
structure Constants (N : Type) where
  ofInt : Int → N
  ofFloat : String → N
  enumTag : String → Int

/-- What a test looks for in a value. Fields of unions and of datatypes that are not extensible are
numbered, which tells them apart as their names do. -/
inductive Tested (N : Type) where
  | null
  | nonNull
  | num (x : N)
  | tag (nmspace : List String) (tuf : String)
  | member (f : String)
  deriving DecidableEq

variable {N : Type} (K : Constants N)

/-- `get_pat_test`. -/
def TestPat.test : TestPat → Tested N
  | .null => .null
  | .pointer => .nonNull
  | .int i | .char i => .num (K.ofInt i)
  | .float f => .num (K.ofFloat f)
  | .enum ef => .num (K.ofInt (K.enumTag ef))
  | .datatype ns tuf => .tag ns tuf
  | .union f => .member f

/-- The test accepts a value, of which it looks at `v`. -/
def TestPat.accepts [DecidableEq N] (p : TestPat) (v : Tested N) : Bool := p.test K == v

theorem accepts_eq_iff [DecidableEq N] {p q : TestPat} :
    (∀ v, p.accepts K v = q.accepts K v) ↔ p.test K = q.test K := by
  refine ⟨fun h => ?_, fun h v => by rw [TestPat.accepts, h, TestPat.accepts]⟩
  have hp := h (p.test K)
  rw [TestPat.accepts, beq_self_eq_true] at hp
  exact (beq_iff_eq.1 hp.symm).symm

/-- The types of the values that patterns are for. -/
inductive ScrutType where
  | pointer
  | arithmetic
  | datatype
  | union

def TestPat.scrutType : TestPat → ScrutType
  | .null | .pointer => .pointer
  | .int _ | .char _ | .float _ | .enum _ => .arithmetic
  | .datatype _ _ => .datatype
  | .union _ => .union

/-- The patterns can be used for values of one type. An identifier is not the text of a number. -/
def TestPat.OneType (p q : TestPat) : Prop :=
  p.scrutType = q.scrutType ∧ ∀ s, (p = .enum s → q ≠ .float s) ∧ (p = .float s → q ≠ .enum s)

/-- Neither are the patterns two names of one number, nor the fields of one name in two
namespaces. -/
def TestPat.Apart : TestPat → TestPat → Prop
  | .datatype ns tuf, .datatype ns' tuf' => tuf = tuf' → ns = ns'
  | p, q => ∀ x, p.test K = .num x → q.test K = .num x → p.name = q.name

theorem name_eq_iff_test_eq {p q : TestPat} (h : p.OneType q) :
    (p.name = q.name ↔ p.test K = q.test K) ↔ p.Apart K q := by
  cases p <;> cases q <;>
    simp_all [TestPat.OneType, TestPat.scrutType, TestPat.name, TestPat.test, TestPat.Apart] <;>
      grind

/-- The place of a name when integers are counted from `b`, modulo 2^32. -/
def NameValue.keyFrom (b : Int) : NameValue → Lex (String ⊕ Int)
  | .name s => toLex (.inl s)
  | .int i => toLex (.inr ((i - b) % 4294967296))

/-- The integers among the names are on the half of the circle that starts at `b`. -/
def OnHalf (S : Con → Prop) (b : Int) : Prop :=
  ∀ c, S c → ∀ i, c.name = .int i → (i - b) % 4294967296 < 2147483648

section Circle

variable {S : Con → Prop} (hint : ∀ c, S c → c.IntName)

include hint

theorem OnHalf.orders {b : Int} (h : OnHalf S b) :
    Orders compareCon (fun c => c.name.keyFrom b) S where
  lt_iff {c d} hc hd := by
    cases hn : c.name with
    | name s =>
      cases hn' : d.name with
      | name t =>
        simp only [compareCon, hn, hn', strcmp, NameValue.keyFrom, Sum.Lex.inl_lt_inl_iff]
        split_ifs with hlt heq <;> simp [hlt]
      | int j => simp [compareCon, hn, hn', NameValue.keyFrom]
    | int i =>
      cases hn' : d.name with
      | name t => simp [compareCon, hn, hn', NameValue.keyFrom]
      | int j =>
        have hi := h c hc i hn
        have hj := h d hd j hn'
        simp only [compareCon, hn, hn', NameValue.keyFrom, Sum.Lex.inr_lt_inr_iff,
          Runtime.int32, Int.bmod]
        split_ifs <;> omega
  eq_iff {c d} hc hd := by
    rw [compareCon_eq_zero_iff (hint c hc) (hint d hd)]
    cases hn : c.name with
    | name s => cases hn' : d.name <;> simp [NameValue.keyFrom]
    | int i =>
      cases hn' : d.name with
      | name t => simp [NameValue.keyFrom]
      | int j =>
        have hi := hint c hc i hn
        have hj := hint d hd j hn'
        simp only [NameValue.keyFrom, NameValue.int.injEq, toLex_inj, Sum.inr.injEq]
        omega

/-- The first integer in the order is where the half begins. -/
theorem exists_onHalf {κ : Type} [LinearOrder κ] {key : Con → κ} (h : Orders compareCon key S) :
    ∃ b, OnHalf S b := by
  by_cases hne : ∃ i, ∃ c, S c ∧ c.name = .int i
  · have hfin : {i | ∃ c, S c ∧ c.name = .int i}.Finite := by
      refine (Set.finite_Ico (-2147483648) 2147483648).subset ?_
      rintro i ⟨c, hc, hn⟩
      exact hint c hc i hn
    have : Nonempty Con := hne.elim fun _ hc => ⟨hc.choose⟩
    choose! f hf using fun i (hi : i ∈ {i | ∃ c, S c ∧ c.name = .int i}) => hi
    obtain ⟨b, hb, hmin⟩ := Set.exists_min_image _ (fun i => key (f i)) hfin hne
    refine ⟨b, fun c hc i hn => ?_⟩
    obtain ⟨hi, hni⟩ := hf i ⟨c, hc, hn⟩
    obtain ⟨hbS, hnb⟩ := hf b hb
    have hle := mt (h.lt_iff hi hbS).1 (hmin i ⟨c, hc, hn⟩).not_gt
    simp only [compareCon, hni, hnb, Runtime.int32, Int.bmod] at hle
    split_ifs at hle <;> omega
  · exact ⟨0, fun c hc i hn => absurd ⟨i, c, hc, hn⟩ hne⟩

end Circle

/-- All texts stand for 1, and all enum constants are 1. -/
def oneTwice : Constants Int := ⟨id, fun _ => 1, fun _ => 1⟩

/-- A constructor without arguments and span. -/
def bareCon (p : TestPat) (o : OrigPat) : Con := ⟨p.name, 0, none, .pattern o⟩

/-- A pattern for a constructor of this name. -/
def patOf (c : Con) : TestPat :=
  match c.name with
  | .int i => .int i
  | .name s => .enum s

/-- The patterns `2147483647`, `-7` and an enum constant that is 1. The difference of the integers
overflows. -/
def threeCons : List Con :=
  [bareCon (.int 2147483647) .int, bareCon (.int (-7)) .int, bareCon (.enum "A") .enum]

end ConcurrentCyclone.Tcpat
