import ConcurrentCyclone.Tcpat.MatchCompile
import Mathlib.Data.List.Forall2
import Mathlib.Data.List.Perm.Subperm
import Mathlib.Data.String.Basic
import Mathlib.Data.Sum.Order

/-!
# Values, and what descriptions say about them

A value is a constructor with arguments. A signature gives the constructors of each type: their
argument types, the span, and the access to each argument. The file has the meaning of patterns,
term descriptions and paths over typed values, and what `static_match` decides: the three answers
are right for the values a description describes.

The sets of constructors in the descriptions are ordered by `compare_con`, which subtracts integers.
For a type with a span the order is right. For the others a set is sorted if no comparison that was
made for it overflows; only then does every description that arises describe a value
(`exists_value`). That no comparison overflows is a proposition `P` here.
-/

set_option autoImplicit false

namespace ConcurrentCyclone.Tcpat

open Lib ConcurrentCyclone.Runtime
open List (mem_map mem_cons length_cons length_map)

universe u

/-- A constructor with its arguments. -/
inductive Value where
  | con (n : NameValue) (args : List Value)

/-- The constructor of a value. -/
def Value.name : Value → NameValue
  | .con n _ => n

/-- The arguments of a value. -/
def Value.args : Value → List Value
  | .con _ vs => vs

mutual

/-- A pattern matches a value. -/
def SimplePat.matches : SimplePat → Value → Bool
  | .any, _ => true
  | .con c ps, .con n vs => c.name == n && matchesAll ps vs

/-- The patterns match the values, one by one. -/
def matchesAll : List SimplePat → List Value → Bool
  | [], [] => true
  | p :: ps, v :: vs => p.matches v && matchesAll ps vs
  | _, _ => false

end

/-- The part of a value at a path; `none` for an argument of a constructor the value does not
have. -/
def select : Path → Value → Option Value
  | [], v => some v
  | n :: p, v =>
    (select p v).bind fun u => if u.name = n.con.name then u.args[n.idx]? else none

/-- A term description describes a value. -/
inductive Describes : TermDesc → Value → Prop where
  | pos {c : Con} {ds : List TermDesc} {vs : List Value} (hargs : List.Forall₂ Describes ds vs) :
      Describes (.pos c ds) (.con c.name vs)
  | neg {cs : CSet Con} {v : Value} (hnot : v.name ∉ cs.nodes.map Con.name) :
      Describes (.neg cs) v

/-! ## Types -/

/-- The constructors of the types: their argument types, the number of constructors of a type if it
is known, and the access to the arguments. -/
structure Signature (Ty : Type u) where
  args : Ty → NameValue → Option (List Ty)
  span : Ty → Option Nat
  access : Ty → NameValue → Nat → Access

section Types

variable {Ty : Type u} (S : Signature Ty)

/-- A value has a type. -/
inductive HasType : Ty → Value → Prop where
  | con {τ : Ty} {n : NameValue} {τs : List Ty} {vs : List Value} (hcon : S.args τ n = some τs)
      (hargs : List.Forall₂ HasType τs vs) : HasType τ (.con n vs)

/-- Some constructor of the type has arguments. -/
def Signature.HasArgs (τ : Ty) : Prop := ∃ n τs, S.args τ n = some τs ∧ τs ≠ []

/-- Parts of the two types must not have the same access: both may be tested, which a type of one
constructor never is, or both may be on the way to a part that is tested. -/
def Signature.Clash (σ σ' : Ty) : Prop :=
  (S.span σ ≠ some 1 ∧ S.span σ' ≠ some 1) ∨ (S.HasArgs σ ∧ S.HasArgs σ')

/-- Spans are right, every type has a value, the accesses of a type tell its arguments apart, and
the integers among the names are `int`s, close to each other for a type that has a span. -/
structure Signature.WellFormed : Prop where
  span_right : ∀ {τ k}, S.span τ = some k →
    ∃ names : List NameValue, names.Nodup ∧ names.length = k ∧
      ∀ n, n ∈ names ↔ (S.args τ n).isSome
  inhabited : ∀ τ, ∃ v, HasType S τ v
  access_inj : ∀ {τ n n' i i' τs τs' σ σ'}, S.args τ n = some τs → τs[i]? = some σ →
    S.args τ n' = some τs' → τs'[i']? = some σ' → S.Clash σ σ' →
    sameAccess (some (S.access τ n i)) (some (S.access τ n' i')) = true → n = n' ∧ i = i'
  int_range : ∀ {τ i}, (S.args τ (.int i)).isSome → -2147483648 ≤ i ∧ i < 2147483648
  span_fits : ∀ {τ k i j}, S.span τ = some k → (S.args τ (.int i)).isSome →
    (S.args τ (.int j)).isSome → -2147483648 ≤ i - j ∧ i - j < 2147483648

-- the constructors that may be used in patterns, for each type, and that no comparison overflows
variable (K : Ty → Con → Prop) (P : Prop)

/-- A type without span has a constructor that is not used. -/
def Signature.LeavesOpen : Prop :=
  ∀ τ, S.span τ = none → ∃ n, (S.args τ n).isSome ∧ ∀ c, K τ c → c.name ≠ n

/-- The sets of constructors of the type are kept exactly. -/
def Signature.Exact (τ : Ty) : Prop := S.span τ ≠ none ∨ (P ∧ S.LeavesOpen K)

/-- A constructor of a type, with its arity, span and accesses, and with a test if it has to be
tested. -/
structure ConOk (τ : Ty) (c : Con) (τs : List Ty) : Prop where
  args : S.args τ c.name = some τs
  arity : c.arity = τs.length
  span : c.span = S.span τ
  access : ∀ i, i < c.arity → getAccess c.origPat i = some (S.access τ c.name i)
  test : S.span τ ≠ some 1 → (getPatTest c.origPat).isSome
  used : K τ c

/-- A pattern has a type. -/
inductive SimplePat.Typed : Ty → SimplePat → Prop where
  | any {τ : Ty} : Typed τ .any
  | con {τ : Ty} {c : Con} {ps : List SimplePat} {τs : List Ty} (hc : ConOk S K τ c τs)
      (hargs : List.Forall₂ Typed τs ps) : Typed τ (.con c ps)

/-- The order of constructor names: strings before integers. -/
def NameValue.key : NameValue → Lex (String ⊕ Int)
  | .name s => toLex (.inl s)
  | .int i => toLex (.inr i)

/-- A constructor of the type that may be used. -/
def Signature.Used (τ : Ty) (c : Con) : Prop := K τ c ∧ (S.args τ c.name).isSome

/-- A set of constructors of a type; where the sets are kept exactly, it is sorted and has not all
the constructors. -/
structure NegOk (τ : Ty) (cs : CSet Con) : Prop where
  cons : ∀ c ∈ cs.nodes, S.Used K τ c
  sorted : S.Exact K P τ → cs.Sorted (fun c => c.name.key) (S.Used K τ)
  rest : S.Exact K P τ → ∃ n, (S.args τ n).isSome ∧ n ∉ cs.nodes.map Con.name

/-- A description of values of a type. -/
inductive TermDesc.WF : Ty → TermDesc → Prop where
  | pos {τ : Ty} {c : Con} {τs : List Ty} {ds : List TermDesc} (hcon : S.args τ c.name = some τs)
      (hargs : List.Forall₂ WF τs ds) : WF τ (.pos c ds)
  | neg {τ : Ty} {cs : CSet Con} (hok : NegOk S K P τ cs) : WF τ (.neg cs)

end Types

/-! ## The comparison of constructors -/

/-- An integer that is a name is an `int`. -/
def Con.IntName (c : Con) : Prop :=
  ∀ i, c.name = .int i → -2147483648 ≤ i ∧ i < 2147483648

theorem NameValue.key_injective : Function.Injective NameValue.key := by
  intro m n h
  cases m with
  | name | int => cases n <;> simp_all [NameValue.key]

/-! ## What a description says -/

variable {c : Con} {u : Value}

theorem describes_pos_iff {ds : List TermDesc} :
    Describes (.pos c ds) u ↔ u.name = c.name ∧ List.Forall₂ Describes ds u.args := by
  constructor
  · rintro ⟨hargs⟩
    exact ⟨rfl, hargs⟩
  · obtain ⟨n, vs⟩ := u
    rintro ⟨rfl, hargs⟩
    exact .pos hargs

theorem describes_neg_iff {cs : CSet Con} :
    Describes (.neg cs) u ↔ u.name ∉ cs.nodes.map Con.name := by
  constructor
  · rintro ⟨⟩
    assumption
  · exact .neg

theorem matches_con_iff {ps : List SimplePat} :
    (SimplePat.con c ps).matches u = true ↔ u.name = c.name ∧ matchesAll ps u.args = true := by
  obtain ⟨n, vs⟩ := u
  simp only [SimplePat.matches, Bool.and_eq_true, beq_iff_eq, Value.name, Value.args]
  rw [eq_comm]

section Static

variable {Ty : Type u} {S : Signature Ty} {K : Ty → Con → Prop} {P : Prop} {τ : Ty} {cs : CSet Con}
  {c : Con}

theorem HasType.args_of_name {u : Value} {τs : List Ty} (hu : HasType S τ u)
    (hcon : S.args τ u.name = some τs) : List.Forall₂ (HasType S) τs u.args := by
  obtain ⟨hcon', hargs⟩ := hu
  obtain rfl := Option.some.inj (hcon'.symm.trans hcon)
  exact hargs

theorem HasType.isCon {u : Value} (hu : HasType S τ u) : (S.args τ u.name).isSome := by
  obtain ⟨hcon, _⟩ := hu
  exact Option.isSome_of_eq_some hcon

theorem compareCon_eq_zero_iff {c c' : Con} (hc : c.IntName) (hc' : c'.IntName) :
    compareCon c c' = 0 ↔ c.name = c'.name := by
  cases hn : c.name with
  | name s =>
    cases hn' : c'.name with
    | name t =>
      simp only [compareCon, hn, hn', strcmp]
      split_ifs with hlt heq
      · simp [hlt.ne]
      · simp [heq]
      · simp [heq]
    | int j => simp [compareCon, hn, hn']
  | int i =>
    cases hn' : c'.name with
    | name t => simp [compareCon, hn, hn']
    | int j =>
      obtain ⟨hlow, hhigh⟩ := hc i hn
      obtain ⟨hlow', hhigh'⟩ := hc' j hn'
      simp only [compareCon, hn, hn', NameValue.int.injEq]
      rw [int32_eq_zero (by omega) (by omega), sub_eq_zero]

theorem compareCon_lt_zero {c c' : Con}
    (hfit : ∀ i j, c.name = .int i → c'.name = .int j →
      -2147483648 ≤ i - j ∧ i - j < 2147483648) :
    compareCon c c' < 0 ↔ c.name.key < c'.name.key := by
  cases hn : c.name with
  | name s =>
    cases hn' : c'.name with
    | name t =>
      simp only [compareCon, hn, hn', strcmp, NameValue.key, Sum.Lex.inl_lt_inl_iff]
      split_ifs with hlt heq
      · simp [hlt]
      · simp [hlt]
      · simp [hlt]
    | int j => simp [compareCon, hn, hn', NameValue.key]
  | int i =>
    cases hn' : c'.name with
    | name t => simp [compareCon, hn, hn', NameValue.key]
    | int j =>
      obtain ⟨hlow, hhigh⟩ := hfit i j hn hn'
      simp only [compareCon, hn, hn', NameValue.key, Sum.Lex.inr_lt_inr_iff,
        int32_of_range hlow hhigh]
      omega

theorem compareCon_eq_zero (hS : S.WellFormed) {c c' : Con} (hc : (S.args τ c.name).isSome)
    (hc' : (S.args τ c'.name).isSome) : compareCon c c' = 0 ↔ c.name = c'.name :=
  compareCon_eq_zero_iff (fun _ h => hS.int_range (h ▸ hc)) fun _ h => hS.int_range (h ▸ hc')

/-- Where the sets are kept exactly, comparisons that do not overflow are right. -/
theorem Signature.Exact.compares (hS : S.WellFormed) (hex : S.Exact K P τ) {c c' : Con}
    (hc : S.Used K τ c) (hc' : S.Used K τ c') (hnear : P → c.near c' = true) :
    Compares compareCon (fun c => c.name.key) c c' where
  lt_iff := by
    refine compareCon_lt_zero fun i j hi hj => ?_
    rcases hex with hspan | ⟨hP, _⟩
    · obtain ⟨k, hk⟩ := Option.ne_none_iff_exists'.1 hspan
      exact hS.span_fits hk (hi ▸ hc.2) (hj ▸ hc'.2)
    · simpa [Con.near, hi, hj] using hnear hP
  eq_iff := by rw [compareCon_eq_zero hS hc.2 hc'.2, NameValue.key_injective.eq_iff]

theorem NegOk.nodup (hcs : NegOk S K P τ cs) (hex : S.Exact K P τ) :
    (cs.nodes.map Con.name).Nodup := by
  rw [List.Nodup, List.pairwise_map]
  exact (hcs.sorted hex).sorted.imp fun hlt heq => hlt.ne (congrArg NameValue.key heq)

theorem NegOk.mem_of_member (hS : S.WellFormed) (hcs : NegOk S K P τ cs)
    (hc : (S.args τ c.name).isSome) (hmem : cs.member compareCon c = true) :
    c.name ∈ cs.nodes.map Con.name := by
  obtain ⟨d, hd, hcmp⟩ := exists_of_memberB hmem
  rw [compareCon_eq_zero hS hc (hcs.cons d hd).2] at hcmp
  exact mem_map.2 ⟨d, hd, hcmp.symm⟩

theorem NegOk.memberCmps (hS : S.WellFormed) (hcs : NegOk S K P τ cs) (hex : S.Exact K P τ)
    (hc : S.Used K τ c) (hcmps : P → AllNear (conCmps c (.neg cs))) :
    ∀ q ∈ CSet.memberCmps compareCon c cs.nodes,
      Compares compareCon (fun c => c.name.key) q.1 q.2 := by
  intro q hq
  obtain ⟨heq, hmem⟩ := CSet.mem_memberCmps hq
  exact hex.compares hS (heq ▸ hc) (hcs.cons _ hmem)
    fun hP => hcmps hP q (List.mem_append_left _ hq)

theorem NegOk.not_mem (hS : S.WellFormed) (hcs : NegOk S K P τ cs) (hex : S.Exact K P τ)
    (hc : S.Used K τ c) (hcmps : P → AllNear (conCmps c (.neg cs)))
    (hmem : cs.member compareCon c = false) : c.name ∉ cs.nodes.map Con.name := by
  intro hin
  have hkey : c.name.key ∈ cs.nodes.map fun d => d.name.key := by
    obtain ⟨d, hd, heq⟩ := mem_map.1 hin
    exact mem_map.2 ⟨d, hd, congrArg NameValue.key heq⟩
  rw [← (hcs.sorted hex).member_iff (hcs.memberCmps hS hex hc hcmps), hmem] at hkey
  cases hkey

/-- The names of the set and one more constructor are among the constructors of the type. -/
theorem NegOk.subperm (hcs : NegOk S K P τ cs) (hex : S.Exact K P τ) {names : List NameValue}
    {n : NameValue} (hnames : ∀ m, m ∈ names ↔ (S.args τ m).isSome) (hn : (S.args τ n).isSome)
    (hnot : n ∉ cs.nodes.map Con.name) : (n :: cs.nodes.map Con.name).Subperm names := by
  refine (List.nodup_cons.2 ⟨hnot, hcs.nodup hex⟩).subperm fun m hm => (hnames m).2 ?_
  rcases mem_cons.1 hm with rfl | hm
  · exact hn
  · obtain ⟨d, hd, rfl⟩ := mem_map.1 hm
    exact (hcs.cons d hd).2

theorem Signature.exact_of_span {k : Nat} (hspan : S.span τ = some k) : S.Exact K P τ :=
  .inl (by simp [hspan])

section

variable (hS : S.WellFormed)

include hS

theorem NegOk.card_lt (hcs : NegOk S K P τ cs) {k : Nat}
    (hspan : S.span τ = some k) : cs.cardinality < k := by
  have hex : S.Exact K P τ := S.exact_of_span hspan
  obtain ⟨names, _, rfl, hnames⟩ := hS.span_right hspan
  obtain ⟨n, hn, hnot⟩ := hcs.rest hex
  have hle := (hcs.subperm hex hnames hn hnot).length_le
  rw [length_cons, length_map, ← (hcs.sorted hex).card] at hle
  exact hle

/-- If the set lacks one constructor of the type, the others are not that one. -/
theorem NegOk.eq_of_full (hcs : NegOk S K P τ cs)
    (hspan : S.span τ = some (cs.cardinality + 1)) {m n : NameValue} (hm : (S.args τ m).isSome)
    (hmnot : m ∉ cs.nodes.map Con.name) (hn : (S.args τ n).isSome)
    (hnnot : n ∉ cs.nodes.map Con.name) : m = n := by
  have hex : S.Exact K P τ := S.exact_of_span hspan
  obtain ⟨names, _, hlen, hnames⟩ := hS.span_right hspan
  have hperm : (n :: cs.nodes.map Con.name).Perm names := by
    refine (hcs.subperm hex hnames hn hnnot).perm_of_length_le ?_
    rw [hlen, length_cons, length_map, ← (hcs.sorted hex).card]
  exact (mem_cons.1 (hperm.mem_iff.2 ((hnames m).2 hm))).resolve_right hmnot

/-- Add a constructor that `member` does not find, and that is not the last one of the type. -/
theorem NegOk.insert (hcs : NegOk S K P τ cs) (hc : S.Used K τ c)
    (hcmps : P → AllNear (conCmps c (.neg cs)))
    (hmaybe : staticMatch c (.neg cs) = .maybe)
    (hnot : cs.member compareCon c = false) (hspan : S.span τ ≠ some (cs.cardinality + 1)) :
    NegOk S K P τ (cs.insert compareCon c) ∧
      ∀ n, n ∈ (cs.insert compareCon c).nodes.map Con.name ↔
        n = c.name ∨ n ∈ cs.nodes.map Con.name := by
  have hperm := CSet.insert_perm hnot
  have hmem : ∀ n, n ∈ (cs.insert compareCon c).nodes.map Con.name ↔
      n = c.name ∨ n ∈ cs.nodes.map Con.name := by
    intro n
    rw [(hperm.map Con.name).mem_iff, List.map_cons, mem_cons]
  refine ⟨⟨fun d hd => ?_, fun hex => (hcs.sorted hex).insert_new
    (hcs.memberCmps hS hex hc hcmps) (fun q hq => ?_) hc hnot, fun hex => ?_⟩, hmem⟩
  · rcases mem_cons.1 (hperm.mem_iff.1 hd) with rfl | hd
    · exact hc
    · exact hcs.cons d hd
  · obtain ⟨hx, hy⟩ := CSet.mem_insertCmps hq
    have hused := List.forall_mem_cons.2 ⟨hc, hcs.cons⟩
    refine hex.compares hS (hused _ hx) (hused _ hy) fun hP => hcmps hP q ?_
    rw [conCmps, if_pos hmaybe]
    exact List.mem_append_right _ hq
  · -- a constructor that is still missing
    cases hsp : S.span τ with
    | none =>
      obtain ⟨n, hn, hnK⟩ := (hex.resolve_left fun h => h hsp).2 τ hsp
      refine ⟨n, hn, fun hin => ?_⟩
      rcases (hmem n).1 hin with heq | hin
      · exact hnK c hc.1 heq.symm
      · obtain ⟨d, hd, heq⟩ := mem_map.1 hin
        exact hnK d (hcs.cons d hd).1 heq
    | some k =>
      obtain ⟨names, hnodup, rfl, hnames⟩ := hS.span_right hsp
      by_contra hall
      have hsub : names ⊆ c.name :: cs.nodes.map Con.name := by
        intro n hn
        by_contra hout
        refine hall ⟨n, (hnames n).1 hn, fun hin => hout ?_⟩
        exact mem_cons.2 ((hmem n).1 hin)
      have hle := (hnodup.subperm hsub).length_le
      have hlt := hcs.card_lt hS hsp
      rw [length_cons, length_map, ← (hcs.sorted hex).card] at hle
      exact hspan (by rw [hsp]; congr 1; omega)

theorem negOk_empty (τ : Ty) : NegOk S K P τ .empty := by
  obtain ⟨v, hv⟩ := hS.inhabited τ
  exact ⟨nofun, fun _ => CSet.sorted_empty,
    fun _ => ⟨v.name, hv.isCon, List.not_mem_nil⟩⟩

end

theorem describes_any (u : Value) : Describes (.neg .empty) u := .neg List.not_mem_nil

/-! ## `static_match` -/

variable {τs : List Ty} {dsc : TermDesc} {u : Value}

theorem ConOk.isCon (hc : ConOk S K τ c τs) : (S.args τ c.name).isSome :=
  Option.isSome_of_eq_some hc.args

theorem ConOk.isUsed (hc : ConOk S K τ c τs) : S.Used K τ c := ⟨hc.used, hc.isCon⟩

theorem staticMatch_pos (hS : S.WellFormed) {c₂ : Con} {ds : List TermDesc}
    (hc : ConOk S K τ c τs) (hc2 : (S.args τ c₂.name).isSome) :
    staticMatch c (.pos c₂ ds) = if c.name = c₂.name then .yes else .no := by
  simp only [staticMatch, compareCon_eq_zero hS hc.isCon hc2]

/-- What the arguments of a value are described by, if it starts with the constructor. -/
theorem forall₂_getdargs_neg (hc : ConOk S K τ c τs) (hu : HasType S τ u)
    (hname : u.name = c.name) : List.Forall₂ Describes (getdargs c (.neg cs)) u.args := by
  have hargs := hu.args_of_name (hname ▸ hc.args)
  have hlen : u.args.length = c.arity := hargs.length_eq.symm.trans hc.arity.symm
  rw [getdargs, ← hlen, ← List.map_const', List.forall₂_map_left_iff]
  exact List.forall₂_same.2 fun v _ => describes_any v

section

variable (hS : S.WellFormed)

include hS

section

variable (hc : ConOk S K τ c τs)

include hc

section

variable (hdsc : dsc.WF S K P τ)

include hdsc

theorem wf_getdargs
    (hyes : ∀ c₂ ds, dsc = .pos c₂ ds → c₂.name = c.name) :
    List.Forall₂ (TermDesc.WF S K P) τs (getdargs c dsc) := by
  cases hdsc with
  | @pos _ c₂ τs' ds hcon hargs =>
    rw [hyes c₂ ds rfl] at hcon
    obtain rfl := Option.some.inj (hcon.symm.trans hc.args)
    exact hargs
  | neg =>
    rw [getdargs, hc.arity, ← List.map_const', List.forall₂_map_right_iff]
    exact List.forall₂_same.2 fun σ _ => .neg (negOk_empty hS σ)

/-- The answer is yes: the values described are those that start with the constructor and have the
described arguments. -/
theorem staticMatch_yes (hcmps : P → AllNear (conCmps c dsc))
    (hyes : staticMatch c dsc = .yes) :
    List.Forall₂ (TermDesc.WF S K P) τs (getdargs c dsc) ∧
      ∀ u, HasType S τ u → (Describes dsc u ↔ Describes (.pos c (getdargs c dsc)) u) := by
  cases hdsc with
  | @pos _ c₂ τs' ds hcon hargs =>
    rw [staticMatch_pos hS hc (Option.isSome_of_eq_some hcon)] at hyes
    split_ifs at hyes with heq
    refine ⟨wf_getdargs hS hc (.pos hcon hargs) ?_, fun u _ => ?_⟩
    · rintro _ _ ⟨rfl, rfl⟩
      exact heq.symm
    · rw [describes_pos_iff, describes_pos_iff, heq]
      rfl
  | @neg _ cs hok =>
    rw [staticMatch, hc.span] at hyes
    split_ifs at hyes with hmem hspan
    have hnot :=
      hok.not_mem hS (S.exact_of_span hspan) hc.isUsed hcmps (Bool.eq_false_iff.2 hmem)
    refine ⟨wf_getdargs hS hc (.neg hok) nofun, fun u hu => ?_⟩
    rw [describes_neg_iff, describes_pos_iff]
    constructor
    · intro hu'
      have heq := hok.eq_of_full hS hspan hu.isCon hu' hc.isCon hnot
      exact ⟨heq, forall₂_getdargs_neg hc hu heq⟩
    · rintro ⟨heq, _⟩
      rwa [heq]

/-- The answer is no: no value that is described starts with the constructor. -/
theorem staticMatch_no
    (hno : staticMatch c dsc = .no) (hu : Describes dsc u) : u.name ≠ c.name := by
  cases hdsc with
  | @pos _ c₂ τs' ds hcon hargs =>
    rw [staticMatch_pos hS hc (Option.isSome_of_eq_some hcon)] at hno
    split_ifs at hno with hne
    rw [(describes_pos_iff.1 hu).1]
    exact Ne.symm hne
  | @neg _ cs hok =>
    rw [staticMatch] at hno
    split_ifs at hno with hmem
    rintro heq
    exact describes_neg_iff.1 hu (heq ▸ hok.mem_of_member hS hc.isCon hmem)

/-- The answer is maybe: a value that is described starts with the constructor, or is described when
it is added to the set. -/
theorem staticMatch_maybe (hcmps : P → AllNear (conCmps c dsc))
    (hmaybe : staticMatch c dsc = .maybe) :
    S.span τ ≠ some 1 ∧ List.Forall₂ (TermDesc.WF S K P) τs (getdargs c dsc) ∧
      (∀ u, HasType S τ u → u.name = c.name → Describes (.pos c (getdargs c dsc)) u) ∧
      (S.Exact K P τ → ∀ u, Describes (.pos c (getdargs c dsc)) u → Describes dsc u) ∧
      ∃ dsc', addNeg dsc c = some dsc' ∧ dsc'.WF S K P τ ∧
        ∀ u, Describes dsc u ∧ u.name ≠ c.name ↔ Describes dsc' u := by
  cases hdsc with
  | @pos _ c₂ τs' ds hcon hargs =>
    rw [staticMatch_pos hS hc (Option.isSome_of_eq_some hcon)] at hmaybe
    split_ifs at hmaybe
  | @neg _ cs hok =>
    have hmaybe' := hmaybe
    rw [staticMatch, hc.span] at hmaybe
    split_ifs at hmaybe with hmem hspan
    rw [Bool.not_eq_true] at hmem
    obtain ⟨hok', hnames⟩ := hok.insert hS hc.isUsed hcmps hmaybe' hmem hspan
    refine ⟨fun hone => ?_, wf_getdargs hS hc (.neg hok) nofun, ?_, ?_, _, rfl,
      .neg hok', ?_⟩
    · have hlt := hok.card_lt hS hone
      exact hspan (by rw [hone]; congr 1; omega)
    · intro u hu heq
      exact describes_pos_iff.2 ⟨heq, forall₂_getdargs_neg hc hu heq⟩
    · intro hex u hu
      rw [describes_neg_iff, (describes_pos_iff.1 hu).1]
      exact hok.not_mem hS hex hc.isUsed hcmps hmem
    · intro u
      rw [describes_neg_iff, describes_neg_iff, hnames, not_or]
      exact And.comm

end

end

end

/-! ## Every description describes a value -/

mutual

/-- A description that is well formed at a type describes a value of the type. -/
theorem exists_value (hS : S.WellFormed) (hex : ∀ σ, S.Exact K P σ) :
    ∀ {τ : Ty} (dsc : TermDesc), dsc.WF S K P τ → ∃ v, HasType S τ v ∧ Describes dsc v
  | τ, .pos c ds, hdsc => by
    obtain ⟨hcon, hargs⟩ := hdsc
    obtain ⟨vs, hvs, hds⟩ := exists_values hS hex ds hargs
    exact ⟨.con c.name vs, .con hcon hvs, .pos hds⟩
  | τ, .neg cs, hdsc => by
    have hok : NegOk S K P τ cs := by
      cases hdsc
      assumption
    -- a constructor that is not in the set, with any arguments
    obtain ⟨n, hn, hnot⟩ := hok.rest (hex τ)
    obtain ⟨σs, hσs⟩ := Option.isSome_iff_exists.1 hn
    have hall : ∃ vs, List.Forall₂ (HasType S) σs vs := by
      clear hσs
      induction σs with
      | nil => exact ⟨[], .nil⟩
      | cons σ σs ih =>
        obtain ⟨v, hv⟩ := hS.inhabited σ
        obtain ⟨vs, hvs⟩ := ih
        exact ⟨v :: vs, .cons hv hvs⟩
    obtain ⟨vs, hvs⟩ := hall
    exact ⟨.con n vs, .con hσs hvs, .neg hnot⟩

/-- The same for lists of descriptions. -/
theorem exists_values (hS : S.WellFormed) (hex : ∀ σ, S.Exact K P σ) :
    ∀ {τs : List Ty} (ds : List TermDesc), List.Forall₂ (TermDesc.WF S K P) τs ds →
      ∃ vs, List.Forall₂ (HasType S) τs vs ∧ List.Forall₂ Describes ds vs
  | _, [], hds => by
    cases hds
    exact ⟨[], .nil, .nil⟩
  | _, d :: ds, hds => by
    obtain _ | ⟨hd, hds⟩ := hds
    obtain ⟨v, hv, hdv⟩ := exists_value hS hex d hd
    obtain ⟨vs, hvs, hdvs⟩ := exists_values hS hex ds hds
    exact ⟨v :: vs, .cons hv hvs, .cons hdv hdvs⟩

end

/-! ## Paths -/

/-- A path from a value of type `τ₀` to a part of another type. -/
inductive PathTo (S : Signature Ty) (τ₀ : Ty) : Path → Ty → Prop where
  | nil : PathTo S τ₀ [] τ₀
  | cons {p : Path} {σ τ : Ty} {σs : List Ty} {n : PathNode} (hp : PathTo S τ₀ p σ)
      (hcon : S.args σ n.con.name = some σs) (hidx : σs[n.idx]? = some τ)
      (haccess : n.access = some (S.access σ n.con.name n.idx)) : PathTo S τ₀ (n :: p) τ

/-- Two paths with the same accesses lead to the same part. -/
theorem PathTo.select_eq (hS : S.WellFormed) {τ₀ τ τ' : Ty} {p q : Path} (hp : PathTo S τ₀ p τ)
    (hq : PathTo S τ₀ q τ') (hclash : S.Clash τ τ') (hsame : samePath p q = true) :
    τ = τ' ∧ ∀ v, select p v = select q v := by
  induction hp generalizing q τ' with
  | nil =>
    cases hq with
    | nil => exact ⟨rfl, fun _ => rfl⟩
    | cons => cases hsame
  | @cons p σ τ σs n hp hcon hidx haccess ih =>
    cases hq with
    | nil => cases hsame
    | @cons q σ' _ σs' n' hq hcon' hidx' haccess' =>
      simp only [samePath, Bool.and_eq_true] at hsame
      have hargs : ∀ {σ : Ty} {σs : List Ty} {m : NameValue} {i : Nat} {τ : Ty},
          S.args σ m = some σs → σs[i]? = some τ → S.HasArgs σ := by
        intro σ σs m i τ hm hi
        refine ⟨m, σs, hm, ?_⟩
        rintro rfl
        cases hi
      obtain ⟨rfl, hselect⟩ := ih hq (.inr ⟨hargs hcon hidx, hargs hcon' hidx'⟩) hsame.2
      have hacc := hsame.1
      rw [haccess, haccess'] at hacc
      obtain ⟨hname, hi⟩ := hS.access_inj hcon hidx hcon' hidx' hclash hacc
      rw [← hname, hcon] at hcon'
      obtain rfl := Option.some.inj hcon'
      rw [← hi, hidx] at hidx'
      refine ⟨Option.some.inj hidx', fun v => ?_⟩
      rw [select, select, hselect v, hname, hi]

end Static

end ConcurrentCyclone.Tcpat
