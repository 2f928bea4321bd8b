import Mathlib.Algebra.Group.Prod
import Mathlib.Algebra.BigOperators.Group.List.Basic
import Mathlib.Algebra.Order.Group.Int
import Mathlib.Algebra.Order.Monoid.Prod
import Mathlib.Algebra.Ring.Int.Defs
import Mathlib.Data.Finset.Basic
import Mathlib.Order.Basic

/-!
# Constraints of the capability analysis

The analysis collects the effect of a piece of code on regions as a list of constraints: accesses,
changes of the counts of a region, joins of two branches, spawns and calls. The counts are C
integers. The first part follows the source; regions are an arbitrary type with decidable equality
(`cmptypes`).

The second part says what a constraint list means. A path (`Path`) is the sequence of events that
remains when one branch of each join is chosen and calls are inlined. The counts of a region along a
path are integers without bound (`Counts`); an event changes them by `Event.change`, and `net` is
the change along a path. `Spawns` are the spawns on the paths of a list, or on the paths of the
effects of such spawns.
-/

set_option autoImplicit false

namespace ConcurrentCyclone.XInfer

/-- A source position (`seg_t`). -/
abbrev Seg := Int

/-- `enum Access`. -/
inductive Access where
  | live
  | rd
  | wr
  | notLive
  | notRW
  | notW
  deriving DecidableEq

/-- `xcap_t`: the reference count, the write count and the read count of a region. -/
@[ext]
structure XCap where
  ref : Int32
  wr : Int32
  rd : Int32
  deriving DecidableEq

namespace XCap

instance : Zero XCap := ⟨⟨0, 0, 0⟩⟩

instance : Add XCap := ⟨fun x y => ⟨x.ref + y.ref, x.wr + y.wr, x.rd + y.rd⟩⟩

instance : Sub XCap := ⟨fun x y => ⟨x.ref - y.ref, x.wr - y.wr, x.rd - y.rd⟩⟩

instance : Neg XCap := ⟨fun x => ⟨-x.ref, -x.wr, -x.rd⟩⟩

@[simp] theorem add_zero (x : XCap) : x + 0 = x :=
  XCap.ext (Int32.add_zero _) (Int32.add_zero _) (Int32.add_zero _)

@[simp] theorem zero_add (x : XCap) : 0 + x = x :=
  XCap.ext (Int32.zero_add _) (Int32.zero_add _) (Int32.zero_add _)

theorem add_assoc (x y z : XCap) : x + y + z = x + (y + z) :=
  XCap.ext (Int32.add_assoc ..) (Int32.add_assoc ..) (Int32.add_assoc ..)

theorem sub_eq_add_neg (x y : XCap) : x - y = x + -y :=
  XCap.ext (Int32.sub_eq_add_neg ..) (Int32.sub_eq_add_neg ..) (Int32.sub_eq_add_neg ..)

end XCap

/-- `datatype Constraint`; the three integers of `Cap` are one `XCap`. -/
inductive Con (R : Type) where
  | access (a : Access) (r : R) (loc : Seg)
  | cap (x : XCap) (r : R) (loc : Seg)
  | join (c₁ c₂ : List (Con R)) (loc : Seg)
  /-- The counts that are passed, as `Cap` constraints, and the effect of the thread. -/
  | spawn (c₁ c₂ : List (Con R)) (loc : Seg)
  | call (c : List (Con R)) (loc : Seg) (s : String)
  | empty
  | undefined

/-- An exception of the analysis (`env_err`). -/
inductive EnvErr where
  /-- `cons_translate 1`: a spawn passes something else than counts. -/
  | translateSpawn
  /-- `cons_translate: undefined`. -/
  | translateUndefined
  /-- `cons_is_zero: Invalid Spawn format`. -/
  | zeroSpawn
  /-- `cons_is_zero: Undefined constraint`. -/
  | zeroUndefined
  deriving DecidableEq

variable {R : Type}

/-- `cons_is_empty`. -/
def consIsEmpty : List (Con R) → Bool
  | [.empty] => true
  | _ => false

section Regions

variable [DecidableEq R]

mutual

/-- `xrgns_of_cons`. -/
def xrgnsOfCons : List (Con R) → Finset R
  | [] => ∅
  | con :: cs => con.xrgns ∪ xrgnsOfCons cs

/-- The regions of one constraint. -/
def Con.xrgns : Con R → Finset R
  | .access _ r _ => {r}
  | .cap _ r _ => {r}
  | .call c _ _ => xrgnsOfCons c
  | .join c₁ c₂ _ => xrgnsOfCons c₁ ∪ xrgnsOfCons c₂
  | .spawn c₁ c₂ _ => xrgnsOfCons c₁ ∪ xrgnsOfCons c₂
  | .empty => ∅
  | .undefined => ∅

end

end Regions

/-- Induction on constraint lists: the lists inside the first constraint and the rest of the list
are smaller. -/
@[elab_as_elim]
theorem Con.listInduction {Q : List (Con R) → Prop} (nil : Q [])
    (access : ∀ a r loc cs, Q cs → Q (.access a r loc :: cs))
    (cap : ∀ x r loc cs, Q cs → Q (.cap x r loc :: cs))
    (join : ∀ c₁ c₂ loc cs, Q c₁ → Q c₂ → Q cs → Q (.join c₁ c₂ loc :: cs))
    (spawn : ∀ c₁ c₂ loc cs, Q c₁ → Q c₂ → Q cs → Q (.spawn c₁ c₂ loc :: cs))
    (call : ∀ c loc s cs, Q c → Q cs → Q (.call c loc s :: cs))
    (empty : ∀ cs, Q cs → Q (.empty :: cs))
    (undefined : ∀ cs, Q cs → Q (.undefined :: cs)) (c : List (Con R)) : Q c :=
  -- the recursor for lists of constraints, with the rest of the list carried along
  @Con.rec_1 R (fun con => ∀ cs, Q cs → Q (con :: cs)) Q access cap
    (fun c₁ c₂ loc h1 h2 cs => join c₁ c₂ loc cs h1 h2)
    (fun c₁ c₂ loc h1 h2 cs => spawn c₁ c₂ loc cs h1 h2)
    (fun c loc s h cs => call c loc s cs h) empty undefined nil
    (fun _ cs hcon hcs => hcon cs hcs) c

/-! ## Paths -/

/-- What happens on a path. -/
inductive Event (R : Type) where
  | access (a : Access) (r : R)
  | cap (x : XCap) (r : R)
  | spawn (c₁ c₂ : List (Con R))

/-- The paths through a constraint list. There is none through `Undefined`. -/
inductive Path : List (Con R) → List (Event R) → Prop where
  | nil : Path [] []
  | access {a r loc cs tr} : Path cs tr → Path (.access a r loc :: cs) (.access a r :: tr)
  | cap {x r loc cs tr} : Path cs tr → Path (.cap x r loc :: cs) (.cap x r :: tr)
  | left {c₁ c₂ loc cs tr₁ tr} :
      Path c₁ tr₁ → Path cs tr → Path (.join c₁ c₂ loc :: cs) (tr₁ ++ tr)
  | right {c₁ c₂ loc cs tr₁ tr} :
      Path c₂ tr₁ → Path cs tr → Path (.join c₁ c₂ loc :: cs) (tr₁ ++ tr)
  | spawn {c₁ c₂ loc cs tr} :
      Path cs tr → Path (.spawn c₁ c₂ loc :: cs) (.spawn c₁ c₂ :: tr)
  | call {c loc s cs tr₁ tr} : Path c tr₁ → Path cs tr → Path (.call c loc s :: cs) (tr₁ ++ tr)
  | empty {cs tr} : Path cs tr → Path (.empty :: cs) tr

mutual

/-- The path that takes the first branch of each join. -/
def firstPath : List (Con R) → List (Event R)
  | [] => []
  | con :: cs => con.first ++ firstPath cs

/-- The first path through one constraint. -/
def Con.first : Con R → List (Event R)
  | .access a r _ => [.access a r]
  | .cap x r _ => [.cap x r]
  | .join c₁ _ _ => firstPath c₁
  | .spawn c₁ c₂ _ => [.spawn c₁ c₂]
  | .call c _ _ => firstPath c
  | .empty => []
  | .undefined => []

end

mutual

/-- `Undefined` does not occur, except in effects of spawned threads. -/
def Defined : List (Con R) → Prop
  | [] => True
  | con :: cs => con.IsDefined ∧ Defined cs

/-- `Undefined` does not occur in one constraint. -/
def Con.IsDefined : Con R → Prop
  | .join c₁ c₂ _ => Defined c₁ ∧ Defined c₂
  | .call c _ _ => Defined c
  | .undefined => False
  | _ => True

end

/-- The paths through one constraint. -/
def Con.Takes : Con R → List (Event R) → Prop
  | .access a r _, tr => tr = [.access a r]
  | .cap x r _, tr => tr = [.cap x r]
  | .join c₁ c₂ _, tr => Path c₁ tr ∨ Path c₂ tr
  | .spawn c₁ c₂ _, tr => tr = [.spawn c₁ c₂]
  | .call c _ _, tr => Path c tr
  | .empty, tr => tr = []
  | .undefined, _ => False

theorem path_nil_iff {tr : List (Event R)} : Path [] tr ↔ tr = [] :=
  ⟨fun h => by cases h; rfl, fun h => h ▸ .nil⟩

theorem path_cons_iff {con : Con R} {cs : List (Con R)} {tr : List (Event R)} :
    Path (con :: cs) tr ↔ ∃ tr1 tr2, tr = tr1 ++ tr2 ∧ con.Takes tr1 ∧ Path cs tr2 := by
  constructor
  · intro h
    cases h with
    | access h | cap h | spawn h | empty h => exact ⟨_, _, rfl, rfl, h⟩
    | left hbr h => exact ⟨_, _, rfl, .inl hbr, h⟩
    | right hbr h => exact ⟨_, _, rfl, .inr hbr, h⟩
    | call hbr h => exact ⟨_, _, rfl, hbr, h⟩
  · rintro ⟨tr1, tr2, rfl, hcon, h⟩
    cases con with
    | access => exact hcon ▸ .access h
    | cap => exact hcon ▸ .cap h
    | spawn => exact hcon ▸ .spawn h
    | empty => exact hcon ▸ .empty h
    | join => exact hcon.elim (.left · h) (.right · h)
    | call => exact .call hcon h
    | undefined => exact hcon.elim

mutual

theorem path_firstPath : ∀ {c : List (Con R)}, Defined c → Path c (firstPath c)
  | [], _ => .nil
  | _ :: _, h => path_cons_iff.2 ⟨_, _, rfl, takes_first h.1, path_firstPath h.2⟩

theorem takes_first : ∀ {con : Con R}, con.IsDefined → con.Takes con.first
  | .join .., h => .inl (path_firstPath h.1)
  | .call .., h => by exact path_firstPath h
  | .access .., _ | .cap .., _ | .spawn .., _ | .empty, _ => rfl
  | .undefined, h => h.elim

end

/-- The spawns on the paths of a list, and on the paths of the effects of such spawns. -/
inductive Spawns : List (Con R) → List (Con R) → List (Con R) → Prop where
  | here {c tr c₁ c₂} : Path c tr → .spawn c₁ c₂ ∈ tr → Spawns c c₁ c₂
  | inner {c tr b₁ b₂ c₁ c₂} :
      Path c tr → .spawn b₁ b₂ ∈ tr → Spawns b₂ c₁ c₂ → Spawns c c₁ c₂

/-! ## Counts along a path -/

/-- Reference, write and read count, without bound. -/
abbrev Counts := Int × Int × Int

/-- The counts of an `XCap`. -/
def XCap.counts (x : XCap) : Counts := (x.ref.toInt, x.wr.toInt, x.rd.toInt)

/-- The counts as C integers. -/
def XCap.ofCounts (n : Counts) : XCap :=
  ⟨Int32.ofInt n.1, Int32.ofInt n.2.1, Int32.ofInt n.2.2⟩

@[simp] theorem XCap.ofCounts_zero : XCap.ofCounts 0 = 0 := rfl

@[simp] theorem XCap.ofCounts_counts (x : XCap) : XCap.ofCounts x.counts = x := by
  simp [XCap.ofCounts, XCap.counts]

theorem XCap.ofCounts_add (m n : Counts) :
    XCap.ofCounts (m + n) = XCap.ofCounts m + XCap.ofCounts n := by
  simp only [XCap.ofCounts, Prod.fst_add, Prod.snd_add, Int32.ofInt_add]
  rfl

theorem XCap.ofCounts_neg (n : Counts) : XCap.ofCounts (-n) = -XCap.ofCounts n := by
  simp only [XCap.ofCounts, Prod.fst_neg, Prod.snd_neg, Int32.ofInt_neg]
  rfl

theorem XCap.ofCounts_sub (m n : Counts) :
    XCap.ofCounts (m - n) = XCap.ofCounts m - XCap.ofCounts n := by
  simp only [XCap.ofCounts, Prod.fst_sub, Prod.snd_sub, Int32.ofInt_sub]
  rfl

/-- Each of the counts is a C integer. -/
def IntRange (n : Counts) : Prop :=
  (-2147483648 ≤ n.1 ∧ n.1 < 2147483648) ∧ (-2147483648 ≤ n.2.1 ∧ n.2.1 < 2147483648) ∧
    -2147483648 ≤ n.2.2 ∧ n.2.2 < 2147483648

theorem XCap.intRange_counts (x : XCap) : IntRange x.counts :=
  ⟨⟨x.ref.le_toInt, x.ref.toInt_lt⟩, ⟨x.wr.le_toInt, x.wr.toInt_lt⟩, x.rd.le_toInt, x.rd.toInt_lt⟩

theorem XCap.counts_ofCounts {n : Counts} (h : IntRange n) : (XCap.ofCounts n).counts = n := by
  obtain ⟨⟨h1, h2⟩, ⟨h3, h4⟩, h5, h6⟩ := h
  simp only [XCap.counts, XCap.ofCounts]
  rw [Int32.toInt_ofInt_of_le (by omega) (by omega), Int32.toInt_ofInt_of_le (by omega) (by omega),
    Int32.toInt_ofInt_of_le (by omega) (by omega)]

section Counts

variable [DecidableEq R]

/-- The counts of region `r` in a list of `Cap` constraints. -/
def given (r : R) : List (Con R) → Counts
  | [] => 0
  | .cap x r' _ :: cs => (if r' = r then x.counts else 0) + given r cs
  | _ :: cs => given r cs

/-- How an event changes the counts of region `r`. -/
def Event.change (r : R) : Event R → Counts
  | .access _ _ => 0
  | .cap x r' => if r' = r then x.counts else 0
  | .spawn c₁ _ => -given r c₁

/-- How the counts of region `r` change along a path. -/
def net (r : R) (tr : List (Event R)) : Counts := (tr.map (Event.change r)).sum

@[simp] theorem net_nil (r : R) : net r [] = 0 := rfl

@[simp] theorem net_cons (r : R) (e : Event R) (tr : List (Event R)) :
    net r (e :: tr) = e.change r + net r tr := by
  simp [net]

@[simp] theorem net_append (r : R) (tr₁ tr2 : List (Event R)) :
    net r (tr₁ ++ tr2) = net r tr₁ + net r tr2 := by
  simp [net]

end Counts

end ConcurrentCyclone.XInfer
