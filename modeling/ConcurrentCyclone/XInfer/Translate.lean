import ConcurrentCyclone.Transition.Fallible
import ConcurrentCyclone.XInfer.Constraint

/-!
# The translation of constraints

When a region goes out of scope, `cons_translate` checks the accumulated effect against the region
and translates it to an effect on the region's parent. It carries the current counts of the region
through the constraint list: an access is checked against them, a `Cap` constraint is added to them,
a spawn takes away what it passes and translates the effect of the new thread from there, and the
branches of a join have to end with the same counts.

An error (`Tcutil::terr`) is reported and the translation goes on; an exception (`env_err`) ends it.
The parent is `none` for `root`. The value `no_parent` stands for a region that is not in the table
of the regions that go out of scope; `node_in_flow` only asks for regions of that table.
-/

set_option autoImplicit false

namespace ConcurrentCyclone.XInfer

open Transition

/-! ## Counts -/

/-- `xcap_ok`. -/
def xcapOk (x : XCap) : Bool := 0 < x.ref && -1 < x.wr && -1 < x.rd

/-- `xcap_add`. -/
def xcapAdd (x₀ x₁ : XCap) : Option XCap :=
  if x₀.ref < 1 ∨ x₀.wr < 0 ∨ x₀.rd < 0 ∨
      (x₁.ref < 0 ∧ x₀.ref + x₁.ref < 0) ∨
      (x₁.wr < 0 ∧ x₀.wr + x₁.wr < 0) ∨
      (x₁.rd < 0 ∧ x₀.rd + x₁.rd < 0) then none
  else some (x₀ + x₁)

/-- `xcap_xadd`: take the counts `x₁` of a new thread away. -/
def xcapXadd (x₀ x₁ : XCap) : Option XCap :=
  if !xcapOk x₀ ∨ !xcapOk x₁ ∨
      ((0 < x₁.wr ∨ x₀.ref = x₁.ref) ∧ (x₁.wr ≠ x₀.wr ∨ x₁.rd ≠ x₀.rd)) ∨
      (x₁.wr = 0 ∧ 0 < x₀.wr ∧ x₁.rd ≠ 0) ∨
      x₁.ref > x₀.ref ∨ x₁.wr > x₀.wr ∨ x₁.rd > x₀.rd then none
  else some (x₀ - x₁)

/-- The decision of `con_translate` on an access to a region with the counts `x`: the access that
remains for the parent, or none if the access is an error. -/
def solve (root : Bool) (a : Access) (x : XCap) : Option Access :=
  if a = .notLive then
    if x.ref ≠ 0 ∨ x.wr < 0 ∨ x.rd < 0 then none else some a
  else if xcapOk x then
    match a with
    | .live => some .live
    | .rd => if 0 < x.wr + x.rd then some .live else if root then none else some .rd
    | .notRW => if x.wr + x.rd ≠ 0 then none else some .notRW
    | .wr => if 0 < x.wr then some .live else if root then none else some .wr
    | .notW => if x.wr ≠ 0 then none else some .notW
    | .notLive => none
  else none

/-! ## Environment and result -/

/-- `struct TransEnv`: the region, its counts, its parent, the call path and the location. -/
structure TransEnv (R : Type) where
  r : R
  c : XCap
  p : Option R
  path : List Seg
  loc : Seg

/-- The errors of `cons_translate`. -/
inductive TransErr (R : Type) where
  /-- `Could not solve: %s for region %s. XCap: %s. Path: %s`. -/
  | unsolved (loc : Seg) (a : Access) (r : R) (x : XCap) (path : List Seg)
  /-- `Invalid effect to spawn:%s --> %s. Path: %s`. -/
  | spawnEntry (loc : Seg) (r : R) (x : XCap) (path : List Seg)
  /-- `Invalid effect to spawn. Counted %s for %s and spawn requires %s.`. -/
  | spawnCounts (loc : Seg) (counted : XCap) (r : R) (required : XCap)
  /-- `Invalid effect for cap:%s (id=%d) -->curr=%s cap=%s. Path: %s`. -/
  | capCounts (loc : Seg) (r : R) (curr x : XCap) (path : List Seg)
  /-- `Capabilities of paths %s and %s do not match: %s (first path) %s (second path).`. -/
  | joinCounts (loc : Seg) (c₁ c₂ : List (Con R)) (x₁ x₂ : XCap)
  /-- `Region %s is not deallocated. Reference count = %d.`. -/
  | notDeallocated (loc : Seg) (r : R) (ref : Int32)

/-- The reported errors, the counts at the end, and the translated constraints. -/
structure Translated (R : Type) where
  errs : List (TransErr R)
  c : XCap
  ret : List (Con R)

variable {R : Type} [DecidableEq R]

/-! ## The translation -/

/-- `con_translate`. -/
def conTranslate (a : Access) (r : R) (loc : Seg) (te : TransEnv R) : Translated R :=
  match solve te.p.isNone a te.c with
  | none => ⟨[.unsolved loc a r te.c te.path], te.c, []⟩
  | some a =>
    match te.p with
    | none => ⟨[], te.c, []⟩
    | some p => ⟨[], te.c, [.access a p loc]⟩

/-- What the first loop of a spawn collects: the errors, the counts of the region, and the entries
of the other regions in reverse order. -/
structure SpawnCaps (R : Type) where
  errs : List (TransErr R)
  caps : XCap
  others : List (Con R)

/-- One entry of the counts that a spawn passes. -/
def SpawnCaps.add (te : TransEnv R) (s : SpawnCaps R) (x : XCap) (r : R) (loc : Seg) :
    SpawnCaps R where
  errs :=
    if !xcapOk x ∨ x.ref = 0 then s.errs ++ [.spawnEntry loc r x (loc :: te.path)] else s.errs
  caps := if r = te.r then s.caps + x else s.caps
  others := if r = te.r then s.others else .cap x r loc :: s.others

/-- The loop over the counts that a spawn passes. -/
def spawnCaps (te : TransEnv R) : List (Con R) → SpawnCaps R → Except EnvErr (SpawnCaps R)
  | [], s => .ok s
  | .cap x r loc :: cs, s => spawnCaps te cs (s.add te x r loc)
  | _ :: _, _ => .error .translateSpawn

/-- The environment of a spawned thread. -/
def TransEnv.spawned (te : TransEnv R) (c₁ : List (Con R)) (caps : XCap) : TransEnv R :=
  { te with c := caps, p := te.p.filter fun p => p ∈ xrgnsOfCons c₁ }

/-- The constraint on the parent that keeps it away from locks of another thread; `wr` and `rd` are
the lock counts of the other thread. -/
def negative (p : Option R) (loc : Seg) (wr rd : Int32) : List (Con R) :=
  match p with
  | none => []
  | some p =>
    if wr ≠ 0 then [.access .notRW p loc] else if rd ≠ 0 then [.access .notW p loc] else []

/-- The rest of a spawn, after the effect of the thread was translated to `sp`. -/
def afterSpawn (te : TransEnv R) (s : SpawnCaps R) (loc : Seg) (sp : Translated R) : Translated R :=
  let capTmp := xcapXadd te.c s.caps
  let c := capTmp.getD te.c
  -- the locks that this thread keeps, and those that it gave away
  let newThread := negative te.p loc c.wr c.rd
  let thisThread := if c.ref ≠ 0 then negative te.p loc s.caps.wr s.caps.rd else []
  { errs := s.errs ++ sp.errs ++
      if capTmp.isNone then [.spawnCounts loc te.c te.r s.caps] else []
    c := c
    ret := .spawn s.others (newThread ++ sp.ret) loc :: thisThread }

/-- A `Cap` constraint on the region of the environment. -/
def capTranslate (x : XCap) (r : R) (loc : Seg) (te : TransEnv R) : Translated R :=
  match xcapAdd te.c x with
  | none => ⟨[.capCounts loc r te.c x (loc :: te.path)], te.c, []⟩
  | some x₀ => ⟨[], x₀, te.p.toList.map fun p => .access .live p loc⟩

/-- The end of `cons_translate`, for the whole list (`depth = 0`). -/
def finish (te : TransEnv R) (depth : Nat) (x : Translated R) : Translated R :=
  if depth ≠ 0 ∨ x.c.ref = 0 then x
  else
    match te.p with
    -- there is no parent with which the region could go, so it has to be given up here
    | none => { x with errs := x.errs ++ [.notDeallocated te.loc te.r x.c.ref] }
    | some p => { x with ret := x.ret ++ [.access .notLive p (-1)] }

mutual

/-- The loop of `cons_translate`. -/
def consLoop : List (Con R) → TransEnv R → Nat → Except EnvErr (Translated R)
  | [], te, _ => .ok ⟨[], te.c, []⟩
  | con :: cs, te, depth =>
    (con.translate te depth).bind fun x =>
      (consLoop cs { te with c := x.c } depth).map fun y =>
        ⟨x.errs ++ y.errs, y.c, x.ret ++ y.ret⟩

/-- The body of the loop of `cons_translate`. -/
def Con.translate : Con R → TransEnv R → Nat → Except EnvErr (Translated R)
  | .spawn c₁ c₂ loc, te, depth =>
    (spawnCaps te c₁ ⟨[], 0, []⟩).bind fun s =>
      -- `a0 + b0 + c0 == 0`: no count of this region is passed, and the thread is not looked at
      if s.caps.ref + s.caps.wr + s.caps.rd = 0 then
        .ok ⟨s.errs, te.c, if s.others.isEmpty then [] else [.spawn c₁ c₂ loc]⟩
      else
        let te₀ := te.spawned c₁ s.caps
        ((consLoop c₂ te₀ (depth + 1)).map (finish te₀ (depth + 1))).map (afterSpawn te s loc)
  | .cap x r loc, te, _ =>
    -- constraints on other regions stay as they are
    if r = te.r then .ok (capTranslate x r loc te) else .ok ⟨[], te.c, [.cap x r loc]⟩
  | .call ca loc s, te, depth =>
    let te₀ := { te with path := loc :: te.path }
    ((consLoop ca te₀ (depth + 1)).map (finish te₀ (depth + 1))).map fun x =>
      ⟨x.errs, x.c, if x.ret.isEmpty || consIsEmpty x.ret then [] else [.call x.ret loc s]⟩
  | .access a r loc, te, _ =>
    if r = te.r then .ok (conTranslate a r loc te) else .ok ⟨[], te.c, [.access a r loc]⟩
  | .join ca cb loc, te, depth =>
    let te₀ := { te with path := loc :: te.path }
    ((consLoop ca te₀ (depth + 1)).map (finish te₀ (depth + 1))).bind fun x₀ =>
      ((consLoop cb te₀ (depth + 1)).map (finish te₀ (depth + 1))).map fun x₁ =>
        { errs := x₀.errs ++ x₁.errs ++
            if x₁.c ≠ x₀.c then [.joinCounts loc ca cb x₀.c x₁.c] else []
          -- the counts of the second branch go on, also after an error
          c := x₁.c
          ret :=
            if (x₀.ret.isEmpty || consIsEmpty x₀.ret) && (x₁.ret.isEmpty || consIsEmpty x₁.ret)
            then [] else [.join x₀.ret x₁.ret loc] }
  | .empty, te, _ => .ok ⟨[], te.c, [.empty]⟩
  | .undefined, _, _ => .error .translateUndefined

end

/-- `cons_translate`. -/
def consTranslate (c : List (Con R)) (te : TransEnv R) (depth : Nat) :
    Except EnvErr (Translated R) :=
  (consLoop c te depth).map (finish te depth)

end ConcurrentCyclone.XInfer
