import ConcurrentCyclone.XInfer.Enclosing

/-!
# Common prefixes of the branches of joins

`cons_prefix` takes what the branches of a join have in common at their front out of the join. Two
constraints are taken for the same one by `con_eq`, which compares source locations and nothing else
(for joins, it compares the branches). The first part follows the source, with `cons_merge` and
`cons_append`, the two operations that build effects of nodes.

The second part compares the paths before and after. `Meet` are the pairs of constraints that
`con_eq` is called with while it goes through two branches, and `Located` says that those which it
takes for equal by their location are equal; then the paths are the same (`path_consPrefix`). The
translation of an effect for a
region that is left adds `Not_Live` accesses, all of them at location `-1`: `not_path_consPrefix` is
a join of two such flows, where a path is lost.
-/

set_option autoImplicit false

namespace ConcurrentCyclone.XInfer

variable {R : Type}

/-! ## The source -/

mutual

/-- `con_eq`: location only, except for joins. -/
def conEq : Con R → Con R → Bool
  | .access _ _ l₁, .access _ _ l₂ => l₁ == l₂
  | .cap _ _ l₁, .cap _ _ l₂ => l₁ == l₂
  | .join c₁ c₂ _, .join d₁ d₂ _ => consEq c₁ d₁ && consEq c₂ d₂
  | .call _ l₁ _, .call _ l₂ _ => l₁ == l₂
  | .empty, .empty => true
  | .undefined, .undefined => true
  | .spawn _ _ l₁, .spawn _ _ l₂ => l₁ == l₂
  | _, _ => false

/-- `cons_eq`; the source calls `con_eq` with the arguments the other way round, which makes no
difference. -/
def consEq : List (Con R) → List (Con R) → Bool
  | [], [] => true
  | x :: a, y :: b => conEq x y && consEq a b
  | _, _ => false

end

/-- The loop of `cons_prefix` over both branches of a join: the elements that are equal, taken from
the first branch, and what is left of each. -/
def commonPrefix : List (Con R) → List (Con R) → List (Con R) × List (Con R) × List (Con R)
  | x :: a, y :: b =>
    if conEq x y then
      let rest := commonPrefix a b
      (x :: rest.1, rest.2)
    else ([], x :: a, y :: b)
  | a, b => ([], a, b)

/-- `if(!a) a = cons_empty()`. -/
def orEmpty (a : List (Con R)) : List (Con R) :=
  if a.isEmpty then [.empty] else a

/-- The join of what is left of the branches, if anything is. -/
def joinRest (a b : List (Con R)) (loc : Seg) : List (Con R) :=
  if a.isEmpty && b.isEmpty then [] else [.join (orEmpty a) (orEmpty b) loc]

mutual

/-- `cons_prefix`. -/
def consPrefix : List (Con R) → List (Con R)
  | [] => []
  | con :: cs => con.factored ++ consPrefix cs

/-- The elements that `cons_prefix` puts in the place of one constraint. -/
def Con.factored : Con R → List (Con R)
  | .join c₁ c₂ loc =>
    let common := commonPrefix (consPrefix c₁) (consPrefix c₂)
    common.1 ++ joinRest common.2.1 common.2.2 loc
  | con => [con]

end

/-- `cons_is_undefined`. -/
def consIsUndefined : List (Con R) → Bool
  | [.undefined] => true
  | _ => false

/-- `cons_merge`; `none` is its `env_err`. -/
def consMerge (c₀ c₁ : List (Con R)) (loc : Seg) : Option (List (Con R)) :=
  if consIsUndefined c₁ then none
  else if consIsUndefined c₀ then some c₁
  else if consIsEmpty c₀ && consIsEmpty c₁ then some [.empty]
  else some (consPrefix [.join c₀ c₁ loc])

/-- `cons_append`; `none` is its `env_err`. -/
def consAppend (c₀ c₁ : List (Con R)) : Option (List (Con R)) :=
  if consIsUndefined c₁ then none
  else if consIsUndefined c₀ || consIsEmpty c₀ then some c₁
  else if consIsEmpty c₁ then some c₀
  else some (c₀ ++ c₁)

/-! ## Paths of lists -/

variable {tr : List (Event R)} {c₁ c₂ a : List (Con R)} {loc : Seg}

variable {c d : List (Con R)}

theorem path_append_iff :
    Path (c ++ d) tr ↔ ∃ tr1 tr2, tr = tr1 ++ tr2 ∧ Path c tr1 ∧ Path d tr2 := by
  induction c generalizing tr with
  | nil => simp [path_nil_iff]
  | cons con cs ih =>
    rw [List.cons_append]
    simp only [ih, path_cons_iff]
    constructor
    · rintro ⟨tr1, _, rfl, hcon, tr2, tr3, rfl, h2, h3⟩
      exact ⟨_, tr3, (List.append_assoc ..).symm, ⟨tr1, tr2, rfl, hcon, h2⟩, h3⟩
    · rintro ⟨_, tr3, rfl, ⟨tr1, tr2, rfl, hcon, h2⟩, h3⟩
      exact ⟨tr1, _, List.append_assoc .., hcon, tr2, tr3, rfl, h2, h3⟩

/-- Two lists with the same paths. -/
def SamePaths (c d : List (Con R)) : Prop :=
  ∀ tr, Path c tr ↔ Path d tr

namespace SamePaths

variable {c c' d d' e : List (Con R)}

theorem refl (c : List (Con R)) : SamePaths c c := fun _ => Iff.rfl

theorem trans (h : SamePaths c d) (h' : SamePaths d e) : SamePaths c e :=
  fun tr => (h tr).trans (h' tr)

theorem append (h : SamePaths c c') (h' : SamePaths d d') : SamePaths (c ++ d) (c' ++ d') := by
  intro tr
  simp only [path_append_iff, (h _), (h' _)]

end SamePaths

theorem path_join_iff : Path [.join c₁ c₂ loc] tr ↔ Path c₁ tr ∨ Path c₂ tr := by
  simp [path_cons_iff, path_nil_iff, Con.Takes]

theorem SamePaths.join {d1 d2 : List (Con R)} {l l' : Seg} (h1 : SamePaths c₁ d1)
    (h2 : SamePaths c₂ d2) : SamePaths [.join c₁ c₂ l] [.join d1 d2 l'] := by
  intro tr
  rw [path_join_iff, path_join_iff, h1 tr, h2 tr]

theorem samePaths_orEmpty (a : List (Con R)) : SamePaths (orEmpty a) a := by
  cases a with
  | nil =>
    intro tr
    constructor
    · intro h
      cases h with
      | empty h => exact h
    · exact .empty
  | cons x a => exact .refl _

/-- A join whose branches both start with `pre`. -/
theorem samePaths_joinRest (pre a b : List (Con R)) (loc : Seg) :
    SamePaths (pre ++ joinRest a b loc) [.join (pre ++ a) (pre ++ b) loc] := by
  intro tr
  rw [path_join_iff]
  unfold joinRest
  split
  case isTrue h =>
    -- nothing is left of the branches: both are `pre`
    obtain ⟨ha, hb⟩ := Bool.and_eq_true_iff.1 h
    rw [List.isEmpty_iff.1 ha, List.isEmpty_iff.1 hb, or_self]
  case isFalse h =>
    -- a path behind `pre` takes one of the branches
    simp only [path_append_iff, path_join_iff, (samePaths_orEmpty a _), (samePaths_orEmpty b _),
      and_or_left, exists_or]

/-! ## Locations -/

/-- `con_eq` is called with the two constraints while it goes through the two lists. -/
inductive Meet : List (Con R) → List (Con R) → Con R → Con R → Prop where
  | head {x y : Con R} {a b : List (Con R)} : Meet (x :: a) (y :: b) x y
  | left {x y : Con R} {c₁ c₂ d₁ d₂ a b : List (Con R)} {l l' : Seg} :
      Meet c₁ d₁ x y → Meet (.join c₁ c₂ l :: a) (.join d₁ d₂ l' :: b) x y
  | right {x y : Con R} {c₁ c₂ d₁ d₂ a b : List (Con R)} {l l' : Seg} :
      consEq c₁ d₁ = true → Meet c₂ d₂ x y → Meet (.join c₁ c₂ l :: a) (.join d₁ d₂ l' :: b) x y
  | tail {x y u v : Con R} {a b : List (Con R)} :
      conEq u v = true → Meet a b x y → Meet (u :: a) (v :: b) x y

/-- Two constraints of the lists that `con_eq` compares by location, and takes for equal, are
equal. -/
def LocatedIn (a b : List (Con R)) : Prop :=
  ∀ x y, Meet a b x y → (∀ c₁ c₂ loc, x ≠ .join c₁ c₂ loc) → conEq x y = true → x = y

/-- The list has a join of the two branches, at any depth. -/
inductive Joins : List (Con R) → List (Con R) → List (Con R) → Prop where
  | head {c₁ c₂ cs : List (Con R)} {loc : Seg} : Joins (.join c₁ c₂ loc :: cs) c₁ c₂
  | left {c₁ c₂ cs d₁ d₂ : List (Con R)} {loc : Seg} :
      Joins c₁ d₁ d₂ → Joins (.join c₁ c₂ loc :: cs) d₁ d₂
  | right {c₁ c₂ cs d₁ d₂ : List (Con R)} {loc : Seg} :
      Joins c₂ d₁ d₂ → Joins (.join c₁ c₂ loc :: cs) d₁ d₂
  | tail {con : Con R} {cs d₁ d₂ : List (Con R)} : Joins cs d₁ d₂ → Joins (con :: cs) d₁ d₂

/-- In the branches of each join, what `con_eq` compares by location and takes for equal is equal.
The branches are compared after `cons_prefix` went through them. -/
def Located (c : List (Con R)) : Prop :=
  ∀ c₁ c₂, Joins c c₁ c₂ → LocatedIn (consPrefix c₁) (consPrefix c₂)

theorem commonPrefix_append (a b : List (Con R)) :
    (commonPrefix a b).1 ++ (commonPrefix a b).2.1 = a := by
  fun_induction commonPrefix a b with
  | case1 y a z b heq rest ih => exact congrArg (y :: ·) ih
  | case2 | case3 => rfl

/-- Induction on constraint lists that tells joins from other constraints. -/
@[elab_as_elim]
theorem Con.joinInduction {Q : List (Con R) → Prop} (nil : Q [])
    (leaf : ∀ con cs, (∀ c₁ c₂ loc, con ≠ .join c₁ c₂ loc) → Q cs → Q (con :: cs))
    (join : ∀ c₁ c₂ loc cs, Q c₁ → Q c₂ → Q cs → Q (.join c₁ c₂ loc :: cs)) (c : List (Con R)) :
    Q c := by
  induction c using Con.listInduction with
  | nil => exact nil
  | join c₁ c₂ loc cs ih1 ih2 ih => exact join c₁ c₂ loc cs ih1 ih2 ih
  | access _ _ _ _ ih | cap _ _ _ _ ih | spawn _ _ _ _ _ _ ih | call _ _ _ _ _ ih | empty _ ih
  | undefined _ ih => exact leaf _ _ (by rintro _ _ _ ⟨⟩) ih

variable {x : Con R}

theorem factored_of_ne_join (hx : ∀ c₁ c₂ loc, x ≠ .join c₁ c₂ loc) : x.factored = [x] := by
  cases x with
  | join c₁ c₂ loc => exact absurd rfl (hx c₁ c₂ loc)
  | _ => rfl

section Located

variable {a b : List (Con R)}

theorem LocatedIn.tail {y : Con R} (h : LocatedIn (x :: a) (y :: b)) (hxy : conEq x y = true) :
    LocatedIn a b :=
  fun u v huv => h u v (.tail hxy huv)

/-- Lists that `cons_eq` takes for equal have the same paths, if locations stand for constraints. -/
theorem LocatedIn.samePaths (h : LocatedIn a b) (heq : consEq a b = true) : SamePaths a b := by
  induction a using Con.joinInduction generalizing b with
  | nil =>
    cases b with
    | nil => exact .refl _
    | cons y b => cases heq
  | leaf x a hx ih =>
    cases b with
    | nil => cases heq
    | cons y b =>
      obtain ⟨hxy, htail⟩ := Bool.and_eq_true_iff.1 heq
      obtain rfl := h x y .head hx hxy
      exact (SamePaths.refl [x]).append (ih (h.tail hxy) htail)
  | join c₁ c₂ loc cs ih1 ih2 ih =>
    cases b with
    | nil => cases heq
    | cons y b =>
      obtain ⟨hxy, htail⟩ := Bool.and_eq_true_iff.1 heq
      have hrest := ih (h.tail hxy) htail
      cases y with
      | join d₁ d₂ loc' =>
        obtain ⟨h1, h2⟩ := Bool.and_eq_true_iff.1 hxy
        have hfirst := ih1 (fun u v huv => h u v (.left huv)) h1
        have hsecond := ih2 (fun u v huv => h u v (.right h1 huv)) h2
        exact (hfirst.join hsecond).append hrest
      | _ => cases hxy

/-- The second branch, with its part of the common elements replaced by that of the first. -/
theorem LocatedIn.samePaths_commonPrefix (h : LocatedIn a b) :
    SamePaths ((commonPrefix a b).1 ++ (commonPrefix a b).2.2) b := by
  fun_induction commonPrefix a b with
  | case1 x a y b heq rest ih =>
    have hxy : SamePaths [x] [y] := by
      refine LocatedIn.samePaths (fun u v huv => h u v ?_) (by rw [consEq, heq]; rfl)
      cases huv with
      | head => exact .head
      | left huv => exact .left huv
      | right hfirst huv => exact .right hfirst huv
      | tail _ huv => cases huv
    exact hxy.append (ih (h.tail heq))
  | case2 | case3 => exact .refl _

/-- Taking out what branches have in common keeps the paths of the join. -/
theorem LocatedIn.samePaths_factored (h : LocatedIn a b) (loc : Seg) :
    SamePaths ((commonPrefix a b).1 ++ joinRest (commonPrefix a b).2.1 (commonPrefix a b).2.2 loc)
      [.join a b loc] := by
  have hfirst : SamePaths ((commonPrefix a b).1 ++ (commonPrefix a b).2.1) a := by
    rw [commonPrefix_append]
    exact .refl a
  exact (samePaths_joinRest _ _ _ loc).trans (hfirst.join h.samePaths_commonPrefix)

end Located

/-- If constraints that are compared across a join and taken for equal by their location are equal,
`cons_prefix` neither loses nor adds an event trace. -/
theorem path_consPrefix (c : List (Con R)) (h : Located c) (tr : List (Event R)) :
    Path (consPrefix c) tr ↔ Path c tr := by
  induction c using Con.joinInduction generalizing tr with
  | nil => exact Iff.rfl
  | leaf con cs hcon ih =>
    rw [consPrefix, factored_of_ne_join hcon]
    exact (SamePaths.refl [con]).append (ih fun c₁ c₂ hj => h c₁ c₂ (.tail hj)) tr
  | join c₁ c₂ loc cs ih₁ ih₂ ih =>
    have h₁ : SamePaths (consPrefix c₁) c₁ := ih₁ fun d₁ d₂ hj => h d₁ d₂ (.left hj)
    have h₂ : SamePaths (consPrefix c₂) c₂ := ih₂ fun d₁ d₂ hj => h d₁ d₂ (.right hj)
    have hrest : SamePaths (consPrefix cs) cs := ih fun d₁ d₂ hj => h d₁ d₂ (.tail hj)
    have hjoin := (h c₁ c₂ .head).samePaths_factored loc
    exact (hjoin.trans (h₁.join h₂)).append hrest tr

/-- Two reads at one place in front of a join, whose branches start with the same write and go on
differently. -/
def branches : List (Con Nat) :=
  [.access .rd 0 5, .access .rd 1 5,
    .join [.access .wr 0 1, .access .rd 0 2] [.access .wr 0 1, .access .rd 1 3] 4]

theorem path_consPrefix_branches :
    consPrefix branches = [.access .rd 0 5, .access .rd 1 5, .access .wr 0 1,
      .join [.access .rd 0 2] [.access .rd 1 3] 4] ∧
    ∀ tr, Path (consPrefix branches) tr ↔ Path branches tr := by
  refine ⟨rfl, path_consPrefix branches ?_⟩
  rintro c₁ c₂ (_ | _ | _ | (_ | _ | _ | (_ | hj | hj | hj)))
  · rintro x y (_ | _ | _ | ⟨_, _ | _ | _ | ⟨_, hmeet⟩⟩) - heq
    · rfl
    · exact absurd heq (by decide)
    · cases hmeet
  · rcases hj with _ | _ | _ | (_ | _ | _ | hj)
    cases hj
  · rcases hj with _ | _ | _ | (_ | _ | _ | hj)
    cases hj
  · cases hj

/-- Two flows leave a region each, with parents `0` and `1`, and meet. Each of them says that the
parent of its region is not live; after the merge only the first one does. -/
theorem not_path_consPrefix : translateFlow [⟨2, some 0⟩] [] 7 [Con.empty] =
        .ok ([], [.empty, .access .notLive (0 : Nat) (-1)]) ∧
      translateFlow [⟨3, some 1⟩] [] 7 [Con.empty] =
        .ok ([], [.empty, .access .notLive (1 : Nat) (-1)]) ∧
      ∃ tr,
        Path [Con.join [.empty, .access .notLive 0 (-1)] [.empty, .access .notLive 1 (-1)] 7] tr ∧
        ¬ Path (consPrefix
          [Con.join [.empty, .access .notLive 0 (-1)] [.empty, .access .notLive 1 (-1)] 7]) tr := by
  refine ⟨by rfl, by rfl, [.access .notLive 1], .right (.empty (.access .nil)) .nil, ?_⟩
  intro h
  cases h with
  | empty h => cases h

end ConcurrentCyclone.XInfer
