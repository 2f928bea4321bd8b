import ConcurrentCyclone.XInfer.Constraint

/-!
# The check of recursive functions

A call of a function to itself leaves the constraint `Call(NULL)` in its effect, so what a recursive
call does to the counts of a region is not part of the effect. `analyze_fd_post` therefore refuses a
recursive function when `has_cap_or_spawn` finds a `Cap` or a `Spawn` in its effect.

The loop of `has_cap_or_spawn` returns at the first constraint of each list. `Occurs c p` says that
an event stands at position `p` of `c`; `hasCapOrSpawn_iff` says which positions the loop sees, and
`recursionGuarded_iff` for which effects this is enough.
-/

set_option autoImplicit false

namespace ConcurrentCyclone.XInfer

variable {R : Type}

/-! ## The scan -/

mutual

/-- `has_cap_or_spawn`. Each branch of the switch returns, so the loop has one round. -/
def hasCapOrSpawn : List (Con R) → Bool
  | [] => false
  | con :: _ => con.hasCapOrSpawn

/-- The switch in the loop of `has_cap_or_spawn`. -/
def Con.hasCapOrSpawn : Con R → Bool
  | .access _ _ _ => false
  | .cap _ _ _ => true
  -- falls through to `Join` with `c2 = NULL`, in which nothing is found
  | .call c₁ _ _ => hasCapOrSpawn c₁ || false
  | .join c₁ c₂ _ => hasCapOrSpawn c₁ || hasCapOrSpawn c₂
  | .spawn _ _ _ => true
  | .empty => false
  | .undefined => false

end

/-! ## The checks after a function -/

/-- The errors that `analyze_fd_post` reports, with the function and its effect. -/
inductive FdErr (R : Type) where
  /-- `Function %s was declared as @xrgn, but has an "empty" xrgn effect: %s.`. -/
  | declared (name : String) (c : List (Con R))
  /-- `Function %s was NOT declared as @xrgn, but has a NON-empty xrgn effect: %s.`. -/
  | notDeclared (name : String) (c : List (Con R))
  /-- `Recursive functions MUST NOT containCap or Spawn events in their effect. Offending function:
  %s Effect: %s`. -/
  | recursive (name : String) (c : List (Con R))

/-- The exception of `analyze_fd_post`: `analyze_cfg: lost in translation : %s`. -/
structure LostInTranslation (R : Type) where
  c : List (Con R)

/-- What `analyze_fd_post` reads of a function: `fd->name`, the regions of `fd->i.effect`,
`fd->i.ieffect`, and whether a call of the function to itself was seen (`is_recursive`). -/
structure FnDecl (R : Type) where
  name : String
  effect : Finset R
  ieffect : Bool
  isRecursive : Bool

variable [DecidableEq R]

/-- `analyze_fd_post`: the reported errors, and the effect that is stored for the callers. The
argument `c` is the input of the exit node. -/
def analyzeFdPost (fd : FnDecl R) (c : List (Con R)) :
    Except (LostInTranslation R) (List (FdErr R) × List (Con R)) :=
  let s₂ := xrgnsOfCons c
  if ¬ s₂ ⊆ fd.effect then .error ⟨c⟩
  else
    let stored := if s₂ = ∅ then [.empty] else c
    let declared :=
      if s₂ = ∅ then if fd.ieffect then [.declared fd.name c] else []
      else if !fd.ieffect then [.notDeclared fd.name c] else []
    let recursive :=
      if fd.isRecursive && hasCapOrSpawn stored then [.recursive fd.name stored] else []
    .ok (declared ++ recursive, stored)

/-! ## Where events stand -/

section Positions

omit [DecidableEq R]

/-- The constraint is a `Cap` or a `Spawn`. -/
inductive Con.IsEvent : Con R → Prop where
  | cap {x r loc} : IsEvent (.cap x r loc)
  | spawn {c₁ c₂ loc} : IsEvent (.spawn c₁ c₂ loc)

/-- An event stands in `cs` at position `p`: the indices of the calls and joins around it, from the
outside, and last its own index. -/
inductive Occurs : List (Con R) → List Nat → Prop where
  | here {cs i con} : cs[i]? = some con → con.IsEvent → Occurs cs [i]
  | call {cs i c₁ loc s p} : cs[i]? = some (.call c₁ loc s) → Occurs c₁ p → Occurs cs (i :: p)
  | left {cs i c₁ c₂ loc p} : cs[i]? = some (.join c₁ c₂ loc) → Occurs c₁ p → Occurs cs (i :: p)
  | right {cs i c₁ c₂ loc p} : cs[i]? = some (.join c₁ c₂ loc) → Occurs c₂ p → Occurs cs (i :: p)

/-- Every index of the position is the first one. -/
def Leading (p : List Nat) : Prop := ∀ i ∈ p, i = 0

variable {p : List Nat} {c : List (Con R)}

theorem leading_cons {i : Nat} : Leading (i :: p) ↔ i = 0 ∧ Leading p :=
  List.forall_mem_cons

theorem Occurs.hasCapOrSpawn {c : List (Con R)} {p : List Nat} (h : Occurs c p)
    (hp : Leading p) : hasCapOrSpawn c = true := by
  -- the list starts with the constraint at index 0
  have first : ∀ {l : List (Con R)} {con}, l[0]? = some con → ∃ cs, l = con :: cs := by
    intro l con hget
    cases l with
    | nil => cases hget
    | cons con' cs => exact ⟨cs, by rw [Option.some.inj hget]⟩
  induction h with
  | here hget hevent =>
    obtain ⟨rfl, -⟩ := leading_cons.1 hp
    obtain ⟨cs, rfl⟩ := first hget
    cases hevent <;> simp [XInfer.hasCapOrSpawn, Con.hasCapOrSpawn]
  | call hget _ ih | left hget _ ih | right hget _ ih =>
    obtain ⟨rfl, hrest⟩ := leading_cons.1 hp
    obtain ⟨cs, rfl⟩ := first hget
    simp [XInfer.hasCapOrSpawn, Con.hasCapOrSpawn, ih hrest]

theorem occurs_of_hasCapOrSpawn (h : hasCapOrSpawn c = true) : ∃ p, Leading p ∧ Occurs c p := by
  induction c using Con.listInduction with
  | nil | access | empty | undefined => simp [hasCapOrSpawn, Con.hasCapOrSpawn] at h
  | cap => exact ⟨[0], by simp [Leading], .here rfl .cap⟩
  | spawn => exact ⟨[0], by simp [Leading], .here rfl .spawn⟩
  | join c₁ c₂ loc cs ih1 ih2 _ =>
    simp only [hasCapOrSpawn, Con.hasCapOrSpawn, Bool.or_eq_true] at h
    rcases h with h | h
    · obtain ⟨p, hp, hocc⟩ := ih1 h
      exact ⟨0 :: p, leading_cons.2 ⟨rfl, hp⟩, .left rfl hocc⟩
    · obtain ⟨p, hp, hocc⟩ := ih2 h
      exact ⟨0 :: p, leading_cons.2 ⟨rfl, hp⟩, .right rfl hocc⟩
  | call c loc s cs ih _ =>
    simp only [hasCapOrSpawn, Con.hasCapOrSpawn, Bool.or_false] at h
    obtain ⟨p, hp, hocc⟩ := ih h
    exact ⟨0 :: p, leading_cons.2 ⟨rfl, hp⟩, .call rfl hocc⟩

/-- The scan finds the events that stand first in their list, and so do the calls and joins around
them. -/
theorem hasCapOrSpawn_iff : hasCapOrSpawn c = true ↔ ∃ p, Leading p ∧ Occurs c p :=
  ⟨occurs_of_hasCapOrSpawn, fun ⟨_, hp, hocc⟩ => hocc.hasCapOrSpawn hp⟩

theorem not_occurs_empty : ¬ Occurs [(.empty : Con R)] p := by
  have single : ∀ {i : Nat} {con : Con R}, [(.empty : Con R)][i]? = some con → con = .empty := by
    intro i con hget
    exact List.mem_singleton.1 (List.mem_of_getElem? hget)
  rintro (⟨hget, hevent⟩ | ⟨hget, _⟩ | ⟨hget, _⟩ | ⟨hget, _⟩)
  · rw [single hget] at hevent
    cases hevent
  all_goals cases single hget

end Positions

/-! ## Accepted recursive functions -/

/-- A recursive function without an error has a stored effect in which the scan finds no event. -/
theorem analyzeFdPost_accepted {fd : FnDecl R} {c out : List (Con R)}
    (hrec : fd.isRecursive = true) (h : analyzeFdPost fd c = .ok ([], out)) :
    hasCapOrSpawn out = false ∧ (out = c ∨ out = [.empty]) := by
  by_cases hsub : xrgnsOfCons c ⊆ fd.effect
  swap
  · rw [analyzeFdPost, if_pos hsub] at h
    cases h
  rw [analyzeFdPost, if_neg (not_not.2 hsub)] at h
  obtain ⟨herrs, rfl⟩ := Prod.mk.inj (Except.ok.inj h)
  have hscan := (List.append_eq_nil_iff.1 herrs).2
  rw [hrec, ite_eq_right_iff] at hscan
  refine ⟨Bool.eq_false_iff.2 fun hfound => List.cons_ne_nil _ _ (hscan hfound), ?_⟩
  split_ifs
  · exact .inr rfl
  · exact .inl rfl

/-- What the check of recursive functions is for, at a function whose exit node has input `c`. -/
structure RecursionGuarded (c : List (Con R)) : Prop where
  /-- The scan answers whether an event occurs. -/
  exact : hasCapOrSpawn c = true ↔ ∃ p, Occurs c p
  /-- The effect of an accepted recursive function has no event. -/
  accepted : ∀ (fd : FnDecl R) (out : List (Con R)), fd.isRecursive = true →
    analyzeFdPost fd c = .ok ([], out) → ∀ p, ¬ Occurs out p

/-- The check does its work exactly for the effects in which, if there is an event at all, one
stands first in its list, and so do the calls and joins around it. -/
theorem recursionGuarded_iff (c : List (Con R)) :
    RecursionGuarded c ↔ ((∃ p, Occurs c p) → ∃ p, Leading p ∧ Occurs c p) := by
  constructor
  · intro h hocc
    exact hasCapOrSpawn_iff.1 (h.exact.2 hocc)
  · intro hfirst
    have hexact : hasCapOrSpawn c = true ↔ ∃ p, Occurs c p :=
      ⟨fun h => (hasCapOrSpawn_iff.1 h).imp fun _ hp => hp.2,
        fun hocc => hasCapOrSpawn_iff.2 (hfirst hocc)⟩
    refine ⟨hexact, fun fd out hrec hout p hocc => ?_⟩
    obtain ⟨hscan, rfl | rfl⟩ := analyzeFdPost_accepted hrec hout
    · rw [hexact.2 ⟨p, hocc⟩] at hscan
      cases hscan
    · exact not_occurs_empty hocc

/-- A recursive function that reads a region and then takes a reference to it is accepted. -/
theorem not_recursionGuarded_access :
    let c : List (Con Nat) := [.access .rd 0 10, .cap ⟨1, 0, 0⟩ 0 11, .call [] 12 "f"]
    analyzeFdPost ⟨"f", {0}, true, true⟩ c = .ok ([], c) ∧ Occurs c [1] ∧
      ¬ RecursionGuarded c := by
  intro c
  have haccepted : analyzeFdPost ⟨"f", {0}, true, true⟩ c = .ok ([], c) := by
    have hregions : xrgnsOfCons c = {0} := by decide
    simp [analyzeFdPost, hregions, c, hasCapOrSpawn, Con.hasCapOrSpawn]
  have hocc : Occurs c [1] := .here rfl .cap
  exact ⟨haccepted, hocc, fun h => h.accepted _ _ rfl haccepted _ hocc⟩

end ConcurrentCyclone.XInfer
