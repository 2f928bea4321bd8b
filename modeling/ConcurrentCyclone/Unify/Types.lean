import Mathlib.Data.Set.Finite.Basic
import ConcurrentCyclone.Absyn.Evexp
import ConcurrentCyclone.Tcutil.Effects
import ConcurrentCyclone.Terms.Store
import ConcurrentCyclone.Transition.Throwing

/-!
# Unification of types

`unify_it` (`src/unify.cyc`) makes two types equal by binding unification variables (Evars) in
place. An Evar is a cell with a kind, the type it is bound to, if any, and the list of the type
variables that its type may mention. The types here are type variables, Evars, applications of the
constructors that are not effects, pointers, tuples and the constants of thin bounds.

The functions run on a state that holds the bindings and the lists of all Evars. A failed
unification throws, and the bindings made up to then stay. `compress` shortens the chains of
bindings that it follows. Types are trees here: the test `t1 == t2` of `unify_it` is the test for
the same Evar, and on other types, where it saves a walk over two equal types, the walk is made
(`unifyIt_again` says that it changes no binding).
-/

set_option autoImplicit false

namespace ConcurrentCyclone.Unify

open Tcutil (KindQual AliasQual Kind kindLeq)
open Absyn (Sign SizeOf)

/-! ## Kinds -/

/-- `datatype KindBound`, with its links followed (`compress_kb`). -/
inductive KindBound where
  | eqKb (k : Kind)
  | unknownKb
  | lessKb (k : Kind)
  deriving DecidableEq

/-- `struct Tvar`, without its name. -/
structure Tvar where
  identity : Int
  kind : KindBound
  deriving DecidableEq

/-- `fast_tvar_cmp`. -/
def fastTvarCmp (tv₁ tv₂ : Tvar) : Int :=
  tv₁.identity - tv₂.identity

/-- `List::mem` with `fast_tvar_cmp`. -/
def memTvar (env : List Tvar) (tv : Tvar) : Bool :=
  env.any fun v => fastTvarCmp v tv == 0

/-- `tvar_kind(tv, &bk)`; the bound that it gives an unknown kind has no other answer the next
time. -/
def tvarKind (tv : Tvar) : Kind :=
  match tv.kind with
  | .eqKb k => k
  | .lessKb k => k
  | .unknownKb => ⟨.boxKind, .aliasable⟩

/-! ## Types -/

/-- `union Nmspace`. -/
inductive Nmspace where
  | locN
  | relN (xs : List String)
  | absN (xs : List String)
  | cN (xs : List String)
  deriving DecidableEq

/-- `qvar_t`: a qualified name. -/
structure Qvar where
  nmspace : Nmspace
  name : String
  deriving DecidableEq

/-- `enum AggrKind`. -/
inductive AggrKind where
  | structA
  | unionA
  deriving DecidableEq

/-- `datatype TyCon`, without the constructors of effects. A declaration that is known is named by
its name. -/
inductive Tycon where
  | voidCon
  | intCon (sn : Sign) (sz : SizeOf)
  | floatCon (i : Int)
  | rgnHandleCon
  | xRgnHandleCon
  | tagCon
  | heapCon
  | uniqueCon
  | refCntCon
  | trueCon
  | falseCon
  | thinCon
  | fatCon
  | enumCon (n : Qvar)
  | anonEnumCon (fs : List (Qvar × Option Nat))
  | builtinCon (s : String) (k : Kind)
  | datatypeCon (n : Qvar)
  | datatypeFieldCon (known : Bool) (d f : Qvar)
  | aggrCon (known : Bool) (k : AggrKind) (n : Qvar)
  deriving DecidableEq

/-- `tycon2int`. -/
def tycon2int : Tycon → Nat
  | .voidCon => 0
  | .intCon .unsigned .char => 1
  | .intCon .signed .char => 2
  | .intCon .none .char => 3
  | .intCon .unsigned .short => 4
  | .intCon .signed .short => 5
  | .intCon .none .short => 6
  | .intCon .unsigned .int => 7
  | .intCon .signed .int => 8
  | .intCon .none .int => 9
  -- `long` is taken for `int`
  | .intCon .unsigned .long => 7
  | .intCon .signed .long => 8
  | .intCon .none .long => 9
  | .intCon .unsigned .longLong => 13
  | .intCon .signed .longLong => 14
  | .intCon .none .longLong => 15
  | .floatCon i => if i = 0 then 16 else if i = 1 then 17 else 18
  | .rgnHandleCon => 19
  | .tagCon => 20
  | .heapCon => 21
  | .uniqueCon => 22
  | .refCntCon => 23
  | .trueCon => 27
  | .falseCon => 28
  | .fatCon => 29
  | .thinCon => 30
  | .enumCon _ => 31
  | .anonEnumCon _ => 32
  | .builtinCon _ _ => 33
  | .datatypeCon _ => 34
  | .datatypeFieldCon _ _ _ => 35
  | .aggrCon _ _ _ => 36
  | .xRgnHandleCon => 37

/-- What `tycon_cmp` compares of two constructors with the same number. -/
inductive TyconName where
  | anonymous
  | name (n : Qvar)
  | fields (fs : List (Qvar × Option Nat))
  | builtin (s : String)
  | field (d f : Qvar)
  | aggr (k : AggrKind) (n : Qvar)
  deriving DecidableEq

/-- The names that a constructor carries. -/
def Tycon.names : Tycon → TyconName
  | .enumCon n => .name n
  | .anonEnumCon fs => .fields fs
  | .builtinCon s _ => .builtin s
  | .datatypeCon n => .name n
  | .datatypeFieldCon _ d f => .field d f
  | .aggrCon _ k n => .aggr k n
  | _ => .anonymous

/-- Whether `tycon_cmp` returns 0. -/
def tyconCmp (c₁ c₂ : Tycon) : Bool :=
  tycon2int c₁ == tycon2int c₂ && c₁.names == c₂.names

/-- `struct Tqual`: a qualifier that is printed as `const` is one. -/
structure Tqual where
  printConst : Bool
  qVolatile : Bool
  qRestrict : Bool
  realConst : Bool
  real_of_print : printConst = true → realConst = true

/-- An Evar is named by the number that `new_evar` gives it. -/
abbrev Evar := Nat

/-- `datatype Type`. -/
inductive Ty where
  | app (c : Tycon) (ts : List Ty)
  | evar (e : Evar)
  | var (tv : Tvar)
  | pointer (elt : Ty) (tq : Tqual) (rgn nullable bounds zeroTerm : Ty)
  | tuple (fields : List (Tqual × Ty))
  /-- `ValueofType` of a constant. -/
  | valueof (i : Nat)

/-- `bounds_one`. -/
def boundsOne : Ty :=
  .app .thinCon [.valueof 1]

/-! ## States -/

/-- The kinds of the Evars, and those of the aggregates as their declarations give them. -/
structure Env where
  evarKind : Evar → Kind
  aggrKind : Qvar → List Ty → Kind

/-- The mutable parts of all Evars. Finitely many are bound. -/
structure State where
  ref : Evar → Option Ty
  scope : Evar → List Tvar
  finite_bound : {e | ref e ≠ none}.Finite

/-- `*ref = t`. -/
def State.setRef (s : State) (e : Evar) (t : Ty) : State where
  ref := Function.update s.ref e (some t)
  scope := s.scope
  finite_bound := by
    refine (s.finite_bound.insert e).subset fun x hx => ?_
    by_cases hxe : x = e
    · exact .inl hxe
    · exact .inr (by rwa [Set.mem_ofPred_eq, Function.update_of_ne hxe] at hx)

/-- `*sopt = new Opt(tvs)`. -/
def State.setScope (s : State) (e : Evar) (tvs : List Tvar) : State where
  ref := s.ref
  scope := Function.update s.scope e tvs
  finite_bound := s.finite_bound

/-- Why two types do not unify, as `failure_reason` has it. -/
inductive Reason where
  | escapesScope
  | occursCheck
  | kindsIncompatible (k₁ k₂ : Kind)
  | differentConstructors
  | variablesDiffer
  | notBothZeroTerminated
  | qualifiersDontMatch
  | differentBounds
  | cannotProveSame
  | differentNumberOfComponents
  /-- `throw &Unify_val`, with the reason left to the caller. -/
  | unstated
  deriving DecidableEq

/-- What ends a computation early. -/
inductive Stop where
  /-- The exception `Unify`. -/
  | unify (r : Reason)
  /-- `impos`. -/
  | impossible
  /-- The bound on the number of nested calls is reached. -/
  | outOfFuel
  deriving DecidableEq

/-- Computations on the state that can throw. -/
abbrev M (α : Type) := EStateM Stop State α

/-- `fail_because`. -/
def failBecause {α : Type} (r : Reason) : M α :=
  throw (.unify r)

/-! ## The functions -/

/-- `compress`: the end of a chain of bindings, which is shortened on the way back. -/
def compress : Nat → Ty → M Ty
  | 0, _ => throw .outOfFuel
  | n + 1, .evar e => do
    let s ← get
    match s.ref e with
    | none => pure (.evar e)
    | some ta =>
      let t₂ ← compress n ta
      modify fun s => s.setRef e t₂
      pure t₂
  | _ + 1, t => pure t

/-- The elements of a list in turn. -/
def forEach {α : Type} (f : α → M Unit) : List α → M Unit
  | [] => pure ()
  | x :: xs => do
    f x
    forEach f xs

/-- The case of an unbound Evar in `occurs`: its type variables are cut down to those of `env`. -/
def narrow (env : List Tvar) (e : Evar) : M Unit := do
  let s ← get
  if (s.scope e).all (memTvar env) then pure ()
  else set (s.setScope e ((s.scope e).filter (memTvar env)).reverse)

/-- `occurs`: `evar` does not occur in `t`, and every free type variable of `t` is in `env`. -/
def occurs (evar : Evar) (env : List Tvar) : Nat → Ty → M Unit
  | 0, _ => throw .outOfFuel
  | n + 1, t => do
    let t ← compress n t
    match t with
    | .var tv => if memTvar env tv then pure () else failBecause .escapesScope
    | .evar e =>
      if e = evar then failBecause .occursCheck
      else do
        let s ← get
        match s.ref e with
        | some t' => occurs evar env n t'
        | none => narrow env e
    | .pointer elt _ rgn nullable bounds zeroTerm =>
      forEach (occurs evar env n) [elt, rgn, nullable, bounds, zeroTerm]
    | .tuple fs => forEach (fun f => occurs evar env n f.2) fs
    | .app _ ts => forEach (occurs evar env n) ts
    | .valueof _ => pure ()

/-- The kinds that the constructors have in `type_kind`. -/
def conKind (env : Env) : Tycon → List Ty → M Kind
  | .voidCon, _ => pure ⟨.memKind, .aliasable⟩
  | .intCon _ sz, _ =>
    pure (if sz = .int ∨ sz = .long then ⟨.boxKind, .aliasable⟩ else ⟨.memKind, .aliasable⟩)
  | .floatCon _, _ => pure ⟨.memKind, .aliasable⟩
  | .enumCon _, _ | .anonEnumCon _, _ | .xRgnHandleCon, _ | .rgnHandleCon, _ =>
    pure ⟨.boxKind, .aliasable⟩
  | .uniqueCon, _ => pure ⟨.rgnKind, .unique⟩
  | .heapCon, _ => pure ⟨.rgnKind, .aliasable⟩
  | .refCntCon, _ => pure ⟨.rgnKind, .top⟩
  | .builtinCon _ k, _ => pure k
  | .tagCon, _ => pure ⟨.boxKind, .aliasable⟩
  | .falseCon, _ | .trueCon, _ => pure ⟨.boolKind, .aliasable⟩
  | .thinCon, _ | .fatCon, _ => pure ⟨.ptrBndKind, .aliasable⟩
  | .datatypeCon _, _ => pure ⟨.anyKind, .aliasable⟩
  | .datatypeFieldCon true _ _, _ => pure ⟨.memKind, .aliasable⟩
  | .datatypeFieldCon false _ _, _ => throw .impossible
  | .aggrCon false _ _, _ => pure ⟨.anyKind, .aliasable⟩
  | .aggrCon true _ n, ts => pure (env.aggrKind n ts)

/-- `type_kind`. -/
def typeKind (env : Env) : Nat → Ty → M Kind
  | 0, _ => throw .outOfFuel
  | n + 1, t => do
    let t ← compress n t
    match t with
    | .evar e => pure (env.evarKind e)
    | .var tv => pure (tvarKind tv)
    | .app c ts => conKind env c ts
    | .pointer _ _ rgn _ bounds _ => do
      let b ← compress n bounds
      let k ← typeKind env n rgn
      -- bounds that are not known to be thin may become fat
      match b with
      | .app .thinCon _ => pure ⟨.boxKind, k.aliasqual⟩
      | _ => pure ⟨.memKind, k.aliasqual⟩
    | .valueof _ => pure ⟨.intKind, .aliasable⟩
    | .tuple _ => pure ⟨.memKind, .aliasable⟩

/-- `unify_list`. -/
def unifyList (unifyIt : Ty → Ty → M Unit) : List Ty → List Ty → M Unit
  | t₁ :: ts₁, t₂ :: ts₂ => do
    unifyIt t₁ t₂
    unifyList unifyIt ts₁ ts₂
  | [], [] => pure ()
  | _, _ => throw (.unify .unstated)

/-- `unify_tqual`. -/
def unifyTqual (tq₁ tq₂ : Tqual) : M Unit :=
  if tq₁.realConst ≠ tq₂.realConst ∨ tq₁.qVolatile ≠ tq₂.qVolatile ∨
      tq₁.qRestrict ≠ tq₂.qRestrict then
    failBecause .qualifiersDontMatch
  else pure ()

/-- The loop over the components of two tuples. -/
def unifyFields (unifyIt : Ty → Ty → M Unit) :
    List (Tqual × Ty) → List (Tqual × Ty) → M Unit
  | (tqa, ta) :: ts₁, (tqb, tb) :: ts₂ => do
    unifyIt ta tb
    unifyTqual tqa tqb
    unifyFields unifyIt ts₁ ts₂
  | [], [] => pure ()
  | _, _ => failBecause .differentNumberOfComponents

/-- `unify`, over a given `unify_it`. -/
def tryUnify (unifyIt : Ty → Ty → M Unit) (t₁ t₂ : Ty) : M Bool :=
  tryCatch (do unifyIt t₁ t₂; pure true) fun
    | .unify _ => pure false
    | stop => throw stop

/-- The nullabilities of two pointers in `unify_it`: they need not be the same when the bounds are
kept at run time. -/
def unifyNullable (unifyIt : Ty → Ty → M Unit) (n : Nat) (bounds₁ null₁ null₂ : Ty) :
    M Unit := do
  let b ← compress n bounds₁
  match b with
  | .app .fatCon _ => pure ()
  | _ => unifyIt null₁ null₂

/-- The two pointer types of `unify_it`; their regions are unified the other way round. -/
def unifyPointers (unifyIt : Ty → Ty → M Unit) (n : Nat) (elt₁ : Ty) (tq₁ : Tqual)
    (rgn₁ null₁ bounds₁ zt₁ elt₂ : Ty) (tq₂ : Tqual) (rgn₂ null₂ bounds₂ zt₂ : Ty) : M Unit := do
  unifyIt elt₁ elt₂
  unifyIt rgn₂ rgn₁
  let zt ← tryUnify unifyIt zt₁ zt₂
  if zt = true then do
    unifyTqual tq₁ tq₂
    let bnd ← tryUnify unifyIt bounds₁ bounds₂
    if bnd = true then unifyNullable unifyIt n bounds₁ null₁ null₂
    else failBecause .differentBounds
  else failBecause .notBothZeroTerminated

/-- How the lists of two Evars are compared before the second one is bound to the first. -/
abbrev ScopeTest := List Tvar → List Tvar → Bool

/-- The loop of `unify_it` over the second list: all of it is in the first one. -/
def secondInFirst : ScopeTest := fun s₁ s₂ => s₂.all (memTvar s₁)

/-- What the binding needs: all of the first list is in the second one. -/
def firstInSecond : ScopeTest := fun s₁ s₂ => s₁.all (memTvar s₂)

section

variable (test : ScopeTest)

/-- The Evar `e₁` and another type, whose kind is not below the one of `e₁`. -/
def unifyAbove (env : Env) (unifyIt : Ty → Ty → M Unit) (n : Nat) (e₁ : Evar)
    (s₁ : List Tvar) (t₂ : Ty) (k₂ : Kind) : M Unit :=
  match t₂ with
  | .evar e₂ => do
    let s ← get
    if test s₁ (s.scope e₂) then
      if kindLeq (env.evarKind e₁) k₂ then modify fun s => s.setRef e₂ (.evar e₁)
      else failBecause (.kindsIncompatible (env.evarKind e₁) k₂)
    else failBecause .escapesScope
  | .pointer _ _ _ _ bounds _ =>
    if (env.evarKind e₁).kind = .boxKind then do
      let c ← compress n bounds
      match c with
      | .evar c => do
        -- the pointer gets thin bounds; whether it does is not looked at
        let _ ← tryUnify unifyIt (.evar c) boundsOne
        modify fun s => s.setRef e₁ t₂
      | _ => failBecause (.kindsIncompatible (env.evarKind e₁) k₂)
    else failBecause (.kindsIncompatible (env.evarKind e₁) k₂)
  | _ => failBecause (.kindsIncompatible (env.evarKind e₁) k₂)

/-- The Evar `e₁` and another type in `unify_it`. -/
def unifyEvar (env : Env) (unifyIt : Ty → Ty → M Unit) (n : Nat) (e₁ : Evar) (t₂ : Ty) :
    M Unit := do
  let s ← get
  let s₁ := s.scope e₁
  occurs e₁ s₁ n t₂
  let k₂ ← typeKind env n t₂
  if kindLeq k₂ (env.evarKind e₁) then modify fun s => s.setRef e₁ t₂
  else unifyAbove test env unifyIt n e₁ s₁ t₂ k₂

/-- The cases of `unify_it`, for two types that are no bound Evars. -/
def unifyHeads (env : Env) (unifyIt : Ty → Ty → M Unit) (n : Nat) : Ty → Ty → M Unit
  | .evar e₁, .evar e₂ => if e₁ = e₂ then pure () else unifyEvar test env unifyIt n e₁ (.evar e₂)
  | .evar e₁, t₂ => unifyEvar test env unifyIt n e₁ t₂
  | t₁, .evar e₂ => unifyIt (.evar e₂) t₁
  | .app c₁ ts₁, .app c₂ ts₂ =>
    if tyconCmp c₁ c₂ = true then unifyList unifyIt ts₁ ts₂
    else failBecause .differentConstructors
  | .var tv₁, .var tv₂ =>
    if tv₂.identity = tv₁.identity then pure () else failBecause .variablesDiffer
  | .pointer elt₁ tq₁ rgn₁ null₁ bounds₁ zt₁, .pointer elt₂ tq₂ rgn₂ null₂ bounds₂ zt₂ =>
    unifyPointers unifyIt n elt₁ tq₁ rgn₁ null₁ bounds₁ zt₁ elt₂ tq₂ rgn₂ null₂ bounds₂ zt₂
  | .valueof i₁, .valueof i₂ => if i₁ = i₂ then pure () else failBecause .cannotProveSame
  | .tuple ts₁, .tuple ts₂ => unifyFields unifyIt ts₁ ts₂
  | _, _ => throw (.unify .unstated)

/-- `unify_it`, with the given test of the two lists. -/
def unifyIt (env : Env) : Nat → Ty → Ty → M Unit
  | 0, _, _ => throw .outOfFuel
  | n + 1, t₁, t₂ => do
    let t₁ ← compress n t₁
    let t₂ ← compress n t₂
    unifyHeads test env (unifyIt env n) n t₁ t₂

end

/-- `unify`. -/
def unify (env : Env) (n : Nat) (t₁ t₂ : Ty) : M Bool :=
  tryUnify (unifyIt secondInFirst env n) t₁ t₂

/-- `unify` with the test that the binding needs. -/
def unifyInScope (env : Env) (n : Nat) (t₁ t₂ : Ty) : M Bool :=
  tryUnify (unifyIt firstInSecond env n) t₁ t₂

end ConcurrentCyclone.Unify
