import Mathlib.Data.List.Basic

/-!
# Abstract values of the flow analysis

The abstract values of `cf_flowinfo.cyc`: what the flow analysis knows of the contents of a place.
A flow dictionary maps roots to values; a place is a root with a path of field selections and
dereferences of unique pointers. The file has the functions that read a dictionary (`lookupPlace`,
`initlevel`, `isUniqueConsumed`) and those that make places escape (`escapeThese`).

A function that stops with an internal error, or with an index out of range, gives `none`. An
expression that consumes a value is identified by a number, and so are the declared variables.
-/

set_option autoImplicit false

namespace ConcurrentCyclone.CfFlowInfo

abbrev ExpId := Nat

abbrev VarId := Nat

/-! ## Places -/

/-- The roots, with what `root_cmp` compares of them. -/
inductive Root where
  | varRoot (vd : VarId)
  | mallocPt (e : ExpId)
  | initParam (i : Int)
  deriving DecidableEq, Repr

inductive PathCon where
  | dot (num : Nat)
  | star
  deriving DecidableEq, Repr

structure Place where
  root : Root
  path : List PathCon
  deriving DecidableEq, Repr

/-! ## Values -/

inductive InitLevel where
  | noneIL
  | allIL
  deriving DecidableEq, Repr

/-- Whether an aggregate is a union, and the field last written if it is known (-1 in the source
otherwise). -/
structure UnionRInfo where
  isUnion : Bool
  fieldnum : Option Nat
  deriving DecidableEq, Repr

inductive AbsRVal where
  | zero
  | notZeroAll
  | unknownR (il : InitLevel)
  | esc (il : InitLevel)
  | addressOf (p : Place)
  | uniquePtr (r : AbsRVal)
  | aggregate (u : UnionRInfo) (d : List AbsRVal)
  | consumed (consumer : ExpId) (iteration : Int) (oldvalue : AbsRVal)
  | namedLocation (name : VarId) (actvalue : AbsRVal)

/-- Induction with the hypothesis for every field of an aggregate. -/
@[elab_as_elim]
theorem AbsRVal.induction {P : AbsRVal → Prop} (zero : P .zero) (notZeroAll : P .notZeroAll)
    (unknownR : ∀ il, P (.unknownR il)) (esc : ∀ il, P (.esc il))
    (addressOf : ∀ p, P (.addressOf p)) (uniquePtr : ∀ r, P r → P (.uniquePtr r))
    (aggregate : ∀ u f, (∀ r ∈ f, P r) → P (.aggregate u f))
    (consumed : ∀ e i r, P r → P (.consumed e i r))
    (namedLocation : ∀ n r, P r → P (.namedLocation n r)) (r : AbsRVal) : P r :=
  @AbsRVal.rec P (fun f => ∀ r ∈ f, P r) zero notZeroAll unknownR esc addressOf uniquePtr aggregate
    consumed namedLocation (fun _ h => absurd h List.not_mem_nil)
    (fun _ _ h hs => List.forall_mem_cons.2 ⟨h, hs⟩) r

/-- A flow dictionary, as the list of its entries in the order in which it is walked. -/
abbrev FlowDict := List (Root × AbsRVal)

/-! ## Reading a place -/

/-- The value under the names and the marks of consumption. -/
def AbsRVal.unwrap : AbsRVal → AbsRVal
  | .namedLocation _ r => r.unwrap
  | .consumed _ _ r => r.unwrap
  | r => r

/-- The loop of `lookup_place` along the path. -/
def lookupPath : List PathCon → AbsRVal → Option AbsRVal
  | [], r => some r
  | c :: path, r =>
    match r.unwrap, c with
    | .aggregate _ d, .dot fname => d[fname]?.bind (lookupPath path)
    | .uniquePtr r, .star => lookupPath path r
    | _, _ => none

def lookupPlace (d : FlowDict) (p : Place) : Option AbsRVal :=
  (d.lookup p.root).bind (lookupPath p.path)

/-! ## Initialisation -/

mutual
/-- `initlevel_rec` on one value, where `deref` is what it does at a pointer to a place. -/
def initlevelRec (deref : Place → Option InitLevel) : AbsRVal → InitLevel → Option InitLevel
  | _, .noneIL => some .noneIL
  | .namedLocation _ r, .allIL => initlevelRec deref r .allIL
  | .aggregate u d, .allIL =>
    if u.isUnion then
      match u.fieldnum with
      | none => initlevelSome deref d
      | some f => initlevelNth deref d f
    else initlevelAll deref d .allIL
  | .addressOf p, .allIL => deref p
  | .uniquePtr r, .allIL => initlevelRec deref r .allIL
  | .unknownR il, .allIL => some il
  | .esc il, .allIL => some il
  | .zero, .allIL => some .allIL
  | .notZeroAll, .allIL => some .allIL
  | .consumed _ _ _, .allIL => some .noneIL

/-- The struct case: all fields have to be initialised. -/
def initlevelAll (deref : Place → Option InitLevel) : List AbsRVal → InitLevel → Option InitLevel
  | [], acc => some acc
  | r :: d, acc => (initlevelRec deref r acc).bind (initlevelAll deref d)

/-- The case of a union whose last field is not known: one initialised field is enough. -/
def initlevelSome (deref : Place → Option InitLevel) : List AbsRVal → Option InitLevel
  | [] => some .noneIL
  | r :: d => (initlevelRec deref r .allIL).bind fun il =>
    match il with
    | .allIL => some .allIL
    | .noneIL => initlevelSome deref d

def initlevelNth (deref : Place → Option InitLevel) : List AbsRVal → Nat → Option InitLevel
  | [], _ => none
  | r :: _, 0 => initlevelRec deref r .allIL
  | _ :: d, f + 1 => initlevelNth deref d f
end

/-- The pointer case of `initlevel_rec`. A place on the stack `seen` is taken to be initialised, so
there are no more nested calls than places. -/
def initlevelDeref (d : FlowDict) : Nat → List Place → Place → Option InitLevel
  | fuel, seen, p =>
    if p ∈ seen then some .allIL
    else
      match fuel with
      | 0 => none
      | fuel + 1 => (lookupPlace d p).bind fun r =>
        initlevelRec (initlevelDeref d fuel (p :: seen)) r .allIL

mutual
/-- The places that a value points to. -/
def AbsRVal.addresses : AbsRVal → List Place
  | .addressOf p => [p]
  | .uniquePtr r => r.addresses
  | .aggregate _ d => fieldAddresses d
  | .consumed _ _ r => r.addresses
  | .namedLocation _ r => r.addresses
  | .zero | .notZeroAll | .unknownR _ | .esc _ => []

def fieldAddresses : List AbsRVal → List Place
  | [] => []
  | r :: d => r.addresses ++ fieldAddresses d
end

def dictAddresses (d : FlowDict) : List Place :=
  d.flatMap fun e => e.2.addresses

/-- `initlevel`. The depth of the search is bounded by the number of pointers there are. -/
def initlevel (d : FlowDict) (r : AbsRVal) : Option InitLevel :=
  initlevelRec (initlevelDeref d (r.addresses ++ dictAddresses d).length []) r .allIL

def initlevelApprox : AbsRVal → Option InitLevel
  | .unknownR il => some il
  | .esc il => some il
  | .zero | .notZeroAll => some .allIL
  | .consumed _ _ _ => some .noneIL
  | _ => none

/-! ## Consumption -/

mutual
/-- `is_unique_consumed(e, k, r, &needs_unconsume)`: the answer, and the flag, which is given the
value it has before the call. -/
def isUniqueConsumed (e : ExpId) (k : Int) : AbsRVal → Bool → Option (Bool × Bool)
  | .consumed consumer iteration _, needs =>
    if consumer = e ∧ iteration = k then some (false, true) else some (true, needs)
  | .aggregate u d, needs =>
    match u.isUnion, u.fieldnum with
    | true, some f => isConsumedNth e k d f needs
    | _, _ => isConsumedSome e k d needs
  | .namedLocation _ r, needs => isUniqueConsumed e k r needs
  | .zero, needs | .notZeroAll, needs | .unknownR _, needs | .esc _, needs | .addressOf _, needs
  | .uniquePtr _, needs => some (false, needs)

def isConsumedSome (e : ExpId) (k : Int) : List AbsRVal → Bool → Option (Bool × Bool)
  | [], needs => some (false, needs)
  | r :: d, needs => (isUniqueConsumed e k r needs).bind fun a =>
    if a.1 then some a else isConsumedSome e k d a.2

def isConsumedNth (e : ExpId) (k : Int) : List AbsRVal → Nat → Bool → Option (Bool × Bool)
  | [], _, _ => none
  | r :: _, 0, needs => isUniqueConsumed e k r needs
  | _ :: d, f + 1, needs => isConsumedNth e k d f needs
end

/-! ## Escaping -/

def addPlace (pile : List Place) (p : Place) : List Place :=
  if p ∈ pile then pile else p :: pile

mutual
def addPlaces (pile : List Place) : AbsRVal → List Place
  | .consumed _ _ r => addPlaces pile r
  | .namedLocation _ r => addPlaces pile r
  | .addressOf p => addPlace pile p
  | .aggregate _ d => addFieldPlaces pile d
  | .zero | .notZeroAll | .unknownR _ | .esc _ | .uniquePtr _ => pile

def addFieldPlaces (pile : List Place) : List AbsRVal → List Place
  | [] => pile
  | r :: d => addFieldPlaces (addPlaces pile r) d
end

mutual
/-- `insert_place_inner`: all leaves of a value are replaced. -/
def insertPlaceInner (newVal : AbsRVal) : AbsRVal → AbsRVal
  | .aggregate u d => .aggregate ⟨u.isUnion, none⟩ (insertFieldsInner newVal d)
  | .consumed e i r => .consumed e i (insertPlaceInner newVal r)
  | .namedLocation n r => .namedLocation n (insertPlaceInner newVal r)
  | .zero | .notZeroAll | .unknownR _ | .esc _ | .addressOf _ | .uniquePtr _ => newVal

def insertFieldsInner (newVal : AbsRVal) : List AbsRVal → List AbsRVal
  | [] => []
  | r :: d => insertPlaceInner newVal r :: insertFieldsInner newVal d
end

end ConcurrentCyclone.CfFlowInfo
