import ConcurrentCyclone.Transition.Fallible
import ConcurrentCyclone.Worklist.Waiting
import ConcurrentCyclone.XInfer.Constraint
import Mathlib.Data.Fintype.EquivFin
import Mathlib.Order.Preorder.Finite

/-!
# The call graph and its visit

The capability analysis builds the call graph of the functions of a module (`constructCg`) and
applies itself to the functions from the leaves up (`cgenvVisitRev`), so that it has the effect of a
function before it comes to the callers. A function stays in the queue until all functions that it
calls were visited; a counter in its node says how many of them were.

The visit is a work list that waits, so the function is applied once at most and after all functions
that have calls counted for it (`counted_applied_first`). The calls in the body of an inner function
are counted for the function around it, so an inner function may be visited before those that it
calls (`not_callees_applied_first`). Every function gets its turn exactly if there is no
recursion through several functions (`visits_all_iff`): with it, the visit does not end if some
function of the circle calls one that is visited, and it passes over the circle otherwise.

A call or spawn is of a function with a body, of a prototype, or of something else. The calls,
spawns and inner functions of a body are listed in the order in which `visit_stmt` finds them. A
function that is not in the table has no node; its lists are empty here.
-/

set_option autoImplicit false

namespace ConcurrentCyclone.XInfer

open Function Transition Worklist Relation

variable {F : Type}

/-! ## Declarations -/

/-- What a call or a spawn names: `Funname_b`, `Global_b` with whether the effect of the prototype
is an `@xrgn` effect, or anything else. -/
inductive Callee (F : Type) where
  | funname (fd : F)
  | global (isxrgn : Bool)
  | other

inductive CgEvent (F : Type) where
  | call (loc : Seg) (e : Callee F)
  | spawn (e : Callee F)

/-- A part of a body: a call or spawn, or the declaration of an inner function. -/
inductive CgItem (F : Type) where
  | event (ev : CgEvent F)
  | inner (fd : F) (body : List (CgItem F))

/-- A declaration: a function with its body, a `Namespace_d` or `Using_d`, or one without
functions. -/
inductive CgDecl (F : Type) where
  | fn (fd : F) (body : List (CgItem F))
  | group (tds : List (CgDecl F))
  | other

/-- The function with a body that is called or spawned. -/
def CgEvent.callee : CgEvent F → Option F
  | .call _ (.funname fd) => some fd
  | .spawn (.funname fd) => some fd
  | _ => none

mutual

/-- The calls and spawns that `visit_stmt` finds in a body, those of inner functions among them. -/
def events : List (CgItem F) → List (CgEvent F)
  | [] => []
  | i :: is => i.events ++ events is

def CgItem.events : CgItem F → List (CgEvent F)
  | .event ev => [ev]
  | .inner _ body => XInfer.events body

end

mutual

/-- The functions of a list of declarations, with the calls and spawns that are found in them. -/
def functions : List (CgDecl F) → List (F × List (CgEvent F))
  | [] => []
  | td :: tds => td.functions ++ functions tds

def CgDecl.functions : CgDecl F → List (F × List (CgEvent F))
  | .fn fd body => [(fd, events body)]
  | .group tds => XInfer.functions tds
  | .other => []

end

/-- A call or spawn of the second function is counted for the first one. -/
def Calls (tds : List (CgDecl F)) (f g : F) : Prop :=
  ∃ body, (f, body) ∈ functions tds ∧ ∃ ev ∈ body, ev.callee = some g

/-- The second function, of which a call or spawn is counted for the first one, is another one. -/
def CallsOther (tds : List (CgDecl F)) (f g : F) : Prop :=
  Calls tds f g ∧ g ≠ f

/-! ## The calls in the body of a function -/

mutual

/-- The inner functions of a body, with their bodies. -/
def innerFunctions : List (CgItem F) → List (F × List (CgItem F))
  | [] => []
  | i :: is => i.innerFunctions ++ innerFunctions is

def CgItem.innerFunctions : CgItem F → List (F × List (CgItem F))
  | .event _ => []
  | .inner fd body => (fd, body) :: XInfer.innerFunctions body

end

mutual

/-- The functions of a list of declarations that are not inner functions. -/
def outerFunctions : List (CgDecl F) → List (F × List (CgItem F))
  | [] => []
  | td :: tds => td.outerFunctions ++ outerFunctions tds

def CgDecl.outerFunctions : CgDecl F → List (F × List (CgItem F))
  | .fn fd body => [(fd, body)]
  | .group tds => XInfer.outerFunctions tds
  | .other => []

end

/-- The body itself, without those of its inner functions, has a call or spawn of the function. -/
def BodyCalls (body : List (CgItem F)) (g : F) : Prop :=
  ∃ ev, CgItem.event ev ∈ body ∧ ev.callee = some g

/-- The first function calls or spawns the second one in its body, and is not an inner function. -/
def OuterCalls (tds : List (CgDecl F)) (f g : F) : Prop :=
  ∃ body, (f, body) ∈ outerFunctions tds ∧ BodyCalls body g

/-- The first function is an inner function and calls or spawns the second one in its body. -/
def InnerCalls (tds : List (CgDecl F)) (f g : F) : Prop :=
  ∃ p ∈ outerFunctions tds, ∃ body, (f, body) ∈ innerFunctions p.2 ∧ BodyCalls body g

theorem mem_events {ev : CgEvent F} {body : List (CgItem F)} (h : .event ev ∈ body) :
    ev ∈ events body := by
  induction body with
  | nil => cases h
  | cons i body ih =>
    rw [events, List.mem_append]
    rcases List.mem_cons.1 h with rfl | h
    · exact .inl (.head _)
    · exact .inr (ih h)

mutual

theorem functions_eq (tds : List (CgDecl F)) :
    functions tds = (outerFunctions tds).map fun p => (p.1, events p.2) := by
  match tds with
  | [] => rfl
  | td :: tds => rw [functions, outerFunctions, List.map_append, td.functions_eq, functions_eq tds]

theorem CgDecl.functions_eq (td : CgDecl F) :
    td.functions = td.outerFunctions.map fun p => (p.1, events p.2) := by
  match td with
  | .fn _ _ | .other => rfl
  | .group tds => exact XInfer.functions_eq tds

end

/-- The calls of a function that is not an inner function are counted for it. -/
theorem OuterCalls.calls {tds : List (CgDecl F)} {f g : F} (h : OuterCalls tds f g) :
    Calls tds f g := by
  obtain ⟨body, hbody, ev, hev, hg⟩ := h
  refine ⟨events body, ?_, ev, mem_events hev, hg⟩
  rw [functions_eq]
  exact List.mem_map.2 ⟨(f, body), hbody, rfl⟩

/-! ## Construction -/

/-- The leaves, the table of the functions that have a node, and the lists of their nodes; `errs`
are the places where an `@xrgn` effect of a prototype was reported. -/
structure CgEnv (F : Type) where
  leafs : List F
  fnmap : List F
  preds : F → List F
  succs : F → List F
  errs : List Seg

def cgenvNew : CgEnv F := ⟨[], [], fun _ => [], fun _ => [], []⟩

/-- An exception of the construction. -/
inductive CgErr where
  /-- `Cannot handle this: \"%s\" (cg_visit_e)`. -/
  | cannotHandle
  /-- `cg_visit_s: Spawn_s`. -/
  | spawn
  deriving DecidableEq

variable [DecidableEq F]

/-- `get_cgnode`, for its effect on the table. -/
def getCgnode (env : CgEnv F) (fd : F) : CgEnv F :=
  if fd ∈ env.fnmap then env
  else
    { env with
      fnmap := fd :: env.fnmap
      leafs := if fd ∈ env.leafs then env.leafs else fd :: env.leafs }

/-- `cgenv_register_fd`, with the function whose body is visited. -/
def cgenvRegisterFd (cur : F) (env : CgEnv F) (fd : F) : CgEnv F :=
  let env := getCgnode env fd
  -- a recursive call is not recorded
  if fd = cur then env
  else
    let env :=
      if fd ∈ env.succs cur then env
      else
        { env with
          leafs := env.leafs.erase cur
          succs := update env.succs cur (fd :: env.succs cur) }
    if cur ∈ env.preds fd then env
    else { env with preds := update env.preds fd (cur :: env.preds fd) }

/-- `cg_visit_e` and `cg_visit_s`. -/
def cgVisit (cur : F) (env : CgEnv F) : CgEvent F → Except CgErr (CgEnv F)
  | .call _ (.funname fd) => .ok (cgenvRegisterFd cur env fd)
  | .call loc (.global true) => .ok { env with errs := env.errs ++ [loc] }
  | .call _ (.global false) => .ok env
  | .call _ .other => .error .cannotHandle
  | .spawn (.funname fd) => .ok (cgenvRegisterFd cur env fd)
  | .spawn _ => .error .spawn

mutual

/-- `construct_cg`. -/
def constructCg (env : CgEnv F) : List (CgDecl F) → Except CgErr (CgEnv F)
  | [] => .ok env
  | td :: tds => (td.construct env).bind fun env => constructCg env tds

def CgDecl.construct (env : CgEnv F) : CgDecl F → Except CgErr (CgEnv F)
  | .fn fd body => (events body).foldlM (cgVisit fd) (getCgnode env fd)
  | .group tds => constructCg env tds
  | .other => .ok env

end

/-! ## The visit -/

/-- The queue, the visited functions, the counters `preds_visited`, and the functions to which the
analysis was applied, in this order. -/
structure VisitState (F : Type) where
  queue : List F
  visited : List F
  predsVisited : F → Nat
  applied : List F

/-- The loop body of `cgenv_visit_rev`. -/
def visitStep (env : CgEnv F) (s : VisitState F) : VisitState F :=
  match s.queue with
  | [] => s
  | n :: queue =>
    if n ∈ s.visited then { s with queue := queue }
    else if (env.succs n).length > s.predsVisited n then { s with queue := queue ++ [n] }
    else
      { queue := queue ++ env.preds n
        visited := n :: s.visited
        predsVisited :=
          (env.preds n).foldl (fun c m => update c m (c m + 1)) s.predsVisited
        applied := s.applied ++ [n] }

/-- `cgenv_visit_rev` after `k` rounds of its loop. It has ended if the queue is empty. -/
def cgenvVisitRev (env : CgEnv F) (k : Nat) : VisitState F :=
  (visitStep env)^[k] ⟨env.leafs, [], fun _ => 0, []⟩

/-! ## What the construction builds -/

/-- The nodes of the functions: both lists say who calls whom, without repetitions and without a
function itself, and the leaves are the functions that call no other. -/
structure CgEnv.Linked (env : CgEnv F) : Prop where
  leafs_nodup : env.leafs.Nodup
  mem_leafs : ∀ f, f ∈ env.leafs ↔ f ∈ env.fnmap ∧ env.succs f = []
  succs_nodup : ∀ f, (env.succs f).Nodup
  preds_nodup : ∀ f, (env.preds f).Nodup
  mem_preds : ∀ f g, f ∈ env.preds g ↔ g ∈ env.succs f
  mem_fnmap : ∀ f g, g ∈ env.succs f → f ∈ env.fnmap ∧ g ∈ env.fnmap
  ne : ∀ f, f ∉ env.succs f

omit [DecidableEq F] in
theorem linked_cgenvNew : (cgenvNew : CgEnv F).Linked := by
  constructor <;> simp [cgenvNew]

theorem CgEnv.Linked.getCgnode {env : CgEnv F} (h : env.Linked) (fd : F) :
    (getCgnode env fd).Linked := by
  unfold XInfer.getCgnode
  split
  · exact h
  · rename_i hnew
    have hsuccs : env.succs fd = [] := by
      cases hl : env.succs fd with
      | nil => rfl
      | cons g l => exact absurd (h.mem_fnmap fd g (hl ▸ (.head _))).1 hnew
    have hleaf : fd ∉ env.leafs := fun hmem => hnew ((h.mem_leafs fd).1 hmem).1
    simp only [if_neg hleaf]
    refine ⟨List.nodup_cons.2 ⟨hleaf, h.leafs_nodup⟩, fun f => ?_, h.succs_nodup, h.preds_nodup,
      h.mem_preds, fun f g hg => ?_, h.ne⟩
    · rw [List.mem_cons, List.mem_cons, h.mem_leafs, or_and_right]
      refine or_congr_left (and_iff_left_of_imp ?_).symm
      rintro rfl
      exact hsuccs
    · obtain ⟨hf, hg⟩ := h.mem_fnmap f g hg
      exact ⟨.tail _ hf, .tail _ hg⟩

theorem mem_fnmap_getCgnode (env : CgEnv F) (fd f : F) :
    f ∈ (getCgnode env fd).fnmap ↔ f = fd ∨ f ∈ env.fnmap := by
  unfold getCgnode
  split
  · rw [or_iff_right_of_imp]
    rintro rfl
    assumption
  · exact List.mem_cons

theorem succs_getCgnode (env : CgEnv F) (fd : F) : (getCgnode env fd).succs = env.succs := by
  unfold getCgnode
  split <;> rfl

variable {env : CgEnv F} {cur : F}

/-- A new link between two functions that have nodes. -/
theorem CgEnv.Linked.link (h : env.Linked) {fd : F}
    (hcur : cur ∈ env.fnmap) (hfd : fd ∈ env.fnmap) (hne : fd ≠ cur) (hnew : fd ∉ env.succs cur) :
    ({ env with
        leafs := env.leafs.erase cur
        succs := update env.succs cur (fd :: env.succs cur)
        preds := update env.preds fd (cur :: env.preds fd) } : CgEnv F).Linked := by
  have hold : cur ∉ env.preds fd := fun hmem => hnew ((h.mem_preds cur fd).1 hmem)
  refine ⟨h.leafs_nodup.erase cur, fun f => ?_, fun f => ?_, fun f => ?_, fun f g => ?_,
    fun f g hg => ?_, fun f => ?_⟩
  · simp only [h.leafs_nodup.mem_erase_iff, h.mem_leafs]
    by_cases hf : f = cur
    · subst hf
      simp
    · simp [hf]
  · by_cases hf : f = cur
    · subst hf
      simpa using ⟨hnew, h.succs_nodup f⟩
    · simpa [hf] using h.succs_nodup f
  · by_cases hf : f = fd
    · subst hf
      simpa using ⟨hold, h.preds_nodup f⟩
    · simpa [hf] using h.preds_nodup f
  · by_cases hf : f = cur
    · subst hf
      by_cases hg : g = fd
      · subst hg
        simp
      · simpa [hg] using h.mem_preds f g
    · by_cases hg : g = fd
      · subst hg
        simpa [hf] using h.mem_preds f g
      · simpa [hf, hg] using h.mem_preds f g
  · by_cases hf : f = cur
    · subst hf
      simp only [update_self, List.mem_cons] at hg
      rcases hg with rfl | hg
      · exact ⟨hcur, hfd⟩
      · exact h.mem_fnmap f g hg
    · simp only [update_of_ne hf] at hg
      exact h.mem_fnmap f g hg
  · by_cases hf : f = cur
    · subst hf
      simpa [hne.symm] using h.ne f
    · simpa [hf] using h.ne f

/-- What registering a callee does to the links. -/
theorem CgEnv.Linked.register (h : env.Linked) (hcur : cur ∈ env.fnmap) (fd : F) :
    (cgenvRegisterFd cur env fd).Linked ∧
      (∀ f, f ∈ (cgenvRegisterFd cur env fd).fnmap ↔ f = fd ∨ f ∈ env.fnmap) ∧
      ∀ f g, g ∈ (cgenvRegisterFd cur env fd).succs f ↔
        g ∈ env.succs f ∨ (f = cur ∧ g = fd ∧ fd ≠ cur) := by
  have hnode := h.getCgnode fd
  have hmem := mem_fnmap_getCgnode env fd
  have hsuccs := succs_getCgnode env fd
  unfold cgenvRegisterFd
  split
  · rename_i heq
    refine ⟨hnode, hmem, fun f g => ?_⟩
    rw [hsuccs]
    simp [heq]
  · rename_i hne
    by_cases hold : fd ∈ (XInfer.getCgnode env fd).succs cur
    · have hpred : cur ∈ (XInfer.getCgnode env fd).preds fd := (hnode.mem_preds cur fd).2 hold
      simp only [hold, hpred, if_true]
      rw [hsuccs] at hold ⊢
      refine ⟨hnode, hmem, fun f g => (or_iff_left_of_imp ?_).symm⟩
      rintro ⟨rfl, rfl, -⟩
      exact hold
    · have hpred : cur ∉ (XInfer.getCgnode env fd).preds fd :=
        fun hmem => hold ((hnode.mem_preds cur fd).1 hmem)
      simp only [hold, hpred, if_false]
      refine ⟨hnode.link ((hmem cur).2 (.inr hcur)) ((hmem fd).2 (.inl rfl)) hne hold, hmem,
        fun f g => ?_⟩
      by_cases hf : f = cur
      · subst hf
        simp [hsuccs, hne, or_comm]
      · simp [hf, hsuccs]

/-- The links of the second graph are those of the first one and the given ones. -/
structure CgEnv.Extends (env env' : CgEnv F) (links : F → F → Prop) : Prop where
  linked : env'.Linked
  fnmap : ∀ f ∈ env.fnmap, f ∈ env'.fnmap
  succs : ∀ f g, g ∈ env'.succs f ↔ g ∈ env.succs f ∨ links f g

omit [DecidableEq F] in
theorem CgEnv.Extends.trans {env1 env2 : CgEnv F} {links1 links2 links : F → F → Prop}
    (h1 : env.Extends env1 links1) (h2 : env1.Extends env2 links2)
    (hlinks : ∀ f g, links f g ↔ links1 f g ∨ links2 f g) : env.Extends env2 links := by
  refine ⟨h2.linked, fun f hf => h2.fnmap f (h1.fnmap f hf), fun f g => ?_⟩
  rw [h2.succs, h1.succs, hlinks, or_assoc]

theorem CgEnv.Linked.visit {env' : CgEnv F} (h : env.Linked)
    (hcur : cur ∈ env.fnmap) {ev : CgEvent F} (hev : cgVisit cur env ev = .ok env') :
    env.Extends env' fun f g => f = cur ∧ ev.callee = some g ∧ g ≠ f := by
  have register : ∀ fd, env.Extends (cgenvRegisterFd cur env fd) fun f g =>
      f = cur ∧ some fd = some g ∧ g ≠ f := by
    intro fd
    obtain ⟨hlinked, hfnmap, hsuccs⟩ := h.register hcur fd
    refine ⟨hlinked, fun f hf => (hfnmap f).2 (.inr hf), fun f g => ?_⟩
    rw [hsuccs]
    refine or_congr_right ⟨?_, ?_⟩
    · rintro ⟨rfl, rfl, hne⟩
      exact ⟨rfl, rfl, hne⟩
    · rintro ⟨rfl, heq, hne⟩
      cases heq
      exact ⟨rfl, rfl, hne⟩
  have none : ∀ errs, env.Extends { env with errs := errs } fun f g =>
      f = cur ∧ (Option.none : Option F) = some g ∧ g ≠ f := by
    intro errs
    refine ⟨{ h with }, fun f hf => hf, fun f g => ?_⟩
    simp
  unfold cgVisit at hev
  split at hev <;> cases hev
  · exact register _
  · exact none _
  · exact none env.errs
  · exact register _

theorem CgEnv.Linked.visits {body : List (CgEvent F)} : ∀ {env env' : CgEnv F},
    env.Linked → cur ∈ env.fnmap → body.foldlM (cgVisit cur) env = .ok env' →
      env.Extends env' fun f g => f = cur ∧ (∃ ev ∈ body, ev.callee = some g) ∧ g ≠ f := by
  induction body with
  | nil =>
    intro env env' h _ hbody
    cases hbody
    exact ⟨h, fun f hf => hf, fun f g => by simp⟩
  | cons ev body ih =>
    intro env env' h hcur hbody
    obtain ⟨env1, hev, hbody⟩ := bind_eq_ok.1 hbody
    have h1 := h.visit hcur hev
    refine h1.trans (ih h1.linked (h1.fnmap cur hcur) hbody) fun f g => ?_
    rw [List.exists_mem_cons_iff]
    tauto

mutual

theorem CgEnv.Linked.construct {tds : List (CgDecl F)} {env env' : CgEnv F} (h : env.Linked)
    (htds : constructCg env tds = .ok env') : env.Extends env' (CallsOther tds) := by
  match tds with
  | [] =>
    cases htds
    refine ⟨h, fun f hf => hf, fun f g => ?_⟩
    simp [CallsOther, Calls, functions]
  | td :: tds =>
    obtain ⟨env1, htd, htds⟩ := bind_eq_ok.1 htds
    have h1 := h.constructDecl htd
    refine h1.trans (h1.linked.construct htds) fun f g => ?_
    simp only [CallsOther, Calls, functions, List.mem_append, or_and_right, exists_or]

theorem CgEnv.Linked.constructDecl {td : CgDecl F} {env env' : CgEnv F} (h : env.Linked)
    (htd : td.construct env = .ok env') : env.Extends env' fun f g =>
      (∃ body, (f, body) ∈ td.functions ∧ ∃ ev ∈ body, ev.callee = some g) ∧ g ≠ f := by
  match td with
  | .fn fd body =>
    have hnode : env.Extends (XInfer.getCgnode env fd) fun _ _ => False := by
      refine ⟨h.getCgnode fd, fun f hf => (mem_fnmap_getCgnode env fd f).2 (.inr hf),
        fun f g => ?_⟩
      rw [succs_getCgnode, or_false]
    refine hnode.trans (hnode.linked.visits ((mem_fnmap_getCgnode env fd fd).2 (.inl rfl)) htd)
      fun f g => ?_
    simp [CgDecl.functions, and_assoc]
  | .group tds => exact h.construct htd
  | .other =>
    cases htd
    refine ⟨h, fun f hf => hf, fun f g => ?_⟩
    simp [CgDecl.functions]

end

/-- The graph of a list of declarations has the calls of other functions as its links. -/
theorem constructCg_links {tds : List (CgDecl F)} (h : constructCg cgenvNew tds = .ok env) :
    env.Linked ∧ ∀ f g, g ∈ env.succs f ↔ CallsOther tds f g := by
  have hext := linked_cgenvNew.construct h
  refine ⟨hext.linked, fun f g => ?_⟩
  rw [hext.succs]
  simp [cgenvNew]

/-! ## The visit as a work list that waits -/

/-- A function waits for the functions that it calls, and its callers are queued after it. -/
def CgEnv.system (env : CgEnv F) : System F :=
  ⟨env.succs, env.preds⟩

theorem foldl_update_eq {l : List F} : ∀ (c : F → Nat) (m : F),
    l.foldl (fun c m => update c m (c m + 1)) c m = c m + l.count m := by
  induction l with
  | nil => exact fun _ _ => rfl
  | cons a l ih =>
    intro c m
    rw [List.foldl_cons, ih]
    by_cases hm : m = a
    · subst hm
      rw [update_self, List.count_cons_self]
      omega
    · rw [update_of_ne hm, List.count_cons_of_ne (Ne.symm hm)]

theorem CgEnv.Linked.count_preds (h : env.Linked) (n m : F) :
    (env.preds n).count m = (env.succs m).count n := by
  rw [(h.preds_nodup n).count, (h.succs_nodup m).count]
  simp only [h.mem_preds]

/-- The state of the visit and that of the work list. -/
structure Visits (env : CgEnv F) (s : VisitState F) (t : State F) : Prop where
  queue : s.queue = t.queue
  applied : s.applied = t.done
  visited : ∀ f, f ∈ s.visited ↔ f ∈ t.done
  counts : Worklist.Counts env.system s.predsVisited t.done

theorem Visits.step (h : env.Linked) {s : VisitState F} {t : State F}
    (hst : Visits env s t) : Visits env (visitStep env s) (Worklist.step env.system t) := by
  unfold visitStep Worklist.step
  rw [← hst.queue]
  cases s.queue with
  | nil => exact hst
  | cons n queue =>
    simp only [hst.visited]
    by_cases hdone : n ∈ t.done
    · simp only [if_pos hdone]
      exact ⟨rfl, hst.applied, hst.visited, hst.counts⟩
    · simp only [if_neg hdone]
      by_cases hneeds : ∀ m ∈ env.system.needs n, m ∈ t.done
      · have hfull : ¬ (env.succs n).length > s.predsVisited n :=
          Nat.not_lt.2 ((hst.counts.full_iff n).2 hneeds)
        simp only [if_neg hfull, if_pos hneeds]
        refine ⟨rfl, by rw [hst.applied], fun f => ?_, hst.counts.raise hdone fun m => ?_⟩
        · rw [List.mem_cons, List.mem_append, List.mem_singleton, hst.visited, or_comm]
        · exact (foldl_update_eq _ m).trans (congrArg _ (h.count_preds n m))
      · have hwait : (env.succs n).length > s.predsVisited n :=
          Nat.lt_of_not_le fun hle => hneeds ((hst.counts.full_iff n).1 hle)
        simp only [if_pos hwait, if_neg hneeds]
        exact ⟨rfl, hst.applied, hst.visited, hst.counts⟩

theorem visits_run (h : env.Linked) (k : Nat) :
    Visits env (cgenvVisitRev env k) (run env.system k ⟨env.leafs, []⟩) := by
  induction k with
  | zero => exact ⟨rfl, rfl, fun _ => Iff.rfl, Worklist.Counts.initial⟩
  | succ k ih =>
    rw [run_succ]
    unfold cgenvVisitRev
    rw [iterate_succ_apply']
    exact ih.step h

/-- When the analysis is applied to a function, it was applied to all other functions with calls or
spawns that are counted for it. -/
theorem counted_applied_first {tds : List (CgDecl F)} (h : constructCg cgenvNew tds = .ok env)
    {k : Nat} {l₁ l₂ : List F} {f g : F}
    (happlied : (cgenvVisitRev env k).applied = l₁ ++ f :: l₂) (hcall : Calls tds f g)
    (hne : g ≠ f) : g ∈ l₁ := by
  obtain ⟨hlinked, hlinks⟩ := constructCg_links h
  have hordered := run_ordered env.system env.leafs k
  rw [(visits_run hlinked k).applied] at happlied
  exact hordered.2 l₁ f l₂ happlied g ((hlinks f g).2 ⟨hcall, hne⟩)

/-- When the analysis is applied to a function, it was applied to all other functions that this one
calls or spawns, unless it does so as an inner function. -/
theorem callees_applied_first (tds : List (CgDecl F)) (env : CgEnv F)
    (h : constructCg cgenvNew tds = .ok env) (k : Nat) (l₁ : List F) (f : F) (l₂ : List F)
    (happlied : (cgenvVisitRev env k).applied = l₁ ++ f :: l₂) (g : F)
    (hcall : OuterCalls tds f g ∨ InnerCalls tds f g) (hinner : ¬ InnerCalls tds f g)
    (hne : g ≠ f) : g ∈ l₁ :=
  counted_applied_first h happlied (hcall.resolve_right hinner).calls hne

/-- Function 0 calls 1 twice, spawns 2, has an inner function 3, which it calls, and calls itself; 1
calls 2. -/
def chain : List (CgDecl Nat) :=
  [.fn 0 [.event (.call 1 (.funname 1)), .event (.spawn (.funname 2)),
      .inner 3 [.event (.call 6 (.global false))], .event (.call 2 (.funname 1)),
      .event (.call 7 (.funname 3)), .event (.call 3 (.funname 0))],
    .group [.fn 1 [.event (.call 4 (.funname 2))]], .fn 2 [.event (.call 5 (.global false))]]

def chainGraph : CgEnv Nat :=
  match constructCg cgenvNew chain with
  | .ok env => env
  | .error _ => cgenvNew

theorem constructCg_chain : constructCg cgenvNew chain = .ok chainGraph := rfl

theorem callees_applied_first_chain :
    (cgenvVisitRev chainGraph 9).applied = [3, 2, 1, 0] ∧ 1 ∈ [3, 2, 1] := by
  refine ⟨rfl, callees_applied_first chain chainGraph constructCg_chain 9 [3, 2, 1] 0 [] rfl 1
    (.inl ⟨_, .head _, _, .head _, rfl⟩) ?_ (by decide)⟩
  rintro ⟨p, hp, body, hbody, -⟩
  simp only [chain, outerFunctions, CgDecl.outerFunctions, List.append_nil, List.singleton_append,
    List.mem_cons, List.not_mem_nil, or_false] at hp
  rcases hp with rfl | rfl | rfl <;> simp [innerFunctions, CgItem.innerFunctions] at hbody

/-- Function 1 has an inner function 2, which calls 0 and is called by 1. -/
def nested : List (CgDecl Nat) :=
  [.fn 0 [], .fn 1 [.inner 2 [.event (.call 1 (.funname 0))], .event (.call 2 (.funname 2))]]

/-- The inner function is visited before the function that it calls. -/
theorem not_callees_applied_first : ∃ env, constructCg cgenvNew nested = .ok env ∧
    (cgenvVisitRev env 3).applied = [2, 0, 1] ∧ InnerCalls nested 2 0 :=
  ⟨_, rfl, rfl, _, .tail _ (.head _), _, .head _, _, .head _, rfl⟩

/-! ## All functions -/

/-- Without a circle, every function with a node gets visited. -/
theorem fires_of_acyclic (h : env.Linked)
    (hacyclic : ∀ f, ¬ TransGen (fun a b => b ∈ env.succs a) f f) {f : F}
    (hf : f ∈ env.fnmap) : Fires env.system env.leafs f := by
  -- on the finitely many functions of the table, calls lead down
  let r : {f // f ∈ env.fnmap} → {f // f ∈ env.fnmap} → Prop := fun b a =>
    TransGen (fun a b => b ∈ env.succs a) a.1 b.1
  have : Std.Irrefl r := ⟨fun a => hacyclic a.1⟩
  have hwf : WellFounded r := Finite.wellFounded_of_trans_of_irrefl r
  suffices hall : ∀ a : {f // f ∈ env.fnmap}, Fires env.system env.leafs a.1 from hall ⟨f, hf⟩
  intro a
  induction a using hwf.induction with
  | _ a ih =>
    have hneeds : ∀ m ∈ env.system.needs a.1, Fires env.system env.leafs m := fun m hm =>
      ih ⟨m, (h.mem_fnmap a.1 m hm).2⟩ (.single hm)
    cases hsuccs : env.succs a.1 with
    | nil => exact .start ((h.mem_leafs a.1).2 ⟨a.2, hsuccs⟩) hneeds
    | cons g l =>
      have hg : g ∈ env.succs a.1 := hsuccs ▸ (.head _)
      exact .next (hneeds g hg) ((h.mem_preds a.1 g).2 hg) hneeds

/-- The visit ends and applies the analysis to every function with a node once, exactly if no
function calls itself by way of another one. -/
theorem visits_all_iff (tds : List (CgDecl F)) (env : CgEnv F)
    (h : constructCg cgenvNew tds = .ok env) :
    (∃ k, (cgenvVisitRev env k).queue = [] ∧ (cgenvVisitRev env k).applied.Nodup ∧
      ∀ f, f ∈ (cgenvVisitRev env k).applied ↔ f ∈ env.fnmap) ↔
      ∀ f, ¬ TransGen (CallsOther tds) f f := by
  obtain ⟨hlinked, hlinks⟩ := constructCg_links h
  have hrel : CallsOther tds = fun a b => b ∈ env.succs a := by
    funext a b
    exact propext (hlinks a b).symm
  rw [hrel]
  constructor
  · rintro ⟨k, -, -, hall⟩ f hcycle
    have hordered := run_ordered env.system env.leafs k
    rw [← (visits_run hlinked k).applied] at hordered
    -- a function on a circle calls another one, so it has a node
    obtain ⟨g, hg, -⟩ := TransGen.head'_iff.1 hcycle
    exact hordered.acyclic ((hall f).2 (hlinked.mem_fnmap f g hg).1) hcycle
  · intro hacyclic
    have hfires : ∀ f, f ∈ env.fnmap → Fires env.system env.leafs f := fun f hf =>
      fires_of_acyclic hlinked hacyclic hf
    have hqueued : ∀ f, Queued env.system env.leafs f → f ∈ env.fnmap := by
      rintro f (hf | ⟨g, -, hf⟩)
      · exact ((hlinked.mem_leafs f).1 hf).1
      · exact (hlinked.mem_fnmap f g ((hlinked.mem_preds f g).1 hf)).1
    have hback : ∀ f, Fires env.system env.leafs f → f ∈ env.fnmap := by
      intro f hf
      apply hqueued
      cases hf with
      | start hf _ => exact .inl hf
      | next hm hf _ => exact .inr ⟨_, hm, hf⟩
    obtain ⟨k, hk⟩ := run_ends (fun f hf => hfires f (hqueued f hf)) hback
    have hv := visits_run hlinked k
    refine ⟨k, hv.queue.trans hk, ?_, fun f => ?_⟩
    · rw [hv.applied]
      exact (run_ordered env.system env.leafs k).1
    · rw [hv.applied, done_iff_fires hk]
      exact ⟨hback f, hfires f⟩

theorem visits_all_chain :
    ∃ k, (cgenvVisitRev chainGraph k).queue = [] ∧ (cgenvVisitRev chainGraph k).applied.Nodup ∧
      ∀ f, f ∈ (cgenvVisitRev chainGraph k).applied ↔ f ∈ chainGraph.fnmap := by
  refine (visits_all_iff chain chainGraph constructCg_chain).2 fun f hcycle => ?_
  have hlt : ∀ f g, CallsOther chain f g → f < g := by
    rintro f g ⟨⟨body, hbody, ev, hev, hcallee⟩, hne⟩
    simp only [chain, functions, CgDecl.functions, List.append_nil, List.singleton_append,
      List.mem_cons, Prod.mk.injEq, List.not_mem_nil, or_false] at hbody
    rcases hbody with ⟨rfl, rfl⟩ | ⟨rfl, rfl⟩ | ⟨rfl, rfl⟩
    · exact Nat.pos_of_ne_zero hne
    · cases List.mem_singleton.1 hev
      cases hcallee
      decide
    · cases List.mem_singleton.1 hev
      cases hcallee
  have hchain : ∀ g, TransGen (CallsOther chain) f g → f < g := by
    intro g hg
    induction hg with
    | single hg => exact hlt f _ hg
    | tail _ hg ih => exact ih.trans (hlt _ _ hg)
  exact Nat.lt_irrefl f (hchain f hcycle)

/-- Functions 0 and 1 call each other, and 0 calls 2. -/
def circle : List (CgDecl Nat) :=
  [.fn 0 [.event (.call 1 (.funname 1)), .event (.call 2 (.funname 2))],
    .fn 1 [.event (.call 3 (.funname 0))], .fn 2 []]

def circleGraph : CgEnv Nat :=
  match constructCg cgenvNew circle with
  | .ok env => env
  | .error _ => cgenvNew

/-- Functions 0 and 1 call each other and no other function. -/
def closedCircle : List (CgDecl Nat) :=
  [.fn 0 [.event (.call 1 (.funname 1))], .fn 1 [.event (.call 2 (.funname 0))]]

def closedCircleGraph : CgEnv Nat :=
  match constructCg cgenvNew closedCircle with
  | .ok env => env
  | .error _ => cgenvNew

/-- With mutual recursion the visit does not end, or it ends without the functions of the circle. -/
theorem not_visits_all : (constructCg cgenvNew circle = .ok circleGraph ∧
      ∀ k, (cgenvVisitRev circleGraph k).queue ≠ []) ∧
    (constructCg cgenvNew closedCircle = .ok closedCircleGraph ∧
      0 ∈ closedCircleGraph.fnmap ∧ (cgenvVisitRev closedCircleGraph 0).queue = [] ∧
      ∀ k, (cgenvVisitRev closedCircleGraph k).applied = []) := by
  refine ⟨⟨rfl, fun k => ?_⟩, rfl, by decide, rfl, fun k => ?_⟩
  · -- after one round function 0 is put back again and again
    have hloop : ∀ k, (cgenvVisitRev circleGraph (k + 1)).queue = [0] := by
      intro k
      have hfix : visitStep circleGraph (cgenvVisitRev circleGraph 1) =
          cgenvVisitRev circleGraph 1 := rfl
      unfold cgenvVisitRev
      exact congrArg VisitState.queue (iterate_fixed hfix k)
    cases k with
    | zero => decide
    | succ k =>
      rw [hloop]
      decide
  · have hfix : visitStep closedCircleGraph (cgenvVisitRev closedCircleGraph 0) =
        cgenvVisitRev closedCircleGraph 0 := rfl
    exact congrArg VisitState.applied (iterate_fixed hfix k)

end ConcurrentCyclone.XInfer
