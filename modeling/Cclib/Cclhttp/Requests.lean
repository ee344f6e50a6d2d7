import Cclib.Lib.Runs
import Cclib.Lib.Slots
import Cclib.Cclhttp.Connection
import Mathlib.Data.List.Induction

/-!
# `Cclhttp.Requests` — `server_c` with many requests

libmicrohttpd keeps, for each request, the pointer that `connection_func` stored in `*con_cls`. It calls
`connection_func` for the request until one call returns `MHD_NO`, and in the end `completed_func`, which has the
application look at the `connection_c` once more and deletes it. The calls for different requests come in any order,
in any number of calls of `process`.

`completed_func` does not catch what the application throws: the exception goes through libmicrohttpd, which is C, to the
caller of `process`, and the object is not deleted. What libmicrohttpd keeps is not known from there on, and the run is
not defined.

## Contents
- `Daemon`, `accessFunc`, `completedFunc`, `serverProcess`.
- `Requests`, `Action`, `step`: what libmicrohttpd does.
- `objects_sound_iff`: the objects live as long as their requests exactly when no completion callback throws.
- `requests_isolated`: what a request comes to see does not depend on the others.
- `process_rethrows_last`.
-/

namespace Cclib
namespace Cclhttp

def error_HTTP_SERVER_INTERNAL_ERROR : String := "internal error of http server"

/-! ## The functions -/

/-- `server_c` with `*con_cls` of each request and the `connection_c` objects. -/
structure Daemon where
  srv : ServerC
  conns : Slots Nat ConnectionC

/-- `server_c::connection_func` for a request. `none` where `*con_cls` leads to a deleted object. -/
def Daemon.accessFunc (d : Daemon) (req : Nat) (call : Call) : Option (Daemon × Reply) :=
  match d.conns.slot req with
  | .none =>
    let reply := connection_func d.srv call .none
    some ({ d with srv := reply.srv, conns := d.conns.create req reply.con_cls }, reply)
  | some _ => do
    let conn ← d.conns.object req
    let reply := connection_func d.srv call (some conn)
    let conns ← d.conns.modify req reply.con_cls
    return ({ d with srv := reply.srv, conns := conns }, reply)

/-- `server_c::completed_func`; `m_completed_cb` tells what the callback throws in this call. `none` where `*con_cls`
    leads to no object, or where the callback throws. -/
def Daemon.completedFunc (d : Daemon) (req : Nat) (m_completed_cb : ConnectionC → Option String) : Option Daemon := do
  let conn ← d.conns.object req
  match m_completed_cb conn with
  | some _ => none
  | .none => do
    let conns ← d.conns.delete req
    return { d with conns := conns }

/-! ## What libmicrohttpd does -/

/-- What has happened to a request: nothing, `connection_func` returned `MHD_YES`, it returned `MHD_NO`, the end. -/
inductive Stage where
  | fresh
  | handled
  | refused
  | completed
deriving DecidableEq, Repr

/-- The server, if the run is defined so far, the requests as libmicrohttpd sees them, the connections that were
    dispatched to the application, each with its request, and the exceptions that it threw at them. -/
structure Requests where
  daemon : Option Daemon
  stage : Nat → Stage
  log : List (Nat × ConnectionC)
  threw : List String

/-- A call for a request. -/
inductive Action where
  | access (req : Nat) (call : Call)
  | completed (req : Nat) (m_completed_cb : ConnectionC → Option String)

/-- What the callback throws at the connection that a call dispatches. -/
def Call.thrown (call : Call) (dispatched : Option ConnectionC) : List String :=
  dispatched.toList.filterMap (fun conn => (call.m_connection_cb conn).thrown)

/-- One action. `none` where libmicrohttpd does not do it: a request has no further call behind `MHD_NO`, it is
    completed once, and only if it was handled at all. -/
def step (s : Requests) : Action → Option Requests
  | .access req call =>
    if s.stage req = .fresh ∨ s.stage req = .handled then
      match s.daemon.bind (fun d => d.accessFunc req call) with
      | .none => some { s with daemon := .none }
      | some (d, reply) =>
        some {
          daemon := some d
          stage := Function.update s.stage req (if reply.mhdYes then .handled else .refused)
          log := s.log ++ reply.dispatched.toList.map (fun conn => (req, conn))
          threw := s.threw ++ call.thrown reply.dispatched }
    else .none
  | .completed req m_completed_cb =>
    if s.stage req = .handled ∨ s.stage req = .refused then
      match s.daemon.bind (fun d => d.completedFunc req m_completed_cb) with
      | .none => some { s with daemon := .none }
      | some d => some { s with daemon := some d, stage := Function.update s.stage req .completed }
    else .none

/-- A server without requests. -/
def Requests.start (srv : ServerC) : Requests :=
  { daemon := some ⟨srv, Slots.empty Nat ConnectionC⟩, stage := fun _ => .fresh, log := [], threw := [] }

/-- `server_c::process`: `MHD_run` does some actions, and says whether it succeeded. `none` where the server does not
    come back from it. -/
def serverProcess (s : Requests) (actions : List Action) (mhdRun : Bool) : Option (Except String Requests) := do
  let d ← s.daemon
  let s ← Runs.run step { s with daemon := some { d with srv := { d.srv with m_exc_ptr := .none } } } actions
  let d ← s.daemon
  return if mhdRun then
    match d.srv.m_exc_ptr with
    | some exc => .error exc
    | .none => .ok s
  else .error error_HTTP_SERVER_INTERNAL_ERROR

/-! ## The objects -/

/-- The request has an object. -/
def Stage.HasObject (stage : Stage) : Prop := stage = .handled ∨ stage = .refused

/-- The run is defined; every request that was handled and is not completed has an object of its own, and there is no
    other; what is gone was deleted once. -/
def Sound (s : Requests) : Prop :=
  ∃ d, s.daemon = some d ∧ d.conns.Owned ∧ ∀ req, (d.conns.object req).isSome = true ↔ (s.stage req).HasObject

/-- The completion callback does not throw. -/
def Quiet (s : Requests) : Action → Prop
  | .access _ _ => True
  | .completed req m_completed_cb =>
    ∀ d conn, s.daemon = some d → d.conns.object req = some conn → m_completed_cb conn = .none

variable {s s' : Requests} {d d' : Daemon} {srv : ServerC} {req : Nat} {call : Call} {conn : ConnectionC} {a : Action}
  {exc : Option String} {con_cls : Option ConnectionC} {m_completed_cb : ConnectionC → Option String}

theorem handled_or_refused (yes : Bool) : (if yes then Stage.handled else Stage.refused).HasObject := by
  cases yes
  · exact Or.inr rfl
  · exact Or.inl rfl

theorem not_hasObject_fresh : ¬ Stage.fresh.HasObject := by
  rintro (h | h) <;> cases h

theorem not_hasObject_completed : ¬ Stage.completed.HasObject := by
  rintro (h | h) <;> cases h

/-- The object of a request, by its stage. -/
theorem object_of_stage (hobj : ∀ req, (d.conns.object req).isSome = true ↔ (s.stage req).HasObject)
    (h : (s.stage req).HasObject) : ∃ conn, d.conns.object req = some conn :=
  Option.isSome_iff_exists.mp ((hobj req).mpr h)

/-- **A call of `connection_func`**: a new object for a request without one, else the object that `*con_cls` leads to. -/
theorem accessFunc_spec (hown : d.conns.Owned) (req : Nat) (call : Call) :
    ∃ conns, d.accessFunc req call = some ({ d with
        srv := (connection_func d.srv call (d.conns.object req)).srv
        conns := conns }, connection_func d.srv call (d.conns.object req)) ∧
      conns.Owned ∧ ∀ r, conns.object r = if r = req then
        some (connection_func d.srv call (d.conns.object req)).con_cls else d.conns.object r := by
  cases hslot : d.conns.slot req with
  | none =>
      rw [hown.object_eq.mpr hslot]
      refine ⟨_, ?_, hown.create hslot, fun r => hown.object_create⟩
      simp only [Daemon.accessFunc, hslot]
  | some addr =>
      cases hobj : d.conns.object req with
      | none =>
          rw [hown.object_eq.mp hobj] at hslot
          cases hslot
      | some conn =>
          obtain ⟨conns, hmodify, hown', -, -, hobj'⟩ :=
            hown.modify hobj (connection_func d.srv call (some conn)).con_cls
          refine ⟨conns, ?_, hown', hobj'⟩
          simp only [Daemon.accessFunc, hslot, hobj, hmodify, Option.bind_eq_bind, Option.bind_some, Option.pure_def]

/-- **A call of `completed_func`** whose callback does not throw. -/
theorem completedFunc_spec (hown : d.conns.Owned) (hobj : d.conns.object req = some conn)
    (hquiet : m_completed_cb conn = .none) :
    ∃ conns, d.completedFunc req m_completed_cb = some { d with conns := conns } ∧ conns.Owned ∧
      ∀ r, conns.object r = if r = req then .none else d.conns.object r := by
  obtain ⟨conns, addr, hdelete, -, hown', -, -, -, hobj'⟩ := hown.delete hobj
  refine ⟨conns, ?_, hown', hobj'⟩
  simp only [Daemon.completedFunc, hobj, hquiet, hdelete, Option.bind_eq_bind, Option.bind_some, Option.pure_def]

/-- An access that libmicrohttpd does, of a server whose objects are sound. -/
theorem step_access (hd : s.daemon = some d) (hown : d.conns.Owned)
    (hstep : step s (.access req call) = some s') :
    (s.stage req = .fresh ∨ s.stage req = .handled) ∧
      ∃ conns, conns.Owned ∧
        (∀ r, conns.object r = if r = req then
          some (connection_func d.srv call (d.conns.object req)).con_cls else d.conns.object r) ∧
        s' = {
          daemon := some { d with srv := (connection_func d.srv call (d.conns.object req)).srv, conns := conns }
          stage := Function.update s.stage req
            (if (connection_func d.srv call (d.conns.object req)).mhdYes then .handled else .refused)
          log := s.log ++
            (connection_func d.srv call (d.conns.object req)).dispatched.toList.map (fun conn => (req, conn))
          threw := s.threw ++ call.thrown (connection_func d.srv call (d.conns.object req)).dispatched } := by
  obtain ⟨conns, haccess, hown', hobj'⟩ := accessFunc_spec hown req call
  simp only [step] at hstep
  split_ifs at hstep with hstage
  simp only [hd, Option.bind_some, haccess] at hstep
  exact ⟨hstage, conns, hown', hobj', (Option.some.inj hstep).symm⟩

/-- A completion, by whether the callback throws. -/
theorem step_completed (hd : s.daemon = some d) (hown : d.conns.Owned)
    (hobj : ∀ r, (d.conns.object r).isSome = true ↔ (s.stage r).HasObject)
    (hstep : step s (.completed req m_completed_cb) = some s') :
    (s.stage req).HasObject ∧ ∃ conn, d.conns.object req = some conn ∧
      ((m_completed_cb conn = .none ∧ ∃ conns, conns.Owned ∧
          (∀ r, conns.object r = if r = req then .none else d.conns.object r) ∧
          s' = { s with daemon := some { d with conns := conns }, stage := Function.update s.stage req .completed }) ∨
        (m_completed_cb conn ≠ .none ∧ s' = { s with daemon := .none })) := by
  simp only [step] at hstep
  split_ifs at hstep with hstage
  obtain ⟨conn, hconn⟩ := object_of_stage hobj hstage
  refine ⟨hstage, conn, hconn, ?_⟩
  cases hcb : m_completed_cb conn with
  | none =>
      obtain ⟨conns, hcompleted, hown', hobj'⟩ := completedFunc_spec hown hconn hcb
      simp only [hd, Option.bind_some, hcompleted] at hstep
      exact Or.inl ⟨rfl, conns, hown', hobj', (Option.some.inj hstep).symm⟩
  | some exc =>
      have hthrows : d.completedFunc req m_completed_cb = .none := by
        simp only [Daemon.completedFunc, hconn, hcb, Option.bind_eq_bind, Option.bind_some]
      simp only [hd, Option.bind_some, hthrows] at hstep
      exact Or.inr ⟨Option.some_ne_none exc, (Option.some.inj hstep).symm⟩

/-- A step whose completion callback does not throw. -/
theorem sound_step (h : Sound s) (hquiet : Quiet s a) (hstep : step s a = some s') : Sound s' := by
  obtain ⟨d, hd, hown, hobj⟩ := h
  cases a with
  | access req call =>
      obtain ⟨-, conns, hown', hobj', rfl⟩ := step_access hd hown hstep
      refine ⟨_, rfl, hown', fun r => ?_⟩
      by_cases hr : r = req
      · simp only [hobj' r, if_pos hr, Function.update_apply]
        exact ⟨fun _ => handled_or_refused _, fun _ => rfl⟩
      · simp only [hobj' r, if_neg hr, Function.update_apply]
        exact hobj r
  | completed req m_completed_cb =>
      obtain ⟨-, conn, hconn, ⟨-, conns, hown', hobj', rfl⟩ | ⟨hthrows, -⟩⟩ := step_completed hd hown hobj hstep
      · refine ⟨_, rfl, hown', fun r => ?_⟩
        simp only [hobj' r, Function.update_apply]
        split_ifs with hr
        · exact ⟨fun h => absurd h Bool.false_ne_true, fun h => absurd h not_hasObject_completed⟩
        · exact hobj r
      · exact absurd (hquiet d conn hd hconn) hthrows

/-- A completion callback that throws ends in a state that is not sound. -/
theorem quiet_of_sound (h : Sound s) (hstep : step s a = some s') (h' : Sound s') : Quiet s a := by
  obtain ⟨d, hd, hown, hobj⟩ := h
  cases a with
  | access req call => exact trivial
  | completed req m_completed_cb =>
      intro d₁ conn hd₁ hconn
      obtain rfl := Option.some.inj (hd.symm.trans hd₁)
      obtain ⟨-, conn', hconn', ⟨hnone, -⟩ | ⟨-, rfl⟩⟩ := step_completed hd hown hobj hstep
      · obtain rfl := Option.some.inj (hconn.symm.trans hconn')
        exact hnone
      · obtain ⟨d', hd', -⟩ := h'
        cases hd'

theorem sound_start (srv : ServerC) : Sound (Requests.start srv) := by
  refine ⟨_, rfl, Slots.owned_empty, fun req => ?_⟩
  exact ⟨fun h => absurd h Bool.false_ne_true, fun h => absurd h not_hasObject_fresh⟩

/-- **The objects of all requests**, in whatever order their calls come: throughout a run each lives from the first call
    for its request to the completion, and is deleted once, exactly when no completion callback throws. -/
theorem objects_sound_iff (srv : ServerC) (actions : List Action) :
    Runs.Throughout step Sound (Requests.start srv) actions ↔ Runs.Along step Quiet (Requests.start srv) actions :=
  Runs.throughout_iff_along (fun _ h => h) (fun _ _ _ => sound_step) (fun _ _ _ => quiet_of_sound) (sound_start srv)

/-! ## What the requests see -/

/-- The object of a request behind its calls. -/
def connAfter (srv : ServerC) (con_cls : Option ConnectionC) (calls : List Call) : Option ConnectionC :=
  calls.foldl (fun conn call => some (connection_func srv call conn).con_cls) con_cls

/-- The calls for a request. -/
def callsOf (req : Nat) (actions : List Action) : List Call :=
  actions.filterMap (fun a => match a with
    | .access r call => if r = req then some call else .none
    | .completed _ _ => .none)

/-- What was dispatched for a request. -/
def logOf (req : Nat) (log : List (Nat × ConnectionC)) : List ConnectionC :=
  (log.filter (fun e => e.1 = req)).map Prod.snd

/-- The pending exception changes nothing but itself. -/
theorem connection_func_exc (srv : ServerC) (exc : Option String) (call : Call) (con_cls : Option ConnectionC) :
    (connection_func { srv with m_exc_ptr := exc } call con_cls).con_cls = (connection_func srv call con_cls).con_cls ∧
      (connection_func { srv with m_exc_ptr := exc } call con_cls).dispatched =
        (connection_func srv call con_cls).dispatched ∧
      ∃ exc', (connection_func srv call con_cls).srv = { srv with m_exc_ptr := exc' } := by
  cases con_cls with
  | none => exact ⟨rfl, rfl, srv.m_exc_ptr, rfl⟩
  | some conn =>
      unfold connection_func
      simp only
      split
      · exact ⟨rfl, rfl, _, rfl⟩
      · exact ⟨rfl, rfl, srv.m_exc_ptr, rfl⟩

theorem dispatches_exc (srv : ServerC) (exc : Option String) (calls : List Call) (con_cls : Option ConnectionC) :
    dispatches { srv with m_exc_ptr := exc } con_cls calls = dispatches srv con_cls calls := by
  induction calls generalizing srv exc con_cls with
  | nil => rfl
  | cons call calls ih =>
      obtain ⟨hcon, hdisp, exc₁, hsrv⟩ := connection_func_exc srv exc call con_cls
      obtain ⟨-, -, exc₂, hsrv'⟩ := connection_func_exc { srv with m_exc_ptr := exc } exc call con_cls
      rw [dispatches, dispatches, hcon, hdisp, hsrv, hsrv', ih srv exc₁]
      exact congrArg _ (ih srv exc₂ _)

/-- One call more for a request. -/
theorem dispatches_snoc (srv : ServerC) (calls : List Call) (call : Call) (con_cls : Option ConnectionC) :
    dispatches srv con_cls (calls ++ [call]) = dispatches srv con_cls calls ++
      (connection_func srv call (connAfter srv con_cls calls)).dispatched.toList := by
  induction calls generalizing con_cls with
  | nil =>
      rw [List.nil_append, dispatches, dispatches, dispatches, List.append_nil]
      rfl
  | cons first calls ih =>
      obtain ⟨-, -, exc, hsrv⟩ := connection_func_exc srv srv.m_exc_ptr first con_cls
      have htail := dispatches_exc srv exc
      rw [List.cons_append, dispatches, dispatches, hsrv, htail, htail, ih, ← List.append_assoc]
      rfl

theorem connAfter_snoc (srv : ServerC) (calls : List Call) (call : Call) (con_cls : Option ConnectionC) :
    connAfter srv con_cls (calls ++ [call]) = some (connection_func srv call (connAfter srv con_cls calls)).con_cls := by
  rw [connAfter, List.foldl_append]
  rfl

theorem callsOf_access (req r : Nat) (actions : List Action) (call : Call) :
    callsOf req (actions ++ [.access r call]) = callsOf req actions ++ if r = req then [call] else [] := by
  rw [callsOf, List.filterMap_append]
  by_cases hr : r = req
  · rw [if_pos hr]
    simp only [List.filterMap_cons, List.filterMap_nil, if_pos hr]
    rfl
  · rw [if_neg hr]
    simp only [List.filterMap_cons, List.filterMap_nil, if_neg hr]
    rfl

theorem callsOf_completed (req r : Nat) (actions : List Action) (m_completed_cb : ConnectionC → Option String) :
    callsOf req (actions ++ [.completed r m_completed_cb]) = callsOf req actions := by
  rw [callsOf, List.filterMap_append]
  exact List.append_nil _

theorem logOf_dispatched (req r : Nat) (log : List (Nat × ConnectionC)) (dispatched : List ConnectionC) :
    logOf req (log ++ dispatched.map (fun conn => (r, conn))) = logOf req log ++ if r = req then dispatched else [] := by
  unfold logOf
  rw [List.filter_append, List.map_append]
  congr 1
  by_cases hr : r = req
  · subst hr
    rw [if_pos rfl, List.filter_eq_self.mpr]
    · rw [List.map_map]
      exact List.map_id _
    · intro e he
      obtain ⟨conn, -, rfl⟩ := List.mem_map.mp he
      exact decide_eq_true rfl
  · rw [if_neg hr, List.filter_eq_nil_iff.mpr]
    · rfl
    · intro e he
      obtain ⟨conn, -, rfl⟩ := List.mem_map.mp he
      exact fun h => hr (of_decide_eq_true h)

/-- Behind these actions every request has seen what it would have seen alone, and its object is as it would be. -/
structure Follows (srv : ServerC) (actions : List Action) (s : Requests) (d : Daemon) : Prop where
  daemon : s.daemon = some d
  srv_eq : ∃ exc, d.srv = { srv with m_exc_ptr := exc }
  log : ∀ req, logOf req s.log = dispatches srv .none (callsOf req actions)
  object : ∀ req, s.stage req ≠ .completed → d.conns.object req = connAfter srv .none (callsOf req actions)

/-- One action more. -/
theorem follows_step {actions : List Action} (h : Follows srv actions s d) (hsound : Sound s) (hquiet : Quiet s a)
    (hstep : step s a = some s') : ∃ d', Follows srv (actions ++ [a]) s' d' := by
  obtain ⟨d₁, hd₁, hown, hobj⟩ := hsound
  obtain rfl := Option.some.inj (h.daemon.symm.trans hd₁)
  cases a with
  | access req call =>
      obtain ⟨hstage, conns, -, hobj', rfl⟩ := step_access h.daemon hown hstep
      obtain ⟨exc, hsrv⟩ := h.srv_eq
      have hlive : s.stage req ≠ .completed := by
        rcases hstage with hstage | hstage <;> rw [hstage] <;> decide
      obtain ⟨hcon, hdisp, -⟩ := connection_func_exc srv exc call (d.conns.object req)
      obtain ⟨-, -, exc', hsrv'⟩ := connection_func_exc { srv with m_exc_ptr := exc } exc call (d.conns.object req)
      rw [← hsrv] at hcon hdisp hsrv'
      rw [h.object req hlive] at hcon hdisp
      refine ⟨_, rfl, ⟨exc', hsrv'.trans ?_⟩, fun r => ?_, fun r hr => ?_⟩
      · rw [hsrv]
      · rw [callsOf_access]
        change logOf r (s.log ++ _) = _
        rw [logOf_dispatched, h.log r]
        by_cases hr : req = r
        · subst hr
          rw [if_pos rfl, if_pos rfl, dispatches_snoc, ← hdisp, h.object req hlive]
        · rw [if_neg hr, if_neg hr, List.append_nil, List.append_nil]
      · change conns.object r = _
        rw [callsOf_access, hobj' r]
        change Function.update s.stage req _ r ≠ _ at hr
        by_cases hreq : r = req
        · subst hreq
          rw [if_pos rfl, if_pos rfl, connAfter_snoc, ← hcon, h.object r hlive]
        · rw [Function.update_of_ne hreq] at hr
          rw [if_neg hreq, if_neg (fun h => hreq h.symm), List.append_nil]
          exact h.object r hr
  | completed req m_completed_cb =>
      obtain ⟨-, conn, hconn, ⟨-, conns, -, hobj', rfl⟩ | ⟨hthrows, -⟩⟩ := step_completed h.daemon hown hobj hstep
      · refine ⟨_, rfl, h.srv_eq, fun r => ?_, fun r hr => ?_⟩
        · rw [callsOf_completed]
          exact h.log r
        · change conns.object r = _
          rw [callsOf_completed, hobj' r]
          change Function.update s.stage req _ r ≠ _ at hr
          by_cases hreq : r = req
          · subst hreq
            rw [Function.update_self] at hr
            exact absurd rfl hr
          · rw [Function.update_of_ne hreq] at hr
            rw [if_neg hreq]
            exact h.object r hr
      · exact absurd (hquiet d conn h.daemon hconn) hthrows

/-- A run behind other actions. -/
theorem follows_run {before actions : List Action} (h : Follows srv before s d) (hsound : Sound s)
    (hquiet : Runs.Along step Quiet s actions) (hrun : Runs.run step s actions = some s') :
    Sound s' ∧ ∃ d', Follows srv (before ++ actions) s' d' := by
  induction actions generalizing before s d with
  | nil =>
      obtain rfl := Option.some.inj hrun
      rw [List.append_nil]
      exact ⟨hsound, d, h⟩
  | cons a actions ih =>
      obtain ⟨s₁, hstep, hrun⟩ := Option.bind_eq_some_iff.mp hrun
      obtain ⟨hgood, hrest⟩ := hquiet s₁ hstep
      obtain ⟨d₁, h₁⟩ := follows_step h hsound hgood hstep
      have htail := ih h₁ (sound_step hsound hgood hstep) hrest hrun
      rw [List.append_assoc] at htail
      exact htail

theorem follows_start (srv : ServerC) :
    Follows srv [] (Requests.start srv) ⟨srv, Slots.empty Nat ConnectionC⟩ where
  daemon := rfl
  srv_eq := ⟨srv.m_exc_ptr, rfl⟩
  log _ := rfl
  object _ _ := rfl

/-- **Requests are isolated**: however the calls for different requests are interleaved, the application sees of each
    request what it would see if there were no other and the callback did the same in the calls for this one. -/
theorem requests_isolated (srv : ServerC) (actions : List Action)
    (hquiet : Runs.Along step Quiet (Requests.start srv) actions)
    (hrun : Runs.run step (Requests.start srv) actions = some s) (req : Nat) :
    logOf req s.log = dispatches srv .none (callsOf req actions) := by
  obtain ⟨-, d, h⟩ := follows_run (follows_start srv) (sound_start srv) hquiet hrun
  exact h.log req

/-- Completion callbacks none of which throws. -/
theorem along_quiet {actions : List Action}
    (hcb : ∀ req m_completed_cb, .completed req m_completed_cb ∈ actions → ∀ conn, m_completed_cb conn = .none) :
    Runs.Along step Quiet s actions := by
  induction actions generalizing s with
  | nil => exact trivial
  | cons a actions ih =>
      intro s' _
      refine ⟨?_, ih (fun req m_completed_cb h => hcb req m_completed_cb (List.mem_cons_of_mem a h))⟩
      cases a with
      | access req call => exact trivial
      | completed req m_completed_cb => exact fun d conn _ _ => hcb req m_completed_cb List.mem_cons_self conn

/-- Two requests whose calls alternate. -/
def interleaved : List Action :=
  [.access 0 linkCall, .access 1 { linkCall with connection := 3 }, .access 1 linkCall, .access 0 linkCall,
    .completed 1 (fun _ => .none), .completed 0 (fun _ => .none)]

theorem interleaved_isolated : ∃ s, Runs.run step (Requests.start idle) interleaved = some s ∧
    logOf 1 s.log = dispatches idle .none [{ linkCall with connection := 3 }, linkCall] := by
  have hquiet : Runs.Along step Quiet (Requests.start idle) interleaved := by
    refine along_quiet (fun req m_completed_cb h conn => ?_)
    obtain ⟨-, rfl⟩ | ⟨-, rfl⟩ : (req = 1 ∧ m_completed_cb = fun _ => .none) ∨ (req = 0 ∧ m_completed_cb = fun _ => .none) := by
      simpa [interleaved] using h
    all_goals rfl
  exact ⟨_, rfl, requests_isolated idle interleaved hquiet rfl 1⟩

/-! ## Exceptions -/

/-- A call leaves the exception that its callback threw, or the one that was there. -/
theorem connection_func_pending (srv : ServerC) (call : Call) (con_cls : Option ConnectionC) :
    (connection_func srv call con_cls).srv = { srv with
      m_exc_ptr := (call.thrown (connection_func srv call con_cls).dispatched).getLast?.or srv.m_exc_ptr } := by
  cases con_cls with
  | none => rfl
  | some conn =>
      unfold connection_func
      simp only
      split
      · rename_i exc hthrown
        simp only [Call.thrown, Option.toList_some, List.filterMap_cons, hthrown]
        rfl
      · rename_i hthrown
        simp only [Call.thrown, Option.toList_some, List.filterMap_cons, hthrown]
        rfl

/-- The server behind a run has the exception that was thrown last, if one was. -/
theorem run_pending {actions : List Action} (hd : s.daemon = some d) (hsound : Sound s)
    (hquiet : Runs.Along step Quiet s actions) (hrun : Runs.run step s actions = some s') :
    ∃ thrown d', s'.threw = s.threw ++ thrown ∧ s'.daemon = some d' ∧
      d'.srv = { d.srv with m_exc_ptr := thrown.getLast?.or d.srv.m_exc_ptr } := by
  induction actions generalizing s d with
  | nil =>
      obtain rfl := Option.some.inj hrun
      exact ⟨[], d, (List.append_nil _).symm, hd, rfl⟩
  | cons a actions ih =>
      obtain ⟨s₁, hstep, hrun⟩ := Option.bind_eq_some_iff.mp hrun
      obtain ⟨hgood, hrest⟩ := hquiet s₁ hstep
      have hsound₁ := sound_step hsound hgood hstep
      obtain ⟨d₁, hd₁, hown, hobj⟩ := hsound
      obtain rfl := Option.some.inj (hd.symm.trans hd₁)
      cases a with
      | access req call =>
          obtain ⟨-, conns, -, -, rfl⟩ := step_access hd hown hstep
          obtain ⟨thrown, d', hthrew, hd', hsrv⟩ := ih rfl hsound₁ hrest hrun
          refine ⟨_, d', hthrew.trans (List.append_assoc _ _ _), hd', hsrv.trans ?_⟩
          simp only [connection_func_pending d.srv call, List.getLast?_append, Option.or_assoc]
      | completed req m_completed_cb =>
          obtain ⟨-, conn, hconn, ⟨-, conns, -, -, rfl⟩ | ⟨hthrows, -⟩⟩ := step_completed hd hown hobj hstep
          · obtain ⟨thrown, d', hthrew, hd', hsrv⟩ := @ih _ { d with conns := conns } rfl hsound₁ hrest hrun
            exact ⟨thrown, d', hthrew, hd', hsrv⟩
          · exact absurd (hgood d conn hd hconn) hthrows

/-- **`process`** rethrows the last of the exceptions that callbacks threw while it ran, if there is one, and none from
    before: in every state in which the objects are sound, for all that libmicrohttpd may do without an exception of a
    completion callback. Where `MHD_run` fails it throws the internal error instead. -/
theorem process_rethrows_last (actions : List Action) (hd : s.daemon = some d) (hsound : Sound s)
    (hquiet : Runs.Along step Quiet { s with daemon := some { d with srv := { d.srv with m_exc_ptr := .none } } } actions)
    (hrun : Runs.run step { s with daemon := some { d with srv := { d.srv with m_exc_ptr := .none } } } actions =
      some s') (mhdRun : Bool) :
    ∃ thrown, s'.threw = s.threw ++ thrown ∧ serverProcess s actions mhdRun =
      some (if mhdRun then thrown.getLast?.elim (.ok s') .error else .error error_HTTP_SERVER_INTERNAL_ERROR) := by
  have hreset : Sound { s with daemon := some { d with srv := { d.srv with m_exc_ptr := .none } } } := by
    obtain ⟨d₁, hd₁, hown, hobj⟩ := hsound
    obtain rfl := Option.some.inj (hd.symm.trans hd₁)
    exact ⟨_, rfl, hown, hobj⟩
  obtain ⟨thrown, d', hthrew, hd', hsrv⟩ := run_pending rfl hreset hquiet hrun
  refine ⟨thrown, hthrew, ?_⟩
  simp only [serverProcess, hd, hrun, hd', hsrv, Option.or_none, Option.bind_eq_bind, Option.bind_some, Option.pure_def]
  cases mhdRun with
  | false => rfl
  | true =>
      change some (match thrown.getLast? with | some exc => _ | none => _) = some (thrown.getLast?.elim _ _)
      cases thrown.getLast? <;> rfl

/-- A call for a request whose callback throws. -/
def throwingCall (connection : Nat) (exc : String) : Call :=
  { linkCall with connection := connection, m_connection_cb := leaves (some exc) }

/-- Two callbacks throw in one `process`: the first exception is gone. -/
theorem second_exception_rethrown : serverProcess (Requests.start idle)
    [.access 0 linkCall, .access 1 linkCall, .access 0 (throwingCall 2 "first"), .access 1 (throwingCall 3 "second"),
      .completed 0 (fun _ => .none)] true = some (.error "second") := by
  have hsilent : ∀ req m_completed_cb, Action.completed req m_completed_cb ∈ [.access 0 linkCall, .access 1 linkCall,
      .access 0 (throwingCall 2 "first"), .access 1 (throwingCall 3 "second"), .completed 0 (fun _ => .none)] →
        ∀ conn, m_completed_cb conn = .none := by
    intro req m_completed_cb h conn
    obtain ⟨-, rfl⟩ : req = 0 ∧ m_completed_cb = fun _ => .none := by simpa using h
    rfl
  obtain ⟨thrown, hthrew, hprocess⟩ := process_rethrows_last _ rfl (sound_start idle) (along_quiet hsilent) rfl true
  rw [hprocess]
  obtain rfl := hthrew
  rfl

end Cclhttp
end Cclib
