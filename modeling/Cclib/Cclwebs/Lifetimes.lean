import Mathlib.Logic.Function.Basic
import Cclib.Lib.Runs
import Cclib.Cclwebs.Protocol

/-!
# `Cclwebs.Lifetimes` — the `connection_c` objects of many connections

`protocol_func` creates the object of a connection with its first event, keeps the address in the session memory of
the connection and deletes the object with the last event, or when the callback throws. While an exception waits for
the end of `process` it does nothing at all, whatever connection an event is for.

A run is any sequence of calls of `process` and of events, with each connection's events in the order libwebsockets
gives them (`System.step`). A connection is **lost** when its first event came while an exception was pending, or when
its callback threw: from then on it has no object.

- `lifetimes_iff` — the objects live as long as their connections exactly when a connection that is not lost is never
  closed while an exception is pending, and a lost one has events only while one is.
-/

namespace Cclib
namespace Cclwebs

/-! ## The model -/

/-- `context_c`: `session` is the session memory of each connection, zeroed or with an address; `objects` has the
    `connection_c` at each address, or none when it is deleted; `deleted` are the addresses in the order of the
    deletes. -/
structure Service where
  m_prot_names : List String
  m_exc_ptr : Bool
  session : Nat → Option Nat
  objects : List (Option Connection)
  deleted : List Nat

/-- The object that the session memory of a connection leads to. -/
def Service.user (s : Service) (wsi : Nat) : Option Connection := do
  let address ← s.session wsi
  (s.objects[address]?).join

/-- An object at an address afterwards; without it the address is deleted. -/
def Service.deleteAt (s : Service) (address : Nat) (user : Option Connection) : List Nat :=
  if user.isNone then s.deleted ++ [address] else s.deleted

/-- `context_c::protocol_func` for one of the connections. `none` when the session memory leads to no object. -/
def Service.protocolFunc (s : Service) (throws : Bool) (protocol : String) (wsi : Nat) (reason : Reason) (input : Bytes)
    (remaining : Nat) : Option (Service × Int) := do
  let (ctx, res) ← Cclwebs.protocolFunc (fun _ => throws) protocol
    ⟨s.m_prot_names, s.m_exc_ptr, false, s.user wsi, []⟩ reason input remaining
  if reason = .other ∨ s.m_exc_ptr = true then
    return (s, res)
  if reason = .established ∨ reason = .clientEstablished then
    -- a new object, with its address in the session memory
    return ({ s with
      m_exc_ptr := ctx.m_exc_ptr
      session := Function.update s.session wsi (some s.objects.length)
      objects := s.objects ++ [ctx.user]
      deleted := s.deleteAt s.objects.length ctx.user }, res)
  let address ← s.session wsi
  return ({ s with
    m_exc_ptr := ctx.m_exc_ptr
    objects := s.objects.set address ctx.user
    deleted := s.deleteAt address ctx.user }, res)

/-- The start of `context_c::process`; what `libwebsocket_service` reports comes after it. -/
def Service.process (s : Service) : Service := { s with m_exc_ptr := false }

/-- What has happened on a connection. -/
inductive Stage where
  | fresh
  | live
  | lost
  | closed
deriving DecidableEq, Repr

/-- The context, if the run is defined so far, and the connections as the environment sees them. -/
structure System where
  context : Option Service
  stage : Nat → Stage

/-- A call of `process`, or an event; `throws` says whether the callback throws if it is called. -/
inductive Action where
  | process
  | established (wsi : Nat) (remaining : Nat) (throws : Bool)
  | event (wsi : Nat) (e : Event) (throws : Bool)

/-- An exception is pending. -/
def System.pending (s : System) : Bool := (s.context.map Service.m_exc_ptr).getD false

/-- The next stage after an event of a connection that is not fresh. -/
def Stage.after (stage : Stage) (e : Event) (thrown : Bool) : Stage :=
  if e.reason = .closed then .closed else if thrown then .lost else stage

/-- One action. `none` where libwebsockets does not do it, or its ESTABLISHED does not get past the assert: the first
    event is ESTABLISHED, of a protocol whose name is in the table of the context, and none comes after CLOSED. -/
def System.step (names : List String) (protocol : Nat → String) (s : System) : Action → Option System
  | .process => some { s with context := s.context.map Service.process }
  | .established wsi remaining throws =>
      if s.stage wsi = .fresh ∧ protocol wsi ∈ names then
        some {
          context := s.context.bind (fun ctx =>
            (ctx.protocolFunc throws (protocol wsi) wsi .established [] remaining).map Prod.fst)
          stage := Function.update s.stage wsi
            (if s.pending = true ∨ throws = true ∧ remaining = 0 then .lost else .live) }
      else none
  | .event wsi e throws =>
      if s.stage wsi = .live ∨ s.stage wsi = .lost then
        some {
          context := s.context.bind (fun ctx =>
            (ctx.protocolFunc throws (protocol wsi) wsi e.reason e.input e.remaining).map Prod.fst)
          stage := Function.update s.stage wsi
            ((s.stage wsi).after e (!s.pending && throws && decide (e.remaining = 0))) }
      else none

/-- A context without connections. -/
def System.start (names : List String) : System :=
  { context := some ⟨names, false, fun _ => none, [], []⟩, stage := fun _ => .fresh }

/-! ## The property and the condition -/

/-- The run is defined: no event was dispatched on a null or a deleted object. And every object that was created is of
    one connection, was deleted once at most, and once when that connection is closed. -/
def Sound (s : System) : Prop := ∃ ctx, s.context = some ctx ∧ ∀ a < ctx.objects.length,
  ctx.deleted.count a ≤ 1 ∧ ∃ wsi, ctx.session wsi = some a ∧ (s.stage wsi = .closed → ctx.deleted.count a = 1)

/-- While an exception is pending, no connection is closed but a lost one; while none is, a lost one has no events. -/
def Undisturbed (s : System) : Action → Prop
  | .process => True
  | .established _ _ _ => True
  | .event wsi e _ =>
      (s.pending = true → e.reason = .closed → s.stage wsi = .lost) ∧ (s.pending = false → s.stage wsi ≠ .lost)

/-! ## One call of `protocol_func` -/

variable {s s' : Service} {names : List String} {protocol : Nat → String} {throws : Bool} {wsi : Nat} {name : String}

/-- While an exception is pending nothing happens. -/
theorem protocolFunc_pending (h : s.m_exc_ptr = true) (reason : Reason) (input : Bytes) (remaining : Nat) :
    s.protocolFunc throws name wsi reason input remaining = some (s, 0) := by
  have hcall : Cclwebs.protocolFunc (fun _ => throws) name ⟨s.m_prot_names, s.m_exc_ptr, false, s.user wsi, []⟩ reason
      input remaining = some (⟨s.m_prot_names, s.m_exc_ptr, false, s.user wsi, []⟩, 0) := if_pos (.inr h)
  rw [Service.protocolFunc, hcall]
  show (if _ then _ else _) = _
  rw [if_pos (.inr h)]
  rfl

/-- What is left in the end: the object, unless the callback threw or the connection is closed. -/
theorem protocolFunc_user (throws : Bool) {ctx ctx₁ : Context} {conn : Connection} {reason : Reason}
    (hother : reason ≠ .other) (hexc : ctx.m_exc_ptr = false) (input : Bytes) (remaining : Nat)
    (hctx : (if reason = .established ∨ reason = .clientEstablished then ctx.establish name reason else some ctx)
      = some ctx₁) (hexc₁ : ctx₁.m_exc_ptr = false) (huser : ctx₁.user = some conn) :
    ∃ ctx' res, Cclwebs.protocolFunc (fun _ => throws) name ctx reason input remaining = some (ctx', res) ∧
      ctx'.m_exc_ptr = (throws && decide (remaining = 0)) ∧
      (ctx'.user = none ↔ (throws = true ∧ remaining = 0) ∨ reason = .closed) := by
  -- the part behind the creation, as a function of the context
  have hrest : Cclwebs.protocolFunc (fun _ => throws) name ctx reason input remaining =
      (let taken := (conn.buffer input remaining).take reason input
       let called : Context := { ctx₁ with calls := ctx₁.calls ++ [⟨taken.m_prot_idx, reason, taken.received⟩] }
       if remaining = 0 then
         if throws = true then some ({ called with user := none, m_exc_ptr := true }, 1)
         else some ({ called with user := if reason = .closed then none else some taken }, 0)
       else some ({ ctx₁ with user := if reason = .closed then none else some (conn.buffer input remaining) }, 0)) := by
    unfold Cclwebs.protocolFunc
    rw [if_neg (by simp [hother, hexc])]
    by_cases hr : reason = .established ∨ reason = .clientEstablished
    · rw [if_pos hr] at hctx
      simp only [if_pos hr, hctx, huser, Option.bind_eq_bind, Option.bind_some, Option.pure_def]
    · rw [if_neg hr, Option.some.injEq] at hctx
      subst hctx
      simp only [if_neg hr, huser, Option.bind_eq_bind, Option.bind_some, Option.pure_def]
  rw [hrest]
  by_cases hrem : remaining = 0
  · subst hrem
    cases throws with
    | true => exact ⟨_, _, rfl, rfl, by simp⟩
    | false =>
        refine ⟨_, _, rfl, hexc₁, ?_⟩
        show (if reason = .closed then none else some _) = none ↔ _
        by_cases hclosed : reason = .closed <;> simp [hclosed]
  · rw [if_neg hrem]
    refine ⟨_, _, rfl, by simp [hexc₁, hrem], ?_⟩
    show (if reason = .closed then none else some _) = none ↔ _
    by_cases hclosed : reason = .closed <;> simp [hclosed, hrem]

/-- Without an object there is nothing to dispatch on. -/
theorem protocolFunc_dangling (hexc : s.m_exc_ptr = false) (huser : s.user wsi = none) (e : Event) :
    s.protocolFunc throws name wsi e.reason e.input e.remaining = none := by
  have hreason : e.reason ≠ .other ∧ e.reason ≠ .established ∧ e.reason ≠ .clientEstablished := by
    cases e <;> simp [Event.reason]
  have hcall : Cclwebs.protocolFunc (fun _ => throws) name ⟨s.m_prot_names, s.m_exc_ptr, false, s.user wsi, []⟩ e.reason
      e.input e.remaining = none := by
    unfold Cclwebs.protocolFunc
    rw [if_neg (by simp [hreason, hexc]), if_neg (by simp [hreason]), huser]
    rfl
  rw [Service.protocolFunc, hcall]
  rfl

/-- The first event of a connection. -/
theorem protocolFunc_established (throws : Bool) (hexc : s.m_exc_ptr = false) (hname : name ∈ s.m_prot_names)
    (wsi remaining : Nat) : ∃ user res, s.protocolFunc throws name wsi .established [] remaining = some ({ s with
        m_exc_ptr := throws && decide (remaining = 0)
        session := Function.update s.session wsi (some s.objects.length)
        objects := s.objects ++ [user]
        deleted := s.deleteAt s.objects.length user }, res) ∧
      (user = none ↔ throws = true ∧ remaining = 0) := by
  obtain ⟨idx, hidx⟩ : ∃ idx, s.m_prot_names.findIdx? (· = name) = some idx := by
    apply Option.isSome_iff_exists.mp
    rw [List.findIdx?_isSome]
    exact List.any_eq_true.mpr ⟨name, hname, by simp⟩
  let ctx : Context := ⟨s.m_prot_names, s.m_exc_ptr, false, s.user wsi, []⟩
  have hctx : (if Reason.established = .established ∨ Reason.established = .clientEstablished then
      ctx.establish name .established else some ctx)
        = some { ctx with m_connected := false, user := some ⟨idx, .established, [], []⟩ } := by
    rw [if_pos (.inl rfl), Context.establish, hidx]
    rfl
  obtain ⟨ctx', res, hcall, hexc', huser⟩ := protocolFunc_user throws (by decide) hexc [] remaining hctx
    hexc rfl
  refine ⟨ctx'.user, res, ?_, by simpa using huser⟩
  rw [Service.protocolFunc, hcall, ← hexc']
  show (if _ then _ else _) = _
  rw [if_neg (by simp [hexc])]
  rfl

/-- A later event of a connection that has an object. -/
theorem protocolFunc_live (throws : Bool) (hexc : s.m_exc_ptr = false) {a : Nat} {conn : Connection}
    (ha : s.session wsi = some a) (hconn : s.objects[a]? = some (some conn)) (e : Event) :
    ∃ user res, s.protocolFunc throws name wsi e.reason e.input e.remaining = some ({ s with
        m_exc_ptr := throws && decide (e.remaining = 0)
        objects := s.objects.set a user
        deleted := s.deleteAt a user }, res) ∧
      (user = none ↔ (throws = true ∧ e.remaining = 0) ∨ e.reason = .closed) := by
  have hreason : e.reason ≠ .other ∧ ¬ (e.reason = .established ∨ e.reason = .clientEstablished) := by
    cases e <;> simp [Event.reason]
  have huser : s.user wsi = some conn := by
    rw [Service.user, ha]
    show (s.objects[a]?).join = some conn
    rw [hconn]
    rfl
  let ctx : Context := ⟨s.m_prot_names, s.m_exc_ptr, false, s.user wsi, []⟩
  have hctx : (if e.reason = .established ∨ e.reason = .clientEstablished then ctx.establish name e.reason else some ctx)
      = some ctx := if_neg hreason.2
  obtain ⟨ctx', res, hcall, hexc', huser'⟩ := protocolFunc_user throws hreason.1 hexc e.input e.remaining hctx
    hexc huser
  refine ⟨ctx'.user, res, ?_, huser'⟩
  rw [Service.protocolFunc, hcall, ← hexc']
  show (if _ then _ else _) = _
  rw [if_neg (by simp [hexc, hreason.1])]
  show (if _ then _ else _) = _
  rw [if_neg hreason.2, ha]
  rfl

/-! ## The objects of all connections -/

/-- Where the objects are in a run that is defined so far. -/
structure Kept (names : List String) (s : Service) (stage : Nat → Stage) : Prop where
  names_eq : s.m_prot_names = names
  /-- Every object is of one connection, and has one address. -/
  owner : ∀ a < s.objects.length, ∃ wsi, s.session wsi = some a
  apart : ∀ wsi wsi' a, s.session wsi = some a → s.session wsi' = some a → wsi = wsi'
  bound : ∀ wsi a, s.session wsi = some a → a < s.objects.length
  fresh : ∀ wsi, stage wsi = .fresh → s.session wsi = none
  /-- A live connection has its object, a lost or a closed one has none. -/
  live : ∀ wsi, stage wsi = .live → ∃ a conn, s.session wsi = some a ∧ s.objects[a]? = some (some conn)
  gone : ∀ wsi a, stage wsi = .lost ∨ stage wsi = .closed → s.session wsi = some a → s.objects[a]? = some none
  /-- What is deleted has been deleted once, and nothing else. -/
  counted : ∀ a, s.deleted.count a = if s.objects[a]? = some none then 1 else 0

variable {stage : Nat → Stage}

theorem kept_start (names : List String) : Kept names ⟨names, false, fun _ => none, [], []⟩ (fun _ => .fresh) where
  names_eq := rfl
  owner a h := absurd h (Nat.not_lt_zero a)
  apart _ _ _ h := by cases h
  bound _ _ h := by cases h
  fresh _ _ := rfl
  live _ h := by cases h
  gone _ _ _ h := by cases h
  counted _ := rfl

/-- The flag does not matter. -/
theorem Kept.flag (h : Kept names s stage) (pending : Bool) : Kept names { s with m_exc_ptr := pending } stage :=
  { h with }

/-- A connection changes its stage, but no object does. -/
theorem Kept.update_stage (h : Kept names s stage) {next : Stage} (hfresh : next ≠ .fresh) (hlive : next ≠ .live)
    (hgone : ∀ a, s.session wsi = some a → s.objects[a]? = some none) :
    Kept names s (Function.update stage wsi next) := by
  refine { h with fresh := ?_, live := ?_, gone := ?_ }
  · intro w hw
    rw [Function.update_apply] at hw
    split_ifs at hw with hwsi
    · exact absurd hw hfresh
    · exact h.fresh w hw
  · intro w hw
    rw [Function.update_apply] at hw
    split_ifs at hw with hwsi
    · exact absurd hw hlive
    · exact h.live w hw
  · intro w a hw ha
    rw [Function.update_apply] at hw
    split_ifs at hw with hwsi
    · subst hwsi
      exact hgone a ha
    · exact h.gone w a hw ha

/-- What has been deleted after the object at `a` is `user`. -/
theorem count_deleteAt (s : Service) (a b : Nat) (user : Option Connection) :
    (s.deleteAt a user).count b = s.deleted.count b + if user = none ∧ a = b then 1 else 0 := by
  cases user with
  | some conn => simp [Service.deleteAt]
  | none =>
      show (s.deleted ++ [a]).count b = _
      rw [List.count_append, List.count_singleton]
      by_cases hab : a = b <;> simp [hab]

/-- A connection that is lost or closed after an event has no object. -/
theorem none_of_gone {next : Stage} {user : Option Connection} (hnext : next = .live ↔ user ≠ none)
    (h : next = .lost ∨ next = .closed) : user = none := by
  by_contra hne
  rw [hnext.mpr hne] at h
  rcases h with h | h <;> cases h

/-- **A later event**: the object stays, or is deleted and the connection with it. -/
theorem Kept.set (h : Kept names s stage) {a : Nat} {conn : Connection} (ha : s.session wsi = some a)
    (hconn : s.objects[a]? = some (some conn)) (pending : Bool) (user : Option Connection) {next : Stage}
    (hfresh : next ≠ .fresh) (hnext : next = .live ↔ user ≠ none) :
    Kept names { s with m_exc_ptr := pending, objects := s.objects.set a user, deleted := s.deleteAt a user }
      (Function.update stage wsi next) := by
  have hself : (s.objects.set a user)[a]? = some user := List.getElem?_set_self (h.bound wsi a ha)
  -- the object of another connection is another one
  have hother : ∀ {w b : Nat}, w ≠ wsi → s.session w = some b → (s.objects.set a user)[b]? = s.objects[b]? := by
    intro w b hwsi hb
    apply List.getElem?_set_ne
    rintro rfl
    exact hwsi (h.apart w wsi a hb ha)
  constructor
  case names_eq => exact h.names_eq
  case owner => exact fun b hb => h.owner b (by rwa [List.length_set] at hb)
  case apart => exact h.apart
  case bound =>
    intro w b hb
    rw [List.length_set]
    exact h.bound w b hb
  case fresh =>
    intro w hw
    rw [Function.update_apply] at hw
    split_ifs at hw with hwsi
    · exact absurd hw hfresh
    · exact h.fresh w hw
  case live =>
    intro w hw
    rw [Function.update_apply] at hw
    split_ifs at hw with hwsi
    · subst hwsi
      obtain ⟨conn', rfl⟩ := Option.ne_none_iff_exists'.mp (hnext.mp hw)
      exact ⟨a, conn', ha, hself⟩
    · obtain ⟨b, conn', hb, hconn'⟩ := h.live w hw
      exact ⟨b, conn', hb, by rw [hother hwsi hb, hconn']⟩
  case gone =>
    intro w b hw hb
    rw [Function.update_apply] at hw
    split_ifs at hw with hwsi
    · subst hwsi
      rw [Option.some.inj (hb.symm.trans ha), hself, none_of_gone hnext hw]
    · rw [hother hwsi hb, h.gone w b hw hb]
  case counted =>
    intro b
    rw [count_deleteAt, h.counted b]
    by_cases hab : a = b
    · subst hab
      rw [hself, hconn]
      cases user <;> simp
    · rw [List.getElem?_set_ne hab]
      simp [hab]

/-- **The first event**: a new object, which stays or is deleted at once. -/
theorem Kept.push (h : Kept names s stage) (hfresh : s.session wsi = none) (pending : Bool) (user : Option Connection)
    {next : Stage} (hne : next ≠ .fresh) (hnext : next = .live ↔ user ≠ none) :
    Kept names { s with
      m_exc_ptr := pending
      session := Function.update s.session wsi (some s.objects.length)
      objects := s.objects ++ [user]
      deleted := s.deleteAt s.objects.length user } (Function.update stage wsi next) := by
  have hself : (s.objects ++ [user])[s.objects.length]? = some user := List.getElem?_concat_length
  have hold : ∀ {a : Nat}, a < s.objects.length → (s.objects ++ [user])[a]? = s.objects[a]? := List.getElem?_append_left
  -- the new object is of the new connection, and every other one of an old connection
  have hsession : ∀ {w a : Nat}, Function.update s.session wsi (some s.objects.length) w = some a →
      (w = wsi ∧ a = s.objects.length) ∨ (w ≠ wsi ∧ s.session w = some a ∧ a < s.objects.length) := by
    intro w a hw
    rw [Function.update_apply] at hw
    split_ifs at hw with hwsi
    · exact Or.inl ⟨hwsi, (Option.some.inj hw).symm⟩
    · exact Or.inr ⟨hwsi, hw, h.bound w a hw⟩
  constructor
  case names_eq => exact h.names_eq
  case owner =>
    intro a ha
    rw [List.length_append, List.length_singleton] at ha
    by_cases hlt : a < s.objects.length
    · obtain ⟨w, hw⟩ := h.owner a hlt
      refine ⟨w, ?_⟩
      show Function.update s.session wsi (some s.objects.length) w = some a
      rw [Function.update_of_ne, hw]
      rintro rfl
      rw [hfresh] at hw
      cases hw
    · have heq : a = s.objects.length := by omega
      refine ⟨wsi, ?_⟩
      show Function.update s.session wsi (some s.objects.length) wsi = some a
      rw [Function.update_self, heq]
  case apart =>
    intro w w' a hw hw'
    rcases hsession hw with ⟨rfl, rfl⟩ | ⟨-, hw, hlt⟩
    · rcases hsession hw' with ⟨rfl, -⟩ | ⟨-, -, hlt⟩
      · rfl
      · exact absurd hlt (Nat.lt_irrefl _)
    · rcases hsession hw' with ⟨-, rfl⟩ | ⟨-, hw', -⟩
      · exact absurd hlt (Nat.lt_irrefl _)
      · exact h.apart w w' a hw hw'
  case bound =>
    intro w a ha
    rw [List.length_append, List.length_singleton]
    rcases hsession ha with ⟨-, rfl⟩ | ⟨-, -, hlt⟩
    · exact Nat.lt_succ_self _
    · exact Nat.lt_succ_of_lt hlt
  case fresh =>
    intro w hw
    rw [Function.update_apply] at hw
    split_ifs at hw with hwsi
    · exact absurd hw hne
    · show Function.update s.session wsi (some s.objects.length) w = none
      rw [Function.update_of_ne hwsi, h.fresh w hw]
  case live =>
    intro w hw
    rw [Function.update_apply] at hw
    split_ifs at hw with hwsi
    · subst hwsi
      obtain ⟨conn, rfl⟩ := Option.ne_none_iff_exists'.mp (hnext.mp hw)
      exact ⟨s.objects.length, conn, Function.update_self .., hself⟩
    · obtain ⟨a, conn, ha, hconn⟩ := h.live w hw
      refine ⟨a, conn, ?_, by rw [hold (h.bound w a ha), hconn]⟩
      show Function.update s.session wsi (some s.objects.length) w = some a
      rw [Function.update_of_ne hwsi, ha]
  case gone =>
    intro w a hw ha
    rw [Function.update_apply] at hw
    rcases hsession ha with ⟨rfl, rfl⟩ | ⟨hwsi, ha, hlt⟩
    · rw [if_pos rfl] at hw
      rw [hself, none_of_gone hnext hw]
    · rw [if_neg hwsi] at hw
      rw [hold hlt, h.gone w a hw ha]
  case counted =>
    intro a
    rw [count_deleteAt, h.counted a]
    by_cases hlt : a < s.objects.length
    · rw [hold hlt]
      simp [Nat.ne_of_gt hlt]
    · have hbeyond : s.objects[a]? = none := List.getElem?_eq_none (Nat.not_lt.mp hlt)
      rw [hbeyond]
      by_cases heq : s.objects.length = a
      · subst heq
        rw [hself]
        cases user <;> simp
      · have hbeyond' : (s.objects ++ [user])[a]? = none := by
          apply List.getElem?_eq_none
          rw [List.length_append, List.length_singleton]
          omega
        rw [hbeyond']
        simp [heq]

/-! ## Runs -/

/-- The run is defined so far, with its objects where they belong. -/
def Inv (names : List String) (s : System) : Prop := ∃ ctx, s.context = some ctx ∧ Kept names ctx s.stage

theorem inv_start (names : List String) : Inv names (System.start names) := ⟨_, rfl, kept_start names⟩

theorem Inv.sound {s : System} (h : Inv names s) : Sound s := by
  obtain ⟨ctx, hctx, hk⟩ := h
  refine ⟨ctx, hctx, fun a ha => ?_⟩
  obtain ⟨wsi, hwsi⟩ := hk.owner a ha
  refine ⟨?_, wsi, hwsi, fun hclosed => ?_⟩
  · rw [hk.counted a]
    split <;> omega
  · rw [hk.counted a, if_pos (hk.gone wsi a (.inr hclosed) hwsi)]

theorem Stage.after_ne_fresh {stage : Stage} (h : stage ≠ .fresh) (e : Event) (thrown : Bool) :
    stage.after e thrown ≠ .fresh := by
  unfold Stage.after
  split
  · exact fun heq => by cases heq
  · split
    · exact fun heq => by cases heq
    · exact h

/-- A live connection stays live unless its callback throws or it is closed. -/
theorem Stage.after_live (e : Event) (thrown : Bool) :
    Stage.live.after e thrown = .live ↔ ¬ (thrown = true ∨ e.reason = .closed) := by
  unfold Stage.after
  by_cases hclosed : e.reason = .closed
  · simp [hclosed]
  · cases thrown <;> simp [hclosed]

/-- The first event keeps the objects where they belong. -/
theorem Inv.established {s s' : System} (h : Inv names s) {wsi remaining : Nat} {throws : Bool}
    (hstep : s.step names protocol (.established wsi remaining throws) = some s') : Inv names s' := by
  obtain ⟨ctx, hctx, hk⟩ := h
  rw [System.step] at hstep
  obtain ⟨⟨hfresh, hname⟩, hstep⟩ := Option.ite_none_right_eq_some.mp hstep
  have hs := Option.some.inj hstep
  subst hs
  have hsession := hk.fresh wsi hfresh
  have hpending : s.pending = ctx.m_exc_ptr := by rw [System.pending, hctx]; rfl
  rw [Inv, hctx, hpending]
  by_cases hexc : ctx.m_exc_ptr = true
  · -- the event is ignored, and the connection has no object
    rw [if_pos (.inl hexc)]
    refine ⟨ctx, ?_, hk.update_stage (by decide) (by decide) (fun a ha => ?_)⟩
    · show (ctx.protocolFunc throws (protocol wsi) wsi .established [] remaining).map Prod.fst = some ctx
      rw [protocolFunc_pending hexc]
      rfl
    · rw [hsession] at ha
      cases ha
  · obtain ⟨user, res, hcall, huser⟩ := protocolFunc_established throws (Bool.eq_false_iff.mpr hexc)
      (by rwa [hk.names_eq]) wsi remaining
    refine ⟨_, ?_, hk.push hsession (throws && decide (remaining = 0)) user ?_ ?_⟩
    · show (ctx.protocolFunc throws (protocol wsi) wsi .established [] remaining).map Prod.fst = _
      rw [hcall]
      rfl
    · split <;> exact fun heq => by cases heq
    · by_cases hthrow : throws = true ∧ remaining = 0
      · simp [hthrow, huser]
      · simp [hexc, hthrow, huser]

/-- A later event that meets the condition does. -/
theorem Inv.event {s s' : System} (h : Inv names s) {wsi : Nat} {e : Event} {throws : Bool}
    (hgood : Undisturbed s (.event wsi e throws)) (hstep : s.step names protocol (.event wsi e throws) = some s') :
    Inv names s' := by
  obtain ⟨ctx, hctx, hk⟩ := h
  rw [System.step] at hstep
  obtain ⟨hstage, hstep⟩ := Option.ite_none_right_eq_some.mp hstep
  have hs := Option.some.inj hstep
  subst hs
  have hpending : s.pending = ctx.m_exc_ptr := by rw [System.pending, hctx]; rfl
  obtain ⟨hclose, hlost⟩ := hgood
  rw [hpending] at hclose hlost
  rw [Inv, hctx, hpending]
  by_cases hexc : ctx.m_exc_ptr = true
  -- an exception is pending: the callback does nothing, which is right for a close of a lost connection
  · have hcall : (ctx.protocolFunc throws (protocol wsi) wsi e.reason e.input e.remaining).map Prod.fst = some ctx := by
      rw [protocolFunc_pending hexc]
      rfl
    refine ⟨ctx, hcall, ?_⟩
    rw [hexc]
    by_cases hclosed : e.reason = .closed
    · rw [Stage.after, if_pos hclosed]
      exact hk.update_stage (by decide) (by decide) (fun a ha => hk.gone wsi a (.inl (hclose hexc hclosed)) ha)
    · have hsame : Function.update s.stage wsi ((s.stage wsi).after e (!true && throws && decide (e.remaining = 0)))
          = s.stage := by
        rw [Stage.after, if_neg hclosed]
        exact Function.update_eq_self wsi s.stage
      rw [hsame]
      exact hk
  · have hexc := Bool.eq_false_iff.mpr hexc
    have hlive : s.stage wsi = .live := hstage.resolve_right (hlost hexc)
    obtain ⟨a, conn, ha, hconn⟩ := hk.live wsi hlive
    obtain ⟨user, res, hcall, huser⟩ := protocolFunc_live throws hexc ha hconn e
    refine ⟨_, ?_, hk.set ha hconn (throws && decide (e.remaining = 0)) user ?_ ?_⟩
    · show (ctx.protocolFunc throws _ wsi e.reason e.input e.remaining).map Prod.fst = _
      rw [hcall]
      rfl
    · rw [hlive]
      exact Stage.after_ne_fresh (by decide) e _
    · rw [hlive, hexc, Stage.after_live, Ne, huser]
      simp

theorem Inv.step {s s' : System} (h : Inv names s) {a : Action} (hgood : Undisturbed s a)
    (hstep : s.step names protocol a = some s') : Inv names s' := by
  cases a with
  | process =>
      obtain ⟨ctx, hctx, hk⟩ := h
      have hs := Option.some.inj hstep
      subst hs
      rw [Inv, hctx]
      exact ⟨ctx.process, rfl, hk.flag false⟩
  | established wsi remaining throws => exact h.established hstep
  | event wsi e throws => exact h.event hgood hstep

/-- An event that does not meet the condition is dispatched on no object, or leaves one behind. -/
theorem Inv.undisturbed {s s' : System} (h : Inv names s) {a : Action} (hstep : s.step names protocol a = some s')
    (hsound : Sound s') : Undisturbed s a := by
  cases a with
  | process => trivial
  | established wsi remaining throws => trivial
  | event wsi e throws =>
      obtain ⟨ctx, hctx, hk⟩ := h
      rw [System.step] at hstep
      obtain ⟨hstage, hstep⟩ := Option.ite_none_right_eq_some.mp hstep
      have hs := Option.some.inj hstep
      subst hs
      have hpending : s.pending = ctx.m_exc_ptr := by rw [System.pending, hctx]; rfl
      obtain ⟨ctx', hctx', hall⟩ := hsound
      rw [hctx] at hctx'
      have hcall : (ctx.protocolFunc throws (protocol wsi) wsi e.reason e.input e.remaining).map Prod.fst = some ctx' := hctx'
      constructor
      · intro hexc hclosed
        rw [hpending] at hexc
        rw [protocolFunc_pending hexc] at hcall
        have heq := Option.some.inj hcall
        subst heq
        refine hstage.resolve_left (fun hlive => ?_)
        -- the object of a live connection is still there when the connection is closed
        obtain ⟨a, conn, ha, hconn⟩ := hk.live wsi hlive
        obtain ⟨-, wsi', hwsi', hcount⟩ := hall a (hk.bound wsi a ha)
        have hsame := hk.apart wsi' wsi a hwsi' ha
        subst hsame
        have hone := hcount (by
          show Function.update s.stage wsi' _ wsi' = .closed
          rw [Function.update_self, Stage.after, if_pos hclosed])
        rw [hk.counted a, hconn, if_neg (by simp)] at hone
        exact absurd hone Nat.zero_ne_one
      · intro hexc hlost
        rw [hpending] at hexc
        have huser : ctx.user wsi = none := by
          rw [Service.user]
          cases ha : ctx.session wsi with
          | none => rfl
          | some a =>
              show (ctx.objects[a]?).join = none
              rw [hk.gone wsi a (.inl hlost) ha]
              rfl
        rw [protocolFunc_dangling hexc huser] at hcall
        cases hcall

/-- **The objects live as long as their connections** in a run exactly when every step meets the condition: no
    connection is closed while an exception is pending, except one that is lost, and a lost one has no events while
    none is pending. -/
theorem lifetimes_iff (names : List String) (protocol : Nat → String) (as : List Action) :
    Runs.Throughout (System.step names protocol) Sound (System.start names) as ↔
      Runs.Along (System.step names protocol) Undisturbed (System.start names) as :=
  Runs.throughout_iff_along (fun _ h => h.sound) (fun _ _ _ h hgood hstep => h.step hgood hstep)
    (fun _ _ _ h hstep hsound => h.undisturbed hstep hsound) (inv_start names)

/-- **A connection that is established after another one failed.** Its first event is ignored, and the next one finds
    the session memory zeroed. -/
theorem established_swallowed : ¬ Runs.Throughout (System.step ["chat"] (fun _ => "chat")) Sound (System.start ["chat"])
    [.process, .established 0 0 true, .established 1 0 false, .process, .event 1 (.receive [97] 0 true) false] := by
  intro h
  obtain ⟨s, hs, hnone⟩ : ∃ s, Runs.run (System.step ["chat"] (fun _ => "chat")) (System.start ["chat"])
      [.process, .established 0 0 true, .established 1 0 false, .process, .event 1 (.receive [97] 0 true) false] = some s ∧
      s.context = none := ⟨_, rfl, rfl⟩
  obtain ⟨ctx, hctx, -⟩ := h.final hs
  rw [hnone] at hctx
  cases hctx

end Cclwebs
end Cclib
