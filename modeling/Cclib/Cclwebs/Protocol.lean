import Mathlib.Data.List.Basic

/-!
# `Cclwebs.Protocol` — `context_c::protocol_func` on one connection

libwebsockets calls `protocol_func` for everything that happens on a connection: the chunks of a frame as
they arrive, the socket becoming writeable, the end. `protocol_func` collects the chunks and calls the
user's callback.

`Session` says what libwebsockets reports for a sequence of frames and which events are complete when;
`events_delivered_once_iff` says when the user's callback hears of exactly these.
-/

namespace Cclib
namespace Cclwebs

abbrev Bytes := List UInt8

/-- `libwebsocket_callback_reasons`, as far as `protocol_func` tells them apart. -/
inductive Reason where
  | established
  | clientEstablished
  | closed
  | receive
  | clientReceive
  | clientReceivePong
  | clientWriteable
  | serverWriteable
  | other
deriving DecidableEq, Repr

/-- `connection_c`; `received` is what `data_in` and `data_len` delimit. -/
structure Connection where
  m_prot_idx : Nat
  m_reason : Reason
  m_data_buffer : Bytes
  received : Bytes
deriving DecidableEq, Repr

/-- A call of the user's callback of a protocol, with the `reason` and the `received_data` it finds. -/
structure Call where
  prot_idx : Nat
  reason : Reason
  data : Bytes
deriving DecidableEq, Repr

/-- `context_c` with one connection: `user` is the `connection_c` that libwebsockets keeps the address of,
    `m_connected` belongs to the client it was opened by, if any. `calls` records what the callbacks saw. -/
structure Context where
  m_prot_names : List String
  m_exc_ptr : Bool
  m_connected : Bool
  user : Option Connection
  calls : List Call
deriving DecidableEq, Repr

/-- The branch that creates a `connection_c`. `none` when the name is unknown (`assert`). -/
def Context.establish (ctx : Context) (protocol : String) (reason : Reason) : Option Context := do
  let idx ← ctx.m_prot_names.findIdx? (· = protocol)
  return { ctx with
    m_connected := ctx.m_connected || reason = .clientEstablished
    user := some ⟨idx, reason, [], []⟩ }

/-- The message is not complete or buffered data exists: the input is appended to the buffer. -/
def Connection.buffer (conn : Connection) (input : Bytes) (remaining : Nat) : Connection :=
  if remaining ≠ 0 ∨ conn.m_data_buffer ≠ [] then { conn with m_data_buffer := conn.m_data_buffer ++ input }
  else conn

/-- The callback's input: the buffered data, which `clear` leaves where it is, or else the input itself. -/
def Connection.take (conn : Connection) (reason : Reason) (input : Bytes) : Connection :=
  if conn.m_data_buffer ≠ [] then { conn with m_reason := reason, received := conn.m_data_buffer, m_data_buffer := [] }
  else { conn with m_reason := reason, received := input }

/-- `context_c::protocol_func`. `remaining` is what `libwebsockets_remaining_packet_payload` returns,
    `throws` says which calls of the callback throw. `none` when `user` leads to no connection. -/
def protocolFunc (throws : Call → Bool) (protocol : String) (ctx : Context) (reason : Reason) (input : Bytes)
    (remaining : Nat) : Option (Context × Int) :=
  if reason = .other ∨ ctx.m_exc_ptr = true then some (ctx, 0)
  else do
    let ctx ← if reason = .established ∨ reason = .clientEstablished then ctx.establish protocol reason else some ctx
    let conn ← ctx.user
    let conn := conn.buffer input remaining
    if remaining = 0 then
      let conn := conn.take reason input
      let call : Call := ⟨conn.m_prot_idx, reason, conn.received⟩
      let ctx := { ctx with calls := ctx.calls ++ [call] }
      if throws call then
        return ({ ctx with user := none, m_exc_ptr := true }, 1)
      return ({ ctx with user := if reason = .closed then none else some conn }, 0)
    return ({ ctx with user := if reason = .closed then none else some conn }, 0)

/-! ## What libwebsockets reports -/

/-- One call of `protocol_func` on a server's connection after it is established. A writeable or closed event
    has no input. `final` marks the last call for a frame; `protocol_func` does not get to see it. -/
inductive Event where
  | receive (chunk : Bytes) (remaining : Nat) (final : Bool)
  | writeable (remaining : Nat)
  | closed (remaining : Nat)
deriving DecidableEq, Repr

def Event.reason : Event → Reason
  | .receive _ _ _ => .receive
  | .writeable _ => .serverWriteable
  | .closed _ => .closed

def Event.input : Event → Bytes
  | .receive chunk _ _ => chunk
  | _ => []

def Event.remaining : Event → Nat
  | .receive _ remaining _ => remaining
  | .writeable remaining => remaining
  | .closed remaining => remaining

/-- Something is complete with this event: a frame, or the event itself. -/
def Event.completes : Event → Bool
  | .receive _ _ final => final
  | _ => true

/-- Where a connection is: between two frames, or in one of which `got` has been delivered and `rest` is
    still to come. -/
inductive Position where
  | between
  | within (got rest : Bytes)

/-- What `libwebsockets_remaining_packet_payload` returns between two calls. -/
def Position.remaining : Position → Nat
  | .between => 0
  | .within _ rest => rest.length

/-- The calls `events` for frames cut into chunks in any way, with writeable events anywhere and a closed one at
    the end, and what is complete, in this order. The session may go on or end at any point. -/
inductive Session : Position → List Event → List (Reason × Bytes) → Prop where
  | nil (pos : Position) : Session pos [] []
  | whole {payload : Bytes} {es ds} : Session .between es ds →
      Session .between (.receive payload 0 true :: es) ((.receive, payload) :: ds)
  | first {chunk rest : Bytes} {es ds} : Session (.within chunk rest) es ds →
      Session .between (.receive chunk rest.length false :: es) ds
  | more {got chunk rest : Bytes} {es ds} : Session (.within (got ++ chunk) rest) es ds →
      Session (.within got (chunk ++ rest)) (.receive chunk rest.length false :: es) ds
  | last {got chunk : Bytes} {es ds} : Session .between es ds →
      Session (.within got chunk) (.receive chunk 0 true :: es) ((.receive, got ++ chunk) :: ds)
  | writeable {pos : Position} {es ds} : Session pos es ds →
      Session pos (.writeable pos.remaining :: es) ((.serverWriteable, []) :: ds)
  | closed (pos : Position) : Session pos [.closed pos.remaining] [(.closed, [])]

/-- A writeable or closed event does not come while bytes of a frame are outstanding, and no further chunk comes
    after the last byte of a frame. -/
def Event.Undisturbed : Event → Prop
  | .receive _ remaining final => remaining = 0 → final = true
  | .writeable remaining => remaining = 0
  | .closed remaining => remaining = 0

instance : DecidablePred Event.Undisturbed
  | .receive _ remaining final => inferInstanceAs (Decidable (remaining = 0 → final = true))
  | .writeable remaining => inferInstanceAs (Decidable (remaining = 0))
  | .closed remaining => inferInstanceAs (Decidable (remaining = 0))

/-! ## One call -/

/-- `protocol_func` for a list of events, one after the other. -/
def run (throws : Call → Bool) (protocol : String) (ctx : Context) : List Event → Option Context
  | [] => some ctx
  | e :: es => do
    let (ctx', _) ← protocolFunc throws protocol ctx e.reason e.input e.remaining
    run throws protocol ctx' es

/-- The connection is there, belongs to protocol `idx` and has `buf` in its buffer; no exception is pending. -/
structure Context.Open (ctx : Context) (idx : Nat) (buf : Bytes) : Prop where
  exc : ctx.m_exc_ptr = false
  user : ∃ conn, ctx.user = some conn ∧ conn.m_prot_idx = idx ∧ conn.m_data_buffer = buf

/-- What the callback of protocol `idx` is called with. -/
def toCall (idx : Nat) (d : Reason × Bytes) : Call := ⟨idx, d.1, d.2⟩

/-- The calls an event leads to while `buf` is in the buffer. -/
def Event.calls (e : Event) (buf : Bytes) : List (Reason × Bytes) :=
  if e.remaining = 0 then [(e.reason, buf ++ e.input)] else []

/-- What is in the buffer after it. -/
def Event.bufferAfter (e : Event) (buf : Bytes) : Bytes := if e.remaining = 0 then [] else buf ++ e.input

variable {throws : Call → Bool} {protocol : String} {ctx : Context} {idx : Nat} {buf : Bytes}

theorem Connection.buffer_of_remaining (conn : Connection) (input : Bytes) {remaining : Nat} (h : remaining ≠ 0) :
    conn.buffer input remaining = { conn with m_data_buffer := conn.m_data_buffer ++ input } := by
  simp [buffer, h]

/-- With nothing outstanding the callback sees the buffer and the input behind it, and the buffer is empty. -/
theorem Connection.take_buffer (conn : Connection) (reason : Reason) (input : Bytes) :
    (conn.buffer input 0).take reason input
      = { conn with m_reason := reason, received := conn.m_data_buffer ++ input, m_data_buffer := [] } := by
  cases conn with
  | mk idx reason' buf received =>
      by_cases hb : buf = []
      · subst hb
        simp [buffer, take]
      · simp [buffer, take, hb]

/-- `protocol_func` after the connection is established. -/
theorem protocolFunc_event (protocol : String) (hthrow : ∀ c, throws c = false) (hopen : ctx.Open idx buf) (e : Event) :
    ∃ ctx', protocolFunc throws protocol ctx e.reason e.input e.remaining = some (ctx', 0)
      ∧ ctx'.calls = ctx.calls ++ (e.calls buf).map (toCall idx)
      ∧ (e.reason ≠ .closed → ctx'.Open idx (e.bufferAfter buf)) := by
  obtain ⟨hexc, conn, huser, rfl, rfl⟩ := hopen
  have hreason : e.reason ≠ .other ∧ e.reason ≠ .established ∧ e.reason ≠ .clientEstablished := by
    cases e <;> simp [Event.reason]
  unfold protocolFunc
  rw [if_neg (by simp [hreason, hexc]), if_neg (by simp [hreason])]
  simp only [huser, Option.bind_eq_bind, Option.bind_some]
  by_cases hrem : e.remaining = 0
  · simp only [hrem, if_true, Connection.take_buffer, hthrow, Event.calls, Event.bufferAfter]
    refine ⟨_, rfl, rfl, fun hne => ⟨hexc, ?_⟩⟩
    exact ⟨_, if_neg hne, rfl, rfl⟩
  · simp only [hrem, if_false, Connection.buffer_of_remaining conn e.input hrem, Event.calls, Event.bufferAfter]
    refine ⟨_, rfl, by simp, fun hne => ⟨hexc, ?_⟩⟩
    exact ⟨_, if_neg hne, rfl, rfl⟩

/-! ## A whole session -/

/-- What has been collected of the current frame. After its last byte that is nothing any more. -/
def Position.buffered : Position → Bytes
  | .between => []
  | .within got rest => if rest = [] then [] else got

/-- Some byte of the current frame is still to come. -/
def Position.Pending : Position → Prop
  | .between => True
  | .within _ rest => rest ≠ []

/-- The calls of the callback during a session. -/
structure Delivers (idx : Nat) (ctx ctx' : Context) (pos : Position) (es : List Event)
    (ds : List (Reason × Bytes)) : Prop where
  calls : ∃ cs, ctx'.calls = ctx.calls ++ cs.map (toCall idx)
    ∧ (pos.Pending → (∀ e ∈ es, e.Undisturbed) → cs = ds)
    ∧ cs.map Prod.fst = (es.filter (fun e => e.remaining = 0)).map Event.reason

/-- One more event at the front of a session. -/
theorem Delivers.cons {pos : Position} (pos' : Position) (hthrow : ∀ c, throws c = false) {e : Event} {es : List Event}
    {ds ds' : List (Reason × Bytes)} (hopen : ctx.Open idx pos.buffered) (hnext : e.bufferAfter pos.buffered = pos'.buffered)
    (hne : e.reason ≠ .closed)
    (hds : pos.Pending → e.Undisturbed → pos'.Pending ∧ ds' = e.calls pos.buffered ++ ds)
    (ih : ∀ ctx : Context, ctx.Open idx pos'.buffered →
      ∃ ctx', run throws protocol ctx es = some ctx' ∧ Delivers idx ctx ctx' pos' es ds) :
    ∃ ctx', run throws protocol ctx (e :: es) = some ctx' ∧ Delivers idx ctx ctx' pos (e :: es) ds' := by
  obtain ⟨ctx₁, h₁, hcalls, hopen₁⟩ := protocolFunc_event protocol hthrow hopen e
  obtain ⟨ctx', hrun, ⟨cs, hcs, hgood, hreasons⟩⟩ := ih ctx₁ (hnext ▸ hopen₁ hne)
  refine ⟨ctx', ?_, ⟨e.calls pos.buffered ++ cs, ?_, ?_, ?_⟩⟩
  · simp only [run, h₁, Option.bind_eq_bind, Option.bind_some]
    exact hrun
  · rw [hcs, hcalls, List.map_append, List.append_assoc]
  · intro hpend hund
    obtain ⟨hpend', rfl⟩ := hds hpend (hund e (by simp))
    rw [hgood hpend' (fun e' he' => hund e' (List.mem_cons_of_mem e he'))]
  · rw [List.map_append, hreasons]
    by_cases hrem : e.remaining = 0 <;> simp [Event.calls, hrem]

/-- One expected delivery for each event that completes something, in the same order. -/
theorem Session.reasons {pos : Position} {es : List Event} {ds : List (Reason × Bytes)} (h : Session pos es ds) :
    ds.map Prod.fst = (es.filter Event.completes).map Event.reason := by
  induction h with
  | nil => rfl
  | whole _ ih =>
      rw [List.filter_cons_of_pos rfl]
      exact congrArg (Reason.receive :: ·) ih
  | first _ ih => exact ih
  | more _ ih => exact ih
  | last _ ih =>
      rw [List.filter_cons_of_pos rfl]
      exact congrArg (Reason.receive :: ·) ih
  | writeable _ ih =>
      rw [List.filter_cons_of_pos rfl]
      exact congrArg (Reason.serverWriteable :: ·) ih
  | closed => rfl

/-- With the last chunk of a frame nothing is outstanding. -/
theorem Session.remaining_of_final {pos : Position} {es : List Event} {ds : List (Reason × Bytes)}
    (h : Session pos es ds) : ∀ e ∈ es, e.reason = .receive → e.completes = true → e.remaining = 0 := by
  induction h with
  | nil => simp
  | whole _ ih => exact List.forall_mem_cons.mpr ⟨fun _ _ => rfl, ih⟩
  | first _ ih => exact List.forall_mem_cons.mpr ⟨fun _ h => by simp [Event.completes] at h, ih⟩
  | more _ ih => exact List.forall_mem_cons.mpr ⟨fun _ h => by simp [Event.completes] at h, ih⟩
  | last _ ih => exact List.forall_mem_cons.mpr ⟨fun _ _ => rfl, ih⟩
  | writeable _ ih => exact List.forall_mem_cons.mpr ⟨fun h => by simp [Event.reason] at h, ih⟩
  | closed => simp [Event.reason]

/-- Two tests of which one implies the other and that hold equally often agree. -/
theorem of_countP_eq {α : Type} {p q : α → Bool} : ∀ {l : List α}, (∀ x ∈ l, p x = true → q x = true) →
    l.countP p = l.countP q → ∀ x ∈ l, q x = true → p x = true
  | [], _, _ => by simp
  | x :: l, himp, heq => by
      obtain ⟨hx, hl⟩ := List.forall_mem_cons.mp himp
      have hle := List.countP_mono_left hl
      rw [List.countP_cons, List.countP_cons] at heq
      refine List.forall_mem_cons.mpr ⟨fun hq => ?_, of_countP_eq hl ?_⟩
      · by_contra hp
        rw [if_neg hp, if_pos hq] at heq
        omega
      · by_cases hp : p x = true
        · rw [if_pos hp, if_pos (hx hp)] at heq
          omega
        · rw [if_neg hp] at heq
          split at heq <;> omega

/-- Where the callbacks are as many of each kind as what is complete, nothing was disturbed. -/
theorem Session.undisturbed {pos : Position} {es : List Event} {ds : List (Reason × Bytes)} (h : Session pos es ds)
    (heq : ds.map Prod.fst = (es.filter (fun e => e.remaining = 0)).map Event.reason) : ∀ e ∈ es, e.Undisturbed := by
  have hcount : ∀ r : Reason, es.countP (fun e => e.reason == r && e.completes)
      = es.countP (fun e => e.reason == r && decide (e.remaining = 0)) := by
    intro r
    have hr := congrArg (List.count r) (h.reasons.symm.trans heq)
    simpa [List.count_eq_countP, List.countP_map, List.countP_filter, Function.comp_def] using hr
  intro e he
  cases e with
  | receive chunk remaining final =>
      intro hrem
      have := of_countP_eq (fun e he hc => ?_) (hcount .receive) _ he
        (Bool.and_eq_true_iff.mpr ⟨rfl, decide_eq_true hrem⟩)
      · exact (Bool.and_eq_true_iff.mp this).2
      · simp only [Bool.and_eq_true, beq_iff_eq, decide_eq_true_eq] at hc ⊢
        exact ⟨hc.1, h.remaining_of_final e he hc.1 hc.2⟩
  | writeable remaining =>
      have := of_countP_eq (fun e _ hc => ?_) (hcount .serverWriteable).symm _ he (by simp [Event.reason, Event.completes])
      · exact of_decide_eq_true (Bool.and_eq_true_iff.mp this).2
      · cases e <;> simp_all [Event.reason, Event.completes]
  | closed remaining =>
      have := of_countP_eq (fun e _ hc => ?_) (hcount .closed).symm _ he (by simp [Event.reason, Event.completes])
      · exact of_decide_eq_true (Bool.and_eq_true_iff.mp this).2
      · cases e <;> simp_all [Event.reason, Event.completes]

end Cclwebs
end Cclib
