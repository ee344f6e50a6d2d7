import Cclib.Lib.Runs
import Cclib.Cclhttp.Connection

/-!
# `Cclhttp.Upload` — `connection_c::upload_data`

libmicrohttpd offers the bytes of a request body that have arrived, or some of them from the front, with a call of
`connection_func`. What `*upload_data_size` says behind the call is what the application has left, and is offered again.
`upload_data` takes all that is offered and sets the size to zero, so that a second call of it in one callback gets
nothing. The first call for a request only creates the connection and takes nothing.

## Contents
- `ConnectionC.upload_data`, `ConnectionC.uploads`, `reading`.
- `Body`, `BodyEvent`, `bodyStep`.
- `uploads_eq`: the calls of `upload_data` in one callback.
- `bodyStep_spec`, `body_run`, `body_received_once`.
-/

namespace Cclib
namespace Cclhttp

/-! ## The functions -/

/-- `connection_c::upload_data` -/
def ConnectionC.upload_data (conn : ConnectionC) : Bytes × ConnectionC :=
  (conn.m_upload_data.take conn.m_upload_data_size, { conn with m_upload_data_size := 0 })

/-- `upload_data` called a number of times. -/
def ConnectionC.uploads : Nat → ConnectionC → List Bytes × ConnectionC
  | 0, conn => ([], conn)
  | n + 1, conn =>
    let (data, conn) := conn.upload_data
    let (rest, conn) := conn.uploads n
    (data :: rest, conn)

/-- A callback that calls `upload_data` so many times, and then may throw. -/
def reading (reads : Nat) (thrown : Option String) (conn : ConnectionC) : CallbackOutcome :=
  ⟨conn.m_key_value_map, conn.m_user_data, (conn.uploads reads).2.m_upload_data_size, thrown⟩

/-! ## What libmicrohttpd does -/

/-- The body of a request: what has arrived of it and is not processed, the connection, and what the calls of
    `upload_data` have returned. -/
structure Body where
  pending : Bytes
  con_cls : Option ConnectionC
  received : List Bytes

inductive BodyEvent where
  | arrive (data : Bytes)
  | call (offered reads : Nat) (thrown : Option String)

/-- Bytes arrive, or some of those pending are offered. `request` has the other arguments of `connection_func`. -/
def bodyStep (srv : ServerC) (request : Call) (s : Body) : BodyEvent → Option Body
  | .arrive data => some { s with pending := s.pending ++ data }
  | .call offered reads thrown =>
    let upload := s.pending.take offered
    let reply := connection_func srv { request with
      upload_data := upload
      upload_data_size := upload.length
      m_connection_cb := reading reads thrown } s.con_cls
    -- `*upload_data_size` behind the call; where nothing is dispatched nobody has touched it
    let left := if reply.dispatched.isSome then reply.con_cls.m_upload_data_size else upload.length
    some { s with
      pending := s.pending.drop (upload.length - left)
      con_cls := some reply.con_cls
      received := s.received ++ reply.dispatched.toList.flatMap (fun conn => (conn.uploads reads).1) }

/-- A request of whose body nothing has arrived. -/
def Body.start : Body := ⟨[], .none, []⟩

/-- What has arrived. -/
def arrivedBy (events : List BodyEvent) : Bytes :=
  events.flatMap (fun e => match e with
    | .arrive data => data
    | .call _ _ _ => [])

variable {s : Body} {conn : ConnectionC}

/-! ## One callback -/

/-- A connection of whose data nothing is left. -/
theorem uploads_of_zero (h : conn.m_upload_data_size = 0) (n : Nat) :
    (conn.uploads n).1.flatten = [] ∧ (conn.uploads n).2.m_upload_data_size = 0 := by
  induction n generalizing conn with
  | zero => exact ⟨rfl, h⟩
  | succ n ih =>
      obtain ⟨hflat, hsize⟩ := @ih { conn with m_upload_data_size := 0 } rfl
      refine ⟨?_, hsize⟩
      change (conn.m_upload_data.take conn.m_upload_data_size :: _).flatten = []
      rw [List.flatten_cons, hflat, h]
      rfl

/-- **The first call of `upload_data`** takes everything, the others in the same callback nothing. -/
theorem uploads_eq (conn : ConnectionC) (n : Nat) :
    (conn.uploads n).1.flatten = (if n = 0 then [] else conn.m_upload_data.take conn.m_upload_data_size) ∧
      (conn.uploads n).2.m_upload_data_size = if n = 0 then conn.m_upload_data_size else 0 := by
  cases n with
  | zero => exact ⟨rfl, rfl⟩
  | succ n =>
      obtain ⟨hflat, hsize⟩ := @uploads_of_zero { conn with m_upload_data_size := 0 } rfl n
      rw [if_neg (Nat.succ_ne_zero n), if_neg (Nat.succ_ne_zero n)]
      refine ⟨?_, hsize⟩
      change (conn.m_upload_data.take conn.m_upload_data_size :: _).flatten = _
      rw [List.flatten_cons, hflat, List.append_nil]

/-- What is behind the part that is offered. -/
theorem drop_offered (l : Bytes) (n : Nat) : l.drop (l.take n).length = l.drop n := by
  rw [List.length_take]
  rcases Nat.le_total n l.length with h | h
  · rw [Nat.min_eq_left h]
  · rw [Nat.min_eq_right h, List.drop_length, List.drop_eq_nil_of_le h]

/-- The first call for a request. -/
theorem bodyStep_first (srv : ServerC) (request : Call) (hcon : s.con_cls = .none) (n reads : Nat)
    (thrown : Option String) : ∃ s' conn, bodyStep srv request s (.call n reads thrown) = some s' ∧
      s'.con_cls = some conn ∧ s'.received = s.received ∧ s'.pending = s.pending := by
  refine ⟨_, _, rfl, rfl, ?_, ?_⟩
  · simp only [hcon, connection_func, Option.toList_none, List.flatMap_nil, List.append_nil]
  · simp only [hcon, connection_func, Option.isSome_none, Bool.false_eq_true, if_false, Nat.sub_self, List.drop_zero]

/-- **A later call**: what `upload_data` returns is pending no more, and it is all that is offered if it is called at
    all. -/
theorem bodyStep_call (srv : ServerC) (request : Call) (hcon : s.con_cls = some conn) (n reads : Nat)
    (thrown : Option String) : ∃ s' conn', bodyStep srv request s (.call n reads thrown) = some s' ∧
      s'.con_cls = some conn' ∧ s'.received.flatten ++ s'.pending = s.received.flatten ++ s.pending ∧
        (reads ≠ 0 → s'.pending = s.pending.drop n) := by
  let shown : ConnectionC :=
    { conn with m_upload_data := s.pending.take n, m_upload_data_size := (s.pending.take n).length }
  obtain ⟨hflat, hsize⟩ := uploads_eq shown reads
  have htake : shown.m_upload_data.take shown.m_upload_data_size = s.pending.take n := List.take_length
  rw [htake] at hflat
  -- whether the callback throws does not matter here
  have hreply : ∀ call : Call, call.upload_data = s.pending.take n →
      call.upload_data_size = (s.pending.take n).length → call.m_connection_cb = reading reads thrown →
        (connection_func srv call (some conn)).dispatched = some shown ∧
          (connection_func srv call (some conn)).con_cls.m_upload_data_size = (shown.uploads reads).2.m_upload_data_size := by
    rintro ⟨⟩ rfl rfl rfl
    cases thrown with
    | none => exact ⟨rfl, rfl⟩
    | some exc => exact ⟨rfl, rfl⟩
  obtain ⟨hdispatched, hleft⟩ := hreply { request with
    upload_data := s.pending.take n
    upload_data_size := (s.pending.take n).length
    m_connection_cb := reading reads thrown } rfl rfl rfl
  refine ⟨_, _, rfl, rfl, ?_, ?_⟩
  · simp only [hcon, hdispatched, hleft, hsize, Option.isSome_some, if_true, Option.toList_some, List.flatMap_cons,
      List.flatMap_nil, List.append_nil, List.flatten_append, hflat]
    by_cases hreads : reads = 0
    · rw [if_pos hreads, if_pos hreads, List.append_nil]
      change _ ++ s.pending.drop ((s.pending.take n).length - (s.pending.take n).length) = _
      rw [Nat.sub_self, List.drop_zero]
    · rw [if_neg hreads, if_neg hreads, Nat.sub_zero, drop_offered, List.append_assoc, List.take_append_drop]
  · intro hreads
    simp only [hcon, hdispatched, hleft, hsize, Option.isSome_some, if_true, if_neg hreads, Nat.sub_zero]
    exact drop_offered _ _

/-! ## The body -/

/-- One event: what has been returned and what is pending grows by what arrives. -/
theorem bodyStep_spec (srv : ServerC) (request : Call) (s : Body) (e : BodyEvent) :
    ∃ s', bodyStep srv request s e = some s' ∧
      s'.received.flatten ++ s'.pending = s.received.flatten ++ s.pending ++ arrivedBy [e] := by
  cases e with
  | arrive data =>
      refine ⟨_, rfl, ?_⟩
      rw [arrivedBy, List.flatMap_cons, List.flatMap_nil, List.append_nil, List.append_assoc]
  | call n reads thrown =>
      rw [arrivedBy, List.flatMap_cons, List.flatMap_nil, List.append_nil, List.append_nil]
      cases hcon : s.con_cls with
      | none =>
          obtain ⟨s', conn, hstep, -, hreceived, hpending⟩ := bodyStep_first srv request hcon n reads thrown
          exact ⟨s', hstep, by rw [hreceived, hpending]⟩
      | some conn =>
          obtain ⟨s', conn', hstep, -, hkept, -⟩ := bodyStep_call srv request hcon n reads thrown
          exact ⟨s', hstep, hkept⟩

theorem body_run (srv : ServerC) (request : Call) (events : List BodyEvent) (s : Body) :
    ∃ s', Runs.run (bodyStep srv request) s events = some s' ∧
      s'.received.flatten ++ s'.pending = s.received.flatten ++ s.pending ++ arrivedBy events := by
  induction events generalizing s with
  | nil => exact ⟨s, rfl, (List.append_nil _).symm⟩
  | cons e events ih =>
      obtain ⟨s₁, hstep, h₁⟩ := bodyStep_spec srv request s e
      obtain ⟨s', hrun, h'⟩ := ih s₁
      refine ⟨s', ?_, ?_⟩
      · rw [Runs.run, hstep]
        exact hrun
      · rw [h', h₁, List.append_assoc]
        simp only [arrivedBy, List.flatMap_cons, List.flatMap_nil, List.append_nil]

/-- **Every byte of a body is returned at most once, and in order**, however it arrives and is offered, and however
    often the application calls `upload_data`: what it has not got is still pending. And it has got all of it behind a
    callback that was offered all that was pending and called `upload_data`. -/
theorem body_received_once (srv : ServerC) (request : Call) (events : List BodyEvent) :
    ∃ s, Runs.run (bodyStep srv request) Body.start events = some s ∧
      s.received.flatten ++ s.pending = arrivedBy events ∧
      (s.con_cls ≠ .none → ∀ n reads thrown, s.pending.length ≤ n → reads ≠ 0 →
        ∃ s', bodyStep srv request s (.call n reads thrown) = some s' ∧ s'.received.flatten = arrivedBy events) := by
  obtain ⟨s, hrun, hall⟩ := body_run srv request events Body.start
  refine ⟨s, hrun, hall, fun hcon n reads thrown hn hreads => ?_⟩
  obtain ⟨conn, hcon⟩ := Option.ne_none_iff_exists'.mp hcon
  obtain ⟨s', conn', hstep, -, hkept, hpending⟩ := bodyStep_call srv request hcon n reads thrown
  refine ⟨s', hstep, ?_⟩
  rw [hpending hreads, List.drop_eq_nil_of_le hn, List.append_nil] at hkept
  rw [hkept, hall]
  rfl

end Cclhttp
end Cclib
