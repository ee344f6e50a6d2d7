import Mathlib.Data.List.Basic

/-!
# `Cclhttp.Connection` — `server_c::connection_func`

libmicrohttpd calls `connection_func` several times for a request: the first call creates the `connection_c`, each later
one dispatches it to the application's callback. The type of the connection comes from the method: by its length first,
and by its bytes only where two methods of that length are to be told from each other. The application sees a connection
and may throw, but cannot change its type (`connection_func_type`, `dispatched_type`).

## Contents
- `CString`, `Method`, `connType`.
- `ConnectionC`, `ServerC`, `connection_func`, `dispatches`.
- `faithful_iff`: at most one type is right for a method.
- `methods_classified_iff`.
-/

namespace Cclib
namespace Cclhttp

abbrev Bytes := List UInt8

/-- A C string: what stands in front of its NUL. -/
structure CString where
  bytes : Bytes
  noNul : 0 ∉ bytes
deriving DecidableEq

/-- A string literal. -/
def literal (s : String) : Bytes := s.toList.map (fun c => UInt8.ofNat c.toNat)

inductive Method where
  | none
  | connect
  | delete
  | get
  | head
  | options
  | post
  | put
  | trace
deriving DecidableEq, Repr

/-- The name of a method. -/
def Method.name : Method → Option Bytes
  | .none => .none
  | .connect => some (literal "CONNECT")
  | .delete => some (literal "DELETE")
  | .get => some (literal "GET")
  | .head => some (literal "HEAD")
  | .options => some (literal "OPTIONS")
  | .post => some (literal "POST")
  | .put => some (literal "PUT")
  | .trace => some (literal "TRACE")

/-! ## The functions -/

def strlen (s : CString) : Nat := s.bytes.length

/-- `memcmp`: how the first bytes that differ compare. -/
def memcmp : Bytes → Bytes → Nat → Int
  | a :: s, b :: t, n + 1 => if a < b then -1 else if b < a then 1 else memcmp s t n
  | _, _, _ => 0

/-- The `switch` on the length of the method. -/
def connType (method : CString) : Method :=
  match strlen method with
  | 3 => if memcmp (literal "GET") method.bytes 3 = 0 then .get else .put
  | 4 => if memcmp (literal "HEAD") method.bytes 4 = 0 then .head else .post
  | 5 => .trace
  | 6 => .delete
  | 7 => if memcmp (literal "CONNECT") method.bytes 7 = 0 then .connect else .options
  | _ => .none

/-- `connection_c`; a pointer to something outside is a number. -/
structure ConnectionC where
  m_srv_ptr : Nat
  m_conn_type : Method
  m_conn_ptr : Nat
  m_key_value_map : List (Bytes × Bytes)
  m_user_data : Nat
  m_url : CString
  m_method : CString
  m_version : CString
  m_upload_data : Bytes
  m_upload_data_size : Nat

/-- `connection_c::type`. -/
def ConnectionC.type (conn : ConnectionC) : Method := conn.m_conn_type

/-- What the application's callback did with a connection, by its public methods, and whether it threw. -/
structure CallbackOutcome where
  m_key_value_map : List (Bytes × Bytes)
  m_user_data : Nat
  m_upload_data_size : Nat
  thrown : Option String

/-- `server_c`, at the address `self`. Its callbacks may keep a state of their own: what they do is told with each call. -/
structure ServerC where
  self : Nat
  m_exc_ptr : Option String

/-- The arguments of a call of `connection_func`, and what `m_connection_cb` does in it. -/
structure Call where
  connection : Nat
  url : CString
  method : CString
  version : CString
  upload_data : Bytes
  upload_data_size : Nat
  m_connection_cb : ConnectionC → CallbackOutcome

/-- What a call leaves behind, the connection that it dispatched, and whether it returned `MHD_YES`. -/
structure Reply where
  srv : ServerC
  con_cls : ConnectionC
  dispatched : Option ConnectionC
  mhdYes : Bool

/-- `server_c::connection_func`; `con_cls` is the object that `*con_cls` points to. -/
def connection_func (srv : ServerC) (call : Call) (con_cls : Option ConnectionC) : Reply :=
  match con_cls with
  | .none =>
    { srv := srv
      con_cls :=
        { m_srv_ptr := srv.self
          m_conn_type := connType call.method
          m_conn_ptr := call.connection
          m_key_value_map := []
          m_user_data := 0
          m_url := call.url
          m_method := call.method
          m_version := call.version
          m_upload_data := []
          m_upload_data_size := 0 }
      dispatched := .none
      mhdYes := true }
  | some conn =>
    let conn := { conn with m_upload_data := call.upload_data, m_upload_data_size := call.upload_data_size }
    let outcome := call.m_connection_cb conn
    let conn' := { conn with
      m_key_value_map := outcome.m_key_value_map
      m_user_data := outcome.m_user_data
      m_upload_data_size := outcome.m_upload_data_size }
    match outcome.thrown with
    | some exc =>
      { srv := { srv with m_exc_ptr := some exc }, con_cls := conn', dispatched := some conn, mhdYes := false }
    | .none => { srv := srv, con_cls := conn', dispatched := some conn, mhdYes := true }

/-- The connections that the calls for a request dispatch to the application. -/
def dispatches (srv : ServerC) (con_cls : Option ConnectionC) : List Call → List ConnectionC
  | [] => []
  | call :: calls =>
    let reply := connection_func srv call con_cls
    reply.dispatched.toList ++ dispatches reply.srv (some reply.con_cls) calls

/-! ## The type of a connection -/

variable {s : CString} {t : Method} {srv : ServerC} {conn : ConnectionC}

/-- The string is the name of a method. -/
def Named (s : CString) : Prop := ∃ M : Method, M.name = some s.bytes

/-- A type that says what the string says: the method it names, or `none`. -/
structure Faithful (s : CString) (t : Method) : Prop where
  named : ∀ M : Method, M ≠ .none → (t = M ↔ M.name = some s.bytes)
  other : ¬ Named s → t = .none

theorem name_injective {M M' : Method} {name : Bytes} (h : M.name = some name) (h' : M'.name = some name) : M = M' := by
  rw [← h'] at h
  cases M <;> cases M' <;> first | rfl | exact absurd h (by decide)

theorem faithful_iff : Faithful s t ↔ t.name = some s.bytes ∨ t = .none ∧ ¬ Named s := by
  constructor
  · intro h
    by_cases hs : Named s
    · obtain ⟨M, hM⟩ := hs
      have hne : M ≠ .none := by
        rintro rfl
        cases hM
      rw [(h.named M hne).mpr hM]
      exact Or.inl hM
    · exact Or.inr ⟨h.other hs, hs⟩
  · rintro (h | ⟨rfl, hs⟩)
    · refine ⟨?_, fun hs => absurd ⟨t, h⟩ hs⟩
      intro M _
      constructor
      · rintro rfl
        exact h
      · exact fun hM => name_injective h hM
    · refine ⟨?_, fun _ => rfl⟩
      intro M hM
      exact ⟨fun h => absurd h.symm hM, fun h => absurd ⟨M, h⟩ hs⟩

/-- The names of methods have three to seven bytes. -/
theorem Named.strlen (h : Named s) : 3 ≤ strlen s ∧ strlen s ≤ 7 := by
  obtain ⟨M, hM⟩ := h
  unfold Cclhttp.strlen
  cases M with
  | none => cases hM
  | _ =>
      rw [← Option.some.inj hM]
      decide

/-- A string that is a name gets its type. -/
theorem connType_of_name (h : t.name = some s.bytes) : connType s = t := by
  obtain ⟨bytes, hbytes⟩ := s
  cases t with
  | none => cases h
  | _ =>
      cases h
      rfl

/-- Every string of three to seven bytes gets the type of a method. -/
theorem connType_ne_none (h3 : 3 ≤ strlen s) (h7 : strlen s ≤ 7) : connType s ≠ .none := by
  unfold connType
  generalize strlen s = n at h3 h7 ⊢
  obtain rfl | rfl | rfl | rfl | rfl : n = 3 ∨ n = 4 ∨ n = 5 ∨ n = 6 ∨ n = 7 := by omega
  · change (if _ then _ else _) ≠ _
    split_ifs <;> nofun
  · change (if _ then _ else _) ≠ _
    split_ifs <;> nofun
  · nofun
  · nofun
  · change (if _ then _ else _) ≠ _
    split_ifs <;> nofun

/-- The other strings get none. -/
theorem connType_none (h : strlen s < 3 ∨ 7 < strlen s) : connType s = .none := by
  unfold connType
  split
  all_goals first | rfl | omega

theorem connType_faithful_iff (s : CString) :
    Faithful s (connType s) ↔ Named s ∨ strlen s < 3 ∨ 7 < strlen s := by
  rw [faithful_iff]
  constructor
  · rintro (h | ⟨h, -⟩)
    · exact Or.inl ⟨_, h⟩
    · refine Or.inr ?_
      by_contra hlen
      exact connType_ne_none (by omega) (by omega) h
  · rintro (⟨M, hM⟩ | h)
    · rw [connType_of_name hM]
      exact Or.inl hM
    · refine Or.inr ⟨connType_none h, ?_⟩
      intro hs
      have hlen := hs.strlen
      omega

/-! ## Requests -/

/-- A call for a connection keeps its type, and dispatches it with that type. -/
theorem connection_func_type (srv : ServerC) (call : Call) (conn : ConnectionC) :
    (connection_func srv call (some conn)).con_cls.type = conn.type ∧
      ∀ d ∈ (connection_func srv call (some conn)).dispatched, d.type = conn.type := by
  unfold connection_func
  simp only
  split
  all_goals
    refine ⟨rfl, ?_⟩
    rintro d ⟨⟩
    rfl

/-- Whatever is dispatched for a request has the type that its first call gave it. -/
theorem dispatched_type (calls : List Call) : ∀ d ∈ dispatches srv (some conn) calls, d.type = conn.type := by
  induction calls generalizing srv conn with
  | nil => exact fun d hd => absurd hd List.not_mem_nil
  | cons call calls ih =>
      obtain ⟨hkept, hdispatched⟩ := connection_func_type srv call conn
      intro d hd
      rw [dispatches] at hd
      rcases List.mem_append.mp hd with hd | hd
      · exact hdispatched d (Option.mem_toList.mp hd)
      · rw [ih d hd]
        exact hkept

/-- The first call for a request gives the connection the type of its method, and so does every dispatch of it. -/
def Classified (srv : ServerC) (call : Call) : Prop :=
  Faithful call.method (connection_func srv call .none).con_cls.type ∧
    ∀ later, ∀ d ∈ dispatches srv .none (call :: later), Faithful call.method d.type

/-- **Methods are classified faithfully** exactly where they are the name of one, or too short or too long for a
name. -/
theorem methods_classified_iff (srv : ServerC) (call : Call) :
    Classified srv call ↔ Named call.method ∨ strlen call.method < 3 ∨ 7 < strlen call.method := by
  rw [← connType_faithful_iff]
  refine ⟨fun h => h.1, fun h => ⟨h, ?_⟩⟩
  intro later d hd
  have htype : d.type = connType call.method := dispatched_type later d hd
  rw [htype]
  exact h

def idle : ServerC :=
  { self := 1
    m_exc_ptr := .none }

/-- A callback that does nothing, or throws. -/
def leaves (thrown : Option String) (conn : ConnectionC) : CallbackOutcome :=
  ⟨conn.m_key_value_map, conn.m_user_data, conn.m_upload_data_size, thrown⟩

/-- `LINK / HTTP/1.1` -/
def linkCall : Call :=
  { connection := 2
    url := ⟨literal "/", by decide⟩
    method := ⟨literal "LINK", by decide⟩
    version := ⟨literal "HTTP/1.1", by decide⟩
    upload_data := []
    upload_data_size := 0
    m_connection_cb := leaves .none }

/-- It reaches the application as a `POST`. -/
theorem link_is_post : (dispatches idle .none [linkCall, linkCall]).map ConnectionC.type = [.post] ∧
    ¬ Named linkCall.method ∧ ¬ ∀ srv call, Classified srv call := by
  have hnot : ¬ Named linkCall.method := by
    rintro ⟨M, hM⟩
    cases M <;> exact absurd hM (by decide)
  refine ⟨rfl, hnot, ?_⟩
  intro h
  have hnone : Method.post = .none := (h idle linkCall).1.other hnot
  cases hnone

end Cclhttp
end Cclib
