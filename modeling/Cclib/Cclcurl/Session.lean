import Cclib.Lib.Ledger
import Cclib.Cclcurl.Transfer

/-!
# `Cclcurl.Session` — requests, and the results that own their sessions

A request makes a libcurl session, sets its options and performs it. When that goes well the session and what the server
has answered belong to the `result_c` that is returned, else the session is cleaned up on the spot. A `result_c` is
moved, never copied, and its destructor cleans up the session that it still has.

What libcurl does is given from outside: whether it makes a session, which callbacks it calls while it performs one, and
how that ends.

## Contents
- `EasyOpt`, `request`, and the requests `GET`, `PUT`, `DELETE`, `HEAD`.
- `ResultC`, `InfoType`, `info`, `Client`, `Op`, `exec`.
- `callbacks_spec`: what the write buffer has after a session.
- `Kept`, `exec_kept`, `sessions_accounted`.
-/

namespace Cclib
namespace Cclcurl

open Ownership Ledgers Runs Cclhttp

def error_CURL_CANNOT_CREATE_SESSION : String := "cannot create curl session"
def error_CURL_ERROR_WHILE_PERFORMING_GET_REQUEST : String := "error while performing http get request"
def error_CURL_ERROR_WHILE_PERFORMING_PUT_REQUEST : String := "error while performing http put request"
def error_CURL_ERROR_WHILE_PERFORMING_DELETE_REQUEST : String := "error while performing http delete request"
def error_CURL_ERROR_WHILE_PERFORMING_HEAD_REQUEST : String := "error while performing http head request"
def error_CURL_RESULT_INVALID_INFO_VALUE_TYPE : String := "invalid type of curl result information value"
def error_CURL_RESULT_ERROR_WHILE_GET_INFO : String := "error while reading curl result information value"

/-! ## What libcurl does -/

/-- The options that `curl_easy_setopt` is called with; a string is read up to its first NUL. -/
inductive EasyOpt where
  | url (s : Bytes)
  | readfunction
  | readdata
  | writefunction
  | writedata
  | upload (on : Int)
  | put (on : Int)
  | infilesize_large (size : Int)
  | customrequest (s : Bytes)
  | header (on : Int)
  | nobody (on : Int)
deriving DecidableEq

/-- A callback: there is room for so many bytes, or these have come. -/
inductive Callback where
  | read (size : Nat) (nmemb : Room)
  | write (size : Nat) (ptr : { ptr : Bytes // ptr.length < 2 ^ 63 })

/-- Whether there is a session, what is called while it is performed, and whether that ends with `CURLE_OK`. -/
structure Performance where
  init : Bool
  callbacks : List Callback
  ok : Bool

/-- A callback on the read and the write buffer; libcurl calls only what it has been given. -/
def callback (opts : List EasyOpt) (buffers : Stringbuf × Stringbuf) : Callback → Option (Stringbuf × Stringbuf)
  | .read size nmemb =>
    if EasyOpt.readfunction ∈ opts then some ((cb_read_buffer size nmemb.1 buffers.1).2, buffers.2) else none
  | .write size ptr =>
    if EasyOpt.writefunction ∈ opts then some (buffers.1, (cb_write_buffer ptr.1 size ptr.1.length buffers.2).2)
    else none

/-- The callbacks one after the other. -/
def performed (opts : List EasyOpt) : Stringbuf × Stringbuf → List Callback → Option (Stringbuf × Stringbuf) :=
  run (callback opts)

/-- The bytes of the reply, as they have come. -/
def replyOf (callbacks : List Callback) : Bytes :=
  callbacks.flatMap (fun c => match c with
    | .read _ _ => []
    | .write _ ptr => ptr.1)

/-! ## The functions -/

/-- `result_c` as long as it is not moved from. -/
structure ResultC where
  m_curl_ptr : Nat
  m_data : Bytes
deriving DecidableEq

/-- What a pointer that is given to `curl_easy_getinfo` points to. -/
inductive InfoType where
  | string
  | long
  | double
deriving DecidableEq

/-- A call of `curl_easy_getinfo`: its session, the information it asks for, where that goes, and the sessions that had
    been cleaned up before. -/
structure GetInfo where
  session : Option Nat
  a_info : Nat
  type : InfoType
  cleaned : List Nat

/-- The results of the program, the reply of each session, and the calls of `curl_easy_getinfo`. -/
structure Client where
  ledger : Ledger Unit ResultC
  replies : List Bytes
  asked : List GetInfo

def Client.start : Client := ⟨Ledger.empty, [], []⟩

/-- What the four requests share. -/
def request (opts : List EasyOpt) (a_data : Bytes) (error : String) (p : Performance) (c : Client) :
    Option (Client × Option String) :=
  if p.init then do
    let curl_ptr := c.ledger.made
    let c := { c with ledger := c.ledger.make, replies := c.replies ++ [replyOf p.callbacks] }
    let buffers ← performed opts (Stringbuf.of a_data, Stringbuf.of []) p.callbacks
    if p.ok then
      return ({ c with ledger := c.ledger.hold ⟨(), some ⟨curl_ptr, buffers.2.chars⟩⟩ }, none)
    else
      return ({ c with ledger := c.ledger.giveBack curl_ptr }, some error)
  else some (c, some error_CURL_CANNOT_CREATE_SESSION)

def cString (s : Bytes) : Bytes := s.takeWhile (· ≠ 0)

def GET (a_url : Bytes) : Performance → Client → Option (Client × Option String) :=
  request [.url (cString a_url), .writefunction, .writedata] [] error_CURL_ERROR_WHILE_PERFORMING_GET_REQUEST

def PUT (a_url a_data : Bytes) : Performance → Client → Option (Client × Option String) :=
  request [.url (cString a_url), .readfunction, .readdata, .writefunction, .writedata, .upload 1, .put 1,
    .infilesize_large a_data.length] a_data error_CURL_ERROR_WHILE_PERFORMING_PUT_REQUEST

def DELETE (a_url : Bytes) : Performance → Client → Option (Client × Option String) :=
  request [.url (cString a_url), .writefunction, .writedata, .customrequest (literal "DELETE")] []
    error_CURL_ERROR_WHILE_PERFORMING_DELETE_REQUEST

def HEAD (a_url : Bytes) : Performance → Client → Option (Client × Option String) :=
  request [.url (cString a_url), .writefunction, .writedata, .header 1, .nobody 1] []
    error_CURL_ERROR_WHILE_PERFORMING_HEAD_REQUEST

/-- The move constructor: the new object has the session, and the old one has none. -/
def moved (x : Nat) (c : Client) : Option Client := do
  let os ← moveConstruct c.ledger.objects x
  return { c with ledger := { c.ledger with objects := os } }

/-- `~result_c` -/
def destroyed (x : Nat) (c : Client) : Option Client := do
  let o ← get c.ledger.objects x
  let ledger := c.ledger.drop x
  match o.handle with
  | some r => return { c with ledger := ledger.giveBack r.m_curl_ptr }
  | none => return { c with ledger := ledger }

def CURLINFO_TYPEMASK : Nat := 0xf00000

/-- `CURLINFO_STRING`, `CURLINFO_LONG` and `CURLINFO_DOUBLE`. -/
def InfoType.curlinfo : InfoType → Nat
  | .string => 0x100000
  | .long => 0x200000
  | .double => 0x300000

/-- What `info_string`, `info_long` and `info_double` share; `ok` is whether libcurl has the information. -/
def info (type : InfoType) (x a_info : Nat) (ok : Bool) (c : Client) : Option (Client × Option String) := do
  let o ← get c.ledger.objects x
  if a_info &&& CURLINFO_TYPEMASK ≠ type.curlinfo then
    return (c, some error_CURL_RESULT_INVALID_INFO_VALUE_TYPE)
  else
    let session := o.handle.map ResultC.m_curl_ptr
    -- without a session libcurl has nothing to say
    return ({ c with asked := ⟨session, a_info, type, c.ledger.back⟩ :: c.asked },
      if session.isSome ∧ ok then none else some error_CURL_RESULT_ERROR_WHILE_GET_INFO)

def info_string := info .string
def info_long := info .long
def info_double := info .double

/-! ## Runs -/

inductive Op where
  | get (a_url : Bytes) (p : Performance)
  | put (a_url a_data : Bytes) (p : Performance)
  | delete (a_url : Bytes) (p : Performance)
  | head (a_url : Bytes) (p : Performance)
  | move (x : Nat)
  | destroy (x : Nat)
  | info_string (x a_info : Nat) (ok : Bool)
  | info_long (x a_info : Nat) (ok : Bool)
  | info_double (x a_info : Nat) (ok : Bool)

/-- What an operation does, whether it throws or not. -/
def exec (c : Client) : Op → Option Client
  | .get a_url p => (GET a_url p c).map Prod.fst
  | .put a_url a_data p => (PUT a_url a_data p c).map Prod.fst
  | .delete a_url p => (DELETE a_url p c).map Prod.fst
  | .head a_url p => (HEAD a_url p c).map Prod.fst
  | .move x => moved x c
  | .destroy x => destroyed x c
  | .info_string x a_info ok => (info_string x a_info ok c).map Prod.fst
  | .info_long x a_info ok => (info_long x a_info ok c).map Prod.fst
  | .info_double x a_info ok => (info_double x a_info ok c).map Prod.fst

/-- The session and the data of an object. -/
def Client.result (c : Client) (x : Nat) : Option ResultC := (get c.ledger.objects x).bind Slot.handle

def owns (r : ResultC) : List Nat := [r.m_curl_ptr]

/-- Every session has one owner until it is cleaned up, which happens once; a result has what came in its own session;
    and libcurl is asked about sessions that are there, with a pointer of the right type. -/
structure Sound (c : Client) : Prop where
  owner : ∀ n < c.ledger.made, n ∉ c.ledger.back → ∃! x, ∃ r, c.result x = some r ∧ r.m_curl_ptr = n
  once : c.ledger.back.Nodup
  alive : ∀ x r, c.result x = some r → r.m_curl_ptr ∉ c.ledger.back
  gone : (∀ x, get c.ledger.objects x = none) → ∀ n < c.ledger.made, n ∈ c.ledger.back
  data : ∀ x r, c.result x = some r → c.replies[r.m_curl_ptr]? = some r.m_data
  asked : ∀ q ∈ c.asked, q.a_info &&& CURLINFO_TYPEMASK = q.type.curlinfo ∧ ∀ n, q.session = some n → n ∉ q.cleaned

variable {c c' : Client} {opts : List EasyOpt} {buffers buffers' : Stringbuf × Stringbuf} {x : Nat} {r : ResultC}
  {t : Option String}

/-! ## A session -/

theorem cb_write_buffer_chars (ptr : { ptr : Bytes // ptr.length < 2 ^ 63 }) (size : Nat) (b : Stringbuf) :
    (cb_write_buffer ptr.1 size ptr.1.length b).2.chars = b.chars ++ ptr.1 := by
  change b.chars ++ ptr.1.take (ssize_t ptr.1.length).toNat = _
  rw [ssize_t_of_lt ptr.2, Int.toNat_natCast, List.take_length]

/-- **The write buffer** has the reply, however often libcurl reads in between. -/
theorem callbacks_spec (callbacks : List Callback) (h : performed opts buffers callbacks = some buffers') :
    buffers'.2.chars = buffers.2.chars ++ replyOf callbacks := by
  induction callbacks generalizing buffers with
  | nil =>
      obtain rfl := Option.some.inj h
      exact (List.append_nil _).symm
  | cons e callbacks ih =>
      obtain ⟨buffers₁, hstep, hrun⟩ := Option.bind_eq_some_iff.mp h
      have hreply : replyOf (e :: callbacks) = replyOf [e] ++ replyOf callbacks := by
        unfold replyOf
        rw [← List.flatMap_append]
        rfl
      have hone : buffers₁.2.chars = buffers.2.chars ++ replyOf [e] := by
        cases e with
        | read size nmemb =>
            obtain ⟨-, hstep⟩ := Option.ite_none_right_eq_some.mp hstep
            obtain rfl := Option.some.inj hstep
            exact (List.append_nil _).symm
        | write size ptr =>
            obtain ⟨-, hstep⟩ := Option.ite_none_right_eq_some.mp hstep
            obtain rfl := Option.some.inj hstep
            have hptr : replyOf [.write size ptr] = ptr.1 := List.append_nil _
            rw [hptr]
            exact cb_write_buffer_chars ptr size buffers.2
      rw [ih hrun, hone, hreply, List.append_assoc]

/-! ## What every operation keeps -/

/-- The sessions are accounted for, each has its reply, and each result has its own. -/
structure Kept (c : Client) : Prop where
  balanced : Balanced owns c.ledger
  replies : c.replies.length = c.ledger.made
  data : ∀ x r, c.result x = some r → c.replies[r.m_curl_ptr]? = some r.m_data
  asked : ∀ q ∈ c.asked, q.a_info &&& CURLINFO_TYPEMASK = q.type.curlinfo ∧ ∀ n, q.session = some n → n ∉ q.cleaned

theorem result_eq_some : c.result x = some r ↔ get c.ledger.objects x = some ⟨(), some r⟩ := by
  unfold Client.result
  rw [Option.bind_eq_some_iff]
  constructor
  · rintro ⟨⟨⟨⟩, h⟩, hs, rfl⟩
    exact hs
  · intro hs
    exact ⟨_, hs, rfl⟩

namespace Kept

/-- A session that a result has is not cleaned up. -/
theorem alive (hc : Kept c) (hx : c.result x = some r) : r.m_curl_ptr ∉ c.ledger.back :=
  hc.balanced.once.2.2 x _ r (result_eq_some.mp hx) rfl _ (List.mem_singleton.mpr rfl)

theorem sound (hc : Kept c) : Sound c := by
  refine ⟨?_, hc.balanced.once.1, fun x r hx => hc.alive hx, hc.balanced.gone, hc.data, hc.asked⟩
  intro n hn hback
  obtain ⟨x, ⟨s, r, hs, hr, hown⟩, hunique⟩ := hc.balanced.owner hn hback
  refine ⟨x, ⟨r, Option.bind_eq_some_iff.mpr ⟨s, hs, hr⟩, (List.mem_singleton.mp hown).symm⟩, ?_⟩
  rintro y ⟨r', hy, rfl⟩
  exact hunique y ⟨_, r', result_eq_some.mp hy, rfl, List.mem_singleton.mpr rfl⟩

/-- **A request**: it fails without a session, or with one that is cleaned up, or its result has the session. -/
theorem request (hc : Kept c) {a_data : Bytes} {error : String} {p : Performance}
    (h : request opts a_data error p c = some (c', t)) : Kept c' := by
  unfold Cclcurl.request at h
  split at h
  · obtain ⟨buffers, hperformed, h⟩ := Option.bind_eq_some_iff.mp h
    have hchars := callbacks_spec p.callbacks hperformed
    have hreplies : (c.replies ++ [replyOf p.callbacks]).length = c.ledger.made + 1 := by
      rw [List.length_append, hc.replies]
      rfl
    have hold : ∀ x r, c.result x = some r → (c.replies ++ [replyOf p.callbacks])[r.m_curl_ptr]? = some r.m_data :=
      fun x r hx => (List.getElem?_append_left (List.getElem?_eq_some_iff.mp (hc.data x r hx)).1).trans (hc.data x r hx)
    split at h
    · obtain ⟨rfl, -⟩ := Prod.mk.inj (Option.some.inj h)
      refine ⟨?_, hreplies, ?_, hc.asked⟩
      · exact Accounts.hold hc.balanced.make
      · intro x r hx
        rw [result_eq_some] at hx
        change get (new c.ledger.objects _) x = _ at hx
        rw [get_new] at hx
        split at hx
        · cases hx
          change (c.replies ++ [replyOf p.callbacks])[c.ledger.made]? = some buffers.2.chars
          rw [hchars, ← hc.replies, List.getElem?_concat_length]
          rfl
        · exact hold x r (result_eq_some.mpr hx)
    · obtain ⟨rfl, -⟩ := Prod.mk.inj (Option.some.inj h)
      exact ⟨hc.balanced.make.giveBack, hreplies, hold, hc.asked⟩
  · obtain ⟨rfl, -⟩ := Prod.mk.inj (Option.some.inj h)
    exact hc

theorem moved (hc : Kept c) (h : moved x c = some c') : Kept c' := by
  obtain ⟨os, hos, h⟩ := Option.bind_eq_some_iff.mp h
  obtain rfl := Option.some.inj h
  refine ⟨Accounts.moveConstruct hc.balanced hos, hc.replies, ?_, hc.asked⟩
  intro y r hy
  rcases get_moveConstruct hos (result_eq_some.mp hy) rfl with ⟨-, hx⟩ | hy
  · exact hc.data x r (result_eq_some.mpr hx)
  · exact hc.data y r (result_eq_some.mpr hy)

theorem destroyed (hc : Kept c) (h : destroyed x c = some c') : Kept c' := by
  obtain ⟨o, ho, h⟩ := Option.bind_eq_some_iff.mp h
  have hdrop := Accounts.drop hc.balanced ho
  have hdata : ∀ y r, get (c.ledger.drop x).objects y = some ⟨(), some r⟩ → c.replies[r.m_curl_ptr]? = some r.m_data := by
    intro y r hy
    change get (destroy c.ledger.objects x) y = _ at hy
    rw [get_destroy] at hy
    split at hy
    · exact absurd hy.symm (Option.some_ne_none _)
    · exact hc.data y r (result_eq_some.mpr hy)
  cases hr : o.handle with
  | some r =>
      simp only [hr] at h hdrop
      obtain rfl := Option.some.inj h
      exact ⟨hdrop.giveBack, hc.replies, fun y r hy => hdata y r (result_eq_some.mp hy), hc.asked⟩
  | none =>
      simp only [hr] at h hdrop
      obtain rfl := Option.some.inj h
      exact ⟨hdrop, hc.replies, fun y r hy => hdata y r (result_eq_some.mp hy), hc.asked⟩

/-- **A question** changes nothing, and is asked of a session that is there or of none. -/
theorem info (hc : Kept c) {type : InfoType} {a_info : Nat} {ok : Bool} (h : info type x a_info ok c = some (c', t)) :
    Kept c' := by
  obtain ⟨o, ho, h⟩ := Option.bind_eq_some_iff.mp h
  split at h
  · obtain ⟨rfl, -⟩ := Prod.mk.inj (Option.some.inj h)
    exact hc
  · rename_i htype
    obtain ⟨rfl, -⟩ := Prod.mk.inj (Option.some.inj h)
    refine ⟨hc.balanced, hc.replies, hc.data, ?_⟩
    intro q hq
    rcases List.mem_cons.mp hq with rfl | hq
    · refine ⟨not_not.mp htype, ?_⟩
      intro n hn
      obtain ⟨r, hr, rfl⟩ := Option.map_eq_some_iff.mp hn
      exact hc.alive (Option.bind_eq_some_iff.mpr ⟨o, ho, hr⟩)
    · exact hc.asked q hq

end Kept

theorem exec_kept (hc : Kept c) {op : Op} (h : exec c op = some c') : Kept c' := by
  cases op with
  | move x => exact hc.moved h
  | destroy x => exact hc.destroyed h
  | get a_url p =>
      obtain ⟨⟨c', t⟩, hrequest, rfl⟩ := Option.map_eq_some_iff.mp h
      exact hc.request hrequest
  | put a_url a_data p =>
      obtain ⟨⟨c', t⟩, hrequest, rfl⟩ := Option.map_eq_some_iff.mp h
      exact hc.request hrequest
  | delete a_url p =>
      obtain ⟨⟨c', t⟩, hrequest, rfl⟩ := Option.map_eq_some_iff.mp h
      exact hc.request hrequest
  | head a_url p =>
      obtain ⟨⟨c', t⟩, hrequest, rfl⟩ := Option.map_eq_some_iff.mp h
      exact hc.request hrequest
  | info_string x a_info ok =>
      obtain ⟨⟨c', t⟩, hinfo, rfl⟩ := Option.map_eq_some_iff.mp h
      exact hc.info hinfo
  | info_long x a_info ok =>
      obtain ⟨⟨c', t⟩, hinfo, rfl⟩ := Option.map_eq_some_iff.mp h
      exact hc.info hinfo
  | info_double x a_info ok =>
      obtain ⟨⟨c', t⟩, hinfo, rfl⟩ := Option.map_eq_some_iff.mp h
      exact hc.info hinfo

theorem kept_start : Kept Client.start :=
  ⟨balanced_empty, rfl, fun _ _ hx => absurd (result_eq_some.mp hx).symm (Option.some_ne_none _),
    fun _ hq => absurd hq List.not_mem_nil⟩

/-- **Every session has its owner, and every result its own reply**, throughout every run of requests, moves, questions
    and destructions, whether requests fail or not. -/
theorem sessions_accounted (ops : List Op) : Throughout exec Sound Client.start ops :=
  throughout_of_step (fun _ hc => hc.sound) (fun _ _ _ hc h => exec_kept hc h) kept_start

end Cclcurl
end Cclib
