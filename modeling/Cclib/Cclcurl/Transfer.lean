import Cclib.Cclhttp.Upload
import Mathlib.Algebra.Group.Int.Defs
import Mathlib.Algebra.GroupWithZero.Nat

/-!
# `Cclcurl.Transfer` — the callbacks of a transfer, and a PUT from client to server

libcurl asks `cb_read_buffer` for the bytes that a request sends, as many at a time as it has room for, and hands
`cb_write_buffer` the bytes of the reply as they come. Both work on a `std::stringbuf` and do not look at `size`, which
libcurl always gives as one.

A PUT has the client's half of this library at one end and the server's at the other. Between the two there are bytes
on the way, which arrive in order and in any pieces.

## Contents
- `Stringbuf`, `cb_read_buffer`, `cb_write_buffer`.
- `Room`, `Put`, `PutEvent`, `putStep`.
- `cb_read_buffer_spec`, `cb_read_buffer_eq_zero`: what is read, and when the end is reported.
- `putStep_spec`, `put_run`, `put_delivered`.
-/

namespace Cclib
namespace Cclcurl

open Cclhttp

/-! ## The functions -/

/-- `std::stringbuf`: its characters, and how many of them have been read. -/
structure Stringbuf where
  chars : Bytes
  gptr : Nat
deriving DecidableEq

/-- `std::stringbuf{s, std::ios_base::in}` -/
def Stringbuf.of (s : Bytes) : Stringbuf := ⟨s, 0⟩

def Stringbuf.in_avail (b : Stringbuf) : Int := b.chars.length - min b.gptr b.chars.length

/-- The characters that are not read. -/
def Stringbuf.rest (b : Stringbuf) : Bytes := b.chars.drop b.gptr

def Stringbuf.sgetn (b : Stringbuf) (n : Int) : Bytes × Stringbuf :=
  (b.rest.take n.toNat, { b with gptr := b.gptr + (b.rest.take n.toNat).length })

def Stringbuf.sputn (b : Stringbuf) (s : Bytes) (n : Int) : Stringbuf := { b with chars := b.chars ++ s.take n.toNat }

/-- `static_cast<ssize_t>` of a `size_t`. -/
def ssize_t (n : Nat) : Int := if n < 2 ^ 63 then n else (n : Int) - 2 ^ 64

/-- `cb_write_buffer`; `ptr` has the bytes behind the pointer. -/
def cb_write_buffer (ptr : Bytes) (_size nmemb : Nat) (stream : Stringbuf) : Nat × Stringbuf :=
  (nmemb, stream.sputn ptr (ssize_t nmemb))

/-- `cb_read_buffer`: what it stores at the pointer, and what it returns. -/
def cb_read_buffer (_size nmemb : Nat) (stream : Stringbuf) : (Bytes × Nat) × Stringbuf :=
  let avail := stream.in_avail
  if ssize_t nmemb > avail then
    if avail > 0 then
      let (stored, stream) := stream.sgetn avail
      ((stored, avail.toNat), stream)
    else (([], avail.toNat), stream)
  else
    let (stored, stream) := stream.sgetn (ssize_t nmemb)
    ((stored, nmemb), stream)

/-! ## What libcurl and the network do -/

/-- The room that libcurl has: no array is larger. -/
abbrev Room := { nmemb : Nat // nmemb < 2 ^ 63 }

/-- A PUT: the client's buffer, the bytes on the way, and the body at the server. -/
structure Put where
  read_buffer : Stringbuf
  wire : Bytes
  body : Body

inductive PutEvent where
  | read (size : Nat) (nmemb : Room)
  | deliver (n : Nat)
  | call (offered reads : Nat) (thrown : Option String)

/-- libcurl reads and sends, some bytes from the front of the wire arrive, or the server is called. -/
def putStep (srv : ServerC) (request : Call) (s : Put) : PutEvent → Option Put
  | .read size nmemb =>
    let ((stored, count), read_buffer) := cb_read_buffer size nmemb.1 s.read_buffer
    some { s with read_buffer := read_buffer, wire := s.wire ++ stored.take count }
  | .deliver n => do
    let body ← bodyStep srv request s.body (.arrive (s.wire.take n))
    return { s with wire := s.wire.drop n, body := body }
  | .call offered reads thrown => do
    let body ← bodyStep srv request s.body (.call offered reads thrown)
    return { s with body := body }

/-- `PUT(a_url, a_data)` before anything has been read. -/
def Put.start (a_data : Bytes) : Put := ⟨Stringbuf.of a_data, [], Body.start⟩

/-- All bytes of a PUT, in order, wherever they are. -/
def Put.all (s : Put) : Bytes := s.body.received.flatten ++ s.body.pending ++ s.wire ++ s.read_buffer.rest

variable {b : Stringbuf} {s : Put}

/-! ## The read callback -/

theorem in_avail_eq (b : Stringbuf) : b.in_avail = b.rest.length := by
  unfold Stringbuf.in_avail Stringbuf.rest
  rw [List.length_drop]
  omega

theorem ssize_t_of_lt {n : Nat} (h : n < 2 ^ 63) : ssize_t n = n := by
  unfold ssize_t
  rw [if_pos h]

theorem sgetn_fst (b : Stringbuf) (n : Int) : (b.sgetn n).1 = b.rest.take n.toNat := rfl

theorem rest_sgetn (b : Stringbuf) (n : Int) : (b.sgetn n).2.rest = b.rest.drop n.toNat := by
  change b.chars.drop (b.gptr + ((b.chars.drop b.gptr).take n.toNat).length) = (b.chars.drop b.gptr).drop n.toNat
  rw [← List.drop_drop, drop_offered]

/-- **What is read** are the next characters, as many as there is room for, and their number is returned. -/
theorem cb_read_buffer_spec (size : Nat) (nmemb : Room) (b : Stringbuf) :
    (cb_read_buffer size nmemb.1 b).1 = (b.rest.take nmemb.1, (b.rest.take nmemb.1).length) ∧
      (cb_read_buffer size nmemb.1 b).2.rest = b.rest.drop nmemb.1 := by
  have hroom := ssize_t_of_lt nmemb.2
  have havail := in_avail_eq b
  unfold cb_read_buffer
  by_cases hmore : ssize_t nmemb.1 > b.in_avail
  · -- there is room for all that is left
    have hle : b.rest.length ≤ nmemb.1 := by omega
    rw [if_pos hmore, List.take_of_length_le hle, List.drop_eq_nil_of_le hle]
    by_cases hsome : b.in_avail > 0
    · rw [if_pos hsome]
      have hall : b.in_avail.toNat = b.rest.length := by omega
      refine ⟨?_, ?_⟩
      · simp only [sgetn_fst, hall, List.take_length]
      · simp only [rest_sgetn, hall, List.drop_length]
    · rw [if_neg hsome]
      have hnil : b.rest = [] := List.length_eq_zero_iff.mp (by omega)
      refine ⟨?_, hnil⟩
      rw [hnil, havail, hnil]
      rfl
  · rw [if_neg hmore]
    have hcount : (ssize_t nmemb.1).toNat = nmemb.1 := by omega
    have hlen : (b.rest.take nmemb.1).length = nmemb.1 := List.length_take_of_le (by omega)
    refine ⟨?_, ?_⟩
    · simp only [sgetn_fst, hcount, hlen]
    · simp only [rest_sgetn, hcount]

/-- **The end** is reported, to libcurl that has room, exactly when nothing is left. -/
theorem cb_read_buffer_eq_zero (size : Nat) (nmemb : Room) (hroom : nmemb.1 ≠ 0) (b : Stringbuf) :
    (cb_read_buffer size nmemb.1 b).1.2 = 0 ↔ b.rest = [] := by
  rw [(cb_read_buffer_spec size nmemb b).1, List.length_eq_zero_iff, List.take_eq_nil_iff]
  exact ⟨fun h => h.resolve_left hroom, Or.inr⟩

/-! ## The PUT -/

/-- One event: no byte is lost, doubled or moved past another. -/
theorem putStep_spec (srv : ServerC) (request : Call) (s : Put) (e : PutEvent) :
    ∃ s', putStep srv request s e = some s' ∧ s'.all = s.all := by
  cases e with
  | read size nmemb =>
      obtain ⟨hret, hrest⟩ := cb_read_buffer_spec size nmemb s.read_buffer
      refine ⟨{ s with
        read_buffer := (cb_read_buffer size nmemb.1 s.read_buffer).2
        wire := s.wire ++ (cb_read_buffer size nmemb.1 s.read_buffer).1.1.take
          (cb_read_buffer size nmemb.1 s.read_buffer).1.2 }, rfl, ?_⟩
      simp only [Put.all, hret, hrest, List.take_length, List.append_assoc, List.take_append_drop]
  | deliver n =>
      obtain ⟨body, hbody, hall⟩ := bodyStep_spec srv request s.body (.arrive (s.wire.take n))
      refine ⟨{ s with wire := s.wire.drop n, body := body }, ?_, ?_⟩
      · rw [putStep, hbody]
        rfl
      · have harrived : arrivedBy [.arrive (s.wire.take n)] = s.wire.take n := List.append_nil _
        simp only [Put.all, hall, harrived, List.append_assoc]
        rw [← List.append_assoc (s.wire.take n), List.take_append_drop]
  | call offered reads thrown =>
      obtain ⟨body, hbody, hall⟩ := bodyStep_spec srv request s.body (.call offered reads thrown)
      refine ⟨{ s with body := body }, ?_, ?_⟩
      · rw [putStep, hbody]
        rfl
      · have harrived : arrivedBy [.call offered reads thrown] = [] := rfl
        simp only [Put.all, hall, harrived, List.append_nil]

theorem put_run (srv : ServerC) (request : Call) (events : List PutEvent) (s : Put) :
    ∃ s', Runs.run (putStep srv request) s events = some s' ∧ s'.all = s.all := by
  induction events generalizing s with
  | nil => exact ⟨s, rfl, rfl⟩
  | cons e events ih =>
      obtain ⟨s₁, hstep, h₁⟩ := putStep_spec srv request s e
      obtain ⟨s', hrun, h'⟩ := ih s₁
      refine ⟨s', ?_, h'.trans h₁⟩
      rw [Runs.run, hstep]
      exact hrun

/-- **A PUT delivers what it was given**, however libcurl reads, the bytes travel and the server offers them: what the
    server's application has got is always a beginning of the data, and the rest is on its way in order. When the
    client has reported the end and nothing is on the wire, a callback that is offered all that is pending and calls
    `upload_data` has all of the data behind it. -/
theorem put_delivered (srv : ServerC) (request : Call) (a_data : Bytes) (events : List PutEvent) :
    ∃ s, Runs.run (putStep srv request) (Put.start a_data) events = some s ∧
      s.body.received.flatten ++ s.body.pending ++ s.wire ++ s.read_buffer.rest = a_data ∧
      (s.body.con_cls ≠ .none → s.wire = [] →
        ∀ (size : Nat) (nmemb : Room), nmemb.1 ≠ 0 → (cb_read_buffer size nmemb.1 s.read_buffer).1.2 = 0 →
          ∀ n reads thrown, s.body.pending.length ≤ n → reads ≠ 0 →
            ∃ s', putStep srv request s (.call n reads thrown) = some s' ∧ s'.body.received.flatten = a_data) := by
  obtain ⟨s, hrun, hall⟩ := put_run srv request events (Put.start a_data)
  refine ⟨s, hrun, hall, ?_⟩
  intro hcon hwire size nmemb hroom hend n reads thrown hn hreads
  obtain ⟨conn, hcon⟩ := Option.ne_none_iff_exists'.mp hcon
  obtain ⟨body, conn', hstep, -, hkept, hpending⟩ := bodyStep_call srv request hcon n reads thrown
  refine ⟨{ s with body := body }, ?_, ?_⟩
  · rw [putStep, hstep]
    rfl
  · have hrest := (cb_read_buffer_eq_zero size nmemb hroom s.read_buffer).mp hend
    rw [hpending hreads, List.drop_eq_nil_of_le hn, List.append_nil] at hkept
    have hdata : s.body.received.flatten ++ s.body.pending = a_data := by
      rw [Put.all, hwire, hrest, List.append_nil, List.append_nil] at hall
      exact hall
    exact hkept.trans hdata

end Cclcurl
end Cclib
