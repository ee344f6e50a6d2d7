import Cclib.Cclsys.Transfer

/-!
# `Cclsys.Datagrams` — messages from `sendto` to `recvfrom`

A datagram is sent whole by one `::sendto`, and the network may lose it, copy it, or let a later one overtake it.
`recvfrom` takes the first one that has come for its socket; it has room for 4096 bytes, and what fills the room may have
been cut off, so it throws, as it does when the address of the source has another size than it knows, and the datagram is
gone. The loop of `sendto` is not entered for an empty message: the call
returns and nothing is sent.

## Contents
- `recvfrom`; `datagramKernel`: how `::sendto` serves a datagram socket.
- `Udp`, `UdpEvent`, `udpStep`.
- `sentBy`, `Accounted`; `sendto_spec`, `recvfrom_spec`, `udpStep_accounted`, `datagrams_accounted`.
-/

namespace Cclib
namespace Cclsys

open Runs

def error_SOCKET_RECVFROM_ERROR : String := "error while receiving data from socket"
def error_SOCKET_UDP_MAX_MSG_SIZE_EXCEEDED : String := "maximal size of udp message was exceeded"

/-! ## The functions -/

/-- A message between two addresses; `addr_len` is the size of the address it comes from. -/
structure Datagram where
  source : Nat
  addr_len : Nat
  target : Nat
  bytes : StringT
deriving DecidableEq, Repr

def cUdpMaxCnt : Nat := 4096

def sizeofSockaddrIn : Nat := 16

/-- `socket_c::recvfrom`, where `::recvfrom` finds a datagram or fails: the data and the address it comes from. -/
def recvfrom (fd : FdC) (found : Option Datagram) : Except String (StringT × Nat) :=
  if fd.m_fd = -1 then .error error_SOCKET_NOT_OPENED
  else
    match found with
    | none => .error error_SOCKET_RECVFROM_ERROR
    | some d =>
      let cnt := min d.bytes.length cUdpMaxCnt
      if cnt ≥ cUdpMaxCnt then .error error_SOCKET_UDP_MAX_MSG_SIZE_EXCEEDED
      else if d.addr_len ≠ sizeofSockaddrIn then .error error_SOCKET_ADDRESS_UNKNOWN_FORMAT
      else .ok (d.bytes.take cnt, d.source)

/-- `::sendto` on a datagram socket takes the whole message or fails. -/
def datagramKernel (a_data : StringT) (fails : Bool) : Nat → WriteOutcome :=
  fun _ => if fails then .failed else .wrote a_data.length

/-! ## The network -/

/-- What is on its way and what has come; the calls of `sendto` that have ended; what `recvfrom` has returned, with the
    address of its socket; what it has thrown away; and what the network has lost and copied. -/
structure Udp where
  flight : List Datagram
  queue : List Datagram
  calls : List (Datagram × Except String Unit)
  received : List Datagram
  refused : List Datagram
  lost : List Datagram
  copies : List Datagram

def Udp.start : Udp := ⟨[], [], [], [], [], [], []⟩

inductive UdpEvent where
  | sendto (fd : FdC) (d : Datagram) (fails : Bool)
  | arrive (d : Datagram)
  | lose (d : Datagram)
  | copy (d : Datagram)
  | recvfrom (fd : FdC) (address : Nat) (fails : Bool)

def udpStep (s : Udp) : UdpEvent → Option Udp
  | .sendto fd d fails => do
    let (r, calls) ← sendto fd d.bytes (datagramKernel d.bytes fails) 0 2
    -- each `::sendto` that did not fail has sent one
    return { s with
      flight := s.flight ++ (if fails then [] else List.replicate calls d)
      calls := s.calls ++ [(d, r)] }
  | .arrive d =>
    if d ∈ s.flight then some { s with flight := s.flight.erase d, queue := s.queue ++ [d] } else none
  | .lose d => if d ∈ s.flight then some { s with flight := s.flight.erase d, lost := s.lost ++ [d] } else none
  | .copy d => if d ∈ s.flight then some { s with flight := s.flight ++ [d], copies := s.copies ++ [d] } else none
  | .recvfrom fd address fails =>
    if fd.m_fd = -1 ∨ fails then some s
    else do
      let d ← s.queue.find? (fun d => d.target = address)
      let s := { s with queue := s.queue.erase d }
      match recvfrom fd (some d) with
      | .ok (data, source) => return { s with received := s.received ++ [⟨source, d.addr_len, address, data⟩] }
      | .error _ => return { s with refused := s.refused ++ [d] }

/-! ## Accounts -/

/-- The messages of the calls of `sendto` that returned, but for the empty ones. -/
def sentBy (calls : List (Datagram × Except String Unit)) : List Datagram :=
  (calls.filter (fun call => call.2.toOption.isSome && !call.1.bytes.isEmpty)).map Prod.fst

/-- A message that `recvfrom` returns. -/
def Datagram.Kept (d : Datagram) : Prop := d.bytes.length < cUdpMaxCnt ∧ d.addr_len = sizeofSockaddrIn

/-- **Every message is accounted for.** What was sent, with the copies, is on its way, has come, was returned or thrown
    away, or is lost; nothing else is anywhere. Messages of less than 4096 bytes from an address of the known size are
    returned, all others thrown away. -/
structure Accounted (s : Udp) : Prop where
  balance : ∀ d, (sentBy s.calls).count d + s.copies.count d
    = s.flight.count d + s.queue.count d + s.received.count d + s.refused.count d + s.lost.count d
  origin : ∀ d, d ∈ s.flight ∨ d ∈ s.queue ∨ d ∈ s.received ∨ d ∈ s.copies → d ∈ sentBy s.calls
  kept : ∀ d ∈ s.received, d.Kept
  dropped : ∀ d ∈ s.refused, ¬d.Kept

variable {s s' : Udp} {d : Datagram}

theorem sentBy_append (calls calls' : List (Datagram × Except String Unit)) :
    sentBy (calls ++ calls') = sentBy calls ++ sentBy calls' := by
  rw [sentBy, List.filter_append, List.map_append]
  rfl

/-- **A call of `sendto`** ends behind one `::sendto` or none, and what it sends is its message if it is not empty. -/
theorem sendto_spec (fd : FdC) (d : Datagram) (fails : Bool) :
    ∃ r calls, sendto fd d.bytes (datagramKernel d.bytes fails) 0 2 = some (r, calls) ∧
      (if fails then [] else List.replicate calls d) = sentBy [(d, r)] := by
  unfold sendto writeAll
  by_cases hfd : fd.m_fd = -1
  · rw [if_pos hfd]
    exact ⟨_, _, rfl, by cases fails <;> rfl⟩
  rw [if_neg hfd]
  by_cases hlen : d.bytes.length > 0
  · rw [if_pos hlen]
    have hne : d.bytes.isEmpty = false := by
      rw [List.isEmpty_eq_false_iff]
      exact List.length_pos_iff.mp hlen
    cases fails with
    | true => exact ⟨_, _, Loop.run_done rfl 1, rfl⟩
    | false =>
        -- the first `::sendto` takes everything
        have hround : writeAllBody error_SOCKET_SENDTO_ERROR d.bytes.length (datagramKernel d.bytes false) (0, 0)
            = some (.inr (.ok (), 1)) := by
          simp [writeAllBody, datagramKernel]
        refine ⟨_, _, Loop.run_done hround 1, ?_⟩
        rw [sentBy, List.filter_cons_of_pos (by simp only [hne]; rfl)]
        rfl
  · rw [if_neg hlen]
    have hempty : d.bytes = [] := List.length_eq_zero_iff.mp (by omega)
    refine ⟨_, _, rfl, ?_⟩
    rw [sentBy, List.filter_cons_of_neg (by simp only [hempty]; exact Bool.false_ne_true)]
    cases fails <;> rfl

/-- **What `recvfrom` returns** is the message it finds, as it was sent; it throws exactly when it may not keep it. -/
theorem recvfrom_spec {fd : FdC} (hfd : fd.m_fd ≠ -1) (d : Datagram) :
    (d.Kept → recvfrom fd (some d) = .ok (d.bytes, d.source)) ∧
      (¬d.Kept → ∃ error, recvfrom fd (some d) = .error error) := by
  unfold recvfrom Datagram.Kept
  rw [if_neg hfd]
  constructor
  · rintro ⟨hlt, haddr⟩
    have hmin : min d.bytes.length cUdpMaxCnt = d.bytes.length := Nat.min_eq_left (Nat.le_of_lt hlt)
    simp only [hmin, if_neg (Nat.not_le.mpr hlt), List.take_length, haddr, ne_eq, not_true, if_false]
  · intro hnot
    by_cases hlt : d.bytes.length < cUdpMaxCnt
    · have haddr : d.addr_len ≠ sizeofSockaddrIn := fun haddr => hnot ⟨hlt, haddr⟩
      have hmin : min d.bytes.length cUdpMaxCnt = d.bytes.length := Nat.min_eq_left (Nat.le_of_lt hlt)
      refine ⟨error_SOCKET_ADDRESS_UNKNOWN_FORMAT, ?_⟩
      simp only [hmin, if_neg (Nat.not_le.mpr hlt), if_pos haddr]
    · have hmin : min d.bytes.length cUdpMaxCnt = cUdpMaxCnt := Nat.min_eq_right (Nat.not_lt.mp hlt)
      refine ⟨error_SOCKET_UDP_MAX_MSG_SIZE_EXCEEDED, ?_⟩
      simp only [hmin, ge_iff_le, Nat.le_refl, if_true]

theorem count_snoc (l : List Datagram) (d x : Datagram) : (l ++ [d]).count x = l.count x + [d].count x :=
  List.count_append

/-- A message that is taken out of a list was in it. -/
theorem count_taken {l : List Datagram} (h : d ∈ l) (x : Datagram) : (l.erase d).count x + [d].count x = l.count x := by
  rw [(List.perm_cons_erase h).count_eq x, List.count_cons, List.count_cons, List.count_nil, Nat.zero_add]

/-- One event. -/
theorem udpStep_accounted {e : UdpEvent} (hs : Accounted s) (h : udpStep s e = some s') : Accounted s' := by
  obtain ⟨hbalance, horigin, hkept, hdropped⟩ := hs
  cases e with
  | sendto fd d fails =>
      obtain ⟨r, calls, hcall, hsent⟩ := sendto_spec fd d fails
      simp only [udpStep, hcall, Option.bind_eq_bind, Option.bind_some, Option.pure_def, Option.some.injEq] at h
      subst h
      refine ⟨fun x => ?_, fun x hx => ?_, hkept, hdropped⟩
      · have hx := hbalance x
        simp only [sentBy_append, hsent, List.count_append]
        omega
      · simp only [sentBy_append, hsent, List.mem_append] at hx ⊢
        rcases hx with (hx | hx) | hx
        · exact .inl (horigin x (.inl hx))
        · exact .inr hx
        · exact .inl (horigin x (.inr hx))
  | arrive d =>
      obtain ⟨hmem, h⟩ := Option.ite_none_right_eq_some.mp h
      obtain rfl := Option.some.inj h
      refine ⟨fun x => ?_, fun x hx => ?_, hkept, hdropped⟩
      · have hx := hbalance x
        have htaken := count_taken hmem x
        have hput := count_snoc s.queue d x
        dsimp only
        omega
      · simp only [List.mem_append, List.mem_singleton] at hx
        rcases hx with hx | (hx | rfl) | hx
        · exact horigin x (.inl (List.mem_of_mem_erase hx))
        · exact horigin x (.inr (.inl hx))
        · exact horigin x (.inl hmem)
        · exact horigin x (.inr (.inr hx))
  | lose d =>
      obtain ⟨hmem, h⟩ := Option.ite_none_right_eq_some.mp h
      obtain rfl := Option.some.inj h
      refine ⟨fun x => ?_, fun x hx => ?_, hkept, hdropped⟩
      · have hx := hbalance x
        have htaken := count_taken hmem x
        have hput := count_snoc s.lost d x
        dsimp only
        omega
      · rcases hx with hx | hx
        · exact horigin x (.inl (List.mem_of_mem_erase hx))
        · exact horigin x (.inr hx)
  | copy d =>
      obtain ⟨hmem, h⟩ := Option.ite_none_right_eq_some.mp h
      obtain rfl := Option.some.inj h
      refine ⟨fun x => ?_, fun x hx => ?_, hkept, hdropped⟩
      · have hx := hbalance x
        have hflight := count_snoc s.flight d x
        have hput := count_snoc s.copies d x
        dsimp only
        omega
      · simp only [List.mem_append, List.mem_singleton] at hx
        rcases hx with (hx | rfl) | hx | hx | hx | rfl
        · exact horigin x (.inl hx)
        · exact horigin x (.inl hmem)
        · exact horigin x (.inr (.inl hx))
        · exact horigin x (.inr (.inr (.inl hx)))
        · exact horigin x (.inr (.inr (.inr hx)))
        · exact horigin x (.inl hmem)
  | recvfrom fd address fails =>
      simp only [udpStep] at h
      split at h
      · obtain rfl := Option.some.inj h
        exact ⟨hbalance, horigin, hkept, hdropped⟩
      · next hopen =>
        obtain ⟨d, hfind, h⟩ := Option.bind_eq_some_iff.mp h
        have hmem : d ∈ s.queue := List.mem_of_find?_eq_some hfind
        have haddress : d.target = address := by simpa using List.find?_some hfind
        obtain ⟨hreturns, hthrows⟩ := recvfrom_spec (fun hfd => hopen (.inl hfd)) d
        by_cases hd : d.Kept
        · have hs' : s' = { s with queue := s.queue.erase d, received := s.received ++ [d] } := by
            rw [hreturns hd] at h
            rw [← Option.some.inj h, ← haddress]
          subst hs'
          refine ⟨fun x => ?_, fun x hx => ?_, fun x hx => ?_, hdropped⟩
          · have hx := hbalance x
            have htaken := count_taken hmem x
            have hput := count_snoc s.received d x
            dsimp only
            omega
          · simp only [List.mem_append, List.mem_singleton] at hx
            rcases hx with hx | hx | (hx | rfl) | hx
            · exact horigin x (.inl hx)
            · exact horigin x (.inr (.inl (List.mem_of_mem_erase hx)))
            · exact horigin x (.inr (.inr (.inl hx)))
            · exact horigin x (.inr (.inl hmem))
            · exact horigin x (.inr (.inr (.inr hx)))
          · rcases List.mem_append.mp hx with hx | hx
            · exact hkept x hx
            · rwa [List.mem_singleton.mp hx]
        · have hs' : s' = { s with queue := s.queue.erase d, refused := s.refused ++ [d] } := by
            obtain ⟨error, hthrows⟩ := hthrows hd
            rw [hthrows] at h
            exact (Option.some.inj h).symm
          subst hs'
          refine ⟨fun x => ?_, fun x hx => ?_, hkept, fun x hx => ?_⟩
          · have hx := hbalance x
            have htaken := count_taken hmem x
            have hput := count_snoc s.refused d x
            dsimp only
            omega
          · rcases hx with hx | hx | hx
            · exact horigin x (.inl hx)
            · exact horigin x (.inr (.inl (List.mem_of_mem_erase hx)))
            · exact horigin x (.inr (.inr hx))
          · rcases List.mem_append.mp hx with hx | hx
            · exact hdropped x hx
            · rwa [List.mem_singleton.mp hx]

/-- **Datagrams.** Whatever the network loses, copies and reorders, in every run of calls of `sendto` and `recvfrom`
    on any sockets every message is accounted for throughout: none is returned that was not sent from that address to
    that socket with exactly these bytes, none more often than it was sent and copied, no empty one and none of 4096
    bytes or more. -/
theorem datagrams_accounted (events : List UdpEvent) : Throughout udpStep Accounted Udp.start events := by
  refine throughout_of_step (fun s hs => hs) (fun s e s' hs h => udpStep_accounted hs h) ⟨fun d => rfl, ?_, ?_, ?_⟩
  · rintro d (h | h | h | h) <;> cases h
  · intro d h
    cases h
  · intro d h
    cases h

end Cclsys
end Cclib
