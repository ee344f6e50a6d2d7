import Cclib.Cclsys.Poll
import Mathlib.Data.FinEnum

/-!
# `Cclhttp.Polling` — `server_c::retrieve_poll_fds`

libmicrohttpd gives the descriptors it waits for as three `fd_set`s, and the largest of them. They are turned into entries
for `poll` by a loop over all descriptors up to that one. The loop runs at least once, also where nothing is set.

## Contents
- `FdSets`, `eventsOf`, `fdValue`, `collect`, `retrieve_poll_fds`.
- `Waits`, `For`; `collect_succ`: what one round finds.
- `collect_eq`, `http_polls_exactly`.
-/

namespace Cclib
namespace Cclhttp
namespace Polling

open Cclsys

def error_HTTP_SERVER_INTERNAL_ERROR : String := "internal error of http server"

/-- `fd_set`; `FD_SETSIZE` is 1024. -/
abbrev FdSet := BitVec 1024

def FD_ISSET (fd : Nat) (s : FdSet) : Bool := s.getLsbD fd

/-- What `MHD_get_fdset` leaves in the sets and in `max_fd`, which is 0 before. -/
structure FdSets where
  rs : FdSet
  ws : FdSet
  es : FdSet
  max_fd : Int
  covered : ∀ fd, FD_ISSET fd rs ∨ FD_ISSET fd ws ∨ FD_ISSET fd es → (fd : Int) ≤ max_fd

def POLLIN : Int16 := 1
def POLLOUT : Int16 := 4
def POLLERR : Int16 := 8
def POLLHUP : Int16 := 16
def POLLNVAL : Int16 := 32

/-! ## The functions -/

/-- `events` behind the three tests of a round. -/
def eventsOf (r w e : Bool) : Int16 :=
  let events : Int16 := 0
  let events := if r then events ||| POLLIN else events
  let events := if w then events ||| POLLOUT else events
  if e then events ||| (POLLERR ||| POLLHUP ||| POLLNVAL) else events

/-- `fd_value` behind them: the descriptor, or -1 if no test succeeds. -/
def fdValue (fd : Nat) (r w e : Bool) : Int :=
  let fd_value : Int := -1
  let fd_value := if r then (fd : Int) else fd_value
  let fd_value := if w then (fd : Int) else fd_value
  if e then (fd : Int) else fd_value

/-- The loop, with `n` rounds to come. -/
def collect (sets : FdSets) : Nat → Nat → List Pollfd → List Pollfd
  | _, 0, a_poll_fds => a_poll_fds
  | fd, n + 1, a_poll_fds =>
    let fd_value := fdValue fd (FD_ISSET fd sets.rs) (FD_ISSET fd sets.ws) (FD_ISSET fd sets.es)
    let events := eventsOf (FD_ISSET fd sets.rs) (FD_ISSET fd sets.ws) (FD_ISSET fd sets.es)
    collect sets (fd + 1) n (if fd_value ≠ -1 then a_poll_fds ++ [⟨fd_value, events, 0⟩] else a_poll_fds)

/-- `server_c::retrieve_poll_fds`, with the answer of `MHD_get_fdset`. -/
def retrieve_poll_fds (answer : Option FdSets) (a_poll_fds : List Pollfd) : Except String (List Pollfd) :=
  match answer with
  | none => .error error_HTTP_SERVER_INTERNAL_ERROR
  | some sets =>
    if sets.max_fd ≥ 0 then .ok (collect sets 0 (sets.max_fd.toNat + 1) a_poll_fds) else .ok a_poll_fds

variable {sets : FdSets} {fd : Nat} {p : Pollfd}

/-! ## One round -/

/-- libmicrohttpd waits for something on the descriptor. -/
def Waits (sets : FdSets) (fd : Nat) : Prop := FD_ISSET fd sets.rs ∨ FD_ISSET fd sets.ws ∨ FD_ISSET fd sets.es

/-- The events of a set, for a descriptor that may be in it. -/
def inSet (n : Nat) (s : FdSet) (events : Int16) : Int16 := if FD_ISSET n s then events else 0

/-- An entry for a descriptor, with the events of all sets it is in and no others. -/
structure For (sets : FdSets) (n : Nat) (p : Pollfd) : Prop where
  fd : p.fd = n
  events : p.events = inSet n sets.rs POLLIN ||| inSet n sets.ws POLLOUT |||
    inSet n sets.es (POLLERR ||| POLLHUP ||| POLLNVAL)
  revents : p.revents = 0

/-- The three tests put the events of the sets together. -/
theorem eventsOf_spec : ∀ r w e : Bool, eventsOf r w e =
    (if r then POLLIN else 0) ||| (if w then POLLOUT else 0) ||| (if e then POLLERR ||| POLLHUP ||| POLLNVAL else 0) := by
  decide

theorem fdValue_spec (fd : Nat) (r w e : Bool) : fdValue fd r w e = if r ∨ w ∨ e then (fd : Int) else -1 := by
  cases r <;> cases w <;> cases e <;> rfl

/-- **One round** of the loop. -/
theorem collect_succ (sets : FdSets) (fd n : Nat) (a_poll_fds : List Pollfd) :
    (¬ Waits sets fd ∧ collect sets fd (n + 1) a_poll_fds = collect sets (fd + 1) n a_poll_fds) ∨
      ∃ p, Waits sets fd ∧ For sets fd p ∧
        collect sets fd (n + 1) a_poll_fds = collect sets (fd + 1) n (a_poll_fds ++ [p]) := by
  have hevents := eventsOf_spec (FD_ISSET fd sets.rs) (FD_ISSET fd sets.ws) (FD_ISSET fd sets.es)
  have hvalue := fdValue_spec fd (FD_ISSET fd sets.rs) (FD_ISSET fd sets.ws) (FD_ISSET fd sets.es)
  simp only [collect]
  by_cases hwaits : Waits sets fd
  · have hfd : fdValue fd (FD_ISSET fd sets.rs) (FD_ISSET fd sets.ws) (FD_ISSET fd sets.es) = fd :=
      hvalue.trans (if_pos hwaits)
    have hne : (fd : Int) ≠ -1 := by omega
    refine Or.inr ⟨⟨fd, eventsOf (FD_ISSET fd sets.rs) (FD_ISSET fd sets.ws) (FD_ISSET fd sets.es), 0⟩, hwaits,
      ⟨rfl, hevents, rfl⟩, ?_⟩
    rw [hfd, if_pos hne]
  · have hfd : fdValue fd (FD_ISSET fd sets.rs) (FD_ISSET fd sets.ws) (FD_ISSET fd sets.es) = -1 :=
      hvalue.trans (if_neg hwaits)
    exact Or.inl ⟨hwaits, by rw [hfd, if_neg (not_not.mpr rfl)]⟩

/-! ## The loop -/

/-- What the loop appends. -/
theorem collect_eq (sets : FdSets) (n : Nat) : ∀ (fd : Nat) (a_poll_fds : List Pollfd), ∃ entries,
    collect sets fd n a_poll_fds = a_poll_fds ++ entries ∧ entries.Pairwise (fun p q => p.fd < q.fd) ∧
      (∀ p ∈ entries, ∃ fd', fd ≤ fd' ∧ fd' < fd + n ∧ Waits sets fd' ∧ For sets fd' p) ∧
      ∀ fd', fd ≤ fd' → fd' < fd + n → Waits sets fd' → ∃ p ∈ entries, For sets fd' p := by
  induction n with
  | zero =>
      intro fd a_poll_fds
      refine ⟨[], (List.append_nil _).symm, List.Pairwise.nil, fun _ hp => absurd hp List.not_mem_nil, ?_⟩
      intro fd' hle hlt
      omega
  | succ n ih =>
      intro fd a_poll_fds
      rcases collect_succ sets fd n a_poll_fds with ⟨hwaits, hstep⟩ | ⟨p, hwaits, hfor, hstep⟩
      · obtain ⟨entries, heq, hsorted, hsound, hcomplete⟩ := ih (fd + 1) a_poll_fds
        refine ⟨entries, hstep.trans heq, hsorted, ?_, ?_⟩
        · intro p hp
          obtain ⟨fd', hle, hlt, h⟩ := hsound p hp
          exact ⟨fd', by omega, by omega, h⟩
        · intro fd' hle hlt hwaits'
          have hne : fd' ≠ fd := by
            rintro rfl
            exact hwaits hwaits'
          exact hcomplete fd' (by omega) (by omega) hwaits'
      · obtain ⟨entries, heq, hsorted, hsound, hcomplete⟩ := ih (fd + 1) (a_poll_fds ++ [p])
        refine ⟨p :: entries, ?_, ?_, ?_, ?_⟩
        · rw [hstep, heq, List.append_assoc]
          rfl
        · -- the descriptors of later rounds are larger
          refine List.pairwise_cons.mpr ⟨?_, hsorted⟩
          intro q hq
          obtain ⟨fd', hle, -, -, hq⟩ := hsound q hq
          rw [hfor.fd, hq.fd]
          omega
        · intro q hq
          rcases List.mem_cons.mp hq with rfl | hq
          · exact ⟨fd, Nat.le_refl _, by omega, hwaits, hfor⟩
          · obtain ⟨fd', hle, hlt, h⟩ := hsound q hq
            exact ⟨fd', by omega, by omega, h⟩
        · intro fd' hle hlt hwaits'
          by_cases heq : fd' = fd
          · subst heq
            exact ⟨p, List.mem_cons_self, hfor⟩
          · obtain ⟨q, hq, h⟩ := hcomplete fd' (by omega) (by omega) hwaits'
            exact ⟨q, List.mem_cons_of_mem _ hq, h⟩

/-- **What is polled for the server**: for whatever sets libmicrohttpd gives there is one entry behind those that are there
    for each descriptor in one of them, in ascending order, and it asks for the events of the sets the descriptor is in
    and for no others. -/
theorem http_polls_exactly (sets : FdSets) (a_poll_fds : List Pollfd) : ∃ entries,
    retrieve_poll_fds (some sets) a_poll_fds = .ok (a_poll_fds ++ entries) ∧
      entries.Pairwise (fun p q => p.fd < q.fd) ∧
      (∀ p ∈ entries, ∃ fd, Waits sets fd ∧ For sets fd p) ∧
      ∀ fd, Waits sets fd → ∃ p ∈ entries, For sets fd p := by
  unfold retrieve_poll_fds
  by_cases hmax : sets.max_fd ≥ 0
  · obtain ⟨entries, heq, hsorted, hsound, hcomplete⟩ := collect_eq sets (sets.max_fd.toNat + 1) 0 a_poll_fds
    refine ⟨entries, ?_, hsorted, ?_, ?_⟩
    · simp only [if_pos hmax, heq]
    · intro p hp
      obtain ⟨fd, -, -, h⟩ := hsound p hp
      exact ⟨fd, h⟩
    · intro fd hwaits
      have hle := sets.covered fd hwaits
      exact hcomplete fd (Nat.zero_le _) (by omega) hwaits
  · refine ⟨[], ?_, List.Pairwise.nil, fun _ hp => absurd hp List.not_mem_nil, ?_⟩
    · simp only [if_neg hmax, List.append_nil]
    · intro fd hwaits
      have hle := sets.covered fd hwaits
      omega

end Polling
end Cclhttp
end Cclib
