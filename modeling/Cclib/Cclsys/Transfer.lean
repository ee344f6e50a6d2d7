import Cclib.Cclsys.Fd
import Cclib.Lib.Runs

/-!
# `Cclsys.Transfer` — from `fd_c::write` to `fd_c::read`

`fd_c::write` calls `::write` until all of the data is written, however much each call takes, and `socket_c::sendto` does
the same with `::sendto`. Here a program writes into a pipe and another reads from it, and the system calls of the two
come in any order: a call of `write` or `read` is a number of them, with those of the other program in between.

## Contents
- `WriteOutcome`, `writeAllBody`, `writeAll`, `fdWrite`, `sendto`.
- `Pipe`, `PipeEvent`, `pipeStep`.
- `SentBy`, `Delivered`; `sysWrite_spec`, `sysRead_spec`: what a system call of either program does.
- `pipe_delivers_iff`.
-/

namespace Cclib
namespace Cclsys

open Runs

def error_FD_WRITE_ERROR : String := "error while writing to file descriptor"
def error_SOCKET_SENDTO_ERROR : String := "error while sending data to address"

/-! ## The functions -/

/-- What a `::write` does: it takes some bytes from the front of the data, or fails with -1. -/
inductive WriteOutcome where
  | wrote (cnt : Nat)
  | failed

def WriteOutcome.cnt : WriteOutcome → Nat
  | .wrote cnt => cnt
  | .failed => 0

/-- One round of the loop: the number of the next system call, and `writed`. -/
def writeAllBody (error : String) (length : Nat) (kernel : Nat → WriteOutcome) :
    Loop.Body (Nat × Nat) (Except String Unit × Nat)
  | (n, writed) =>
    match kernel n with
    | .failed => some (.inr (.error error, n + 1))
    | .wrote cnt =>
      if writed + cnt < length then some (.inl (n + 1, writed + cnt)) else some (.inr (.ok (), n + 1))

/-- What `fd_c::write` and `socket_c::sendto` share: the result, and the number of the next system call. -/
def writeAll (notOpened error : String) (fd : FdC) (a_data : StringT) (kernel : Nat → WriteOutcome) (n fuel : Nat) :
    Option (Except String Unit × Nat) :=
  if fd.m_fd = -1 then some (.error notOpened, n)
  else if a_data.length > 0 then Loop.run (writeAllBody error a_data.length kernel) fuel (n, 0)
  else some (.ok (), n)

/-- `fd_c::write` -/
def fdWrite := writeAll error_FD_NOT_OPENED error_FD_WRITE_ERROR

/-- `socket_c::sendto` -/
def sendto := writeAll error_SOCKET_NOT_OPENED error_SOCKET_SENDTO_ERROR

/-! ## A pipe between two programs -/

/-- The bytes in the pipe, and all that the kernel has ever taken; the call of `write` that runs, with its `writed`, and
    those that have ended; the call of `read` that runs, with its `result`, and those that have ended. -/
structure Pipe where
  bytes : StringT
  sent : StringT
  writing : Option (StringT × Nat)
  written : List (StringT × Except String Unit)
  reading : Option StringT
  reads : List (Except String StringT)

def Pipe.start : Pipe := ⟨[], [], none, [], none, []⟩

/-- A call begins, or the kernel serves a system call of the one that runs. -/
inductive PipeEvent where
  | write (fd : FdC) (a_data : StringT)
  | sysWrite (outcome : WriteOutcome)
  | read (fd : FdC)
  | sysRead (n : Option Nat)

/-- What a `::read` finds in the pipe; without a number it fails. -/
def Pipe.outcome (s : Pipe) : Option Nat → ReadOutcome
  | some n => .delivered (s.bytes.take (min n cBufferAdd)) (by
      rw [List.length_take]
      exact Nat.le_trans (Nat.min_le_left _ _) (Nat.min_le_right _ _))
  | none => .failed

def pipeStep (s : Pipe) : PipeEvent → Option Pipe
  | .write fd a_data =>
    if s.writing.isSome then none
    else if fd.m_fd = -1 then some { s with written := s.written ++ [(a_data, .error error_FD_NOT_OPENED)] }
    else if a_data.length > 0 then some { s with writing := some (a_data, 0) }
    else some { s with written := s.written ++ [(a_data, .ok ())] }
  | .sysWrite outcome => do
    let call ← s.writing
    -- the kernel takes no more than it is given
    if outcome.cnt ≤ call.1.length - call.2 then
      let taken := (call.1.drop call.2).take outcome.cnt
      let round ← writeAllBody error_FD_WRITE_ERROR call.1.length (fun _ => outcome) (0, call.2)
      let s := { s with bytes := s.bytes ++ taken, sent := s.sent ++ taken }
      match round with
      | .inl (_, writed) => return { s with writing := some (call.1, writed) }
      | .inr (r, _) => return { s with writing := none, written := s.written ++ [(call.1, r)] }
    else none
  | .read fd =>
    if s.reading.isSome then none
    else if fd.m_fd = -1 then some { s with reads := s.reads ++ [.error error_FD_NOT_OPENED] }
    else some { s with reading := some [] }
  | .sysRead n => do
    let result ← s.reading
    let round ← fdReadBody (fun _ => s.outcome n) (0, result)
    let s := { s with bytes := s.bytes.drop (s.outcome n).bytes.length }
    match round with
    | .inl (_, result) => return { s with reading := some result }
    | .inr (r, _) => return { s with reading := none, reads := s.reads ++ [r] }

/-- What the kernel has taken of the call of `write` that runs. -/
def Pipe.current (s : Pipe) : StringT := s.writing.elim [] (fun call => call.1.take call.2)

/-- The kernel has taken the data of the calls of `write` in order: all of a call that returned, a part from the front
    of one that threw. -/
def SentBy (s : Pipe) : Prop := ∃ parts, s.sent = parts.flatten ++ s.current ∧
  List.Forall₂ (fun (call : StringT × Except String Unit) part => part <+: call.1 ∧ (call.2 = .ok () → part = call.1))
    s.written parts

/-- What was taken has been returned by `read`, is in the `result` of the call that runs, or is in the pipe. -/
def Delivered (s : Pipe) : Prop := returned s.reads ++ s.reading.getD [] ++ s.bytes = s.sent

/-- No `::read` fails while the call of `read` has something already. -/
def Patient (s : Pipe) : PipeEvent → Prop
  | .sysRead none => s.reading.getD [] = []
  | _ => True

variable {s s' : Pipe} {a_data result : StringT} {writed : Nat} {outcome : WriteOutcome} {n : Option Nat}

/-! ## The system calls -/

theorem returned_append (rs rs' : List (Except String StringT)) : returned (rs ++ rs') = returned rs ++ returned rs' :=
  List.flatMap_append

theorem returned_singleton (r : Except String StringT) : returned [r] = r.toOption.getD [] := List.append_nil _

/-- The bytes of a `::read` come from the front of the pipe. -/
theorem outcome_append (s : Pipe) (n : Option Nat) : (s.outcome n).bytes ++ s.bytes.drop (s.outcome n).bytes.length = s.bytes := by
  cases n with
  | none => rfl
  | some n => exact List.prefix_iff_eq_append.mp (List.take_prefix _ _)

/-- A `::read` of a running call: what it gives is kept or returned, and where it fails what the call had is gone. -/
theorem sysRead_spec (hs : s.reading = some result) (h : pipeStep s (.sysRead n) = some s') :
    s'.sent = s.sent ∧ s'.writing = s.writing ∧ s'.written = s.written ∧
      returned s'.reads ++ s'.reading.getD [] ++ s'.bytes =
        returned s.reads ++ (if n = none then [] else result) ++ s.bytes := by
  simp only [pipeStep, hs, Option.bind_eq_bind, Option.bind_some] at h
  have hbytes := outcome_append s n
  by_cases hfull : Full (s.outcome n)
  · have hround : fdReadBody (fun _ => s.outcome n) (0, result) = some (.inl (1, result ++ (s.outcome n).bytes)) :=
      @fdReadBody_full (fun _ => s.outcome n) 0 hfull result
    simp only [hround, Option.bind_some] at h
    obtain rfl := Option.some.inj h
    refine ⟨rfl, rfl, rfl, ?_⟩
    have hsome : n ≠ none := by
      rintro rfl
      exact not_full_failed hfull
    rw [if_neg hsome, Option.getD_some, List.append_assoc, List.append_assoc, hbytes, ← List.append_assoc]
  · have hround := @fdReadBody_last (fun _ => s.outcome n) 0 hfull result
    simp only [hround, Option.bind_some] at h
    obtain rfl := Option.some.inj h
    refine ⟨rfl, rfl, rfl, ?_⟩
    rw [Option.getD_none, List.append_nil, returned_append, returned_singleton, List.append_assoc, List.append_assoc]
    congr 1
    cases n with
    | none => rfl
    | some n =>
        rw [if_neg (Option.some_ne_none n)]
        change result ++ (s.outcome (some n)).bytes ++ _ = _
        rw [List.append_assoc, hbytes]

/-- A `::write` of a running call: the kernel has more of its data, and where the call returns it has all. -/
theorem sysWrite_spec (hs : s.writing = some (a_data, writed))
    (h : pipeStep s (.sysWrite outcome) = some s') : ∃ taken, s'.bytes = s.bytes ++ taken ∧ s'.sent = s.sent ++ taken ∧
      s'.reading = s.reading ∧ s'.reads = s.reads ∧
      ((∃ writed', s'.writing = some (a_data, writed') ∧ writed' < a_data.length ∧ s'.written = s.written ∧
          a_data.take writed ++ taken = a_data.take writed') ∨
        (∃ r, s'.writing = none ∧ s'.written = s.written ++ [(a_data, r)] ∧ a_data.take writed ++ taken <+: a_data ∧
          (r = .ok () → a_data.take writed ++ taken = a_data))) := by
  simp only [pipeStep, hs, Option.bind_eq_bind, Option.bind_some] at h
  obtain ⟨hcnt, h⟩ := Option.ite_none_right_eq_some.mp h
  have htake : a_data.take writed ++ (a_data.drop writed).take outcome.cnt = a_data.take (writed + outcome.cnt) :=
    List.take_add.symm
  cases outcome with
  | failed =>
      simp only [writeAllBody, Option.bind_some] at h
      obtain rfl := Option.some.inj h
      refine ⟨_, rfl, rfl, rfl, rfl, Or.inr ⟨_, rfl, rfl, ?_, fun h => by cases h⟩⟩
      rw [htake]
      exact List.take_prefix _ _
  | wrote cnt =>
      simp only [writeAllBody] at h
      split at h
      · rename_i hmore
        obtain rfl := Option.some.inj h
        exact ⟨_, rfl, rfl, rfl, rfl, Or.inl ⟨_, rfl, hmore, rfl, htake⟩⟩
      · rename_i hall
        obtain rfl := Option.some.inj h
        refine ⟨_, rfl, rfl, rfl, rfl, Or.inr ⟨_, rfl, rfl, ?_, fun _ => ?_⟩⟩
        · rw [htake]
          exact List.take_prefix _ _
        · rw [htake]
          exact List.take_of_length_le (Nat.not_lt.mp hall)

/-! ## Runs -/

/-- A call of `write` that runs is not done. -/
structure Flowing (s : Pipe) : Prop where
  sentBy : SentBy s
  delivered : Delivered s
  running : ∀ a_data writed, s.writing = some (a_data, writed) → writed < a_data.length

theorem flowing_start : Flowing Pipe.start where
  sentBy := ⟨[], rfl, .nil⟩
  delivered := rfl
  running := fun _ _ h => absurd h.symm (Option.some_ne_none _)

/-- A call of `write` that ends without a system call. -/
theorem SentBy.ended (h : SentBy s) {call : StringT × Except String Unit}
    (hcall : call.2 = .ok () → call.1 = []) : SentBy { s with written := s.written ++ [call] } := by
  obtain ⟨parts, hsent, hparts⟩ := h
  refine ⟨parts ++ [[]], ?_, ?_⟩
  · rw [List.flatten_concat, List.append_nil]
    exact hsent
  · exact List.rel_append hparts (.cons ⟨List.nil_prefix, fun hok => (hcall hok).symm⟩ .nil)

theorem current_eq (hs : s.writing = some (a_data, writed)) : s.current = a_data.take writed := by
  rw [Pipe.current, hs]
  rfl

theorem current_none (hs : s.writing = none) : s.current = [] := by
  rw [Pipe.current, hs]
  rfl

/-- A call of `write`: it starts, throws at once, or has nothing to write. -/
theorem Flowing.write (hs : Flowing s) {fd : FdC} {a_data : StringT} (he : pipeStep s (.write fd a_data) = some s') :
    SentBy s' ∧ (∀ a_data writed, s'.writing = some (a_data, writed) → writed < a_data.length) ∧ Delivered s' := by
  obtain ⟨hidle, he⟩ := Option.ite_none_left_eq_some.mp he
  have hnone : s.writing = none := Option.not_isSome_iff_eq_none.mp hidle
  split at he
  · obtain rfl := Option.some.inj he
    exact ⟨hs.sentBy.ended (fun h => by cases h), hs.running, hs.delivered⟩
  · split at he
    · rename_i hlen
      obtain rfl := Option.some.inj he
      refine ⟨?_, ?_, hs.delivered⟩
      · obtain ⟨parts, hsent, hparts⟩ := hs.sentBy
        rw [current_none hnone] at hsent
        exact ⟨parts, hsent, hparts⟩
      · intro a_data' writed' h
        cases h
        exact hlen
    · rename_i hlen
      obtain rfl := Option.some.inj he
      refine ⟨hs.sentBy.ended (fun _ => ?_), hs.running, hs.delivered⟩
      exact List.length_eq_zero_iff.mp (Nat.eq_zero_of_not_pos hlen)

/-- A `::write`: what the kernel takes comes behind what it had taken. -/
theorem Flowing.sysWrite (hs : Flowing s) {outcome : WriteOutcome} (he : pipeStep s (.sysWrite outcome) = some s') :
    SentBy s' ∧ (∀ a_data writed, s'.writing = some (a_data, writed) → writed < a_data.length) ∧ Delivered s' := by
  obtain ⟨⟨a_data, writed⟩, hcall, -⟩ := Option.bind_eq_some_iff.mp he
  obtain ⟨parts, hsent, hparts⟩ := hs.sentBy
  rw [current_eq hcall] at hsent
  obtain ⟨taken, hbytes, hsent', hreading, hreads, hcase⟩ := sysWrite_spec hcall he
  have hdelivered : Delivered s' := by
    unfold Delivered
    rw [hreads, hreading, hbytes, hsent', ← List.append_assoc, hs.delivered]
  rcases hcase with ⟨writed', hw, hlt', hwritten, htaken⟩ | ⟨r, hw, hwritten, hbegins, hok⟩
  · refine ⟨⟨parts, ?_, hwritten ▸ hparts⟩, ?_, hdelivered⟩
    · rw [hsent', hsent, current_eq hw, List.append_assoc, htaken]
    · intro a_data' writed'' h
      rw [hw] at h
      cases h
      exact hlt'
  · refine ⟨⟨parts ++ [a_data.take writed ++ taken], ?_, ?_⟩, ?_, hdelivered⟩
    · rw [hsent', hsent, current_none hw, List.flatten_concat, List.append_nil, List.append_assoc]
    · rw [hwritten]
      exact List.rel_append hparts (.cons ⟨hbegins, hok⟩ .nil)
    · intro a_data' writed'' h
      rw [hw] at h
      exact absurd h.symm (Option.some_ne_none _)

/-- A call of `read`: it starts, or throws at once. -/
theorem Flowing.read (hs : Flowing s) {fd : FdC} (he : pipeStep s (.read fd) = some s') :
    SentBy s' ∧ (∀ a_data writed, s'.writing = some (a_data, writed) → writed < a_data.length) ∧ Delivered s' := by
  obtain ⟨hidle, he⟩ := Option.ite_none_left_eq_some.mp he
  have hnone : s.reading = none := Option.not_isSome_iff_eq_none.mp hidle
  have hdelivered := hs.delivered
  unfold Delivered at hdelivered
  rw [hnone] at hdelivered
  split at he
  · obtain rfl := Option.some.inj he
    refine ⟨hs.sentBy, hs.running, ?_⟩
    unfold Delivered
    rw [hnone, returned_append, returned_singleton]
    change returned s.reads ++ [] ++ [] ++ s.bytes = s.sent
    rw [List.append_nil]
    exact hdelivered
  · obtain rfl := Option.some.inj he
    exact ⟨hs.sentBy, hs.running, hdelivered⟩

/-- A `::read`: only one that fails loses what its call has read. -/
theorem Flowing.sysRead (hs : Flowing s) {n : Option Nat} (he : pipeStep s (.sysRead n) = some s') :
    SentBy s' ∧ (∀ a_data writed, s'.writing = some (a_data, writed) → writed < a_data.length) ∧
      (Delivered s' ↔ Patient s (.sysRead n)) := by
  obtain ⟨result, hreading, -⟩ := Option.bind_eq_some_iff.mp he
  obtain ⟨hsent, hwriting, hwritten, hflow⟩ := sysRead_spec hreading he
  refine ⟨?_, ?_, ?_⟩
  · obtain ⟨parts, hparts⟩ := hs.sentBy
    refine ⟨parts, ?_⟩
    rw [hsent, hwritten, Pipe.current, hwriting]
    exact hparts
  · rw [hwriting]
    exact hs.running
  · have hdelivered := hs.delivered
    unfold Delivered at hdelivered ⊢
    rw [hflow, hsent, ← hdelivered, hreading, Option.getD_some]
    cases n with
    | some n => exact iff_of_true rfl trivial
    | none =>
        change _ ↔ s.reading.getD [] = []
        rw [hreading, Option.getD_some, if_pos rfl, List.append_left_inj, List.append_right_inj]
        exact eq_comm

/-- **One event**: it keeps everything, unless a `::read` fails while something has been read. -/
theorem pipeStep_flowing (hs : Flowing s) {e : PipeEvent} (he : pipeStep s e = some s') :
    SentBy s' ∧ (∀ a_data writed, s'.writing = some (a_data, writed) → writed < a_data.length) ∧
      (Delivered s' ↔ Patient s e) := by
  cases e with
  | write fd a_data =>
      obtain ⟨hsent, hrunning, hdelivered⟩ := hs.write he
      exact ⟨hsent, hrunning, iff_of_true hdelivered trivial⟩
  | sysWrite outcome =>
      obtain ⟨hsent, hrunning, hdelivered⟩ := hs.sysWrite he
      exact ⟨hsent, hrunning, iff_of_true hdelivered trivial⟩
  | read fd =>
      obtain ⟨hsent, hrunning, hdelivered⟩ := hs.read he
      exact ⟨hsent, hrunning, iff_of_true hdelivered trivial⟩
  | sysRead n => exact hs.sysRead he

/-- **What is written into the pipe comes out of it**, throughout every run of both programs, exactly when no `::read`
    fails while its call has read something: what `read` has returned, has in hand and can still read is what the
    kernel took from the calls of `write`, in order, all of those that returned and a part of those that threw. -/
theorem pipe_delivers_iff (events : List PipeEvent) :
    Throughout pipeStep (fun s => SentBy s ∧ Delivered s) Pipe.start events ↔ Along pipeStep Patient Pipe.start events := by
  refine throughout_iff_along (fun s hs => ⟨hs.sentBy, hs.delivered⟩) ?_ ?_ flowing_start
  · intro s e s' hs hgood he
    obtain ⟨hsent, hrunning, hdelivered⟩ := pipeStep_flowing hs he
    exact ⟨hsent, hdelivered.mpr hgood, hrunning⟩
  · intro s e s' hs he hP
    exact (pipeStep_flowing hs he).2.2.mp hP.2

end Cclsys
end Cclib
