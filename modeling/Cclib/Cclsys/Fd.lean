import Cclib.Cclsys.Stream
import Mathlib.Data.Nat.Find

/-!
# `Cclsys.Fd` — `fd_c::read`

A call of `fd_c::read` takes chunks of 1024 bytes from the kernel until one is not full. The kernel is a parameter: the
outcome of the `n`-th `::read`. A call that fails behind full chunks throws, and what it has read is gone with its
`result`; every other call returns what it has read (`call_spec`).

## Contents
- `ReadOutcome`, `FdC`, `fdRead`, `Calls`.
- `fdReadBody_full`, `fdReadBody_last`: a round of the loop.
- `call_spec`, `call_exists`: what a call takes, and what it returns.
- `reads_lose_nothing_iff`.
-/

namespace Cclib
namespace Cclsys

def error_FD_NOT_OPENED : String := "file descriptor is not opened"
def error_FD_READ_ERROR : String := "error while reading from file descriptor"

/-- `c_buffer_add`. -/
def cBufferAdd : Nat := 1024

/-- What a `::read` into a buffer of `cBufferAdd` bytes does: it delivers at most as many, or fails with -1. -/
inductive ReadOutcome where
  | delivered (data : StringT) (h : data.length ≤ cBufferAdd)
  | failed

/-- The bytes that the kernel delivered. -/
def ReadOutcome.bytes : ReadOutcome → StringT
  | .delivered data _ => data
  | .failed => []

/-- `fd_c`. -/
structure FdC where
  m_fd : Int
deriving DecidableEq, Repr

/-! ## The functions -/

/-- `std::string::resize`. -/
def resize (s : StringT) (n : Nat) : StringT := s.take n ++ List.replicate (n - s.length) 0

/-- A string after bytes were written into it from a position on. -/
def overwrite (s : StringT) (pos : Nat) (data : StringT) : StringT := s.take pos ++ data ++ s.drop (pos + data.length)

/-- One round of the loop of `fd_c::read`: the number of the next `::read`, and `result`. -/
def fdReadBody (kernel : Nat → ReadOutcome) : Loop.Body (Nat × StringT) (Except String StringT × Nat)
  | (n, result) =>
    let old_used := result.length
    let result := resize result (result.length + cBufferAdd)
    match kernel n with
    | .failed => some (.inr (.error error_FD_READ_ERROR, n + 1))
    | .delivered data _ =>
      let result := overwrite result old_used data
      if cBufferAdd ≤ data.length then some (.inl (n + 1, result))
      else some (.inr (.ok (resize result ((result.length - cBufferAdd) + data.length)), n + 1))

/-- `fd_c::read`: its result, and the number of the next `::read`. -/
def fdRead (fd : FdC) (kernel : Nat → ReadOutcome) (n fuel : Nat) : Option (Except String StringT × Nat) :=
  if fd.m_fd = -1 then some (.error error_FD_NOT_OPENED, n) else Loop.run (fdReadBody kernel) fuel (n, [])

/-- Calls of `fd_c::read` one after the other, from the `n`-th `::read` up to the `m`-th, and their results. -/
inductive Calls (fd : FdC) (kernel : Nat → ReadOutcome) : Nat → List (Except String StringT) → Nat → Prop
  | nil {n : Nat} : Calls fd kernel n [] n
  | cons {n k m : Nat} {r : Except String StringT} {rs : List (Except String StringT)}
      (h : ∃ fuel, fdRead fd kernel n fuel = some (r, k)) (hrest : Calls fd kernel k rs m) :
      Calls fd kernel n (r :: rs) m

/-- The bytes that calls returned. -/
def returned (rs : List (Except String StringT)) : StringT := rs.flatMap (fun r => r.toOption.getD [])

/-- The bytes that the kernel delivered from the `n`-th `::read` up to the `m`-th. -/
def taken (kernel : Nat → ReadOutcome) (n m : Nat) : StringT :=
  (List.range' n (m - n)).flatMap (fun k => (kernel k).bytes)

variable {fd : FdC} {kernel : Nat → ReadOutcome} {n m k j : Nat} {result data : StringT} {r : Except String StringT}
  {rs : List (Except String StringT)}

theorem taken_self (kernel : Nat → ReadOutcome) (n : Nat) : taken kernel n n = [] := by
  rw [taken, Nat.sub_self]
  rfl

theorem taken_append (hnk : n ≤ k) (hkm : k ≤ m) : taken kernel n k ++ taken kernel k m = taken kernel n m := by
  have hrange : List.range' n (m - n) = List.range' n (k - n) ++ List.range' k (m - k) := by
    rw [show m - n = (k - n) + (m - k) by omega, ← List.range'_append_1, show n + (k - n) = k by omega]
  rw [taken, taken, taken, hrange, List.flatMap_append]

theorem taken_succ (n : Nat) : taken kernel n (n + 1) = (kernel n).bytes := by
  rw [taken, Nat.add_sub_cancel_left]
  simp

theorem taken_cons (h : n < m) : taken kernel n m = (kernel n).bytes ++ taken kernel (n + 1) m := by
  rw [← taken_succ, taken_append (Nat.le_succ n) h]

/-! ## A round -/

/-- A full chunk. -/
def Full (o : ReadOutcome) : Prop := cBufferAdd ≤ o.bytes.length

theorem not_full_failed : ¬ Full .failed := Nat.not_le.mpr (Nat.zero_lt_succ 1023)

/-- What is in the buffer behind what was used. -/
theorem overwrite_resize (result data : StringT) :
    overwrite (resize result (result.length + cBufferAdd)) result.length data =
      result ++ data ++ List.replicate (cBufferAdd - data.length) 0 := by
  have hresize : resize result (result.length + cBufferAdd) = result ++ List.replicate cBufferAdd 0 := by
    rw [resize, List.take_of_length_le (Nat.le_add_right _ _), Nat.add_sub_cancel_left]
  rw [hresize, overwrite, List.take_left, ← List.drop_drop, List.drop_left, List.drop_replicate]

theorem fdReadBody_full (h : Full (kernel n)) (result : StringT) :
    Loop.Next (fdReadBody kernel) (n, result) (n + 1, result ++ (kernel n).bytes) := by
  unfold Full at h
  cases hk : kernel n with
  | failed =>
      rw [hk] at h
      exact absurd h (by decide)
  | delivered data hdata =>
      rw [hk] at h
      have hlen : cBufferAdd - data.length = 0 := Nat.sub_eq_zero_of_le h
      have hround : fdReadBody kernel (n, result) =
          some (.inl (n + 1, overwrite (resize result (result.length + cBufferAdd)) result.length data)) := by
        simp only [fdReadBody, hk]
        exact if_pos h
      rw [Loop.Next, hround, overwrite_resize, hlen, List.replicate_zero, List.append_nil]
      rfl

/-- What a call returns whose last `::read` is the `j`-th, with `result` from the ones before. -/
def lastResult (kernel : Nat → ReadOutcome) (j : Nat) (result : StringT) : Except String StringT :=
  match kernel j with
  | .failed => .error error_FD_READ_ERROR
  | .delivered data _ => .ok (result ++ data)

theorem fdReadBody_last (h : ¬ Full (kernel n)) (result : StringT) :
    fdReadBody kernel (n, result) = some (.inr (lastResult kernel n result, n + 1)) := by
  unfold Full at h
  cases hk : kernel n with
  | failed => simp only [fdReadBody, lastResult, hk]
  | delivered data hdata =>
      rw [hk] at h
      have hwritten := overwrite_resize result data
      have hlen : (result ++ data ++ List.replicate (cBufferAdd - data.length) 0).length - cBufferAdd + data.length =
          (result ++ data).length := by
        simp only [List.length_append, List.length_replicate]
        omega
      have hresize : resize (result ++ data ++ List.replicate (cBufferAdd - data.length) 0) (result ++ data).length =
          result ++ data := by
        rw [resize, List.take_left, @List.length_append _ (result ++ data),
          Nat.sub_eq_zero_of_le (Nat.le_add_right _ _)]
        exact List.append_nil _
      have hnot : ¬ cBufferAdd ≤ data.length := h
      simp only [fdReadBody, lastResult, hk, hwritten, hlen, hresize, if_neg hnot]

/-! ## A call -/

/-- The loop takes the full chunks and the next `::read`. -/
theorem fdRead_loop (hnj : n ≤ j) (hfull : ∀ k, n ≤ k → k < j → Full (kernel k)) (hlast : ¬ Full (kernel j))
    (result : StringT) :
    Loop.Returns (fdReadBody kernel) (n, result) (lastResult kernel j (result ++ taken kernel n j), j + 1) := by
  induction hd : j - n generalizing n result with
  | zero =>
      obtain rfl : n = j := by omega
      rw [taken_self, List.append_nil]
      exact Loop.returns_of_done (fdReadBody_last hlast result)
  | succ d ih =>
      have hlt : n < j := by omega
      rw [(fdReadBody_full (hfull n (Nat.le_refl n) hlt) result).returns_iff, taken_cons hlt, ← List.append_assoc]
      exact ih hlt (fun k hk => hfull k (by omega)) _ (by omega)

/-- A loop that returns has come to a chunk that is not full. -/
theorem exists_last {out : Except String StringT × Nat} (h : Loop.Returns (fdReadBody kernel) (n, result) out) :
    ∃ j, n ≤ j ∧ (∀ k, n ≤ k → k < j → Full (kernel k)) ∧ ¬ Full (kernel j) := by
  obtain ⟨fuel, hrun⟩ := h
  induction fuel generalizing n result with
  | zero => cases hrun
  | succ fuel ih =>
      by_cases hfull : Full (kernel n)
      · rw [Loop.run_next (fdReadBody_full hfull result)] at hrun
        obtain ⟨j, hnj, hall, hlast⟩ := ih hrun
        refine ⟨j, by omega, ?_, hlast⟩
        intro k hk hkj
        rcases Nat.eq_or_lt_of_le hk with rfl | hlt
        · exact hfull
        · exact hall k hlt hkj
      · exact ⟨n, Nat.le_refl n, fun k hk hkn => absurd hkn (Nat.not_lt.mpr hk), hfull⟩

/-- **A call** takes full chunks and one more `::read`, and returns the bytes of all where that did not fail. -/
theorem call_spec (hfd : fd.m_fd ≠ -1) (h : ∃ fuel, fdRead fd kernel n fuel = some (r, m)) :
    ∃ j, m = j + 1 ∧ n ≤ j ∧ (∀ k, n ≤ k → k < j → Full (kernel k)) ∧ ¬ Full (kernel j) ∧
      r = lastResult kernel j (taken kernel n j) := by
  simp only [fdRead, if_neg hfd] at h
  have hret : Loop.Returns (fdReadBody kernel) (n, []) (r, m) := h
  obtain ⟨j, hnj, hfull, hlast⟩ := exists_last hret
  have hout := hret.unique (fdRead_loop hnj hfull hlast [])
  exact ⟨j, congrArg Prod.snd hout, hnj, hfull, hlast, congrArg Prod.fst hout⟩

/-- There is a call wherever a chunk is not full. -/
theorem call_exists (hfd : fd.m_fd ≠ -1) (hnj : n ≤ j) (hfull : ∀ k, n ≤ k → k < j → Full (kernel k))
    (hlast : ¬ Full (kernel j)) :
    ∃ fuel, fdRead fd kernel n fuel = some (lastResult kernel j (taken kernel n j), j + 1) := by
  simp only [fdRead, if_neg hfd]
  exact fdRead_loop hnj hfull hlast []

/-- What a call returned, and what it took. -/
theorem lastResult_delivered (hnj : n ≤ j) (hj : kernel j ≠ .failed) :
    (lastResult kernel j (taken kernel n j)).toOption.getD [] = taken kernel n (j + 1) := by
  rw [← taken_append hnj (Nat.le_succ j), taken_succ]
  unfold lastResult
  split
  · exact absurd ‹_› hj
  · rename_i hk
    rw [hk]
    rfl

theorem lastResult_failed (hj : kernel j = .failed) (result : StringT) :
    (lastResult kernel j result).toOption.getD [] = [] := by
  rw [lastResult, hj]
  rfl

/-! ## Calls -/

theorem returned_cons (r : Except String StringT) (rs : List (Except String StringT)) :
    returned (r :: rs) = r.toOption.getD [] ++ returned rs := List.flatMap_cons

theorem Calls.le (h : Calls fd kernel n rs m) : n ≤ m := by
  induction h with
  | nil => exact Nat.le_refl _
  | @cons n k m r rs h _ ih =>
      by_cases hfd : fd.m_fd = -1
      · simp only [fdRead, if_pos hfd] at h
        obtain ⟨-, h⟩ := h
        cases h
        exact ih
      · obtain ⟨j, rfl, hnj, -⟩ := call_spec hfd h
        omega

/-- A descriptor that is not open: nothing is read. -/
theorem Calls.not_opened (hfd : fd.m_fd = -1) (h : Calls fd kernel n rs m) : m = n ∧ returned rs = [] := by
  induction h with
  | nil => exact ⟨rfl, rfl⟩
  | cons h _ ih =>
      simp only [fdRead, if_pos hfd] at h
      obtain ⟨-, h⟩ := h
      cases h
      exact ih

/-- **Where no full chunk is followed by a failure** the calls return what they took. -/
theorem Calls.lossless (hfd : fd.m_fd ≠ -1) (hkernel : ∀ n, Full (kernel n) → kernel (n + 1) ≠ .failed)
    (h : Calls fd kernel n rs m) : returned rs = taken kernel n m := by
  induction h with
  | nil => exact (taken_self kernel _).symm
  | @cons n k m r rs h hrest ih =>
      obtain ⟨j, rfl, hnj, hfull, hlast, rfl⟩ := call_spec hfd h
      rw [returned_cons, ih, ← taken_append (Nat.le_succ_of_le hnj) hrest.le]
      congr 1
      by_cases hj : kernel j = .failed
      · -- a call that fails does so at its first chunk
        rcases Nat.eq_or_lt_of_le hnj with rfl | hlt
        · rw [lastResult_failed hj, taken_succ, hj]
          rfl
        · have hprev := hkernel (j - 1) (hfull (j - 1) (by omega) (by omega))
          rw [Nat.sub_add_cancel (by omega)] at hprev
          exact absurd hj hprev
      · exact lastResult_delivered hnj hj

/-- The first chunk that is not full, where there is one. -/
theorem exists_first {l : Nat} (hnl : n ≤ l) (hl : ¬ Full (kernel l)) :
    ∃ j, n ≤ j ∧ (∀ k, n ≤ k → k < j → Full (kernel k)) ∧ ¬ Full (kernel j) ∧ j ≤ l := by
  classical
  have hex : ∃ j, n ≤ j ∧ ¬ Full (kernel j) := ⟨l, hnl, hl⟩
  obtain ⟨hnj, hlast⟩ := Nat.find_spec hex
  refine ⟨Nat.find hex, hnj, ?_, hlast, Nat.find_min' hex ⟨hnl, hl⟩⟩
  intro k hk hkj
  by_contra hnot
  exact Nat.find_min hex hkj ⟨hk, hnot⟩

/-- **A failure behind a full chunk** loses it: the calls up to there return less than they took. -/
theorem calls_lose (hfd : fd.m_fd ≠ -1) {l : Nat} (hl : Full (kernel l)) (hfailed : kernel (l + 1) = .failed)
    (hn : n ≤ l) : ∃ rs, Calls fd kernel n rs (l + 2) ∧ (returned rs).length < (taken kernel n (l + 2)).length := by
  induction hd : l - n using Nat.strong_induction_on generalizing n with
  | _ d ih =>
      subst hd
      have hnot : ¬ Full (kernel (l + 1)) := by
        rw [hfailed]
        exact not_full_failed
      -- the first chunk that is not full ends the first call
      obtain ⟨j, hnj, hfull, hlast, hmin⟩ := exists_first (show n ≤ l + 1 by omega) hnot
      have hcall := call_exists hfd hnj hfull hlast
      rcases Nat.eq_or_lt_of_le hmin with rfl | hlt
      · refine ⟨_, .cons hcall .nil, ?_⟩
        rw [returned_cons, lastResult_failed hfailed, ← taken_append (show n ≤ l by omega) (show l ≤ l + 2 by omega),
          taken_cons (show l < l + 2 by omega)]
        have hpos : 0 < (kernel l).bytes.length := Nat.lt_of_lt_of_le (by decide) hl
        simp only [returned, List.flatMap_nil, List.append_nil, List.length_nil, List.length_append]
        omega
      · have hne : j ≠ l := by
          rintro rfl
          exact hlast hl
        obtain ⟨rs, hcalls, hless⟩ := ih (l - (j + 1)) (by omega) (show j + 1 ≤ l by omega) rfl
        refine ⟨_, .cons hcall hcalls, ?_⟩
        rw [returned_cons, ← taken_append (show n ≤ j + 1 by omega) hcalls.le, List.length_append, List.length_append]
        by_cases hj : kernel j = .failed
        · rw [lastResult_failed hj, List.length_nil]
          omega
        · rw [lastResult_delivered hnj hj]
          omega

/-- **Reading from a descriptor** loses nothing, whatever calls one makes, exactly where the descriptor is not open or
no `::read` that filled the buffer is followed by one that fails. -/
theorem reads_lose_nothing_iff (fd : FdC) (kernel : Nat → ReadOutcome) :
    (∀ rs n, Calls fd kernel 0 rs n → returned rs = taken kernel 0 n) ↔
      fd.m_fd = -1 ∨ ∀ n, (kernel n).bytes.length = cBufferAdd → kernel (n + 1) ≠ .failed := by
  have hfull : ∀ n, Full (kernel n) ↔ (kernel n).bytes.length = cBufferAdd := by
    intro n
    unfold Full
    cases kernel n with
    | failed => exact ⟨fun h => absurd h (by decide), fun h => absurd h (by decide)⟩
    | delivered data hdata =>
        have hle : data.length ≤ cBufferAdd := hdata
        simp only [ReadOutcome.bytes]
        omega
  constructor
  · intro h
    by_cases hfd : fd.m_fd = -1
    · exact Or.inl hfd
    · refine Or.inr (fun n hn hfailed => ?_)
      obtain ⟨rs, hcalls, hless⟩ := calls_lose hfd ((hfull n).mpr hn) hfailed (Nat.zero_le n)
      rw [h rs _ hcalls] at hless
      exact Nat.lt_irrefl _ hless
  · rintro (hfd | hkernel) rs n hcalls
    · obtain ⟨rfl, hnil⟩ := hcalls.not_opened hfd
      rw [hnil, taken_self]
    · by_cases hfd : fd.m_fd = -1
      · obtain ⟨rfl, hnil⟩ := hcalls.not_opened hfd
        rw [hnil, taken_self]
      · exact hcalls.lossless hfd (fun n hn => hkernel n ((hfull n).mp hn))

/-- A message of 1024 bytes, and then an error: `EAGAIN` on a non-blocking descriptor. -/
def fullThenFailed : Nat → ReadOutcome
  | 0 => .delivered (List.replicate 1024 0x78) (by rw [List.length_replicate]; exact Nat.le_refl _)
  | _ => .failed

/-- The message is gone. -/
theorem full_chunk_lost : Calls ⟨3⟩ fullThenFailed 0 [.error error_FD_READ_ERROR] 2 ∧
    taken fullThenFailed 0 2 = List.replicate 1024 0x78 ∧
    ¬ ∀ rs n, Calls ⟨3⟩ fullThenFailed 0 rs n → returned rs = taken fullThenFailed 0 n := by
  have hfull : Full (fullThenFailed 0) := by
    rw [Full, fullThenFailed, ReadOutcome.bytes, List.length_replicate]
    exact Nat.le_refl _
  have hnot : ¬ Full (fullThenFailed 1) := not_full_failed
  have hcall : ∃ fuel, fdRead ⟨3⟩ fullThenFailed 0 fuel = some (.error error_FD_READ_ERROR, 2) := by
    refine call_exists (j := 1) (by decide) (Nat.zero_le 1) ?_ hnot
    intro k _ hk
    obtain rfl : k = 0 := by omega
    exact hfull
  have hcalls := Calls.cons hcall Calls.nil
  have htaken : taken fullThenFailed 0 2 = List.replicate 1024 0x78 := by
    rw [taken_cons (by decide), taken_succ]
    exact List.append_nil _
  refine ⟨hcalls, htaken, ?_⟩
  intro h
  have hlost := congrArg List.length (h _ _ hcalls)
  rw [htaken, List.length_replicate] at hlost
  exact absurd hlost (by decide)

end Cclsys
end Cclib
