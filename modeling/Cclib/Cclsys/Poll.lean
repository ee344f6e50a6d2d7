import Cclib.Lib.KeyedSet
import Cclib.Lib.Runs
import Mathlib.Data.List.Induction
import Mathlib.Data.Int.Order.Basic

/-!
# `Cclsys.Poll` — `poll_c`

`poll_c` keeps the descriptors to poll in a `std::set` ordered by descriptor and hands `poll` an array that it copies
from the set; a flag says that the set has changed since. What is registered is read off the operations called so far
(`RegisteredFor`): the elements of the set are the descriptors registered, each with its events, and the array agrees
with the set while the flag is down (`Agrees`). Every operation keeps that, and its assert holds exactly on a
registered descriptor (`Agrees.exec`).

## Contents
- `Pollfd`, `PollC` and its operations, `PollOp`, `run`.
- `RegisteredFor`, `Allowed`: what the operations called so far say.
- `unregistered_snoc`, `latest_snoc`, `registeredFor_snoc`: one operation more.
- `Agrees`, `Agrees.exec`, `run_agrees`.
- `polls_what_is_registered`.
-/

namespace Cclib
namespace Cclsys

open Runs (snoc_eq_cut nil_ne_cut)

/-- `struct pollfd`. -/
structure Pollfd where
  fd : Int
  events : Int16
  revents : Int16
deriving DecidableEq, Repr

/-- `poll_c`. The set is ordered by `pollfd_compare`. -/
structure PollC where
  m_set_changed : Bool
  m_pfd_set : KeyedSet Pollfd.fd
  m_pfd_array : List Pollfd

/-- What `poll` answers: its result, and the `revents` it writes into the array. -/
structure PollAnswer where
  result : Int
  revents : Nat → Int16

/-- The array that is handed to `poll`, and what `poll_c::ready` leaves and returns. -/
structure Ready where
  handed : List Pollfd
  s : PollC
  a_result : Int
  result : Bool

/-! ## The functions -/

namespace PollC

variable (s : PollC)

def init : PollC := { m_set_changed := false, m_pfd_set := KeyedSet.empty Pollfd.fd, m_pfd_array := [] }

def insert (a_fd : Int) (a_events : Int16) : PollC :=
  { s with m_pfd_set := s.m_pfd_set.insert ⟨a_fd, a_events, 0⟩, m_set_changed := true }

/-- `poll_c::update`; `none` where its assert fails. -/
def update (a_fd : Int) (a_events : Int16) : Option PollC :=
  if (s.m_pfd_set.find a_fd).isSome then
    some { s with
      m_pfd_set := s.m_pfd_set.modify a_fd (fun p => { p with events := a_events }) (fun _ => rfl)
      m_set_changed := true }
  else none

/-- `poll_c::remove`; `none` where its assert fails. -/
def remove (a_fd : Int) : Option PollC :=
  if (s.m_pfd_set.find a_fd).isSome then
    some { s with m_pfd_set := s.m_pfd_set.erase a_fd, m_set_changed := true }
  else none

def process_changes : PollC := { s with m_pfd_array := s.m_pfd_set.elems, m_set_changed := false }

/-- How `ready` and `operator<<` begin. -/
def refresh : PollC := if s.m_set_changed then s.process_changes else s

/-- `poll_c::ready`, with the answer of `poll`. -/
def ready (answer : PollAnswer) : Ready :=
  let s := s.refresh
  { handed := s.m_pfd_array
    s := { s with m_pfd_array := s.m_pfd_array.mapIdx (fun i p => { p with revents := answer.revents i }) }
    a_result := answer.result
    result := 0 < answer.result }

/-- `operator<<`. -/
def print : String × PollC :=
  let s := s.refresh
  ("\x7b" ++ String.join (s.m_pfd_array.map (fun p =>
    "\x7b" ++ toString p.fd ++ "," ++ toString p.events ++ "," ++ toString p.revents ++ "\x7d,")) ++ "\x7d", s)

end PollC

/-- A call of an operation. -/
inductive PollOp where
  | insert (a_fd : Int) (a_events : Int16)
  | update (a_fd : Int) (a_events : Int16)
  | remove (a_fd : Int)
  | process_changes
  | ready (answer : PollAnswer)
  | print

def PollC.exec (s : PollC) : PollOp → Option PollC
  | .insert a_fd a_events => some (s.insert a_fd a_events)
  | .update a_fd a_events => s.update a_fd a_events
  | .remove a_fd => s.remove a_fd
  | .process_changes => some s.process_changes
  | .ready answer => some (s.ready answer).s
  | .print => some s.print.2

/-- The operations called one after the other on a new `poll_c`. -/
def PollC.run (ops : List PollOp) : Option PollC := Runs.run PollC.exec PollC.init ops

/-! ## What is registered -/

/-- Every insertion of `fd` was followed by its removal. -/
def Unregistered (ops : List PollOp) (fd : Int) : Prop :=
  ∀ before e after, ops = before ++ .insert fd e :: after → .remove fd ∈ after

/-- The events of the latest update of `fd`, or `e₀` if there was none. -/
def Latest (ops : List PollOp) (fd : Int) (e₀ e : Int16) : Prop :=
  (e = e₀ ∧ ∀ e', .update fd e' ∉ ops) ∨
    ∃ before after, ops = before ++ .update fd e :: after ∧ ∀ e', .update fd e' ∉ after

/-- Behind `ops`, `fd` is registered for the events `e`: it was inserted when it was not registered, has not been
removed since, and `e` are the events of its latest update since then, or of that insertion. -/
def RegisteredFor (ops : List PollOp) (fd : Int) (e : Int16) : Prop :=
  ∃ before e₀ after, ops = before ++ .insert fd e₀ :: after ∧ Unregistered before fd ∧ .remove fd ∉ after ∧
    Latest after fd e₀ e

/-- What the asserts require of a call behind `ops`. -/
def PollOp.Allowed (ops : List PollOp) : PollOp → Prop
  | .update fd _ => ∃ e, RegisteredFor ops fd e
  | .remove fd => ∃ e, RegisteredFor ops fd e
  | _ => True

/-- Only registered descriptors are updated and removed. -/
def Allowed (ops : List PollOp) : Prop := ∀ before op after, ops = before ++ op :: after → op.Allowed before

variable {ops : List PollOp} {op : PollOp} {fd a_fd : Int} {e e₀ a_events : Int16} {s s' : PollC} {p : Pollfd}

theorem unregistered_snoc : Unregistered (ops ++ [op]) fd ↔
    op = .remove fd ∨ Unregistered ops fd ∧ ∀ e, op ≠ .insert fd e := by
  constructor
  · intro h
    by_cases hop : op = .remove fd
    · exact Or.inl hop
    · refine Or.inr ⟨?_, ?_⟩
      · intro before e after hcut
        have hmem := h before e (after ++ [op]) (snoc_eq_cut.mpr (Or.inr ⟨after, rfl, hcut⟩))
        rcases List.mem_append.mp hmem with hmem | hmem
        · exact hmem
        · exact absurd (List.mem_singleton.mp hmem).symm hop
      · rintro e rfl
        exact absurd (h ops e [] rfl) List.not_mem_nil
  · rintro h before e after hcut
    rcases snoc_eq_cut.mp hcut with ⟨-, -, hop⟩ | ⟨after', rfl, hops⟩
    · rcases h with rfl | ⟨-, hne⟩
      · cases hop
      · exact absurd hop.symm (hne e)
    · rcases h with rfl | ⟨h, -⟩
      · exact List.mem_append_right _ List.mem_cons_self
      · exact List.mem_append_left _ (h before e after' hops)

theorem latest_nil : Latest [] fd e₀ e ↔ e = e₀ := by
  constructor
  · rintro (⟨h, -⟩ | ⟨before, after, h, -⟩)
    · exact h
    · exact absurd h nil_ne_cut
  · intro h
    exact Or.inl ⟨h, fun _ => List.not_mem_nil⟩

theorem latest_snoc : Latest (ops ++ [op]) fd e₀ e ↔
    op = .update fd e ∨ (∀ e', op ≠ .update fd e') ∧ Latest ops fd e₀ e := by
  constructor
  · rintro (⟨rfl, hnone⟩ | ⟨before, after, hcut, hnone⟩)
    · refine Or.inr ⟨?_, Or.inl ⟨rfl, ?_⟩⟩
      · rintro e' rfl
        exact hnone e' (List.mem_append_right _ List.mem_cons_self)
      · exact fun e' h => hnone e' (List.mem_append_left _ h)
    · rcases snoc_eq_cut.mp hcut with ⟨-, -, hop⟩ | ⟨after', rfl, hops⟩
      · exact Or.inl hop.symm
      · refine Or.inr ⟨?_, Or.inr ⟨before, after', hops, ?_⟩⟩
        · rintro e' rfl
          exact hnone e' (List.mem_append_right _ List.mem_cons_self)
        · exact fun e' h => hnone e' (List.mem_append_left _ h)
  · rintro (rfl | ⟨hop, ⟨rfl, hnone⟩ | ⟨before, after, rfl, hnone⟩⟩)
    · exact Or.inr ⟨ops, [], rfl, fun _ => List.not_mem_nil⟩
    · refine Or.inl ⟨rfl, ?_⟩
      intro e' h
      rcases List.mem_append.mp h with h | h
      · exact hnone e' h
      · exact hop e' (List.mem_singleton.mp h).symm
    · refine Or.inr ⟨before, after ++ [op], by rw [List.append_assoc, List.cons_append], ?_⟩
      intro e' h
      rcases List.mem_append.mp h with h | h
      · exact hnone e' h
      · exact hop e' (List.mem_singleton.mp h).symm

theorem exists_latest (ops : List PollOp) (fd : Int) (e₀ : Int16) : ∃ e, Latest ops fd e₀ e := by
  induction ops using List.reverseRecOn with
  | nil => exact ⟨e₀, latest_nil.mpr rfl⟩
  | append_singleton ops op ih =>
      by_cases hop : ∃ e, op = .update fd e
      · obtain ⟨e, hop⟩ := hop
        exact ⟨e, latest_snoc.mpr (Or.inl hop)⟩
      · obtain ⟨e, he⟩ := ih
        exact ⟨e, latest_snoc.mpr (Or.inr ⟨fun e' h => hop ⟨e', h⟩, he⟩)⟩

theorem registeredFor_snoc : RegisteredFor (ops ++ [op]) fd e ↔
    op = .insert fd e ∧ Unregistered ops fd ∨
      op ≠ .remove fd ∧
        (op = .update fd e ∧ (∃ e', RegisteredFor ops fd e') ∨
          (∀ e', op ≠ .update fd e') ∧ RegisteredFor ops fd e) := by
  constructor
  · rintro ⟨before, e₀, after, hcut, hun, hremove, hlatest⟩
    rcases snoc_eq_cut.mp hcut with ⟨rfl, rfl, rfl⟩ | ⟨after', rfl, hops⟩
    · obtain rfl := latest_nil.mp hlatest
      exact Or.inl ⟨rfl, hun⟩
    · have hremove' : .remove fd ∉ after' := fun h => hremove (List.mem_append_left _ h)
      refine Or.inr ⟨?_, ?_⟩
      · rintro rfl
        exact hremove (List.mem_append_right _ List.mem_cons_self)
      · rcases latest_snoc.mp hlatest with rfl | ⟨hop, hlatest⟩
        · obtain ⟨e', he'⟩ := exists_latest after' fd e₀
          exact Or.inl ⟨rfl, e', before, e₀, after', hops, hun, hremove', he'⟩
        · exact Or.inr ⟨hop, before, e₀, after', hops, hun, hremove', hlatest⟩
  · have hlater : ∀ {e'}, RegisteredFor ops fd e' → op ≠ .remove fd →
        (∀ e₀ after, Latest after fd e₀ e' → Latest (after ++ [op]) fd e₀ e) → RegisteredFor (ops ++ [op]) fd e := by
      rintro e' ⟨before, e₀, after, hcut, hun, hremove, hlatest⟩ hop hnext
      refine ⟨before, e₀, after ++ [op], snoc_eq_cut.mpr (Or.inr ⟨after, rfl, hcut⟩), hun, ?_, hnext e₀ after hlatest⟩
      intro h
      rcases List.mem_append.mp h with h | h
      · exact hremove h
      · exact hop (List.mem_singleton.mp h).symm
    rintro (⟨rfl, hun⟩ | ⟨hop, ⟨rfl, e', he'⟩ | ⟨hupdate, he⟩⟩)
    · exact ⟨ops, e, [], rfl, hun, List.not_mem_nil, latest_nil.mpr rfl⟩
    · exact hlater he' hop (fun e₀ after _ => latest_snoc.mpr (Or.inl rfl))
    · exact hlater he hop (fun e₀ after h => latest_snoc.mpr (Or.inr ⟨hupdate, h⟩))

theorem not_registeredFor_nil : ¬ RegisteredFor [] fd e := by
  rintro ⟨before, e₀, after, h, -⟩
  exact absurd h nil_ne_cut

theorem unregistered_iff : Unregistered ops fd ↔ ∀ e, ¬ RegisteredFor ops fd e := by
  induction ops using List.reverseRecOn with
  | nil =>
      refine ⟨fun _ e => not_registeredFor_nil, fun _ before e after h => ?_⟩
      exact absurd h nil_ne_cut
  | append_singleton ops op ih =>
      rw [unregistered_snoc]
      constructor
      · rintro h e he
        rcases registeredFor_snoc.mp he with ⟨rfl, -⟩ | ⟨hop, he⟩
        · rcases h with h | ⟨-, hne⟩
          · cases h
          · exact hne e rfl
        · rcases h with h | ⟨hun, -⟩
          · exact hop h
          · rcases he with ⟨-, e', he'⟩ | ⟨-, he'⟩
            · exact ih.mp hun e' he'
            · exact ih.mp hun e he'
      · intro h
        by_cases hop : op = .remove fd
        · exact Or.inl hop
        · have hun : Unregistered ops fd := by
            apply ih.mpr
            intro e he
            by_cases hupdate : ∃ e', op = .update fd e'
            · obtain ⟨e', rfl⟩ := hupdate
              exact h e' (registeredFor_snoc.mpr (Or.inr ⟨hop, Or.inl ⟨rfl, e, he⟩⟩))
            · exact h e (registeredFor_snoc.mpr (Or.inr ⟨hop, Or.inr ⟨fun e' h => hupdate ⟨e', h⟩, he⟩⟩))
          refine Or.inr ⟨hun, ?_⟩
          rintro e rfl
          exact h e (registeredFor_snoc.mpr (Or.inl ⟨rfl, hun⟩))

/-! ## What the flag and the array have to do with the set -/

/-- What the entries of an array ask for. -/
def interest (pfds : List Pollfd) : List (Int × Int16) := pfds.map (fun p => (p.fd, p.events))

/-- The set holds what is registered, and so does the array while the flag is down. -/
structure Agrees (ops : List PollOp) (s : PollC) : Prop where
  set : ∀ fd e, (∃ p ∈ s.m_pfd_set, p.fd = fd ∧ p.events = e) ↔ RegisteredFor ops fd e
  array : s.m_set_changed = false → interest s.m_pfd_array = interest s.m_pfd_set.elems

theorem agrees_init : Agrees [] PollC.init where
  set := by
    intro fd e
    constructor
    · rintro ⟨p, hp, -⟩
      exact absurd hp KeyedSet.not_mem_empty
    · exact fun h => absurd h not_registeredFor_nil
  array := fun _ => rfl

theorem Agrees.find_isSome (h : Agrees ops s) (fd : Int) :
    (s.m_pfd_set.find fd).isSome = true ↔ ∃ e, RegisteredFor ops fd e := by
  rw [KeyedSet.find_isSome]
  constructor
  · rintro ⟨p, hp, hfd⟩
    exact ⟨p.events, (h.set fd p.events).mp ⟨p, hp, hfd, rfl⟩⟩
  · rintro ⟨e, he⟩
    obtain ⟨p, hp, hfd, -⟩ := (h.set fd e).mpr he
    exact ⟨p, hp, hfd⟩

/-- What an operation with an assert needs. -/
theorem Agrees.assert_iff (h : Agrees ops s) (fd : Int) (s' : PollC) :
    (∃ e, RegisteredFor ops fd e) ↔ (if (s.m_pfd_set.find fd).isSome then some s' else none).isSome = true := by
  rw [← h.find_isSome fd]
  split_ifs with hfound
  · exact ⟨fun _ => rfl, fun _ => hfound⟩
  · exact ⟨fun hf => absurd hf hfound, fun hf => absurd hf Bool.false_ne_true⟩

theorem Agrees.insert (h : Agrees ops s) (a_fd : Int) (a_events : Int16) :
    Agrees (ops ++ [.insert a_fd a_events]) (s.insert a_fd a_events) where
  set := by
    intro fd e
    rw [registeredFor_snoc, unregistered_iff]
    constructor
    · rintro ⟨p, hp, rfl, rfl⟩
      rcases KeyedSet.mem_insert.mp hp with hp | ⟨rfl, hnew⟩
      · exact Or.inr ⟨nofun, Or.inr ⟨nofun, (h.set _ _).mp ⟨p, hp, rfl, rfl⟩⟩⟩
      · refine Or.inl ⟨rfl, ?_⟩
        intro e he
        obtain ⟨q, hq, hfd, -⟩ := (h.set _ e).mpr he
        exact hnew q hq hfd
    · rintro (⟨hop, hun⟩ | ⟨-, ⟨hop, -⟩ | ⟨-, he⟩⟩)
      · cases hop
        refine ⟨_, KeyedSet.mem_insert.mpr (Or.inr ⟨rfl, ?_⟩), rfl, rfl⟩
        intro q hq hfd
        exact hun q.events ((h.set _ _).mp ⟨q, hq, hfd, rfl⟩)
      · cases hop
      · obtain ⟨p, hp, hfd, hev⟩ := (h.set fd e).mpr he
        exact ⟨p, KeyedSet.mem_insert.mpr (Or.inl hp), hfd, hev⟩
  array := nofun

theorem mem_modify_events :
    p ∈ s.m_pfd_set.modify a_fd (fun p => { p with events := a_events }) (fun _ => rfl) ↔
      p ∈ s.m_pfd_set ∧ p.fd ≠ a_fd ∨ ∃ q ∈ s.m_pfd_set, q.fd = a_fd ∧ p = { q with events := a_events } :=
  KeyedSet.mem_modify _

theorem Agrees.update (h : Agrees ops s) (hs : s.update a_fd a_events = some s') :
    Agrees (ops ++ [.update a_fd a_events]) s' := by
  unfold PollC.update at hs
  split_ifs at hs with hfound
  cases hs
  refine ⟨?_, nofun⟩
  intro fd e
  rw [registeredFor_snoc]
  constructor
  · rintro ⟨p, hp, rfl, rfl⟩
    refine Or.inr ⟨nofun, ?_⟩
    rcases mem_modify_events.mp hp with ⟨hp, hne⟩ | ⟨q, hq, hfd, rfl⟩
    · refine Or.inr ⟨?_, (h.set _ _).mp ⟨p, hp, rfl, rfl⟩⟩
      intro e' hop
      cases hop
      exact hne rfl
    · cases hfd
      exact Or.inl ⟨rfl, q.events, (h.set _ _).mp ⟨q, hq, rfl, rfl⟩⟩
  · rintro (⟨hop, -⟩ | ⟨-, ⟨hop, e', he'⟩ | ⟨hop, he⟩⟩)
    · cases hop
    · cases hop
      obtain ⟨q, hq, hfd, -⟩ := (h.set a_fd e').mpr he'
      refine ⟨{ q with events := a_events }, ?_, hfd, rfl⟩
      exact mem_modify_events.mpr (Or.inr ⟨q, hq, hfd, rfl⟩)
    · obtain ⟨p, hp, rfl, hev⟩ := (h.set fd e).mpr he
      refine ⟨p, mem_modify_events.mpr (Or.inl ⟨hp, ?_⟩), rfl, hev⟩
      rintro rfl
      exact hop a_events rfl

theorem Agrees.remove (h : Agrees ops s) (hs : s.remove a_fd = some s') : Agrees (ops ++ [.remove a_fd]) s' := by
  unfold PollC.remove at hs
  split_ifs at hs with hfound
  cases hs
  refine ⟨?_, nofun⟩
  intro fd e
  rw [registeredFor_snoc]
  constructor
  · rintro ⟨p, hp, rfl, rfl⟩
    obtain ⟨hp, hne⟩ := KeyedSet.mem_erase.mp hp
    refine Or.inr ⟨?_, Or.inr ⟨nofun, (h.set _ _).mp ⟨p, hp, rfl, rfl⟩⟩⟩
    intro hop
    cases hop
    exact hne rfl
  · rintro (⟨hop, -⟩ | ⟨hne, ⟨hop, -⟩ | ⟨-, he⟩⟩)
    · cases hop
    · cases hop
    · obtain ⟨p, hp, rfl, hev⟩ := (h.set fd e).mpr he
      refine ⟨p, KeyedSet.mem_erase.mpr ⟨hp, ?_⟩, rfl, hev⟩
      rintro rfl
      exact hne rfl

/-- The other operations register nothing. -/
theorem Agrees.snoc (h : Agrees ops s) (hset : s'.m_pfd_set = s.m_pfd_set)
    (harray : s'.m_set_changed = false → interest s'.m_pfd_array = interest s.m_pfd_set.elems)
    (hop : ∀ fd e, op ≠ .insert fd e ∧ op ≠ .update fd e ∧ op ≠ .remove fd) : Agrees (ops ++ [op]) s' := by
  refine ⟨?_, by rwa [hset]⟩
  intro fd e
  rw [hset, h.set, registeredFor_snoc]
  constructor
  · exact fun he => Or.inr ⟨(hop fd e).2.2, Or.inr ⟨fun e' => (hop fd e').2.1, he⟩⟩
  · rintro (⟨hinsert, -⟩ | ⟨-, ⟨hupdate, -⟩ | ⟨-, he⟩⟩)
    · exact absurd hinsert (hop fd e).1
    · exact absurd hupdate (hop fd e).2.1
    · exact he

theorem refresh_set (s : PollC) : s.refresh.m_pfd_set = s.m_pfd_set := by
  unfold PollC.refresh
  split <;> rfl

/-- Behind its refresh the array is what the set holds. -/
theorem Agrees.refresh (h : Agrees ops s) : interest s.refresh.m_pfd_array = interest s.m_pfd_set.elems := by
  unfold PollC.refresh
  split
  · rfl
  · rename_i hchanged
    exact h.array (Bool.eq_false_iff.mpr hchanged)

theorem interest_mapIdx (revents : Nat → Int16) (pfds : List Pollfd) :
    interest (pfds.mapIdx (fun i p => { p with revents := revents i })) = interest pfds := by
  apply List.ext_getElem
  · simp only [interest, List.length_map, List.length_mapIdx]
  · intro i _ _
    simp only [interest, List.getElem_map, List.getElem_mapIdx]

/-- **A call** is possible exactly where the asserts allow it, and keeps the agreement. -/
theorem Agrees.exec (h : Agrees ops s) (op : PollOp) :
    (op.Allowed ops ↔ (s.exec op).isSome = true) ∧ ∀ s', s.exec op = some s' → Agrees (ops ++ [op]) s' := by
  cases op with
  | insert fd events =>
      refine ⟨⟨fun _ => rfl, fun _ => trivial⟩, ?_⟩
      rintro s' ⟨⟩
      exact h.insert fd events
  | update fd events =>
      exact ⟨h.assert_iff fd _, fun s' hs => h.update hs⟩
  | remove fd =>
      exact ⟨h.assert_iff fd _, fun s' hs => h.remove hs⟩
  | process_changes =>
      refine ⟨⟨fun _ => rfl, fun _ => trivial⟩, ?_⟩
      rintro s' ⟨⟩
      exact h.snoc rfl (fun _ => rfl) (fun _ _ => ⟨nofun, nofun, nofun⟩)
  | ready answer =>
      refine ⟨⟨fun _ => rfl, fun _ => trivial⟩, ?_⟩
      rintro s' ⟨⟩
      refine h.snoc (refresh_set s) (fun _ => ?_) (fun _ _ => ⟨nofun, nofun, nofun⟩)
      exact (interest_mapIdx answer.revents _).trans h.refresh
  | print =>
      refine ⟨⟨fun _ => rfl, fun _ => trivial⟩, ?_⟩
      rintro s' ⟨⟩
      exact h.snoc (refresh_set s) (fun _ => h.refresh) (fun _ _ => ⟨nofun, nofun, nofun⟩)

/-! ## Runs -/

theorem allowed_nil : Allowed [] := by
  intro before op after h
  exact absurd h nil_ne_cut

theorem allowed_snoc : Allowed (ops ++ [op]) ↔ Allowed ops ∧ op.Allowed ops := by
  constructor
  · intro h
    refine ⟨?_, h ops op [] rfl⟩
    intro before op' after hcut
    exact h before op' (after ++ [op]) (snoc_eq_cut.mpr (Or.inr ⟨after, rfl, hcut⟩))
  · rintro ⟨hops, hop⟩ before op' after hcut
    rcases snoc_eq_cut.mp hcut with ⟨-, rfl, rfl⟩ | ⟨after', rfl, hcut'⟩
    · exact hop
    · exact hops before op' after' hcut'

theorem run_snoc (ops : List PollOp) (op : PollOp) :
    PollC.run (ops ++ [op]) = (PollC.run ops).bind (fun s => s.exec op) := Runs.run_snoc _ _ _

/-- **A run** is one without a failing assert exactly where the calls are allowed, and the agreement holds behind it. -/
theorem run_agrees (ops : List PollOp) :
    (Allowed ops ↔ (PollC.run ops).isSome = true) ∧ ∀ s, PollC.run ops = some s → Agrees ops s := by
  induction ops using List.reverseRecOn with
  | nil =>
      refine ⟨⟨fun _ => rfl, fun _ => allowed_nil⟩, ?_⟩
      rintro s ⟨⟩
      exact agrees_init
  | append_singleton ops op ih =>
      rw [allowed_snoc, ih.1, run_snoc]
      cases hrun : PollC.run ops with
      | none => exact ⟨⟨fun h => absurd h.1 nofun, nofun⟩, nofun⟩
      | some s =>
          obtain ⟨hallowed, hagrees⟩ := (ih.2 s hrun).exec op
          exact ⟨⟨fun h => hallowed.mp h.2, fun h => ⟨rfl, hallowed.mpr h⟩⟩, hagrees⟩

/-- What is to be handed to `poll` behind `ops`. -/
structure Exact (ops : List PollOp) (pfds : List Pollfd) : Prop where
  ascending : pfds.Pairwise (fun p q => p.fd < q.fd)
  entries : ∀ fd e, (∃ p ∈ pfds, p.fd = fd ∧ p.events = e) ↔ RegisteredFor ops fd e

theorem exists_entry_iff {pfds : List Pollfd} :
    (∃ p ∈ pfds, p.fd = fd ∧ p.events = e) ↔ (fd, e) ∈ interest pfds := by
  rw [interest, List.mem_map]
  simp only [Prod.mk.injEq]

theorem ascending_iff {pfds : List Pollfd} :
    pfds.Pairwise (fun p q => p.fd < q.fd) ↔ (interest pfds).Pairwise (fun x y => x.1 < y.1) := by
  rw [interest, List.pairwise_map]

/-- **Every array that `poll` is handed**, whatever was called before: one entry for each registered descriptor, in
ascending order, with the events it is registered for. No assert fails on the way. -/
theorem polls_what_is_registered (ops : List PollOp) (hops : Allowed ops) (answer : PollAnswer) :
    ∃ s, PollC.run ops = some s ∧ Exact ops (s.ready answer).handed := by
  obtain ⟨s, hs⟩ := Option.isSome_iff_exists.mp ((run_agrees ops).1.mp hops)
  have h := (run_agrees ops).2 s hs
  refine ⟨s, hs, ?_, ?_⟩
  · rw [PollC.ready, ascending_iff, h.refresh, ← ascending_iff]
    exact s.m_pfd_set.sorted
  · intro fd e
    rw [PollC.ready, exists_entry_iff, h.refresh, ← exists_entry_iff]
    exact h.set fd e

/-- Repeated insertions, an update between two polls, and a descriptor that is inserted again. -/
theorem polls_what_is_registered_run :
    ∃ s, PollC.run [.insert 4 1, .insert (-2) 0, .insert 4 2, .ready ⟨0, fun _ => 0⟩, .update (-2) 5, .remove 4, .print,
        .insert 4 8] = some s ∧
      Exact [.insert 4 1, .insert (-2) 0, .insert 4 2, .ready ⟨0, fun _ => 0⟩, .update (-2) 5, .remove 4, .print,
        .insert 4 8] (s.ready ⟨1, fun _ => 1⟩).handed :=
  polls_what_is_registered _ ((run_agrees _).1.mpr rfl) ⟨1, fun _ => 1⟩

end Cclsys
end Cclib
