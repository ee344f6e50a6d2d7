import Cclib.Cclsys.Poll

/-!
# `Cclwebs.Polling` — the descriptors of a websocket context

libwebsockets keeps a table of the descriptors it waits for, and tells the context each change of it with a callback.
`http_func` writes the changes into a set of its own, from which the application takes what it polls. A descriptor that is
added while it is in the set keeps its old entry, and one whose mode changes must be in the set.

## Contents
- `PollReason`, `PollArgs`, `http_func`, `retrieve_poll_fds`.
- `Table`, `Table.tell`, `Waiting`, `step`.
- `Mirrors`: the set and the table; `http_func_mirrors`: what one callback keeps.
- `webs_polled_iff`.
-/

namespace Cclib
namespace Cclwebs

open Cclsys Runs

/-- `libwebsocket_callback_reasons`, as far as `http_func` looks at them. -/
inductive PollReason where
  | add
  | del
  | changeMode
  | other
deriving DecidableEq

/-- `libwebsocket_pollargs` -/
structure PollArgs where
  fd : Int
  events : Int

/-! ## The functions -/

/-- `context_c::http_func` on `m_pfd_set`; `none` where its assert fails. -/
def http_func (reason : PollReason) (args : PollArgs) (m_pfd_set : KeyedSet Pollfd.fd) :
    Option (KeyedSet Pollfd.fd) :=
  let pfd : Pollfd := ⟨args.fd, Int16.ofInt args.events, 0⟩
  match reason with
  | .add => some (m_pfd_set.insert pfd)
  | .del => some (m_pfd_set.erase pfd.fd)
  | .changeMode =>
    if (m_pfd_set.find pfd.fd).isSome then
      some (m_pfd_set.modify pfd.fd (fun p => { p with events := pfd.events }) (fun _ => rfl))
    else none
  | .other => some m_pfd_set

/-- `context_c::retrieve_poll_fds` -/
def retrieve_poll_fds (m_pfd_set : KeyedSet Pollfd.fd) (a_poll_fds : List Pollfd) : List Pollfd :=
  m_pfd_set.elems ++ a_poll_fds

/-! ## What libwebsockets waits for -/

/-- The events that libwebsockets waits for on each descriptor of its table. -/
abbrev Table := Int → Option Int

/-- What a callback says about the table. -/
def Table.tell (table : Table) (reason : PollReason) (args : PollArgs) : Table := fun fd =>
  if fd = args.fd then
    match reason with
    | .add => some args.events
    | .del => none
    | .changeMode => some args.events
    | .other => table fd
  else table fd

/-- The context, with its set as long as no assert has failed, and libwebsockets. -/
structure Waiting where
  m_pfd_set : Option (KeyedSet Pollfd.fd)
  table : Table

def Waiting.start : Waiting := ⟨some (KeyedSet.empty Pollfd.fd), fun _ => none⟩

/-- A callback. -/
def step (s : Waiting) (call : PollReason × PollArgs) : Option Waiting :=
  some ⟨s.m_pfd_set.bind (http_func call.1 call.2), s.table.tell call.1 call.2⟩

/-- The application can poll, and whatever else it polls, there is one entry for each descriptor in the table, in
    ascending order, with the events of the table. -/
def Polls (s : Waiting) : Prop := ∃ set, s.m_pfd_set = some set ∧ ∀ a_poll_fds, ∃ entries,
  retrieve_poll_fds set a_poll_fds = entries ++ a_poll_fds ∧ entries.Pairwise (fun p q => p.fd < q.fd) ∧
    ∀ p, p ∈ entries ↔ ∃ e, s.table p.fd = some e ∧ p.events = Int16.ofInt e ∧ p.revents = 0

/-- A descriptor that is added is not in the table, or is there with the same events, and one whose mode changes is in
    the table. -/
def Told (s : Waiting) (call : PollReason × PollArgs) : Prop :=
  match call.1 with
  | .add => ∀ e, s.table call.2.fd = some e → Int16.ofInt e = Int16.ofInt call.2.events
  | .changeMode => s.table call.2.fd ≠ none
  | _ => True

variable {set set' : KeyedSet Pollfd.fd} {table : Table} {reason : PollReason} {args : PollArgs} {s s' : Waiting}

/-! ## The set and the table -/

/-- The set has what the table says. -/
def Mirrors (set : KeyedSet Pollfd.fd) (table : Table) : Prop :=
  ∀ p, p ∈ set ↔ ∃ e, table p.fd = some e ∧ p.events = Int16.ofInt e ∧ p.revents = 0

theorem mirrors_empty : Mirrors (KeyedSet.empty Pollfd.fd) (fun _ => none) := by
  intro p
  constructor
  · intro hp
    exact absurd hp KeyedSet.not_mem_empty
  · rintro ⟨e, he, -⟩
    exact absurd he.symm (Option.some_ne_none e)

theorem Mirrors.polls (h : Mirrors set table) : Polls ⟨some set, table⟩ :=
  ⟨set, rfl, fun _ => ⟨set.elems, rfl, set.sorted, h⟩⟩

theorem polls_iff : Polls s ↔ ∃ set, s.m_pfd_set = some set ∧ Mirrors set s.table := by
  constructor
  · rintro ⟨set, hset, hentries⟩
    obtain ⟨entries, heq, -, hmem⟩ := hentries []
    obtain rfl := List.append_cancel_right heq
    exact ⟨set, hset, hmem⟩
  · rintro ⟨set, hset, h⟩
    exact ⟨set, hset, fun _ => ⟨set.elems, rfl, set.sorted, h⟩⟩

/-- A descriptor is in the set exactly when it is in the table. -/
theorem Mirrors.find_isSome (h : Mirrors set table) (fd : Int) : (set.find fd).isSome = true ↔ table fd ≠ none := by
  rw [KeyedSet.find_isSome]
  constructor
  · rintro ⟨p, hp, rfl⟩
    obtain ⟨e, he, -⟩ := (h p).mp hp
    rw [he]
    exact Option.some_ne_none e
  · intro hfd
    obtain ⟨e, he⟩ := Option.ne_none_iff_exists'.mp hfd
    exact ⟨⟨fd, Int16.ofInt e, 0⟩, (h _).mpr ⟨e, he, rfl, rfl⟩, rfl⟩

/-- Elsewhere the table stays. -/
theorem tell_ne (table : Table) (reason : PollReason) (args : PollArgs) {fd : Int} (h : fd ≠ args.fd) :
    table.tell reason args fd = table fd := if_neg h

theorem tell_add (table : Table) (args : PollArgs) : table.tell .add args args.fd = some args.events := if_pos rfl

theorem tell_changeMode (table : Table) (args : PollArgs) : table.tell .changeMode args args.fd = some args.events :=
  if_pos rfl

theorem tell_del (table : Table) (args : PollArgs) : table.tell .del args args.fd = none := if_pos rfl

theorem tell_other (table : Table) (args : PollArgs) : table.tell .other args = table := by
  funext fd
  unfold Table.tell
  split <;> rfl

theorem Mirrors.add (h : Mirrors set table)
    (hadd : ∀ e, table args.fd = some e → Int16.ofInt e = Int16.ofInt args.events) :
    Mirrors (set.insert ⟨args.fd, Int16.ofInt args.events, 0⟩) (table.tell .add args) := by
  intro p
  rw [KeyedSet.mem_insert, h]
  by_cases hfd : p.fd = args.fd
  · rw [hfd, tell_add]
    constructor
    · rintro (⟨e, he, hev, hrev⟩ | ⟨rfl, -⟩)
      · exact ⟨args.events, rfl, hev.trans (hadd e he), hrev⟩
      · exact ⟨args.events, rfl, rfl, rfl⟩
    · rintro ⟨e, he, hev, hrev⟩
      obtain rfl := Option.some.inj he
      by_cases hin : table args.fd = none
      · -- a new entry
        refine Or.inr ⟨?_, ?_⟩
        · obtain ⟨fd, events, revents⟩ := p
          cases hfd
          cases hev
          cases hrev
          rfl
        · intro q hq hqfd
          obtain ⟨e, he, -⟩ := (h q).mp hq
          exact Option.some_ne_none e (he.symm.trans (hqfd ▸ hin))
      · obtain ⟨e, he⟩ := Option.ne_none_iff_exists'.mp hin
        exact Or.inl ⟨e, he, hev.trans (hadd e he).symm, hrev⟩
  · rw [tell_ne table .add args hfd]
    refine ⟨?_, Or.inl⟩
    rintro (hp | ⟨rfl, -⟩)
    · exact hp
    · exact absurd rfl hfd

theorem Mirrors.del (h : Mirrors set table) : Mirrors (set.erase args.fd) (table.tell .del args) := by
  intro p
  rw [KeyedSet.mem_erase, h]
  by_cases hfd : p.fd = args.fd
  · rw [hfd, tell_del]
    constructor
    · rintro ⟨-, hne⟩
      exact absurd rfl hne
    · rintro ⟨e, he, -⟩
      exact absurd he.symm (Option.some_ne_none e)
  · rw [tell_ne table .del args hfd]
    exact ⟨fun hp => hp.1, fun hp => ⟨hp, hfd⟩⟩

theorem Mirrors.changeMode (h : Mirrors set table) (hin : table args.fd ≠ none) :
    Mirrors (set.modify args.fd (fun p => { p with events := Int16.ofInt args.events }) (fun _ => rfl))
      (table.tell .changeMode args) := by
  intro p
  rw [mem_modify_events (s := ⟨true, set, []⟩)]
  by_cases hfd : p.fd = args.fd
  · rw [hfd, tell_changeMode]
    constructor
    · rintro (⟨-, hne⟩ | ⟨q, hq, -, rfl⟩)
      · exact absurd rfl hne
      · obtain ⟨e, -, -, hrev⟩ := (h q).mp hq
        exact ⟨args.events, rfl, rfl, hrev⟩
    · rintro ⟨e, he, hev, hrev⟩
      obtain rfl := Option.some.inj he
      obtain ⟨e, he⟩ := Option.ne_none_iff_exists'.mp hin
      refine Or.inr ⟨⟨args.fd, Int16.ofInt e, 0⟩, (h _).mpr ⟨e, he, rfl, rfl⟩, rfl, ?_⟩
      obtain ⟨fd, events, revents⟩ := p
      cases hfd
      cases hev
      cases hrev
      rfl
  · rw [tell_ne table .changeMode args hfd, ← h]
    constructor
    · rintro (⟨hp, -⟩ | ⟨q, -, hq, rfl⟩)
      · exact hp
      · exact absurd hq hfd
    · exact fun hp => Or.inl ⟨hp, hfd⟩

/-- **One callback** keeps the set and the table together exactly when it tells something that the set can follow. -/
theorem step_polls (hs : Polls s) (call : PollReason × PollArgs) (h : step s call = some s') :
    Polls s' ↔ Told s call := by
  obtain ⟨set, hset, hmirrors⟩ := polls_iff.mp hs
  obtain ⟨reason, args⟩ := call
  obtain rfl := Option.some.inj h
  rw [polls_iff, hset]
  cases reason with
  | add =>
      constructor
      · rintro ⟨set', hset', hmirrors'⟩
        obtain rfl := Option.some.inj hset'
        -- the old entry is the one that stays
        intro e he
        have hold : (⟨args.fd, Int16.ofInt e, 0⟩ : Pollfd) ∈ set := (hmirrors _).mpr ⟨e, he, rfl, rfl⟩
        obtain ⟨e', he', hev, -⟩ := (hmirrors' _).mp (KeyedSet.mem_insert.mpr (Or.inl hold))
        change s.table.tell .add args args.fd = _ at he'
        rw [tell_add] at he'
        obtain rfl := Option.some.inj he'
        exact hev
      · intro hadd
        exact ⟨_, rfl, hmirrors.add hadd⟩
  | del => exact iff_of_true ⟨_, rfl, hmirrors.del⟩ trivial
  | changeMode =>
      change (∃ set', (if (set.find args.fd).isSome then some _ else none) = some set' ∧ _) ↔ s.table args.fd ≠ none
      rw [← hmirrors.find_isSome]
      constructor
      · rintro ⟨set', hset', -⟩
        exact (Option.ite_none_right_eq_some.mp hset').1
      · intro hfound
        exact ⟨_, if_pos hfound, hmirrors.changeMode ((hmirrors.find_isSome args.fd).mp hfound)⟩
  | other =>
      refine iff_of_true ⟨set, rfl, ?_⟩ trivial
      change Mirrors set (s.table.tell .other args)
      rw [tell_other]
      exact hmirrors

/-- **What the application polls is what libwebsockets waits for**, and no assert fails, throughout every run of
    callbacks, exactly when no descriptor is added again with other events and no mode of a descriptor changes that has
    not been added. -/
theorem webs_polled_iff (calls : List (PollReason × PollArgs)) :
    Throughout step Polls Waiting.start calls ↔ Along step Told Waiting.start calls :=
  throughout_iff_along (fun _ hs => hs) (fun _ call _ hs hgood h => (step_polls hs call h).mpr hgood)
    (fun _ call _ hs h hs' => (step_polls hs call h).mp hs') mirrors_empty.polls

end Cclwebs
end Cclib
