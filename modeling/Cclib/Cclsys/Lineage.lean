import Cclib.Cclsys.System

/-!
# `Cclsys.Lineage` — where the value of a member comes from

`Obtained history x n`: resource `n` was handed out to object `x`, or to one it was moved from, and so on.
Every object holds what it obtained in this sense, apart from one way to make a `socket_c`: an `accept` that finds
no pending connection returns one with `m_fd` 0. `sockets_sound_iff`: a process closes only descriptors that it
obtained, exactly when that does not happen.
-/

namespace Cclib
namespace Cclsys

open Ownership Runs

/-- Resource `n` was handed out to object `x` or to one it was moved from. -/
def Obtained : List Event → Nat → Nat → Prop
  | [], _, _ => False
  | .acquired x n :: history, y, m => (x = y ∧ n = m) ∨ Obtained history y m
  | .moved x y :: history, z, m => (y = z ∧ Obtained history x m) ∨ Obtained history z m
  | _ :: history, x, n => Obtained history x n

variable {history : List Event} {x y n : Nat} {p : Class → Bool}

theorem Obtained.log (h : Obtained history x n) (e : Event) : Obtained (e :: history) x n := by
  cases e with
  | acquired y m => exact .inr h
  | moved y z => exact .inr h
  | released call y k => exact h
  | waited y pid => exact h
  | killed y pid => exact h
  | reaped m => exact h

theorem obtained_acquired : Obtained (.acquired x n :: history) x n := .inl ⟨rfl, rfl⟩

theorem Obtained.moved (h : Obtained history x n) (y : Nat) : Obtained (.moved x y :: history) y n := .inl ⟨rfl, h⟩

/-- The objects of the classes of interest hold what they obtained. -/
def OwnsObtained (p : Class → Bool) (s : System) : Prop :=
  ∀ x o h, get s.objects x = some o → p o.kind = true → o.handle = some h →
    ∃ n, h = .of n ∧ Obtained s.history x n

namespace OwnsObtained

variable {s : System} {cls : Class} {r : Resource}

/-- It is enough to look at the objects that have a handle, and that each had it before. -/
theorem of_kept (hs : OwnsObtained p s) {s' : System}
    (hobjects : ∀ z o h, get s'.objects z = some o → o.handle = some h → get s.objects z = some o)
    (hhistory : ∃ es, s'.history = es ++ s.history) : OwnsObtained p s' := by
  intro z o h ho hp hh
  obtain ⟨n, hn, hobt⟩ := hs z o h (hobjects z o h ho hh) hp hh
  obtain ⟨es, hes⟩ := hhistory
  refine ⟨n, hn, ?_⟩
  rw [hes]
  clear hes
  induction es with
  | nil => exact hobt
  | cons e es ih => exact ih.log e

theorem log (hs : OwnsObtained p s) (e : Event) : OwnsObtained p (s.log e) :=
  hs.of_kept (fun _ _ _ ho _ => ho) ⟨[e], rfl⟩

theorem setHandle_none (hs : OwnsObtained p s) (x : Nat) : OwnsObtained p (s.setHandle x none) := by
  refine hs.of_kept (fun z o h ho hh => ?_) ⟨[], rfl⟩
  unfold System.setHandle at ho
  rw [get_setHandle] at ho
  split at ho
  · obtain ⟨o', -, rfl⟩ := Option.map_eq_some_iff.mp ho
    simp at hh
  · exact ho

theorem destroy (hs : OwnsObtained p s) (x : Nat) : OwnsObtained p (s.destroy x) := by
  refine hs.of_kept (fun z o h ho _ => ?_) ⟨[], rfl⟩
  unfold System.destroy at ho
  rw [get_destroy] at ho
  split at ho
  · simp at ho
  · exact ho

theorem acquire (hs : OwnsObtained p s) : OwnsObtained p (s.acquire cls r) := by
  intro z o h ho hp hh
  unfold System.acquire at ho
  rw [get_new] at ho
  split at ho
  · rename_i hz
    obtain rfl := Option.some.inj ho
    obtain rfl := Option.some.inj hh
    exact ⟨_, rfl, hz ▸ obtained_acquired⟩
  · obtain ⟨n, hn, hobt⟩ := hs z o h ho hp hh
    exact ⟨n, hn, hobt.log _⟩

theorem moveConstruct (hs : OwnsObtained p s) {x : Nat} {os : Objects Class Handle}
    (hm : Ownership.moveConstruct s.objects x = some os) :
    OwnsObtained p ({ s with objects := os }.log (.moved x s.objects.length)) := by
  intro z o h ho hp hh
  rcases get_moveConstruct hm ho hh with ⟨rfl, ho'⟩ | ho
  · obtain ⟨n, hn, hobt⟩ := hs x o h ho' hp hh
    exact ⟨n, hn, hobt.moved _⟩
  · obtain ⟨n, hn, hobt⟩ := hs z o h ho hp hh
    exact ⟨n, hn, hobt.log _⟩

theorem moveAssign (hs : OwnsObtained p s) {x y : Nat} {os : Objects Class Handle}
    (hm : Ownership.moveAssign s.objects x y = some os) :
    OwnsObtained p ({ s with objects := os }.log (.moved y x)) := by
  intro z o h ho hp hh
  rcases get_moveAssign hm ho hh with ⟨rfl, ho'⟩ | ho
  · obtain ⟨n, hn, hobt⟩ := hs y o h ho' hp hh
    exact ⟨n, hn, hobt.moved _⟩
  · obtain ⟨n, hn, hobt⟩ := hs z o h ho hp hh
    exact ⟨n, hn, hobt.log _⟩

theorem waitpid (hs : OwnsObtained p s) (x : Nat) (noHang : Bool) (exits : List Nat) :
    OwnsObtained p (s.waitpid x noHang exits).1 := by
  have hwaiting : OwnsObtained p (s.waiting x exits) := hs.of_kept (fun _ _ _ ho _ => ho) ⟨[_], rfl⟩
  rcases s.waitpid_cases x noHang exits with h | ⟨n, h⟩ <;> rw [h]
  · exact hwaiting
  · exact hwaiting.log _

theorem kill (hs : OwnsObtained p s) (x : Nat) : OwnsObtained p (s.kill x) := hs.log _

theorem terminate (hs : OwnsObtained p s) (x : Nat) (t : Timing) : OwnsObtained p (s.terminate x t) := by
  rw [System.terminate_eq]
  have h₁ := hs.waitpid x true t.before
  split
  · split
    · exact ((h₁.kill x).waitpid x false t.after).setHandle_none x
    · exact h₁.kill x
  · exact h₁

theorem destroyPid (hs : OwnsObtained p s) (x : Nat) (t : Timing) : OwnsObtained p (s.destroyPid x t) := by
  rw [System.destroyPid_eq]
  have h₁ := hs.waitpid x true t.before
  split
  · split
    · split
      · exact ((h₁.kill x).waitpid x false t.after).destroy x
      · exact (h₁.kill x).destroy x
    · exact h₁.destroy x
  · exact hs.destroy x

end OwnsObtained

/-! ## A step -/

namespace OwnsObtained

variable {s : System}

/-- One operation. -/
theorem exec (hs : OwnsObtained p s) {op : Op} {s' : System} (hp : p .socket = true → ¬ FindsNothing s op)
    (he : s.exec op = some s') : OwnsObtained p s' := by
  have hinit : FindsNothing s op → OwnsObtained p s.valueInit := by
    intro hfinds z o h ho hpo hh
    have ho' : get (new s.objects ⟨.socket, some .standard⟩) z = some o := ho
    rw [get_new] at ho'
    split at ho'
    · obtain rfl := Option.some.inj ho'
      exact absurd hfinds (hp hpo)
    · exact hs z o h ho' hpo hh
  cases System.exec_does he with
  | threw => exact hs
  | acquired => exact hs.acquire
  | moveConstruct x os hos => exact hs.moveConstruct hos
  | moveAssign x y os _ hos => exact hs.moveAssign hos
  | closeFailed => exact hs.log _
  | closed x => exact (hs.log _).setHandle_none x
  | foundNothing hfinds => exact hinit hfinds
  | droppedNothing hfinds => exact ((hinit hfinds).log _).destroy _
  | foundForeign => exact hs.of_kept (fun _ _ _ ho _ => ho) ⟨[], rfl⟩
  | dropped => exact (hs.acquire.log _).destroy _
  | waited x noHang exits => exact (hs.waitpid x noHang exits).setHandle_none x
  | terminated x t => exact hs.terminate x t
  | destroyed x => exact (hs.log _).destroy x
  | destroyedEmpty x => exact hs.destroy x
  | destroyedPid x t => exact hs.destroyPid x t

end OwnsObtained

/-! ## Descriptors -/

/-- Every descriptor passed to `close` was obtained by the object that passes it. -/
def ClosesOwn : List Event → Prop
  | .released .close x h :: history => (∃ n, h = .of n ∧ Obtained history x n) ∧ ClosesOwn history
  | _ :: history => ClosesOwn history
  | [] => True

/-- Sockets hold and close only descriptors that they, or sockets they were moved from, obtained. -/
structure SocketsSound (s : System) : Prop where
  held : OwnsObtained (· = .socket) s
  closed : ClosesOwn s.history

theorem ClosesOwn.log {history : List Event} (h : ClosesOwn history) {e : Event}
    (he : ∀ x k, e = .released .close x k → ∃ n, k = .of n ∧ Obtained history x n) : ClosesOwn (e :: history) := by
  cases e with
  | released call x k =>
      cases call with
      | close => exact ⟨he x k rfl, h⟩
      | fclose => exact h
      | pclose => exact h
  | acquired x n => exact h
  | moved x y => exact h
  | waited x pid => exact h
  | killed x pid => exact h
  | reaped n => exact h

namespace SocketsSound

variable {s s' : System} {op : Op}

theorem obtained (hs : SocketsSound s) {x : Nat} {h : Handle} (hcls : s.cls x = some .socket) (hx : s.handle x = some h) :
    ∃ n, h = .of n ∧ Obtained s.history x n := by
  obtain ⟨o, ho, hk⟩ := Option.map_eq_some_iff.mp hcls
  obtain ⟨o', ho', hh⟩ := Option.bind_eq_some_iff.mp hx
  obtain rfl := Option.some.inj (ho.symm.trans ho')
  exact hs.held x o h ho (by simp [hk]) hh

/-- A call of `close` by an object that has the handle. -/
theorem closed_log (hs : SocketsSound s) {call : Call} {x : Nat} {h : Handle} (hx : s.handle x = some h)
    (hcls : s.cls x = some call.cls) : ClosesOwn (.released call x h :: s.history) := by
  apply hs.closed.log
  intro y k heq
  obtain ⟨rfl, rfl, rfl⟩ := Event.released.inj heq
  exact hs.obtained hcls hx

theorem closed_waitpid (hs : ClosesOwn s.history) (x : Nat) (noHang : Bool) (exits : List Nat) :
    ClosesOwn (s.waitpid x noHang exits).1.history := by
  rcases s.waitpid_cases x noHang exits with h | ⟨n, h⟩ <;> rw [h]
  · exact hs
  · exact hs

theorem closed_terminate (hs : ClosesOwn s.history) (x : Nat) (t : Timing) : ClosesOwn (s.terminate x t).history := by
  rw [System.terminate_eq]
  have h₁ := closed_waitpid hs x true t.before
  split
  · split
    · exact closed_waitpid (s := (s.waitpid x true t.before).1.kill x) h₁ x false t.after
    · exact h₁
  · exact h₁

theorem closed_destroyPid (hs : ClosesOwn s.history) (x : Nat) (t : Timing) : ClosesOwn (s.destroyPid x t).history := by
  rw [System.destroyPid_eq]
  have h₁ := closed_waitpid hs x true t.before
  split
  · split
    · split
      · exact closed_waitpid (s := (s.waitpid x true t.before).1.kill x) h₁ x false t.after
      · exact h₁
    · exact h₁
  · exact hs

theorem exec (hs : SocketsSound s) (hfinds : ¬ FindsNothing s op) (he : s.exec op = some s') : SocketsSound s' := by
  refine ⟨hs.held.exec (fun _ => hfinds) he, ?_⟩
  cases System.exec_does he with
  | threw => exact hs.closed
  | acquired => exact hs.closed
  | moveConstruct => exact hs.closed
  | moveAssign => exact hs.closed
  | closeFailed x call h hx hcls => exact hs.closed_log hx hcls
  | closed x call h hx hcls => exact hs.closed_log hx hcls
  | foundNothing h => exact absurd h hfinds
  | droppedNothing h => exact absurd h hfinds
  | foundForeign => exact hs.closed
  | dropped => exact ⟨⟨_, rfl, obtained_acquired⟩, hs.closed⟩
  | waited x noHang exits => exact closed_waitpid hs.closed x noHang exits
  | terminated x t => exact closed_terminate hs.closed x t
  | destroyed x call h hx hcls => exact hs.closed_log hx hcls
  | destroyedEmpty => exact hs.closed
  | destroyedPid x t => exact closed_destroyPid hs.closed x t

/-- A value-initialised socket holds a descriptor that nobody handed out. -/
theorem not_valueInit : ¬ SocketsSound s.valueInit := by
  intro h
  obtain ⟨n, hn, -⟩ := h.held s.objects.length ⟨.socket, some .standard⟩ .standard
    (by unfold System.valueInit; rw [get_new, if_pos rfl]) rfl rfl
  simp at hn

theorem finds_something (he : s.exec op = some s') (hs' : SocketsSound s') : ¬ FindsNothing s op := by
  intro hfinds
  obtain ⟨⟨t, out⟩, ho, rfl⟩ := Option.map_eq_some_iff.mp he
  cases op with
  | accept x a =>
      obtain ⟨hx, rfl⟩ := hfinds
      obtain ⟨h, hx⟩ := Option.ne_none_iff_exists'.mp hx
      obtain ⟨-, ho⟩ := Option.ite_none_right_eq_some.mp ho
      simp only [System.accept, hx] at ho
      rw [← congrArg Prod.fst (Option.some.inj ho)] at hs'
      exact not_valueInit hs'
  | acceptNonblock x on a off =>
      obtain ⟨rfl, hx, rfl⟩ := hfinds
      obtain ⟨h, hx⟩ := Option.ne_none_iff_exists'.mp hx
      obtain ⟨-, ho⟩ := Option.ite_none_right_eq_some.mp ho
      simp only [System.acceptNonblock, System.accept, hx, if_true] at ho
      rw [← congrArg Prod.fst (Option.some.inj ho)] at hs'
      cases off with
      | true => exact not_valueInit hs'
      | false =>
          have hnew : s.valueInit.handle s.objects.length = some .standard := System.handle_new
          have hs' : SocketsSound (s.valueInit.destroySocket s.objects.length) := hs'
          unfold System.destroySocket at hs'
          rw [hnew] at hs'
          obtain ⟨n, hn, -⟩ := hs'.closed.1
          simp at hn
  | _ => exact hfinds

end SocketsSound

theorem socketsSound_empty : SocketsSound System.empty :=
  ⟨fun x o h ho => by simp [System.empty, Ownership.get] at ho, trivial⟩

/-- **Sockets close only descriptors they acquired**, throughout a run, exactly when no `accept` in it finds no pending
    connection. -/
theorem sockets_sound_iff (ops : List Op) : Throughout System.exec SocketsSound System.empty ops
    ↔ Along System.exec (fun s op => ¬ FindsNothing s op) System.empty ops :=
  throughout_iff_along (fun _ h => h) (fun _ _ _ hs hgood he => hs.exec hgood he)
    (fun _ _ _ _ he hs' => SocketsSound.finds_something he hs') socketsSound_empty

/-- A listening socket, an `accept_nonblock` without a pending connection, and the destructor of what it returns: 0 is
    closed. -/
theorem accept_nonblock_closes_standard : ∃ s, run System.exec System.empty
      [.socketC true, .acceptNonblock 0 true .again true, .destroy 1 ⟨[], true, []⟩] = some s
    ∧ s.history = [.released .close 1 .standard, .acquired 0 0] ∧ ¬ SocketsSound s := by
  refine ⟨_, rfl, rfl, fun h => ?_⟩
  obtain ⟨n, hn, -⟩ := h.closed.1
  simp at hn

end Cclsys
end Cclib
