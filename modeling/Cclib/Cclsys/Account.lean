import Cclib.Cclsys.System

/-!
# `Cclsys.Account` — which resources are held and which have been given back

`ids p s` lists the resources that the objects of some classes hold, `releasedIds` those that were passed to `fclose`,
`pclose` or `close`. Moves and closes shift numbers between the two; the results here say what the parts of an
operation do to them, up to order.

`released_once`: nothing is given back twice as long as no `close` reports failure, for a failing `close` leaves the
handle in the object. Runs in which an `accept` makes up a socket with descriptor 0 are left out.
-/

namespace Cclib
namespace Cclsys

open Ownership Runs

/-- The resources that the objects of the classes of interest hold. -/
def ids (p : Class → Bool) (s : System) : List Nat := (held p s.objects).filterMap Handle.id

/-- The resource that object `x` holds, if its class is of interest. -/
def idsOf (p : Class → Bool) (s : System) (x : Nat) : List Nat := (heldBy p (Ownership.get s.objects x)).filterMap Handle.id

variable {p : Class → Bool} {s : System} {x y : Nat}

theorem ids_log (e : Event) : ids p (s.log e) = ids p s := rfl

theorem handle_eq_some {h : Handle} : s.handle x = some h ↔ ∃ o, Ownership.get s.objects x = some o ∧ o.handle = some h :=
  Option.bind_eq_some_iff

theorem cls_eq_some {c : Class} : s.cls x = some c ↔ ∃ o, Ownership.get s.objects x = some o ∧ o.kind = c :=
  Option.map_eq_some_iff

theorem idsOf_of_handle {h : Handle} {c : Class} (hx : s.handle x = some h) (hc : s.cls x = some c) :
    idsOf p s x = if p c = true then h.id.toList else [] := by
  obtain ⟨o, ho, hh⟩ := handle_eq_some.mp hx
  obtain ⟨o', ho', rfl⟩ := cls_eq_some.mp hc
  obtain rfl := Option.some.inj (ho.symm.trans ho')
  unfold idsOf heldBy
  rw [ho]
  dsimp only
  split
  · rw [hh]
    cases h <;> rfl
  · rfl

theorem idsOf_of_empty (hx : ∀ n, s.handle x ≠ some (.of n)) : idsOf p s x = [] := by
  unfold idsOf heldBy
  cases ho : Ownership.get s.objects x with
  | none => rfl
  | some o =>
      dsimp only
      split
      · cases hh : o.handle with
        | none => rfl
        | some h =>
            cases h with
            | of n => exact absurd (handle_eq_some.mpr ⟨o, ho, hh⟩) (hx n)
            | standard => rfl
      · rfl

theorem ids_acquire {c : Class} {r : Resource} :
    ids p (s.acquire c r) = ids p s ++ if p c = true then [s.resources.length] else [] := by
  unfold ids System.acquire
  rw [held_new, List.filterMap_append]
  congr 1
  unfold heldBy
  dsimp only
  split <;> rfl

theorem ids_valueInit : ids p s.valueInit = ids p s := by
  unfold ids System.valueInit
  rw [held_new, List.filterMap_append]
  unfold heldBy
  dsimp only
  split <;> simp [Handle.id]

theorem ids_setHandle_none : (idsOf p s x ++ ids p (s.setHandle x none)).Perm (ids p s) := by
  have hp : (heldBy p (Ownership.get s.objects x) ++ held p (Ownership.setHandle s.objects x none)).Perm
      (held p s.objects) := perm_clear
  have hids := hp.filterMap Handle.id
  rwa [List.filterMap_append] at hids

theorem ids_destroy : (idsOf p s x ++ ids p (s.destroy x)).Perm (ids p s) := by
  have hp : (heldBy p (Ownership.get s.objects x) ++ held p (Ownership.destroy s.objects x)).Perm
      (held p s.objects) := perm_destroy
  have hids := hp.filterMap Handle.id
  rwa [List.filterMap_append] at hids

theorem ids_moveConstruct {os : Objects Class Handle} (hm : Ownership.moveConstruct s.objects x = some os) (e : Event) :
    (ids p ({ s with objects := os }.log e)).Perm (ids p s) := (perm_moveConstruct hm).filterMap Handle.id

theorem ids_moveAssign {os : Objects Class Handle} (hm : Ownership.moveAssign s.objects x y = some os) (e : Event) :
    (idsOf p s x ++ ids p ({ s with objects := os }.log e)).Perm (ids p s) := by
  obtain ⟨o, ho, -⟩ := Option.bind_eq_some_iff.mp hm
  have hp := (perm_moveAssign (p := p) hm ho).filterMap Handle.id
  rw [List.filterMap_append] at hp
  unfold idsOf
  rw [ho]
  exact hp

/-- A value-initialised socket that is destroyed again held nothing. -/
theorem ids_droppedNothing :
    (ids p ((s.valueInit.log (.released .close s.objects.length .standard)).destroy s.objects.length)).Perm (ids p s) := by
  let s₁ := s.valueInit.log (.released .close s.objects.length .standard)
  have hx : s₁.handle s.objects.length = some .standard := System.handle_new
  have hd := ids_destroy (p := p) (x := s.objects.length) (s := s₁)
  rwa [idsOf_of_empty (by simp [hx]), ids_log, ids_valueInit] at hd

/-- A connection that is destroyed again is held by nobody. -/
theorem ids_dropped : (ids p (((s.acquire .socket .descriptor).log
    (.released .close s.objects.length (.of s.resources.length))).destroy s.objects.length)).Perm (ids p s) := by
  let s₁ := (s.acquire .socket .descriptor).log (.released .close s.objects.length (.of s.resources.length))
  have hx : s₁.handle s.objects.length = some (.of s.resources.length) := System.handle_new
  have hcls : s₁.cls s.objects.length = some .socket := by
    unfold System.cls
    show (Ownership.get (new s.objects _) _).map Slot.kind = _
    rw [get_new, if_pos rfl]
    rfl
  have hd := ids_destroy (p := p) (x := s.objects.length) (s := s₁)
  rw [idsOf_of_handle hx hcls, ids_log, ids_acquire] at hd
  split at hd
  · exact (List.perm_cons _).mp (hd.trans List.perm_append_comm)
  · rwa [List.append_nil] at hd

theorem releasedIds_waitpid (noHang : Bool) (exits : List Nat) :
    releasedIds (s.waitpid x noHang exits).1.history = releasedIds s.history := by
  rcases s.waitpid_cases x noHang exits with h | ⟨n, h⟩ <;> rw [h] <;> rfl

theorem ids_waitpid (noHang : Bool) (exits : List Nat) : ids p (s.waitpid x noHang exits).1 = ids p s := by
  unfold ids
  rw [System.waitpid_objects]

/-- Operations that give no stream or descriptor back, but may lose something. -/
structure Loses (p : Class → Bool) (s s' : System) (lost : List Nat) : Prop where
  ids : (lost ++ ids p s').Perm (ids p s)
  released : releasedIds s'.history = releasedIds s.history
  resources : s'.resources = s.resources

theorem Loses.waitpid (s : System) (x : Nat) (noHang : Bool) (exits : List Nat) :
    Loses p s (s.waitpid x noHang exits).1 [] :=
  ⟨by rw [ids_waitpid]; exact List.Perm.refl _, releasedIds_waitpid noHang exits, System.waitpid_resources noHang exits⟩

theorem Loses.kill (s : System) (x : Nat) : Loses p s (s.kill x) [] := ⟨List.Perm.refl _, rfl, rfl⟩

theorem Loses.setHandle_none (s : System) (x : Nat) : Loses p s (s.setHandle x none) (idsOf p s x) :=
  ⟨ids_setHandle_none, rfl, rfl⟩

theorem Loses.destroy (s : System) (x : Nat) : Loses p s (s.destroy x) (idsOf p s x) := ⟨ids_destroy, rfl, rfl⟩

theorem Loses.after {s' s'' : System} {lost : List Nat} (h : Loses p s s' []) (h' : Loses p s' s'' lost) :
    Loses p s s'' lost :=
  ⟨h'.ids.trans h.ids, h'.released.trans h.released, h'.resources.trans h.resources⟩

theorem idsOf_of_objects {s' : System} (h : s'.objects = s.objects) : idsOf p s' x = idsOf p s x := by
  unfold idsOf
  rw [h]

theorem loses_wait (noHang : Bool) (exits : List Nat) : Loses p s (s.wait x noHang exits) (idsOf p s x) := by
  unfold System.wait
  rw [← idsOf_of_objects (System.waitpid_objects noHang exits)]
  exact (Loses.waitpid s x noHang exits).after (.setHandle_none _ x)

/-- After the first `waitpid` and `kill` the objects are the same. -/
theorem idsOf_kill (t : Timing) : idsOf p ((s.waitpid x true t.before).1.kill x) x = idsOf p s x :=
  idsOf_of_objects (System.waitpid_objects true t.before)

theorem loses_terminate (t : Timing) : ∃ lost, Loses p s (s.terminate x t) lost := by
  rw [System.terminate_eq]
  have h₁ := (Loses.waitpid (p := p) s x true t.before).after (.kill _ x)
  split
  · split
    · exact ⟨_, (h₁.after (.waitpid _ x false t.after)).after (.setHandle_none _ x)⟩
    · exact ⟨[], h₁⟩
  · exact ⟨[], .waitpid s x true t.before⟩

theorem loses_destroyPid (t : Timing) : Loses p s (s.destroyPid x t) (idsOf p s x) := by
  rw [System.destroyPid_eq]
  have h₁ := (Loses.waitpid (p := p) s x true t.before).after (.kill _ x)
  split
  · split
    · split
      · rw [← idsOf_kill t, ← idsOf_of_objects (System.waitpid_objects false t.after)]
        exact (h₁.after (.waitpid _ x false t.after)).after (.destroy _ x)
      · rw [← idsOf_kill t]
        exact h₁.after (.destroy _ x)
    · rw [← idsOf_of_objects (System.waitpid_objects true t.before)]
      exact (Loses.waitpid s x true t.before).after (.destroy _ x)
  · exact .destroy s x

theorem mem_ids {n : Nat} : n ∈ ids p s ↔ ∃ x o, Ownership.get s.objects x = some o ∧ p o.kind = true
    ∧ o.handle = some (.of n) := by
  unfold ids
  rw [List.mem_filterMap]
  constructor
  · rintro ⟨h, hh, hn⟩
    obtain ⟨x, o, ho, hp, ho'⟩ := mem_held.mp hh
    cases h with
    | of m =>
        obtain rfl := Option.some.inj hn
        exact ⟨x, o, ho, hp, ho'⟩
    | standard => simp [Handle.id] at hn
  · rintro ⟨x, o, ho, hp, hn⟩
    exact ⟨.of n, mem_held.mpr ⟨x, o, ho, hp, hn⟩, rfl⟩

/-! ## Giving back -/

/-- What is held and what is gone are different resources, each once. -/
structure Apart (p : Class → Bool) (gone : List Event → List Nat) (s : System) : Prop where
  nodup : (ids p s ++ gone s.history).Nodup
  old : ∀ n ∈ ids p s ++ gone s.history, n < s.resources.length

namespace Apart

variable {gone : List Event → List Nat} {s' : System}

theorem of_perm (hs : Apart p gone s) (lost : List Nat)
    (hp : (lost ++ (ids p s' ++ gone s'.history)).Perm (ids p s ++ gone s.history))
    (hlen : s.resources.length ≤ s'.resources.length) : Apart p gone s' := by
  constructor
  · exact (List.nodup_append.mp (hp.nodup_iff.mpr hs.nodup)).2.1
  · intro n hn
    exact Nat.lt_of_lt_of_le (hs.old n (hp.mem_iff.mp (List.mem_append_right lost hn))) hlen

/-- A new resource that is held, or is gone right away. -/
theorem of_new (hs : Apart p gone s) (hp : (ids p s' ++ gone s'.history).Perm
      (s.resources.length :: (ids p s ++ gone s.history)))
    (hlen : s'.resources.length = s.resources.length + 1) : Apart p gone s' := by
  constructor
  · refine hp.nodup_iff.mpr (List.nodup_cons.mpr ⟨fun hmem => ?_, hs.nodup⟩)
    exact absurd (hs.old _ hmem) (Nat.lt_irrefl _)
  · intro n hn
    rcases List.mem_cons.mp (hp.mem_iff.mp hn) with rfl | hn
    · omega
    · have := hs.old n hn
      omega

/-- What is held is not gone. -/
theorem not_gone (hs : Apart p gone s) {n : Nat} (hn : n ∈ ids p s) : n ∉ gone s.history :=
  fun hgone => (List.nodup_append.mp hs.nodup).2.2 n hn n hgone rfl

end Apart

/-- Streams, pipes and sockets. -/
def notPid (c : Class) : Bool := c ≠ .pid

theorem notPid_call (call : Call) : notPid call.cls = true := by
  cases call <;> rfl

/-- Streams, pipes and descriptors are held or were given back, each once. -/
abbrev NeverTwice (s : System) : Prop := Apart notPid releasedIds s

namespace NeverTwice

variable {s' : System}

theorem loses (hs : NeverTwice s) {lost : List Nat} (h : Loses notPid s s' lost) : NeverTwice s' := by
  refine hs.of_perm lost ?_ (Nat.le_of_eq (congrArg List.length h.resources.symm))
  rw [h.released, ← List.append_assoc]
  exact h.ids.append_right _

/-- The object that makes the call loses its handle. -/
theorem gives_back (hs : NeverTwice s) {x : Nat} {call : Call} {h : Handle} (hx : s.handle x = some h)
    (hcls : s.cls x = some call.cls) (hids : (idsOf notPid s x ++ ids notPid s').Perm (ids notPid s))
    (hreleased : releasedIds s'.history = releasedIds (.released call x h :: s.history))
    (hresources : s'.resources = s.resources) : NeverTwice s' := by
  rw [idsOf_of_handle hx hcls, if_pos (notPid_call call)] at hids
  have hrel : releasedIds (.released call x h :: s.history) = h.id.toList ++ releasedIds s.history := by
    cases h <;> rfl
  refine hs.of_perm [] ?_ (Nat.le_of_eq (congrArg List.length hresources.symm))
  rw [List.nil_append, hreleased, hrel, ← List.append_assoc]
  exact (List.perm_append_comm.trans hids).append_right _

theorem exec (hs : NeverTwice s) {op : Op} (hgood : ¬ CloseFails s op) (he : s.exec op = some s') : NeverTwice s' := by
  cases System.exec_does he with
  | threw => exact hs
  | acquired c r =>
      by_cases hc : notPid c = true
      · apply hs.of_new
        · rw [ids_acquire, if_pos hc, List.append_assoc]
          exact List.perm_middle
        · simp [System.acquire]
      · apply hs.of_perm []
        · rw [ids_acquire, if_neg hc, List.append_nil]
          exact List.Perm.refl _
        · simp [System.acquire]
  | moveConstruct x os hos =>
      exact hs.of_perm [] ((ids_moveConstruct hos _).append_right _) (Nat.le_refl _)
  | moveAssign x y os _ hos => exact hs.loses ⟨ids_moveAssign hos _, rfl, rfl⟩
  | closeFailed x call h hx hcls hfails => exact absurd hfails hgood
  | closed x call h hx hcls =>
      exact hs.gives_back hx hcls (ids_setHandle_none (s := s.log (.released call x h))) rfl rfl
  | foundNothing =>
      apply hs.of_perm []
      · rw [ids_valueInit]
        exact List.Perm.refl _
      · exact Nat.le_refl _
  | droppedNothing => exact hs.of_perm [] (ids_droppedNothing.append_right _) (Nat.le_refl _)
  | foundForeign => exact hs.of_perm [] (List.Perm.refl _) (by simp)
  | dropped =>
      apply hs.of_new
      · exact List.perm_middle.trans ((ids_dropped.append_right _).cons _)
      · simp [System.destroy, System.log, System.acquire]
  | waited x noHang exits => exact hs.loses (loses_wait noHang exits)
  | terminated x t =>
      obtain ⟨lost, h⟩ := loses_terminate (p := notPid) (s := s) (x := x) t
      exact hs.loses h
  | destroyed x call h hx hcls =>
      exact hs.gives_back hx hcls (ids_destroy (s := s.log (.released call x h))) rfl rfl
  | destroyedEmpty x => exact hs.loses (.destroy s x)
  | destroyedPid x t => exact hs.loses (loses_destroyPid t)

end NeverTwice

theorem neverTwice_empty : NeverTwice System.empty := ⟨by simp [ids, held, System.empty, releasedIds], by
  simp [ids, held, System.empty, releasedIds]⟩

/-- **No handle is given back twice**, throughout any run in which no `close` or `read_close` reports failure and no
    `accept` finds nothing. -/
theorem released_once {ops : List Op}
    (h : Along System.exec (fun s op => ¬ CloseFails s op ∧ ¬ FindsNothing s op) System.empty ops) :
    Throughout System.exec (fun s => (releasedIds s.history).Nodup) System.empty ops :=
  throughout_of_along (fun _ hs => (List.nodup_append.mp hs.nodup).2.1)
    (fun _ _ _ hs hgood he => hs.exec hgood.1 he) neverTwice_empty h

/-- The theorem for a file that is closed and destroyed. -/
theorem released_once_file : Throughout System.exec (fun s => (releasedIds s.history).Nodup) System.empty
    [.fileC true, .close 0 0, .destroy 0 ⟨[], true, []⟩] := by
  refine released_once ?_
  intro s₁ h₁
  obtain rfl := Option.some.inj h₁
  refine ⟨⟨fun h => h, fun h => h⟩, fun s₂ h₂ => ?_⟩
  obtain rfl := Option.some.inj h₂
  refine ⟨⟨?_, fun h => h⟩, fun s₃ h₃ => ⟨⟨fun h => h, fun h => h⟩, trivial⟩⟩
  rintro ⟨-, call, -, hf⟩
  cases call <;> simp [Call.failed] at hf

/-- A file, a pipe and a socket whose `close` reports failure: the destructors give all three back again. -/
theorem released_twice : ∃ s, run System.exec System.empty
      [.fileC true, .pipeC true, .socketC true, .close 0 (-1), .close 1 (-1), .close 2 (-1),
        .destroy 0 ⟨[], true, []⟩, .destroy 1 ⟨[], true, []⟩, .destroy 2 ⟨[], true, []⟩] = some s
    ∧ releasedIds s.history = [2, 1, 0, 2, 1, 0] :=
  ⟨_, rfl, rfl⟩

end Cclsys
end Cclib
