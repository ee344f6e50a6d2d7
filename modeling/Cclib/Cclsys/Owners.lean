import Cclib.Cclsys.Children

/-!
# `Cclsys.Owners` — every resource has its owner

Construction, moves and destruction only: every resource that was handed out and not given back is owned by exactly
one object at each moment, and so all are given back when no objects are left. What is lost is the handle of an
object that is move-assigned to and a child that the destructor of a `pid_c` could not end or was interrupted in
waiting for; `owned_iff`: nothing else.
-/

namespace Cclib
namespace Cclsys

open Ownership Runs

/-- Constructors, moves and destructors. -/
def Op.owning : Op → Bool
  | .accept _ _ => false
  | .acceptNonblock _ _ _ _ => false
  | .close _ _ => false
  | .readClose _ _ _ => false
  | .wait _ _ _ => false
  | .terminate _ _ => false
  | _ => true

/-- The destructor of a `pid_c` comes to reap child `n`. -/
def Reaps (s : System) (t : Timing) (n : Nat) : Prop :=
  n ∈ t.before ++ s.exited ∨ (t.kill = true ∧ n ∈ t.after ++ (t.before ++ s.exited))

/-- An object that is move-assigned to owns nothing, and a destroyed `pid_c` reaps its child. -/
def LosesNothing (s : System) : Op → Prop
  | .moveAssign x _ => ∀ n, s.handle x ≠ some (.of n)
  | .destroy x t => s.cls x = some .pid → ∀ n, s.handle x = some (.of n) → Reaps s t n
  | _ => True

/-- Every resource that has not been given back is owned by exactly one object, and all have been when there are no
    objects. -/
structure Owned (s : System) : Prop where
  owner : ∀ n < s.resources.length, n ∉ releasedIds s.history → n ∉ reapedIds s.history →
    ∃! x, s.handle x = some (.of n)
  gone : (∀ x, Ownership.get s.objects x = none) → ∀ n < s.resources.length,
    n ∈ releasedIds s.history ∨ n ∈ reapedIds s.history

def anyClass (_ : Class) : Bool := true

/-- Every resource is held or gone, once. -/
structure Conserved (s : System) : Prop where
  pids : PidsSound s
  account : (ids anyClass s ++ (releasedIds s.history ++ reapedIds s.history)).Perm (List.range s.resources.length)

variable {s s' : System} {x n : Nat}

theorem handle_iff_mem_ids : (∃ x, s.handle x = some (.of n)) ↔ n ∈ ids anyClass s := by
  rw [mem_ids]
  constructor
  · rintro ⟨x, hx⟩
    obtain ⟨o, ho, hh⟩ := handle_eq_some.mp hx
    exact ⟨x, o, ho, rfl, hh⟩
  · rintro ⟨x, o, ho, -, hh⟩
    exact ⟨x, handle_eq_some.mpr ⟨o, ho, hh⟩⟩

namespace Conserved

theorem nodup (hs : Conserved s) : (ids anyClass s ++ (releasedIds s.history ++ reapedIds s.history)).Nodup :=
  hs.account.nodup_iff.mpr List.nodup_range

theorem owned (hs : Conserved s) : Owned s := by
  have howner : ∀ n < s.resources.length, n ∉ releasedIds s.history → n ∉ reapedIds s.history →
      ∃ x, s.handle x = some (.of n) := by
    intro n hn hreleased hreaped
    have hmem := hs.account.mem_iff.mpr (List.mem_range.mpr hn)
    rw [List.mem_append, List.mem_append] at hmem
    exact handle_iff_mem_ids.mpr (hmem.resolve_right (fun h => h.elim hreleased hreaped))
  constructor
  · intro n hn hreleased hreaped
    obtain ⟨x, hx⟩ := howner n hn hreleased hreaped
    refine ⟨x, hx, fun y hy => ?_⟩
    obtain ⟨o, ho, hh⟩ := handle_eq_some.mp hx
    obtain ⟨o', ho', hh'⟩ := handle_eq_some.mp hy
    have hnd : (ids anyClass s).Nodup := (List.nodup_append.mp hs.nodup).1
    exact owner_unique hnd ho' ho rfl rfl (by rw [hh']; rfl) (by rw [hh]; rfl)
  · intro hnone n hn
    by_contra hgone
    obtain ⟨x, hx⟩ := howner n hn (fun h => hgone (.inl h)) (fun h => hgone (.inr h))
    obtain ⟨o, ho, -⟩ := handle_eq_some.mp hx
    rw [hnone x] at ho
    simp at ho

/-- The destructor of a `pid_c` with a child. -/
theorem destroyPid_reaped (hs : PidsSound s) (hcls : s.cls x = some .pid) (hx : s.handle x = some (.of n)) (t : Timing) :
    (Reaps s t n ∧ reapedIds (s.destroyPid x t).history = n :: reapedIds s.history)
      ∨ (¬ Reaps s t n ∧ reapedIds (s.destroyPid x t).history = reapedIds s.history) := by
  rw [System.destroyPid_eq, if_pos (by simp [hx])]
  rcases hs.waitpid_own hcls hx true t.before with ⟨hexited, h, hlt⟩ | ⟨hexited, h, hle⟩
  · rw [if_neg (by omega), h]
    exact .inl ⟨.inl hexited, rfl⟩
  · rw [if_pos hle, h]
    by_cases hkill : t.kill = true
    · have h₂ := hs.waiting_kill hcls hx t.before
      rw [if_pos hkill]
      rcases h₂.waitpid_own hcls hx false t.after with ⟨hafter, h', -⟩ | ⟨hafter, h', -⟩
      · rw [h']
        exact .inl ⟨.inr ⟨hkill, hafter⟩, rfl⟩
      · rw [h']
        exact .inr ⟨fun hr => hr.elim hexited (fun hr => hafter hr.2), rfl⟩
    · rw [if_neg hkill]
      exact .inr ⟨fun hr => hr.elim hexited (fun hr => hkill hr.1), rfl⟩

/-- Resources are shifted between the held and the gone ones. -/
theorem of_perm (hs : Conserved s) (hpids : PidsSound s')
    (hp : (ids anyClass s' ++ (releasedIds s'.history ++ reapedIds s'.history)).Perm
      (ids anyClass s ++ (releasedIds s.history ++ reapedIds s.history)))
    (hlen : s'.resources.length = s.resources.length) : Conserved s' :=
  ⟨hpids, hlen ▸ hp.trans hs.account⟩

/-- A new resource. -/
theorem of_new (hs : Conserved s) (hpids : PidsSound s')
    (hp : (ids anyClass s' ++ (releasedIds s'.history ++ reapedIds s'.history)).Perm
      (s.resources.length :: (ids anyClass s ++ (releasedIds s.history ++ reapedIds s.history))))
    (hlen : s'.resources.length = s.resources.length + 1) : Conserved s' := by
  refine ⟨hpids, ?_⟩
  rw [hlen, List.range_succ]
  exact (hp.trans (hs.account.cons _)).trans (List.perm_append_singleton _ _).symm

/-- An object gives back what it has. -/
theorem gives_back (hs : Conserved s) (hpids : PidsSound s') {call : Call} {h : Handle} (hx : s.handle x = some h)
    (hcls : s.cls x = some call.cls) (hids : (idsOf anyClass s x ++ ids anyClass s').Perm (ids anyClass s))
    (hhistory : s'.history = .released call x h :: s.history) (hresources : s'.resources = s.resources) :
    Conserved s' := by
  rw [idsOf_of_handle hx hcls, if_pos (by rfl)] at hids
  have hrel : releasedIds s'.history = h.id.toList ++ releasedIds s.history := by
    rw [hhistory]
    cases h <;> rfl
  have hreap : reapedIds s'.history = reapedIds s.history := by
    rw [hhistory]
    rfl
  refine hs.of_perm hpids ?_ (by rw [hresources])
  rw [hrel, hreap, List.append_assoc, ← List.append_assoc]
  exact (List.perm_append_comm.trans hids).append_right _

theorem exec (hs : Conserved s) {op : Op} (howning : op.owning = true) (hgood : LosesNothing s op)
    (he : s.exec op = some s') : Conserved s' := by
  have hcareful : Careful s op := by
    cases op <;> trivial
  have hpids := hs.pids.exec hcareful he
  cases System.exec_does he with
  | threw => exact hs
  | acquired c r =>
      refine hs.of_new hpids ?_ (by simp [System.acquire])
      rw [ids_acquire, if_pos (by rfl), List.append_assoc]
      exact List.perm_middle
  | moveConstruct x os hos => exact hs.of_perm hpids ((ids_moveConstruct hos _).append_right _) rfl
  | moveAssign x y os hop hos =>
      subst hop
      have hids := ids_moveAssign (p := anyClass) hos (.moved y x)
      rw [idsOf_of_empty hgood] at hids
      exact hs.of_perm hpids (hids.append_right _) rfl
  | closeFailed x call h hx hcls hfails =>
      cases op <;> first | exact hfails.elim | simp [Op.owning] at howning
  | closed x call h hx hcls =>
      exact hs.gives_back hpids hx hcls (ids_setHandle_none (s := s.log (.released call x h))) rfl rfl
  | foundNothing =>
      refine hs.of_perm hpids ?_ rfl
      rw [ids_valueInit]
      exact List.Perm.refl _
  | droppedNothing => exact hs.of_perm hpids (ids_droppedNothing.append_right _) rfl
  | foundForeign hforeign =>
      cases op <;> first | exact hforeign.elim | simp [Op.owning] at howning
  | dropped =>
      refine hs.of_new hpids ?_ (by simp [System.destroy, System.log, System.acquire])
      exact List.perm_middle.trans ((ids_dropped.append_right _).cons _)
  | waited x noHang exits hop => subst hop; simp [Op.owning] at howning
  | terminated x t hop => subst hop; simp [Op.owning] at howning
  | destroyed x call h hx hcls =>
      exact hs.gives_back hpids hx hcls (ids_destroy (s := s.log (.released call x h))) rfl rfl
  | destroyedEmpty x hx =>
      have hd := ids_destroy (p := anyClass) (x := x) (s := s)
      rw [idsOf_of_empty hx] at hd
      exact hs.of_perm hpids (hd.append_right _) rfl
  | destroyedPid x t hop hcls =>
      subst hop
      have hloses := loses_destroyPid (p := anyClass) (s := s) (x := x) t
      by_cases hx : s.handle x = none
      · rw [System.destroyPid_eq, if_neg (not_not.mpr hx)] at hpids ⊢
        have hd := ids_destroy (p := anyClass) (x := x) (s := s)
        rw [idsOf_of_empty (by simp [hx])] at hd
        exact hs.of_perm hpids (hd.append_right _) rfl
      · obtain ⟨n, hx⟩ := hs.pids.handle_of_cls hcls hx
        rcases destroyPid_reaped hs.pids hcls hx t with ⟨-, hreaped⟩ | ⟨hno, -⟩
        · have hids := hloses.ids
          rw [idsOf_of_handle hx hcls, if_pos (by rfl)] at hids
          refine hs.of_perm hpids ?_ (by rw [hloses.resources])
          rw [hloses.released, hreaped]
          have hmiddle : (releasedIds s.history ++ n :: reapedIds s.history).Perm
              (n :: (releasedIds s.history ++ reapedIds s.history)) := List.perm_middle
          exact (hmiddle.append_left _).trans (List.perm_middle.trans (hids.append_right _))
        · exact absurd (hgood hcls n hx) hno

end Conserved

end Cclsys
end Cclib
