import Cclib.Cclsys.Lineage
import Cclib.Cclsys.Account

/-!
# `Cclsys.Children` — `pid_c` and the children it signals

`terminate`, `wait` and the destructor of a `pid_c` call `waitpid` and `kill` with `m_pid`. What they are called with
is the `pid_t` of a child of this object that has not been reaped (`SignalsOwn`), as long as nobody calls `wait` or
`terminate` on an object without a child (`m_pid` is -1) or `terminate` on one whose child has already exited: that
reaps the child but leaves `m_pid` as it is (`signals_own`).
-/

namespace Cclib
namespace Cclsys

open Ownership Runs

/-- `pid` is the `pid_t` of a child that object `x` obtained and that has not been reaped. -/
def OwnChild (rs : List Resource) (history : List Event) (x : Nat) (pid : Int) : Prop :=
  ∃ n, Obtained history x n ∧ rs[n]? = some (.child pid) ∧ n ∉ reapedIds history

/-- Every `waitpid` and `kill` was called for an own child. -/
def SignalsOwn (rs : List Resource) : List Event → Prop
  | .waited x pid :: history => OwnChild rs history x pid ∧ SignalsOwn rs history
  | .killed x pid :: history => OwnChild rs history x pid ∧ SignalsOwn rs history
  | _ :: history => SignalsOwn rs history
  | [] => True

/-- `wait` is called on an object with a child, `terminate` on one whose child has not exited when it looks. -/
def Careful (s : System) : Op → Prop
  | .wait x _ _ => s.handle x ≠ none
  | .terminate x t => s.handle x ≠ none ∧ ∀ n, s.handle x = some (.of n) → n ∉ t.before ++ s.exited
  | _ => True

def isPid (c : Class) : Bool := c = .pid

/-- The children: each is held or reaped, once, and no two that are not reaped have the same `pid_t`. -/
structure Children (s : System) : Prop where
  apart : Apart isPid reapedIds s
  typed : ∀ n ∈ ids isPid s ++ reapedIds s.history, ∃ pid, s.resources[n]? = some (.child pid)
  positive : ∀ (n : Nat) (pid : Int), s.resources[n]? = some (.child pid) → 0 < pid
  unique : ∀ (n m : Nat) (pid : Int), s.resources[n]? = some (.child pid) → s.resources[m]? = some (.child pid) →
    n ∉ reapedIds s.history → m ∉ reapedIds s.history → n = m

/-- The `pid_c` objects hold what they obtained, and signal only their own children. -/
structure PidsSound (s : System) : Prop where
  children : Children s
  owns : OwnsObtained isPid s
  signals : SignalsOwn s.resources s.history

/-! ## `waitpid` and `kill` -/

theorem childPid_eq_some {s : System} {n : Nat} {pid : Int} :
    s.childPid n = some pid ↔ s.resources[n]? = some (.child pid) := by
  unfold System.childPid
  split
  · rename_i p hp
    rw [hp]
    simp
  · rename_i hno
    constructor
    · intro h
      simp at h
    · intro h
      exact absurd h (hno pid)

theorem mem_children {s : System} {n : Nat} {pid : Int} (hpid : pid ≠ -1) : n ∈ s.children pid ↔
    n ∉ reapedIds s.history ∧ s.resources[n]? = some (.child pid) := by
  unfold System.children
  rw [List.mem_filter, List.mem_range, Bool.and_eq_true, decide_eq_true_eq, Option.any_eq_true]
  constructor
  · rintro ⟨-, hreaped, p, hp, heq⟩
    obtain rfl : p = pid := by simpa [hpid] using heq
    exact ⟨hreaped, childPid_eq_some.mp hp⟩
  · rintro ⟨hreaped, hn⟩
    exact ⟨(List.getElem?_eq_some_iff.mp hn).1, hreaped, pid, childPid_eq_some.mpr hn, by simp⟩

namespace PidsSound

variable {s s' : System} {x n : Nat} {pid : Int}

/-- A `pid_c` with a child. -/
theorem own (hs : PidsSound s) (hcls : s.cls x = some .pid) (hx : s.handle x = some (.of n)) :
    n ∈ ids isPid s ∧ n ∉ reapedIds s.history ∧ Obtained s.history x n ∧ ∃ pid, s.resources[n]? = some (.child pid) := by
  obtain ⟨o, ho, hk⟩ := cls_eq_some.mp hcls
  obtain ⟨o', ho', hh⟩ := handle_eq_some.mp hx
  obtain rfl := Option.some.inj (ho.symm.trans ho')
  have hids : n ∈ ids isPid s := mem_ids.mpr ⟨x, o, ho, by simp [isPid, hk], hh⟩
  obtain ⟨m, hm, hobt⟩ := hs.owns x o _ ho (by simp [isPid, hk]) hh
  obtain rfl := Handle.of.inj hm
  exact ⟨hids, hs.children.apart.not_gone hids, hobt, hs.children.typed n (List.mem_append_left _ hids)⟩

theorem handle_of_cls (hs : PidsSound s) (hcls : s.cls x = some .pid) (hx : s.handle x ≠ none) :
    ∃ n, s.handle x = some (.of n) := by
  obtain ⟨h, hh⟩ := Option.ne_none_iff_exists'.mp hx
  obtain ⟨o, ho, hk⟩ := cls_eq_some.mp hcls
  obtain ⟨o', ho', hh'⟩ := handle_eq_some.mp hh
  obtain rfl := Option.some.inj (ho.symm.trans ho')
  obtain ⟨m, rfl, -⟩ := hs.owns x o _ ho (by simp [isPid, hk]) hh'
  exact ⟨m, hh⟩

theorem pidOf_own (hn : s.resources[n]? = some (.child pid)) : s.pidOf (some (.of n)) = pid := by
  show (s.childPid n).getD 0 = pid
  rw [childPid_eq_some.mpr hn]
  rfl

/-- `waitpid` on an own child reaps it when it has exited, and else reaps nothing and returns at most 0. -/
theorem waitpid_own (hs : PidsSound s) (hcls : s.cls x = some .pid) (hx : s.handle x = some (.of n)) (noHang : Bool)
    (exits : List Nat) :
    (n ∈ exits ++ s.exited ∧ (s.waitpid x noHang exits).1 = (s.waiting x exits).log (.reaped n)
        ∧ 0 < (s.waitpid x noHang exits).2)
      ∨ (n ∉ exits ++ s.exited ∧ (s.waitpid x noHang exits).1 = s.waiting x exits
        ∧ (s.waitpid x noHang exits).2 ≤ 0) := by
  obtain ⟨-, hreaped, -, pid, hn⟩ := hs.own hcls hx
  have hpos := hs.children.positive n pid hn
  -- the child is the only one with its process id that has not been reaped
  have hmem : ∀ m, m ∈ (s.waiting x exits).children pid ↔ m = n := by
    intro m
    rw [mem_children (by omega)]
    constructor
    · rintro ⟨hm, hm'⟩
      exact hs.children.unique m n pid hm' hn hm hreaped
    · rintro rfl
      exact ⟨hreaped, hn⟩
  unfold System.waitpid
  rw [hx, pidOf_own hn]
  dsimp only
  split
  · rename_i m hm
    obtain rfl := (hmem m).mp (List.mem_of_find?_eq_some hm)
    have hexit := List.find?_some hm
    refine .inl ⟨of_decide_eq_true hexit, rfl, ?_⟩
    show 0 < ((s.waiting x exits).childPid m).getD 0
    rw [show (s.waiting x exits).childPid m = some pid from childPid_eq_some.mpr hn]
    exact hpos
  · rename_i hm
    refine .inr ⟨fun hexit => ?_, rfl, ?_⟩
    · exact List.find?_eq_none.mp hm n ((hmem n).mpr rfl) (decide_eq_true hexit)
    · show (if _ then (0 : Int) else -1) ≤ 0
      split <;> omega

end PidsSound

/-! ## What operations do to the children -/

theorem OwnChild.append {rs rs' : List Resource} {history : List Event} {x : Nat} {pid : Int}
    (h : OwnChild rs history x pid) : OwnChild (rs ++ rs') history x pid := by
  obtain ⟨n, hobt, hn, hreaped⟩ := h
  refine ⟨n, hobt, ?_, hreaped⟩
  rw [List.getElem?_append_left (List.getElem?_eq_some_iff.mp hn).1]
  exact hn

theorem SignalsOwn.append {rs rs' : List Resource} {history : List Event} (h : SignalsOwn rs history) :
    SignalsOwn (rs ++ rs') history := by
  induction history with
  | nil => trivial
  | cons e history ih =>
      cases e with
      | waited x pid => exact ⟨h.1.append, ih h.2⟩
      | killed x pid => exact ⟨h.1.append, ih h.2⟩
      | acquired x n => exact ih h
      | moved x y => exact ih h
      | released call x k => exact ih h
      | reaped n => exact ih h

/-- Only children count among the resources. -/
def NoChild (rs : List Resource) : Prop := ∀ r ∈ rs, ∀ pid, r ≠ .child pid

theorem child_of_append {rs rs' : List Resource} (hrs : NoChild rs') {n : Nat} {pid : Int}
    (h : (rs ++ rs')[n]? = some (.child pid)) : rs[n]? = some (.child pid) := by
  rcases Nat.lt_or_ge n rs.length with hn | hn
  · rwa [List.getElem?_append_left hn] at h
  · rw [List.getElem?_append_right hn] at h
    exact absurd rfl (hrs _ (List.mem_of_getElem? h) pid)

namespace Children

variable {s s' : System}

/-- Handles move, go, or turn into reaped ones. -/
theorem of_perm (hs : Children s) (lost : List Nat)
    (hp : (lost ++ (ids isPid s' ++ reapedIds s'.history)).Perm (ids isPid s ++ reapedIds s.history))
    {rs : List Resource} (hres : s'.resources = s.resources ++ rs) (hrs : NoChild rs)
    (hreaped : ∀ n ∈ reapedIds s.history, n ∈ reapedIds s'.history) : Children s' := by
  have hlook : ∀ {n : Nat} {pid : Int}, s'.resources[n]? = some (.child pid) → s.resources[n]? = some (.child pid) := by
    intro n pid hn
    rw [hres] at hn
    exact child_of_append hrs hn
  constructor
  · exact hs.apart.of_perm lost hp (by rw [hres, List.length_append]; omega)
  · intro n hn
    obtain ⟨pid, hpid⟩ := hs.typed n (hp.mem_iff.mp (List.mem_append_right lost hn))
    refine ⟨pid, ?_⟩
    rw [hres, List.getElem?_append_left (List.getElem?_eq_some_iff.mp hpid).1]
    exact hpid
  · intro n pid hn
    exact hs.positive n pid (hlook hn)
  · intro n m pid hn hm hn' hm'
    exact hs.unique n m pid (hlook hn) (hlook hm) (fun h => hn' (hreaped n h)) (fun h => hm' (hreaped m h))

/-- A new child. -/
theorem acquire (hs : Children s) {pid : Int} (hpos : 0 < pid) (hfresh : s.children pid = []) :
    Children (s.acquire .pid (.child pid)) := by
  have hids : ids isPid (s.acquire .pid (.child pid)) = ids isPid s ++ [s.resources.length] := ids_acquire
  have hlook : ∀ {n : Nat} {p : Int}, (s.resources ++ [.child pid])[n]? = some (.child p) →
      s.resources[n]? = some (.child p) ∨ (n = s.resources.length ∧ p = pid) := by
    intro n p hn
    rcases Nat.lt_or_ge n s.resources.length with hlt | hge
    · rw [List.getElem?_append_left hlt] at hn
      exact .inl hn
    · rw [List.getElem?_append_right hge] at hn
      obtain ⟨hlt, hget⟩ := List.getElem?_eq_some_iff.mp hn
      simp only [List.length_singleton] at hlt
      obtain rfl : n = s.resources.length := by omega
      simp at hn
      exact .inr ⟨rfl, hn.symm⟩
  -- no other child with this `pid_t` is waiting to be reaped
  have hnone : ∀ n, s.resources[n]? = some (.child pid) → n ∉ reapedIds s.history → False := by
    intro n hn hreaped
    have : n ∈ s.children pid := (mem_children (by omega)).mpr ⟨hreaped, hn⟩
    rw [hfresh] at this
    simp at this
  constructor
  · apply hs.apart.of_new
    · rw [hids, List.append_assoc]
      exact List.perm_middle
    · simp [System.acquire]
  · intro n hn
    rw [hids] at hn
    rcases List.mem_append.mp hn with hn | hn
    · rcases List.mem_append.mp hn with hn | hn
      · obtain ⟨p, hp⟩ := hs.typed n (List.mem_append_left _ hn)
        exact ⟨p, by
          show (s.resources ++ _)[n]? = _
          rw [List.getElem?_append_left (List.getElem?_eq_some_iff.mp hp).1]
          exact hp⟩
      · obtain rfl := List.mem_singleton.mp hn
        exact ⟨pid, by simp [System.acquire]⟩
    · obtain ⟨p, hp⟩ := hs.typed n (List.mem_append_right _ hn)
      exact ⟨p, by
        show (s.resources ++ _)[n]? = _
        rw [List.getElem?_append_left (List.getElem?_eq_some_iff.mp hp).1]
        exact hp⟩
  · intro n p hn
    rcases hlook hn with hn | ⟨-, rfl⟩
    · exact hs.positive n p hn
    · exact hpos
  · intro n m p hn hm hn' hm'
    rcases hlook hn with hn₀ | ⟨hn₀, hp⟩
    · rcases hlook hm with hm₀ | ⟨-, hp⟩
      · exact hs.unique n m p hn₀ hm₀ hn' hm'
      · exact (hnone n (hp ▸ hn₀) hn').elim
    · rcases hlook hm with hm₀ | ⟨hm₀, -⟩
      · exact (hnone m (hp ▸ hm₀) hm').elim
      · rw [hn₀, hm₀]

end Children

namespace PidsSound

variable {s s' : System} {x n : Nat}

theorem ownChild (hs : PidsSound s) (hcls : s.cls x = some .pid) (hx : s.handle x = some (.of n)) :
    OwnChild s.resources s.history x (s.pidOf (s.handle x)) := by
  obtain ⟨-, hreaped, hobt, pid, hn⟩ := hs.own hcls hx
  rw [hx, pidOf_own hn]
  exact ⟨n, hobt, hn, hreaped⟩

theorem waiting (hs : PidsSound s) (hcls : s.cls x = some .pid) (hx : s.handle x = some (.of n)) (exits : List Nat) :
    PidsSound (s.waiting x exits) where
  children := hs.children.of_perm [] (List.Perm.refl _) (List.append_nil _).symm (by simp [NoChild]) (fun _ h => h)
  owns := hs.owns.of_kept (fun _ _ _ ho _ => ho) ⟨[_], rfl⟩
  signals := ⟨hs.ownChild hcls hx, hs.signals⟩

theorem kill (hs : PidsSound s) (hcls : s.cls x = some .pid) (hx : s.handle x = some (.of n)) : PidsSound (s.kill x) where
  children := hs.children.of_perm [] (List.Perm.refl _) (List.append_nil _).symm (by simp [NoChild]) (fun _ h => h)
  owns := hs.owns.kill x
  signals := ⟨hs.ownChild hcls hx, hs.signals⟩

/-- The object is left without its child, or destroyed. -/
theorem clear (hs : PidsSound s) {lost : List Nat} (hids : (lost ++ ids isPid s').Perm (ids isPid s))
    (hhistory : s'.history = s.history) (hresources : s'.resources = s.resources) (howns : OwnsObtained isPid s') :
    PidsSound s' where
  children := by
    refine hs.children.of_perm lost ?_ (hresources.trans (List.append_nil _).symm) (by simp [NoChild]) ?_
    · rw [hhistory, ← List.append_assoc]
      exact hids.append_right _
    · rw [hhistory]
      exact fun _ h => h
  owns := howns
  signals := by
    rw [hhistory, hresources]
    exact hs.signals

/-- `waitpid`, after which the object is left without its child, or destroyed. -/
theorem waitpid_clear (hs : PidsSound s) (hcls : s.cls x = some .pid) (hx : s.handle x = some (.of n)) {noHang : Bool}
    {exits : List Nat} (hids : (idsOf isPid s x ++ ids isPid s').Perm (ids isPid s))
    (hhistory : s'.history = (s.waitpid x noHang exits).1.history) (hresources : s'.resources = s.resources)
    (howns : OwnsObtained isPid s') : PidsSound s' := by
  rcases hs.waitpid_own hcls hx noHang exits with ⟨-, h, -⟩ | ⟨-, h, -⟩
  · -- the child goes from the held to the reaped ones
    rw [h] at hhistory
    rw [idsOf_of_handle hx hcls, if_pos (by rfl)] at hids
    have hreaped : reapedIds s'.history = n :: reapedIds s.history := by rw [hhistory]; rfl
    constructor
    · refine hs.children.of_perm [] ?_ (hresources.trans (List.append_nil _).symm) (by simp [NoChild]) ?_
      · rw [hreaped]
        exact List.perm_middle.trans (hids.append_right _)
      · rw [hreaped]
        exact fun _ h => List.mem_cons_of_mem n h
    · exact howns
    · rw [hhistory, hresources]
      exact ⟨hs.ownChild hcls hx, hs.signals⟩
  · rw [h] at hhistory
    exact (hs.waiting hcls hx exits).clear hids hhistory hresources howns

theorem wait (hs : PidsSound s) (hcls : s.cls x = some .pid) (hx : s.handle x = some (.of n)) (noHang : Bool)
    (exits : List Nat) : PidsSound (s.wait x noHang exits) :=
  hs.waitpid_clear hcls hx (loses_wait noHang exits).ids rfl (loses_wait (p := isPid) noHang exits).resources
    ((hs.owns.waitpid x noHang exits).setHandle_none x)

theorem destroy (hs : PidsSound s) (x : Nat) : PidsSound (s.destroy x) :=
  hs.clear ids_destroy rfl rfl (hs.owns.destroy x)

/-- `kill` and the second `waitpid`, after a first one that found the child running. -/
theorem waiting_kill (hs : PidsSound s) (hcls : s.cls x = some .pid) (hx : s.handle x = some (.of n)) (exits : List Nat) :
    PidsSound ((s.waiting x exits).kill x) := (hs.waiting hcls hx exits).kill hcls hx

theorem terminate (hs : PidsSound s) (hcls : s.cls x = some .pid) (hx : s.handle x = some (.of n)) {t : Timing}
    (hrunning : n ∉ t.before ++ s.exited) : PidsSound (s.terminate x t) := by
  rw [System.terminate_eq]
  rcases hs.waitpid_own hcls hx true t.before with ⟨hexited, -⟩ | ⟨-, h, hle⟩
  · exact absurd hexited hrunning
  · have h₂ := hs.waiting_kill hcls hx t.before
    rw [if_pos hle, h]
    split
    · have hloses := (Loses.waitpid (p := isPid) ((s.waiting x t.before).kill x) x false t.after).after (.setHandle_none _ x)
      rw [idsOf_of_objects (System.waitpid_objects false t.after)] at hloses
      exact h₂.waitpid_clear hcls hx hloses.ids rfl hloses.resources
        ((h₂.owns.waitpid x false t.after).setHandle_none x)
    · exact h₂

theorem waitpid_destroy (hs : PidsSound s) (hcls : s.cls x = some .pid) (hx : s.handle x = some (.of n)) (noHang : Bool)
    (exits : List Nat) : PidsSound ((s.waitpid x noHang exits).1.destroy x) := by
  have hloses := (Loses.waitpid (p := isPid) s x noHang exits).after (.destroy _ x)
  rw [idsOf_of_objects (System.waitpid_objects noHang exits)] at hloses
  exact hs.waitpid_clear hcls hx hloses.ids rfl hloses.resources ((hs.owns.waitpid x noHang exits).destroy x)

theorem destroyPid (hs : PidsSound s) (hcls : s.cls x = some .pid) (t : Timing) : PidsSound (s.destroyPid x t) := by
  rw [System.destroyPid_eq]
  split
  · rename_i hx
    obtain ⟨n, hx⟩ := hs.handle_of_cls hcls hx
    rcases hs.waitpid_own hcls hx true t.before with ⟨-, -, hlt⟩ | ⟨-, h, hle⟩
    · rw [if_neg (by omega)]
      exact hs.waitpid_destroy hcls hx true t.before
    · have h₂ := hs.waiting_kill hcls hx t.before
      rw [if_pos hle, h]
      split
      · exact h₂.waitpid_destroy hcls hx false t.after
      · exact h₂.destroy x
  · exact hs.destroy x

/-- An operation that neither waits nor signals, and makes no child. -/
theorem other (hs : PidsSound s) (lost : List Nat) {rs : List Resource}
    (hids : (lost ++ ids isPid s').Perm (ids isPid s)) (hresources : s'.resources = s.resources ++ rs) (hrs : NoChild rs)
    (hreaped : reapedIds s'.history = reapedIds s.history)
    (hsignals : SignalsOwn s.resources s.history → SignalsOwn s.resources s'.history)
    (howns : OwnsObtained isPid s') : PidsSound s' where
  children := by
    refine hs.children.of_perm lost ?_ hresources hrs (fun n h => hreaped.symm ▸ h)
    rw [hreaped, ← List.append_assoc]
    exact hids.append_right _
  owns := howns
  signals := by
    rw [hresources]
    exact (hsignals hs.signals).append

theorem noChild_nil : NoChild [] := by simp [NoChild]

theorem exec (hs : PidsSound s) {op : Op} (hgood : Careful s op) (he : s.exec op = some s') : PidsSound s' := by
  have howns : OwnsObtained isPid s' := hs.owns.exec (by simp [isPid]) he
  have hrefl : s.resources = s.resources ++ [] := (List.append_nil _).symm
  cases System.exec_does he with
  | threw => exact hs
  | acquired c r hpid hchild =>
      by_cases hc : c = .pid
      · subst hc
        obtain ⟨pid, rfl⟩ := hpid.mp rfl
        obtain ⟨hpos, hfresh⟩ := hchild pid rfl
        exact ⟨hs.children.acquire hpos hfresh, howns, hs.signals.append⟩
      · have hrs : NoChild [r] := by
          intro r' hr' pid hpid'
          obtain rfl := List.mem_singleton.mp hr'
          exact hc (hpid.mpr ⟨pid, hpid'⟩)
        refine hs.other [] ?_ rfl hrs rfl (fun h => h) howns
        rw [ids_acquire, if_neg (by simp [isPid, hc]), List.append_nil]
        exact List.Perm.refl _
  | moveConstruct x os hos => exact hs.other [] (ids_moveConstruct hos _) hrefl noChild_nil rfl (fun h => h) howns
  | moveAssign x y os _ hos => exact hs.other _ (ids_moveAssign hos _) hrefl noChild_nil rfl (fun h => h) howns
  | closeFailed x call h hx hcls =>
      exact hs.other [] (List.Perm.refl _) hrefl noChild_nil rfl (fun h => h) howns
  | closed x call h hx hcls =>
      exact hs.other _ (ids_setHandle_none (s := s.log (.released call x h))) hrefl noChild_nil rfl (fun h => h) howns
  | foundNothing =>
      refine hs.other [] ?_ hrefl noChild_nil rfl (fun h => h) howns
      rw [ids_valueInit]
      exact List.Perm.refl _
  | droppedNothing => exact hs.other [] ids_droppedNothing hrefl noChild_nil rfl (fun h => h) howns
  | foundForeign =>
      exact hs.other [] (List.Perm.refl _) rfl (by simp [NoChild]) rfl (fun h => h) howns
  | dropped => exact hs.other [] ids_dropped rfl (by simp [NoChild]) rfl (fun h => h) howns
  | waited x noHang exits hop hcls =>
      subst hop
      obtain ⟨n, hx⟩ := hs.handle_of_cls hcls hgood
      exact hs.wait hcls hx noHang exits
  | terminated x t hop hcls =>
      subst hop
      obtain ⟨n, hx⟩ := hs.handle_of_cls hcls hgood.1
      exact hs.terminate hcls hx (hgood.2 n hx)
  | destroyed x call h hx hcls =>
      exact hs.other _ (ids_destroy (s := s.log (.released call x h))) hrefl noChild_nil rfl (fun h => h) howns
  | destroyedEmpty x => exact hs.destroy x
  | destroyedPid x t _ hcls => exact hs.destroyPid hcls t

end PidsSound

theorem pidsSound_empty : PidsSound System.empty where
  children := {
    apart := ⟨by simp [ids, held, System.empty, reapedIds], by simp [ids, held, System.empty, reapedIds]⟩
    typed := by simp [ids, held, System.empty, reapedIds]
    positive := by simp [System.empty]
    unique := by simp [System.empty] }
  owns := fun x o h ho => by simp [System.empty, Ownership.get] at ho
  signals := trivial

/-- **A `pid_c` signals only its own children** that are not reaped, throughout any run in which `wait` and `terminate`
    are called on objects with a child, and `terminate` not when the child has already exited. -/
theorem signals_own {ops : List Op} (h : Along System.exec Careful System.empty ops) :
    Throughout System.exec (fun s => SignalsOwn s.resources s.history) System.empty ops :=
  throughout_of_along (fun _ hs => hs.signals) (fun _ _ _ hs hgood he => hs.exec hgood he) pidsSound_empty h

/-- The theorem for a child that is waited for. -/
theorem signals_own_wait : Throughout System.exec (fun s => SignalsOwn s.resources s.history) System.empty
    [.pidC ["true"] (some 100), .wait 0 false [0], .destroy 0 ⟨[], true, []⟩] := by
  refine signals_own ?_
  intro s₁ h₁
  obtain rfl := Option.some.inj h₁
  refine ⟨trivial, fun s₂ h₂ => ⟨?_, fun s₃ h₃ => ⟨trivial, trivial⟩⟩⟩
  show System.handle _ 0 ≠ none
  decide

/-- A second `wait` is made with -1; and after a `terminate` that finds the child exited and reaps it the destructor waits
    for and kills its `pid_t` again. -/
theorem signals_foreign : (∃ s, run System.exec System.empty
      [.pidC ["true"] (some 100), .wait 0 false [0], .wait 0 true []] = some s
    ∧ s.history = [.waited 0 (-1), .reaped 0, .waited 0 100, .acquired 0 0] ∧ ¬ SignalsOwn s.resources s.history)
    ∧ ∃ s, run System.exec System.empty
      [.pidC ["true"] (some 100), .terminate 0 ⟨[0], true, []⟩, .destroy 0 ⟨[], true, []⟩] = some s
    ∧ s.history = [.waited 0 100, .killed 0 100, .waited 0 100, .reaped 0, .waited 0 100, .acquired 0 0]
    ∧ ¬ SignalsOwn s.resources s.history := by
  let before : List Event := [.reaped 0, .waited 0 100, .acquired 0 0]
  refine ⟨⟨⟨[some ⟨.pid, none⟩], [.child 100], [0], .waited 0 (-1) :: before⟩, rfl, rfl, ?_⟩,
    ⟨[none], [.child 100], [0], .waited 0 100 :: .killed 0 100 :: .waited 0 100 :: before⟩, rfl, rfl, ?_⟩
  · rintro ⟨⟨n, -, hn, -⟩, -⟩
    obtain ⟨hlt, hn⟩ := List.getElem?_eq_some_iff.mp hn
    obtain rfl := Nat.lt_one_iff.mp hlt
    simp at hn
  · rintro ⟨⟨n, -, hn, hreaped⟩, -⟩
    obtain ⟨hlt, -⟩ := List.getElem?_eq_some_iff.mp hn
    obtain rfl := Nat.lt_one_iff.mp hlt
    exact hreaped (by decide)

end Cclsys
end Cclib
