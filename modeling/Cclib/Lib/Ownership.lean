import Mathlib.Data.List.Basic
import Mathlib.Data.List.Perm.Basic

/-!
# `Lib.Ownership` — objects that own a handle, and moves between them

Objects are numbered in the order in which they are made; a destroyed one leaves its number behind. An
object has a kind, which does not change, and at most one handle. A **move** takes the handle from one object
to another: move-construction to a new one, move-assignment to an old one, whatever that owned before.

`held` lists the handles of the objects of some kinds. The results say what an operation does to that list, up
to order, and to the single objects. Where `held` has no duplicates every held handle has its one owner
(`owner_unique`).
-/

namespace Cclib
namespace Ownership

variable {K H : Type}

/-- An object: its kind, and the handle it owns. -/
structure Slot (K H : Type) where
  kind : K
  handle : Option H
deriving DecidableEq, Repr

/-- The objects by number; `none` is one that was destroyed. -/
abbrev Objects (K H : Type) := List (Option (Slot K H))

def get (os : Objects K H) (x : Nat) : Option (Slot K H) := (os[x]?).join

def new (os : Objects K H) (s : Slot K H) : Objects K H := os ++ [some s]

def setHandle (os : Objects K H) (x : Nat) (h : Option H) : Objects K H :=
  os.set x ((get os x).map (fun s => { s with handle := h }))

def destroy (os : Objects K H) (x : Nat) : Objects K H := os.set x none

/-- A new object takes the handle of `x`, which is left without one. -/
def moveConstruct (os : Objects K H) (x : Nat) : Option (Objects K H) := do
  let s ← get os x
  return new (setHandle os x none) s

/-- `x` is set to the handle of `y`, then `y` is left without one; `x` and `y` may be the same object. -/
def moveAssign [DecidableEq K] (os : Objects K H) (x y : Nat) : Option (Objects K H) := do
  let s ← get os x
  let t ← get os y
  if s.kind = t.kind then some (setHandle (setHandle os x t.handle) y none) else none

/-- The handle of an object, if its kind is of interest. -/
def heldBy (p : K → Bool) : Option (Slot K H) → List H
  | some s => if p s.kind then s.handle.toList else []
  | none => []

/-- The handles that objects of the kinds of interest own. -/
def held (p : K → Bool) (os : Objects K H) : List H := os.flatMap (heldBy p)

variable {os os' : Objects K H} {x y z : Nat} {s t : Slot K H} {h : Option H} {p : K → Bool} {a : H}

/-! ## Single objects -/

theorem get_eq_some : get os x = some s ↔ os[x]? = some (some s) := Option.join_eq_some_iff

theorem lt_of_get (hs : get os x = some s) : x < os.length := (List.getElem?_eq_some_iff.mp (get_eq_some.mp hs)).1

theorem get_new : get (new os s) z = if z = os.length then some s else get os z := by
  unfold get new
  rcases Nat.lt_trichotomy z os.length with hz | rfl | hz
  · rw [List.getElem?_append_left hz, if_neg (by omega)]
  · simp
  · rw [List.getElem?_eq_none (by simp; omega), List.getElem?_eq_none (by omega), if_neg (by omega)]

theorem get_setHandle : get (setHandle os x h) z
    = if z = x then (get os x).map (fun s => { s with handle := h }) else get os z := by
  unfold setHandle
  rw [get, List.getElem?_set]
  by_cases hz : z = x
  · subst hz
    rw [if_pos rfl, if_pos rfl]
    split
    · rfl
    · rename_i hlt
      rw [get, List.getElem?_eq_none (by omega)]
      rfl
  · rw [if_neg (fun h => hz h.symm), if_neg hz]
    rfl

theorem get_destroy : get (destroy os x) z = if z = x then none else get os z := by
  unfold destroy
  rw [get, List.getElem?_set]
  by_cases hz : z = x
  · subst hz
    rw [if_pos rfl, if_pos rfl]
    split <;> rfl
  · rw [if_neg (fun h => hz h.symm), if_neg hz]
    rfl

/-- After a move-construction an object with a handle is the new one, with the handle of `x`, or an old one. -/
theorem get_moveConstruct (hm : moveConstruct os x = some os') (hs : get os' z = some s) (ha : s.handle = some a) :
    (z = os.length ∧ get os x = some s) ∨ get os z = some s := by
  obtain ⟨t, ht, hm⟩ := Option.bind_eq_some_iff.mp hm
  obtain rfl := Option.some.inj hm
  rw [get_new] at hs
  split at hs
  · rename_i hz
    obtain rfl := Option.some.inj hs
    exact .inl ⟨by simpa [setHandle] using hz, ht⟩
  · rw [get_setHandle] at hs
    split at hs
    · obtain ⟨t', -, rfl⟩ := Option.map_eq_some_iff.mp hs
      simp at ha
    · exact .inr hs

/-- After a move-assignment an object with a handle is `x`, with the handle of `y`, or has kept its own. -/
theorem get_moveAssign [DecidableEq K] (hm : moveAssign os x y = some os') (hs : get os' z = some s)
    (ha : s.handle = some a) : (z = x ∧ get os y = some s) ∨ get os z = some s := by
  obtain ⟨u, hu, hm⟩ := Option.bind_eq_some_iff.mp hm
  obtain ⟨t, ht, hm⟩ := Option.bind_eq_some_iff.mp hm
  obtain ⟨hkind, hm⟩ := Option.ite_none_right_eq_some.mp hm
  obtain rfl := Option.some.inj hm
  rw [get_setHandle] at hs
  split at hs
  · obtain ⟨t', -, rfl⟩ := Option.map_eq_some_iff.mp hs
    simp at ha
  · rw [get_setHandle] at hs
    split at hs
    · rename_i hz
      rw [hu] at hs
      obtain rfl := Option.some.inj hs
      refine .inl ⟨hz, ht.trans ?_⟩
      cases t
      cases u
      simp_all
    · exact .inr hs

/-! ## All handles -/

theorem perm_of_set (o' : Option (Slot K H)) : ∀ {os : Objects K H} {x : Nat} {o : Option (Slot K H)}, os[x]? = some o →
    (heldBy p o ++ held p (os.set x o')).Perm (heldBy p o' ++ held p os)
  | [], x, _, h => by simp at h
  | o₁ :: os, 0, o, h => by
      obtain rfl : o₁ = o := by simpa using h
      simp only [held, List.set_cons_zero, List.flatMap_cons, ← List.append_assoc]
      exact List.perm_append_comm.append_right _
  | o₁ :: os, x + 1, o, h => by
      have ih := perm_of_set o' (show os[x]? = some o by simpa using h)
      simp only [held, List.set_cons_succ, List.flatMap_cons] at ih ⊢
      rw [← List.append_assoc, ← List.append_assoc]
      refine (List.perm_append_comm.append_right _).trans ?_
      refine List.Perm.trans ?_ (List.perm_append_comm.append_right _)
      rw [List.append_assoc, List.append_assoc]
      exact ih.append_left _

theorem held_new : held p (new os s) = held p os ++ heldBy p (some s) := by
  simp [held, new]

theorem perm_setHandle (hs : get os x = some s) :
    (heldBy p (some s) ++ held p (setHandle os x h)).Perm (heldBy p (some ⟨s.kind, h⟩) ++ held p os) := by
  unfold setHandle
  rw [hs]
  exact perm_of_set _ (get_eq_some.mp hs)

theorem heldBy_empty {k : K} : heldBy p (some (⟨k, none⟩ : Slot K H)) = [] := by
  simp [heldBy]

theorem set_of_get_none (hx : get os x = none) : os.set x none = os := by
  by_cases hlt : x < os.length
  · have hnone : os[x] = none := by
      unfold get at hx
      rw [List.getElem?_eq_getElem hlt] at hx
      exact hx
    rw [← hnone, List.set_getElem_self]
  · exact List.set_eq_of_length_le (by omega)

/-- An object that is destroyed or left without its handle loses it. -/
theorem perm_destroy : (heldBy p (get os x) ++ held p (destroy os x)).Perm (held p os) := by
  cases hs : get os x with
  | none =>
      unfold destroy
      rw [set_of_get_none hs]
      exact List.Perm.refl _
  | some s => exact perm_of_set none (get_eq_some.mp hs)

theorem perm_clear : (heldBy p (get os x) ++ held p (setHandle os x none)).Perm (held p os) := by
  cases hs : get os x with
  | none =>
      unfold setHandle
      rw [hs, Option.map_none, set_of_get_none hs]
      exact List.Perm.refl _
  | some s =>
      have hset := perm_setHandle (p := p) (h := none) hs
      rwa [heldBy_empty] at hset

/-- **Move-construction** loses nothing and doubles nothing. -/
theorem perm_moveConstruct (hm : moveConstruct os x = some os') : (held p os').Perm (held p os) := by
  obtain ⟨s, hs, hm⟩ := Option.bind_eq_some_iff.mp hm
  obtain rfl := Option.some.inj hm
  have hset : (heldBy p (get os x) ++ held p (setHandle os x none)).Perm (held p os) := perm_clear
  rw [hs] at hset
  rw [held_new]
  exact List.perm_append_comm.trans hset

/-- **Move-assignment** loses what the target owned before. -/
theorem perm_moveAssign [DecidableEq K] (hm : moveAssign os x y = some os') (hs : get os x = some s) :
    (heldBy p (some s) ++ held p os').Perm (held p os) := by
  obtain ⟨s', hs', hm⟩ := Option.bind_eq_some_iff.mp hm
  obtain rfl := Option.some.inj (hs.symm.trans hs')
  obtain ⟨t, ht, hm⟩ := Option.bind_eq_some_iff.mp hm
  obtain ⟨hkind, hm⟩ := Option.ite_none_right_eq_some.mp hm
  obtain rfl := Option.some.inj hm
  have htarget : (⟨s.kind, t.handle⟩ : Slot K H) = t := by rw [hkind]
  -- first `x` is set: its handle goes, and the one of `y` is there twice
  have h₁ := perm_setHandle (p := p) (h := t.handle) hs
  rw [htarget] at h₁
  -- then `y` is emptied, which has the handle also when it is `x`
  have ht' : get (setHandle os x t.handle) y = some t := by
    rw [get_setHandle]
    split
    · rw [hs, Option.map_some, htarget]
    · exact ht
  have h₂ : (heldBy p (some t) ++ held p (setHandle (setHandle os x t.handle) y none)).Perm
      (held p (setHandle os x t.handle)) := ht' ▸ perm_clear
  have h₃ := (h₂.append_left (heldBy p (some s))).trans h₁
  rw [← List.append_assoc] at h₃
  have h₄ := (List.perm_append_comm.append_right _).symm.trans h₃
  rw [List.append_assoc] at h₄
  exact (List.perm_append_left_iff _).mp h₄

/-! ## Owners -/

theorem mem_heldBy : a ∈ heldBy p (some s) ↔ p s.kind = true ∧ s.handle = some a := by
  simp [heldBy]

theorem mem_held : a ∈ held p os ↔ ∃ x s, get os x = some s ∧ p s.kind = true ∧ s.handle = some a := by
  unfold held
  rw [List.mem_flatMap]
  constructor
  · rintro ⟨o, ho, ha⟩
    obtain ⟨x, hx⟩ := List.getElem?_of_mem ho
    cases o with
    | none => simp [heldBy] at ha
    | some s => exact ⟨x, s, get_eq_some.mpr hx, mem_heldBy.mp ha⟩
  · rintro ⟨x, s, hs, ha⟩
    exact ⟨some s, List.mem_of_getElem? (get_eq_some.mp hs), mem_heldBy.mpr ha⟩

/-- Where nothing is held twice, as `f` identifies what handles are for, it has one owner. -/
theorem owner_unique {I : Type} {f : H → Option I} {i : I} (hnd : ((held p os).filterMap f).Nodup)
    (hs : get os x = some s) (ht : get os y = some t) (hps : p s.kind = true) (hpt : p t.kind = true)
    (hi : s.handle.bind f = some i) (hi' : t.handle.bind f = some i) : x = y := by
  by_contra hne
  obtain ⟨a, ha, hfa⟩ := Option.bind_eq_some_iff.mp hi
  obtain ⟨b, hb, hfb⟩ := Option.bind_eq_some_iff.mp hi'
  have hperm : (heldBy p (some s) ++ held p (destroy os x)).Perm (held p os) := hs ▸ perm_destroy
  have hmem : b ∈ held p (destroy os x) := by
    refine mem_held.mpr ⟨y, t, ?_, hpt, hb⟩
    rw [get_destroy, if_neg (fun h => hne h.symm)]
    exact ht
  have hnd' := (hperm.filterMap f).nodup_iff.mpr hnd
  rw [List.filterMap_append] at hnd'
  exact (List.nodup_append.mp hnd').2.2 i (List.mem_filterMap.mpr ⟨a, mem_heldBy.mpr ⟨hps, ha⟩, hfa⟩)
    i (List.mem_filterMap.mpr ⟨b, hmem, hfb⟩) rfl

end Ownership
end Cclib
