import Cclib.Lib.Ownership
import Mathlib.Data.List.Nodup

/-!
# `Lib.Ledger` — resources that are made, held by objects and given back

Resources are numbered in the order in which they are made. Each is at any moment owned by an object, given back, or in
the hands of a function that runs. `Accounts l hands` says that every resource is in one of these places, and in one
only; there is one rule for each thing a function can do with what it has in its hands. What a function still has when it
ends is lost: `Balanced` is `Accounts` with empty hands, and no ledger accounts for two different hands (`hands_unique`).

## Contents
- `Ledger`, `ids`, `Accounts`, `Balanced`.
- `Ledger.make`, `Ledger.giveBack`, `Ledger.hold`, `Ledger.drop`, `Ledger.change`, and a rule for each.
- `Balanced.owner`, `Balanced.gone`, `Balanced.once`: what a balanced ledger says.
-/

namespace Cclib
namespace Ledgers

open Ownership

variable {K H : Type}

/-- The objects, the number of resources that have been made, and those that have been given back. -/
structure Ledger (K H : Type) where
  objects : Objects K H
  made : Nat
  back : List Nat

namespace Ledger

def empty : Ledger K H := ⟨[], 0, []⟩

/-- A new resource, whose number is `l.made`. -/
def make (l : Ledger K H) : Ledger K H := { l with made := l.made + 1 }

def giveBack (l : Ledger K H) (i : Nat) : Ledger K H := { l with back := l.back ++ [i] }

/-- A new object takes what it owns out of the function's hands. -/
def hold (l : Ledger K H) (s : Slot K H) : Ledger K H := { l with objects := new l.objects s }

/-- An object is destroyed, and what it owned is in the destructor's hands. -/
def drop (l : Ledger K H) (x : Nat) : Ledger K H := { l with objects := destroy l.objects x }

/-- An object changes, and owns what it owned. -/
def change (l : Ledger K H) (x : Nat) (h : H) : Ledger K H := { l with objects := setHandle l.objects x (some h) }

end Ledger

variable (owns : H → List Nat)

/-- The resources that objects own. -/
def ids (l : Ledger K H) : List Nat := (held (fun _ => true) l.objects).flatMap owns

/-- Every resource is owned by an object, given back or in the hands of the function that runs. -/
def Accounts (l : Ledger K H) (hands : List Nat) : Prop := (hands ++ (ids owns l ++ l.back)).Perm (List.range l.made)

def Balanced (l : Ledger K H) : Prop := Accounts owns l []

variable {owns} {l : Ledger K H} {hands hands' : List Nat} {x y i : Nat} {s t : Slot K H} {h : H}

theorem balanced_nodup (hb : Balanced owns l) : (ids owns l ++ l.back).Nodup := hb.nodup_iff.mpr List.nodup_range

theorem balanced_empty : Balanced owns (Ledger.empty : Ledger K H) := List.Perm.refl _

theorem mem_ids : i ∈ ids owns l ↔ ∃ x s h, get l.objects x = some s ∧ s.handle = some h ∧ i ∈ owns h := by
  unfold ids
  rw [List.mem_flatMap]
  constructor
  · rintro ⟨h, hh, hi⟩
    obtain ⟨x, s, hs, -, hsh⟩ := mem_held.mp hh
    exact ⟨x, s, h, hs, hsh, hi⟩
  · rintro ⟨x, s, h, hs, hsh, hi⟩
    exact ⟨h, mem_held.mpr ⟨x, s, hs, rfl, hsh⟩, hi⟩

/-- What an object that is destroyed owned. -/
theorem perm_drop (hs : get l.objects x = some s) :
    (s.handle.toList.flatMap owns ++ ids owns (l.drop x)).Perm (ids owns l) := by
  have hperm : (heldBy (fun _ => true) (some s) ++ held (fun _ => true) (destroy l.objects x)).Perm
      (held (fun _ => true) l.objects) := hs ▸ perm_destroy
  have hflat := hperm.flatMap_right owns
  rw [List.flatMap_append] at hflat
  exact hflat

/-! ## The rules -/

namespace Accounts

theorem perm (ha : Accounts owns l hands) (hp : hands'.Perm hands) : Accounts owns l hands' :=
  (hp.append_right _).trans ha

/-- **Making** a resource puts it into the hands. -/
theorem make (ha : Accounts owns l hands) : Accounts owns l.make (l.made :: hands) := by
  unfold Accounts
  change (l.made :: (hands ++ (ids owns l ++ l.back))).Perm (List.range (l.made + 1))
  rw [List.range_succ]
  exact (ha.cons _).trans (List.perm_append_singleton _ _).symm

/-- **Giving back** takes one out of the hands. -/
theorem giveBack (ha : Accounts owns l (i :: hands)) : Accounts owns (l.giveBack i) hands := by
  unfold Accounts at ha ⊢
  change (hands ++ (ids owns l ++ (l.back ++ [i]))).Perm (List.range l.made)
  rw [← List.append_assoc, ← List.append_assoc]
  refine (List.perm_append_singleton _ _).trans ?_
  rw [List.append_assoc]
  exact ha

/-- **A new object** takes out of the hands what it owns. -/
theorem hold (ha : Accounts owns l (s.handle.toList.flatMap owns ++ hands)) : Accounts owns (l.hold s) hands := by
  have hids : ids owns (l.hold s) = ids owns l ++ s.handle.toList.flatMap owns := by
    unfold ids Ledger.hold
    rw [held_new, List.flatMap_append]
    rfl
  unfold Accounts at ha ⊢
  rw [hids]
  change (hands ++ (ids owns l ++ s.handle.toList.flatMap owns ++ l.back)).Perm (List.range l.made)
  refine List.Perm.trans ?_ ha
  rw [List.append_assoc (ids owns l), List.append_assoc _ hands]
  refine (List.Perm.append_left hands (List.perm_append_comm_assoc _ _ _)).trans ?_
  exact List.perm_append_comm_assoc _ _ _

/-- **A destructor** has what the object owned. -/
theorem drop (ha : Accounts owns l hands) (hs : get l.objects x = some s) :
    Accounts owns (l.drop x) (s.handle.toList.flatMap owns ++ hands) := by
  unfold Accounts at ha ⊢
  change (s.handle.toList.flatMap owns ++ hands ++ (ids owns (l.drop x) ++ l.back)).Perm (List.range l.made)
  refine List.Perm.trans ?_ ha
  rw [List.append_assoc]
  refine List.perm_append_comm_assoc _ _ _ |>.trans ?_
  refine List.Perm.append_left _ ?_
  rw [← List.append_assoc]
  exact (perm_drop hs).append_right _

/-- **A change** of what an object has besides. -/
theorem change (ha : Accounts owns l hands) (hs : get l.objects x = some s) {h' : H} (hh : s.handle = some h)
    (howns : owns h' = owns h) : Accounts owns (l.change x h') hands := by
  have hset := (perm_setHandle (p := fun _ => true) (h := some h') hs).flatMap_right owns
  have hold : (heldBy (fun _ => true) (some s)).flatMap owns = owns h' := by
    change s.handle.toList.flatMap owns = _
    rw [hh, howns]
    exact List.append_nil _
  have hnew : (heldBy (fun _ => true) (some (⟨s.kind, some h'⟩ : Slot K H))).flatMap owns = owns h' := List.append_nil _
  rw [List.flatMap_append, List.flatMap_append, hold, hnew] at hset
  have hids : (ids owns (l.change x h')).Perm (ids owns l) := (List.perm_append_left_iff _).mp hset
  unfold Accounts at ha ⊢
  exact (List.Perm.append_left _ (hids.append_right _)).trans ha

/-- A move-construction loses nothing. -/
theorem moveConstruct {os : Objects K H} (ha : Accounts owns l hands) (hm : moveConstruct l.objects x = some os) :
    Accounts owns { l with objects := os } hands := by
  unfold Accounts at ha ⊢
  refine List.Perm.trans ?_ ha
  exact List.Perm.append_left _ (((perm_moveConstruct hm).flatMap_right owns).append_right _)

/-- **One ledger, one pair of hands**. -/
theorem hands_unique (ha : Accounts owns l hands) (ha' : Accounts owns l hands') : hands.Perm hands' :=
  (List.perm_append_right_iff _).mp (ha.trans ha'.symm)

/-- With something in the hands the ledger is not balanced. -/
theorem balanced_iff (ha : Accounts owns l hands) : Balanced owns l ↔ hands = [] := by
  constructor
  · intro hb
    exact List.perm_nil.mp (ha.hands_unique hb)
  · rintro rfl
    exact ha

end Accounts

/-! ## What a balanced ledger says -/

namespace Balanced

/-- A resource that has not been given back has its one owner. -/
theorem owner (hb : Balanced owns l) (hi : i < l.made) (hback : i ∉ l.back) :
    ∃! x, ∃ s h, get l.objects x = some s ∧ s.handle = some h ∧ i ∈ owns h := by
  have hmem : i ∈ ids owns l ++ l.back := hb.mem_iff.mpr (List.mem_range.mpr hi)
  obtain ⟨x, s, h, hs, hh, hown⟩ := mem_ids.mp ((List.mem_append.mp hmem).resolve_right hback)
  refine ⟨x, ⟨s, h, hs, hh, hown⟩, ?_⟩
  rintro y ⟨t, h', ht, hh', hown'⟩
  by_contra hne
  -- without `x` the other object still owns it, so it would be there twice
  have hnd : (s.handle.toList.flatMap owns ++ ids owns (l.drop x)).Nodup :=
    (perm_drop hs).nodup_iff.mpr (List.nodup_append.mp (balanced_nodup hb)).1
  have hsecond : i ∈ ids owns (l.drop x) := by
    refine mem_ids.mpr ⟨y, t, h', ?_, hh', hown'⟩
    unfold Ledger.drop
    rw [get_destroy, if_neg hne]
    exact ht
  have hfirst : i ∈ s.handle.toList.flatMap owns := by
    rw [hh]
    exact List.mem_flatMap.mpr ⟨h, List.mem_singleton.mpr rfl, hown⟩
  exact (List.nodup_append.mp hnd).2.2 i hfirst i hsecond rfl

/-- Nothing is given back twice, and what an object owns has not been given back. -/
theorem once (hb : Balanced owns l) : l.back.Nodup ∧ (∀ i ∈ l.back, i < l.made) ∧
    ∀ x s h, get l.objects x = some s → s.handle = some h → ∀ i ∈ owns h, i ∉ l.back := by
  have hnd := balanced_nodup hb
  refine ⟨(List.nodup_append.mp hnd).2.1, ?_, ?_⟩
  · intro i hi
    exact List.mem_range.mp (hb.mem_iff.mp (List.mem_append_right (ids owns l) hi))
  · intro x s h hs hh i hown hback
    exact (List.nodup_append.mp hnd).2.2 i (mem_ids.mpr ⟨x, s, h, hs, hh, hown⟩) i hback rfl

/-- When no object is left everything has been given back. -/
theorem gone (hb : Balanced owns l) (hnone : ∀ x, get l.objects x = none) : ∀ i < l.made, i ∈ l.back := by
  intro i hi
  by_contra hback
  obtain ⟨x, ⟨s, h, hs, -, -⟩, -⟩ := hb.owner hi hback
  rw [hnone x] at hs
  exact Option.some_ne_none _ hs.symm

end Balanced

end Ledgers
end Cclib
