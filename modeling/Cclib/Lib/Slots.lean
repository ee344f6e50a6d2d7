import Mathlib.Logic.Function.Basic
import Mathlib.Data.List.Basic

/-!
# `Lib.Slots` — objects that are created, used and deleted through slots

Each client has a slot, in which the address of its object stands as long as it has one. `modify` and `delete` go
through the slot; they are not defined where it is empty or its object is gone.

`Owned` says that this never happens, that no two clients have one object, and that an object is there as long as some
client has it and is deleted once. The three operations keep it.

## Contents
- `Slots`, `object`, `create`, `modify`, `delete`.
- `Owned`, `owned_empty`, `Owned.create`, `Owned.modify`, `Owned.delete`.
-/

namespace Cclib

variable {κ O : Type} [DecidableEq κ]

/-- The slots, the objects by address (`none` is one that was deleted), and the addresses in the order of the deletes. -/
structure Slots (κ O : Type) where
  slot : κ → Option Nat
  objects : List (Option O)
  deleted : List Nat

namespace Slots

variable (s : Slots κ O) (k : κ) (o : O)

def empty (κ O : Type) : Slots κ O := ⟨fun _ => none, [], []⟩

/-- The object that the slot leads to. -/
def object : Option O := do
  let a ← s.slot k
  (s.objects[a]?).join

/-- A new object. -/
def create : Slots κ O :=
  { s with slot := Function.update s.slot k (some s.objects.length), objects := s.objects ++ [some o] }

/-- The object becomes another. -/
def modify : Option (Slots κ O) := do
  let a ← s.slot k
  let _ ← (s.objects[a]?).join
  return { s with objects := s.objects.set a (some o) }

/-- The object is deleted, and the slot cleared. -/
def delete : Option (Slots κ O) := do
  let a ← s.slot k
  let _ ← (s.objects[a]?).join
  return { slot := Function.update s.slot k none, objects := s.objects.set a none, deleted := s.deleted ++ [a] }

/-- Every slot that is not empty leads to an object of its own, every object is in a slot, and what is gone was deleted
    once. -/
structure Owned : Prop where
  alive : ∀ k a, s.slot k = some a → ∃ o, s.objects[a]? = some (some o)
  apart : ∀ k k' a, s.slot k = some a → s.slot k' = some a → k = k'
  owned : ∀ a o, s.objects[a]? = some (some o) → ∃ k, s.slot k = some a
  counted : ∀ a, (s.objects[a]? = some none → s.deleted.count a = 1) ∧ (s.objects[a]? ≠ some none → s.deleted.count a = 0)

variable {s k o} {s' : Slots κ O} {k' : κ} {o' : O}

omit [DecidableEq κ] in
theorem owned_empty : (empty κ O).Owned where
  alive _ _ h := by cases h
  apart _ _ _ h := by cases h
  owned _ _ h := by cases h
  counted _ := by
    refine ⟨fun h => ?_, fun _ => rfl⟩
    cases h

omit [DecidableEq κ] in
theorem Owned.object_eq (h : s.Owned) : s.object k = none ↔ s.slot k = none := by
  constructor
  · intro hobj
    cases hk : s.slot k with
    | none => rfl
    | some a =>
        obtain ⟨o, ho⟩ := h.alive k a hk
        rw [object, hk] at hobj
        change (s.objects[a]?).join = none at hobj
        rw [ho] at hobj
        cases hobj
  · intro hk
    rw [object, hk]
    rfl

omit [DecidableEq κ] in
/-- Where an object stands. -/
theorem address_of_object (hobj : s.object k = some o) :
    ∃ a, s.slot k = some a ∧ s.objects[a]? = some (some o) := by
  obtain ⟨a, hk, ha⟩ := Option.bind_eq_some_iff.mp hobj
  exact ⟨a, hk, Option.join_eq_some_iff.mp ha⟩

/-! ## Creating -/

theorem Owned.object_create (h : s.Owned) : (s.create k o).object k' = if k' = k then some o else s.object k' := by
  unfold object create
  simp only
  rw [Function.update_apply]
  split_ifs with hk
  · change ((s.objects ++ [some o])[s.objects.length]?).join = some o
    rw [List.getElem?_concat_length]
    rfl
  · cases hk' : s.slot k' with
    | none => rfl
    | some a =>
        obtain ⟨o', ho'⟩ := h.alive k' a hk'
        change ((s.objects ++ [some o])[a]?).join = (s.objects[a]?).join
        rw [List.getElem?_append_left (List.getElem?_eq_some_iff.mp ho').1]

/-- **Creating** an object for a client that has none. -/
theorem Owned.create (h : s.Owned) (hk : s.slot k = none) : (s.create k o).Owned := by
  have hlt : ∀ {k' a}, s.slot k' = some a → a < s.objects.length := by
    intro k' a hk'
    obtain ⟨o', ho'⟩ := h.alive k' a hk'
    exact (List.getElem?_eq_some_iff.mp ho').1
  have hslot : ∀ {k' a}, (s.create k o).slot k' = some a →
      (k' = k ∧ a = s.objects.length) ∨ (s.slot k' = some a ∧ a < s.objects.length) := by
    intro k' a hk'
    change Function.update s.slot k (some s.objects.length) k' = some a at hk'
    rw [Function.update_apply] at hk'
    split_ifs at hk' with heq
    · exact Or.inl ⟨heq, (Option.some.inj hk').symm⟩
    · exact Or.inr ⟨hk', hlt hk'⟩
  constructor
  case alive =>
    intro k' a hk'
    rcases hslot hk' with ⟨-, rfl⟩ | ⟨hk', ha⟩
    · exact ⟨o, List.getElem?_concat_length⟩
    · obtain ⟨o', ho'⟩ := h.alive k' a hk'
      exact ⟨o', (List.getElem?_append_left ha).trans ho'⟩
  case apart =>
    intro k₁ k₂ a h₁ h₂
    rcases hslot h₁ with ⟨rfl, rfl⟩ | ⟨h₁, ha⟩
    · rcases hslot h₂ with ⟨rfl, -⟩ | ⟨-, ha⟩
      · rfl
      · exact absurd ha (Nat.lt_irrefl _)
    · rcases hslot h₂ with ⟨-, rfl⟩ | ⟨h₂, -⟩
      · exact absurd ha (Nat.lt_irrefl _)
      · exact h.apart k₁ k₂ a h₁ h₂
  case owned =>
    intro a o' ha
    by_cases hlast : a < s.objects.length
    · have ha : s.objects[a]? = some (some o') := by
        rw [← ha]
        exact (List.getElem?_append_left hlast).symm
      obtain ⟨k', hk'⟩ := h.owned a o' ha
      refine ⟨k', ?_⟩
      change Function.update s.slot k (some s.objects.length) k' = some a
      rw [Function.update_of_ne, hk']
      rintro rfl
      rw [hk] at hk'
      cases hk'
    · have hle : a < (s.objects ++ [some o]).length := (List.getElem?_eq_some_iff.mp ha).1
      rw [List.length_append, List.length_singleton] at hle
      obtain rfl : a = s.objects.length := by omega
      exact ⟨k, Function.update_self _ _ _⟩
  case counted =>
    intro a
    have hgone : (s.objects ++ [some o])[a]? = some none ↔ s.objects[a]? = some none := by
      rcases Nat.lt_trichotomy a s.objects.length with ha | rfl | ha
      · rw [List.getElem?_append_left ha]
      · rw [List.getElem?_concat_length, List.getElem?_eq_none (Nat.le_refl _)]
        simp
      · rw [List.getElem?_eq_none (Nat.le_of_lt ha), List.getElem?_eq_none]
        rw [List.length_append, List.length_singleton]
        exact ha
    exact ⟨fun ha => (h.counted a).1 (hgone.mp ha), fun ha => (h.counted a).2 (fun hn => ha (hgone.mpr hn))⟩

/-! ## Modifying and deleting -/

omit [DecidableEq κ] in
/-- The object of another client is not at this address. -/
theorem Owned.other_address (h : s.Owned) {a b : Nat} (ha : s.slot k = some a) (hb : s.slot k' = some b) (hne : k' ≠ k)
    (x : Option O) : (s.objects.set a x)[b]? = s.objects[b]? := by
  apply List.getElem?_set_ne
  rintro rfl
  exact hne (h.apart k' k a hb ha)

/-- **Modifying** the object of a client. -/
theorem Owned.modify (h : s.Owned) (hobj : s.object k = some o) (o' : O) :
    ∃ s', s.modify k o' = some s' ∧ s'.Owned ∧ s'.slot = s.slot ∧ s'.deleted = s.deleted ∧
      ∀ k', s'.object k' = if k' = k then some o' else s.object k' := by
  obtain ⟨a, hk, ha⟩ := address_of_object hobj
  have hlt : a < s.objects.length := (List.getElem?_eq_some_iff.mp ha).1
  have hself : (s.objects.set a (some o'))[a]? = some (some o') := List.getElem?_set_self hlt
  refine ⟨{ s with objects := s.objects.set a (some o') }, ?_, ?_, rfl, rfl, ?_⟩
  · simp only [Slots.modify, hk, ha, Option.join_some, Option.bind_eq_bind, Option.bind_some, Option.pure_def]
  · constructor
    case alive =>
      intro k' b hb
      by_cases hkk : k' = k
      · subst hkk
        obtain rfl := Option.some.inj (hk.symm.trans hb)
        exact ⟨o', hself⟩
      · obtain ⟨o₁, ho₁⟩ := h.alive k' b hb
        exact ⟨o₁, (h.other_address hk hb hkk _).trans ho₁⟩
    case apart => exact h.apart
    case owned =>
      intro b o₁ hb
      by_cases hab : a = b
      · exact ⟨k, hab ▸ hk⟩
      · change (s.objects.set a (some o'))[b]? = _ at hb
        rw [List.getElem?_set_ne hab] at hb
        exact h.owned b o₁ hb
    case counted =>
      intro b
      have hgone : (s.objects.set a (some o'))[b]? = some none ↔ s.objects[b]? = some none := by
        by_cases hab : a = b
        · subst hab
          rw [hself, ha]
          simp
        · rw [List.getElem?_set_ne hab]
      exact ⟨fun hb => (h.counted b).1 (hgone.mp hb), fun hb => (h.counted b).2 (fun hn => hb (hgone.mpr hn))⟩
  · intro k'
    unfold object
    split_ifs with hkk
    · subst hkk
      rw [hk]
      change ((s.objects.set a (some o'))[a]?).join = _
      rw [hself]
      rfl
    · cases hb : s.slot k' with
      | none => rfl
      | some b => exact congrArg Option.join (h.other_address hk hb hkk _)

/-- **Deleting** the object of a client. -/
theorem Owned.delete (h : s.Owned) (hobj : s.object k = some o) :
    ∃ s' a, s.delete k = some s' ∧ s.slot k = some a ∧ s'.Owned ∧ s'.deleted = s.deleted ++ [a] ∧ s'.slot k = none ∧
      (∀ k', k' ≠ k → s'.slot k' = s.slot k') ∧ ∀ k', s'.object k' = if k' = k then none else s.object k' := by
  obtain ⟨a, hk, ha⟩ := address_of_object hobj
  have hlt : a < s.objects.length := (List.getElem?_eq_some_iff.mp ha).1
  have hself : (s.objects.set a none)[a]? = some none := List.getElem?_set_self hlt
  have hslot : ∀ {k' b}, Function.update s.slot k none k' = some b → k' ≠ k ∧ s.slot k' = some b := by
    intro k' b hb
    rw [Function.update_apply] at hb
    split_ifs at hb with hkk
    exact ⟨hkk, hb⟩
  refine ⟨⟨Function.update s.slot k none, s.objects.set a none, s.deleted ++ [a]⟩, a, ?_, hk, ?_, rfl,
    Function.update_self _ _ _, fun k' hkk => Function.update_of_ne hkk _ _, ?_⟩
  · simp only [Slots.delete, hk, ha, Option.join_some, Option.bind_eq_bind, Option.bind_some, Option.pure_def]
  · constructor
    case alive =>
      intro k' b hb
      obtain ⟨hkk, hb⟩ := hslot hb
      obtain ⟨o₁, ho₁⟩ := h.alive k' b hb
      exact ⟨o₁, (h.other_address hk hb hkk _).trans ho₁⟩
    case apart =>
      intro k₁ k₂ b h₁ h₂
      exact h.apart k₁ k₂ b (hslot h₁).2 (hslot h₂).2
    case owned =>
      intro b o₁ hb
      by_cases hab : a = b
      · subst hab
        change (s.objects.set a none)[a]? = _ at hb
        rw [hself] at hb
        cases hb
      · change (s.objects.set a none)[b]? = _ at hb
        rw [List.getElem?_set_ne hab] at hb
        obtain ⟨k', hk'⟩ := h.owned b o₁ hb
        refine ⟨k', ?_⟩
        change Function.update s.slot k none k' = some b
        rw [Function.update_of_ne, hk']
        rintro rfl
        exact hab (Option.some.inj (hk.symm.trans hk'))
    case counted =>
      intro b
      change ((s.objects.set a none)[b]? = some none → (s.deleted ++ [a]).count b = 1) ∧
        ((s.objects.set a none)[b]? ≠ some none → (s.deleted ++ [a]).count b = 0)
      rw [List.count_append, List.count_singleton]
      by_cases hab : a = b
      · subst hab
        have hzero : s.deleted.count a = 0 := (h.counted a).2 (by rw [ha]; simp)
        rw [hself, hzero]
        simp
      · have hne : (a == b) = false := beq_false_of_ne hab
        rw [List.getElem?_set_ne hab, hne]
        exact h.counted b
  · intro k'
    unfold object
    simp only
    rw [Function.update_apply]
    split_ifs with hkk
    · rfl
    · cases hb : s.slot k' with
      | none => rfl
      | some b => exact congrArg Option.join (h.other_address hk hb hkk _)

end Slots
end Cclib
