import Mathlib.Order.Lattice
import Mathlib.Data.List.Pairwise

/-!
# `Lib.KeyedSet` — a set ordered by a key

The elements stand in the order of their keys, and no two have the same key. An element whose key is already there is
not inserted; an element may be modified in place as long as its key stays. What each operation leaves in the set is a
membership lemma.

## Contents
- `KeyedSet`, `insert`, `modify`, `erase`, `find`.
- `mem_insert`, `mem_modify`, `mem_erase`, `find_isSome`.
-/

namespace Cclib

variable {α κ : Type} [LinearOrder κ]

/-- A set ordered by `key`. -/
structure KeyedSet (key : α → κ) where
  elems : List α
  sorted : elems.Pairwise (fun a b => key a < key b)

namespace KeyedSet

variable {key : α → κ} {a b : α} {k : κ} {s : KeyedSet key} {l : List α}

instance : Membership α (KeyedSet key) := ⟨fun s a => a ∈ s.elems⟩

theorem mem_def : a ∈ s ↔ a ∈ s.elems := Iff.rfl

def empty (key : α → κ) : KeyedSet key := ⟨[], List.Pairwise.nil⟩

theorem not_mem_empty : a ∉ empty key := List.not_mem_nil

/-! ## Insertion -/

/-- An element at its place in an ordered list, unless its key is there. -/
def insertElem (key : α → κ) (a : α) : List α → List α
  | [] => [a]
  | b :: bs =>
    if key b < key a then b :: insertElem key a bs
    else if key a < key b then a :: b :: bs
    else b :: bs

theorem mem_insertElem (hl : l.Pairwise (fun a b => key a < key b)) :
    b ∈ insertElem key a l ↔ b ∈ l ∨ b = a ∧ ∀ c ∈ l, key c ≠ key a := by
  induction l with
  | nil => simp [insertElem]
  | cons d ds ih =>
      obtain ⟨hd, hds⟩ := List.pairwise_cons.mp hl
      rw [insertElem]
      split_ifs with hda had
      · have hne : key d ≠ key a := ne_of_lt hda
        rw [List.mem_cons, ih hds, ← or_assoc, List.mem_cons]
        apply or_congr Iff.rfl (and_congr_right _)
        intro _
        rw [List.forall_mem_cons]
        exact ⟨fun h => ⟨hne, h⟩, fun h => h.2⟩
      · have hall : ∀ c ∈ d :: ds, key c ≠ key a := by
          intro c hc
          rcases List.mem_cons.mp hc with rfl | hc
          · exact ne_of_gt had
          · exact ne_of_gt (lt_trans had (hd c hc))
        rw [List.mem_cons, or_comm]
        exact or_congr Iff.rfl ⟨fun h => ⟨h, hall⟩, fun h => h.1⟩
      · have heq : key d = key a := le_antisymm (not_lt.mp had) (not_lt.mp hda)
        refine ⟨Or.inl, ?_⟩
        rintro (h | ⟨-, hall⟩)
        · exact h
        · exact absurd heq (hall d List.mem_cons_self)

theorem sorted_insertElem (hl : l.Pairwise (fun a b => key a < key b)) :
    (insertElem key a l).Pairwise (fun a b => key a < key b) := by
  induction l with
  | nil => exact List.pairwise_singleton _ _
  | cons d ds ih =>
      obtain ⟨hd, hds⟩ := List.pairwise_cons.mp hl
      rw [insertElem]
      split_ifs with hda had
      · apply List.pairwise_cons.mpr
        refine ⟨?_, ih hds⟩
        intro c hc
        rcases (mem_insertElem hds).mp hc with hc | ⟨rfl, -⟩
        · exact hd c hc
        · exact hda
      · apply List.pairwise_cons.mpr
        refine ⟨?_, hl⟩
        intro c hc
        rcases List.mem_cons.mp hc with rfl | hc
        · exact had
        · exact lt_trans had (hd c hc)
      · exact hl

def insert (s : KeyedSet key) (a : α) : KeyedSet key := ⟨insertElem key a s.elems, sorted_insertElem s.sorted⟩

theorem mem_insert : b ∈ s.insert a ↔ b ∈ s ∨ b = a ∧ ∀ c ∈ s, key c ≠ key a := mem_insertElem s.sorted

/-! ## Modification, removal, search -/

/-- The element with a key, modified in place. -/
def modify (s : KeyedSet key) (k : κ) (f : α → α) (hf : ∀ a, key (f a) = key a) : KeyedSet key where
  elems := s.elems.map (fun a => if key a = k then f a else a)
  sorted := by
    have hkey : ∀ a, key (if key a = k then f a else a) = key a := by
      intro a
      split_ifs
      · exact hf a
      · rfl
    rw [List.pairwise_map]
    apply s.sorted.imp
    intro a b hab
    rw [hkey, hkey]
    exact hab

theorem mem_modify {f : α → α} (hf : ∀ a, key (f a) = key a) :
    b ∈ s.modify k f hf ↔ b ∈ s ∧ key b ≠ k ∨ ∃ a ∈ s, key a = k ∧ b = f a := by
  rw [mem_def, modify, List.mem_map]
  constructor
  · rintro ⟨a, ha, rfl⟩
    split_ifs with hk
    · exact Or.inr ⟨a, ha, hk, rfl⟩
    · exact Or.inl ⟨ha, hk⟩
  · rintro (⟨hb, hk⟩ | ⟨a, ha, hk, rfl⟩)
    · exact ⟨b, hb, if_neg hk⟩
    · exact ⟨a, ha, if_pos hk⟩

def erase (s : KeyedSet key) (k : κ) : KeyedSet key :=
  ⟨s.elems.filter (fun a => key a ≠ k), s.sorted.filter _⟩

theorem mem_erase : b ∈ s.erase k ↔ b ∈ s ∧ key b ≠ k := by
  rw [mem_def, erase, List.mem_filter, decide_eq_true_iff]
  rfl

def find (s : KeyedSet key) (k : κ) : Option α := s.elems.find? (fun a => key a = k)

theorem find_isSome : (s.find k).isSome = true ↔ ∃ a ∈ s, key a = k := by
  rw [find, List.find?_isSome]
  simp only [decide_eq_true_iff]
  rfl

end KeyedSet
end Cclib
