import Mathlib.Logic.Basic
import Mathlib.Tactic.SplitIfs
import Mathlib.Data.List.Pairwise

/-!
# `Lib.OrderedMap` — a map as a list ordered by its keys

The entries stand in the order of their keys under a strict total order, as in a search tree read from left to right.
`alter` changes the value of a key, or gives one to a key that has none; what it does is said by `lookup` alone.

## Contents
- `Strict`: a strict total order; `Sorted`.
- `lookup`, `alter`.
- `lookup_alter_self`, `lookup_alter_ne`, `sorted_alter`, `mem_iff_lookup`.
-/

namespace Cclib
namespace OrderedMap

variable {κ β : Type}

/-- A strict total order. -/
structure Strict (r : κ → κ → Prop) : Prop where
  irrefl : ∀ a, ¬ r a a
  trans : ∀ {a b c}, r a b → r b c → r a c
  total : ∀ {a b}, ¬ r a b → ¬ r b a → a = b

/-- The keys are in order. -/
def Sorted (r : κ → κ → Prop) (l : List (κ × β)) : Prop := l.Pairwise (fun d e => r d.1 e.1)

variable (r : κ → κ → Prop) [DecidableRel r]

/-- The value of a key. -/
def lookup (k : κ) : List (κ × β) → Option β
  | [] => none
  | d :: ds => if r d.1 k then lookup k ds else if r k d.1 then none else some d.2

/-- The value of a key becomes what `f` makes of the one it has. -/
def alter (k : κ) (f : Option β → β) : List (κ × β) → List (κ × β)
  | [] => [(k, f none)]
  | d :: ds =>
    if r d.1 k then d :: alter k f ds
    else if r k d.1 then (k, f none) :: d :: ds
    else (d.1, f (some d.2)) :: ds

variable {r} {k k' : κ} {f : Option β → β} {v : β} {l : List (κ × β)}

/-- A key below all keys has no value. -/
theorem lookup_eq_none (hr : Strict r) (h : ∀ d ∈ l, r k d.1) : lookup r k l = none := by
  cases l with
  | nil => rfl
  | cons d ds =>
      have hkd := h d List.mem_cons_self
      rw [lookup, if_neg (fun hdk => hr.irrefl k (hr.trans hkd hdk)), if_pos hkd]

theorem lookup_cons_self (hr : Strict r) (k : κ) (v : β) (l : List (κ × β)) : lookup r k ((k, v) :: l) = some v := by
  rw [lookup, if_neg (hr.irrefl k), if_neg (hr.irrefl k)]

/-- **The altered key** has its new value. -/
theorem lookup_alter_self (hr : Strict r) (k : κ) (f : Option β → β) (l : List (κ × β)) :
    lookup r k (alter r k f l) = some (f (lookup r k l)) := by
  induction l with
  | nil => exact lookup_cons_self hr k _ []
  | cons d ds ih =>
      rw [alter, lookup]
      split_ifs with hdk hkd
      · rw [lookup, if_pos hdk, ih]
      · exact lookup_cons_self hr k _ (d :: ds)
      · rw [lookup, if_neg hdk, if_neg hkd]

/-- **Every other key** keeps its value. -/
theorem lookup_alter_ne (hr : Strict r) (hl : Sorted r l) (hne : k' ≠ k) :
    lookup r k' (alter r k f l) = lookup r k' l := by
  induction l with
  | nil =>
      rw [alter, lookup, lookup]
      split_ifs with h h'
      · rfl
      · rfl
      · exact absurd (hr.total h' h) hne
  | cons d ds ih =>
      obtain ⟨hd, hds⟩ := List.pairwise_cons.mp hl
      rw [alter]
      split_ifs with hdk hkd
      · rw [lookup, lookup, ih hds]
      · -- the new entry stands in front of `d`
        rw [lookup]
        split_ifs with h h'
        · rfl
        · rw [lookup_eq_none hr]
          intro e he
          rcases List.mem_cons.mp he with rfl | he
          · exact hr.trans h' hkd
          · exact hr.trans h' (hr.trans hkd (hd e he))
        · exact absurd (hr.total h' h) hne
      · -- `d` has the key, so the other key is not at `d`
        have hkey : d.1 = k := hr.total hdk hkd
        rw [lookup, lookup]
        split_ifs with h h'
        · rfl
        · rfl
        · exact absurd ((hr.total h' h).trans hkey) hne

theorem mem_alter {d : κ × β} (h : d ∈ alter r k f l) : d.1 = k ∨ (∃ e ∈ l, d.1 = e.1) := by
  induction l with
  | nil => exact Or.inl (congrArg Prod.fst (List.mem_singleton.mp h))
  | cons e es ih =>
      rw [alter] at h
      split_ifs at h
      · rcases List.mem_cons.mp h with rfl | h
        · exact Or.inr ⟨d, List.mem_cons_self, rfl⟩
        · exact (ih h).imp id (fun ⟨x, hx, hkey⟩ => ⟨x, List.mem_cons_of_mem _ hx, hkey⟩)
      · rcases List.mem_cons.mp h with rfl | h
        · exact Or.inl rfl
        · exact Or.inr ⟨d, h, rfl⟩
      · rcases List.mem_cons.mp h with rfl | h
        · exact Or.inr ⟨e, List.mem_cons_self, rfl⟩
        · exact Or.inr ⟨d, List.mem_cons_of_mem _ h, rfl⟩

/-- **The order** is kept. -/
theorem sorted_alter (hr : Strict r) (hl : Sorted r l) : Sorted r (alter r k f l) := by
  induction l with
  | nil => exact List.pairwise_singleton _ _
  | cons d ds ih =>
      obtain ⟨hd, hds⟩ := List.pairwise_cons.mp hl
      rw [alter]
      split_ifs with hdk hkd
      · refine List.pairwise_cons.mpr ⟨?_, ih hds⟩
        intro e he
        rcases mem_alter he with hkey | ⟨x, hx, hkey⟩
        · rw [hkey]
          exact hdk
        · rw [hkey]
          exact hd x hx
      · refine List.pairwise_cons.mpr ⟨?_, hl⟩
        intro e he
        rcases List.mem_cons.mp he with rfl | he
        · exact hkd
        · exact hr.trans hkd (hd e he)
      · exact List.pairwise_cons.mpr ⟨hd, hds⟩

/-- The entries are the keys that have a value. -/
theorem mem_iff_lookup (hr : Strict r) (hl : Sorted r l) : (k, v) ∈ l ↔ lookup r k l = some v := by
  induction l with
  | nil => exact ⟨fun h => absurd h List.not_mem_nil, fun h => absurd h.symm (Option.some_ne_none v)⟩
  | cons d ds ih =>
      obtain ⟨hd, hds⟩ := List.pairwise_cons.mp hl
      rw [lookup, List.mem_cons]
      split_ifs with hdk hkd
      · rw [← ih hds]
        refine ⟨fun h => h.resolve_left ?_, Or.inr⟩
        rintro rfl
        exact hr.irrefl k hdk
      · refine iff_of_false ?_ id
        rintro (rfl | h)
        · exact hr.irrefl k hkd
        · exact hr.irrefl k (hr.trans hkd (hd (k, v) h))
      · have hkey : d.1 = k := hr.total hdk hkd
        constructor
        · rintro (rfl | h)
          · rfl
          · exact absurd (hkey ▸ hd (k, v) h) (hr.irrefl k)
        · intro h
          exact Or.inl (Prod.ext hkey.symm (Option.some.inj h).symm)

/-- The keys that have a value. -/
theorem mem_keys_iff (hr : Strict r) (hl : Sorted r l) : k ∈ l.map Prod.fst ↔ lookup r k l ≠ none := by
  rw [List.mem_map, Option.ne_none_iff_exists']
  constructor
  · rintro ⟨d, hd, rfl⟩
    exact ⟨d.2, (mem_iff_lookup hr hl).mp hd⟩
  · rintro ⟨v, hv⟩
    exact ⟨(k, v), (mem_iff_lookup hr hl).mpr hv, rfl⟩

end OrderedMap
end Cclib
