import Cclib.Lib.Compare
import Cclib.Lib.OrderedMap
import Mathlib.Data.Tree.Basic

/-!
# `Lib.SearchTree` — the search of `std::map`

A `std::map` is a search tree, and `find` goes down from its root: to the right where the key of a node is less than the
wanted one, else to the left, keeping the node. The last node kept has the key, unless the wanted key is less than that.
A comparison may not come to an end.

Which nodes the search meets depends on the shape of the tree. Where the elements that are less stand before the
others (`Parted`) the answer does not: it is the first element that is not less, if that has the key (`seek`), and so it
is what a search through the elements in their order finds.

## Contents
- `inorder`, `lowerBound`, `find`.
- `Parted`, `seek`; `find_eq_seek`.
- `seek_eq_search`, `seek_eq_lookup`: the searches through lists.
- `parted_of_ordered`, `parted_of_sorted`.
-/

namespace Cclib
namespace SearchTree

open Compare

variable {ε α : Type}

/-! ## The search -/

/-- The elements from left to right. -/
def inorder : BinaryTree ε → List ε
  | .nil => []
  | .node e l r => inorder l ++ e :: inorder r

/-- `_M_lower_bound`: `below` says which elements are less than the wanted key, `y` is the node kept so far. -/
def lowerBound (below : ε → Option Bool) : BinaryTree ε → Option ε → Option (Option ε)
  | .nil, y => some y
  | .node e l r, y => do
    if ← below e then lowerBound below r y else lowerBound below l (some e)

/-- `find`: `above` says which elements the wanted key is less than. -/
def find (below above : ε → Option Bool) (t : BinaryTree ε) : Option (Option ε) := do
  match ← lowerBound below t none with
  | none => return none
  | some e => return if ← above e then none else some e

/-! ## Elements that are parted -/

variable {below above : ε → Option Bool}

/-- The comparisons with the wanted key come to an end, and the elements that are less stand before the others. -/
structure Parted (below : ε → Option Bool) (es : List ε) : Prop where
  ends : ∀ e ∈ es, ∃ b, below e = some b
  pairwise : es.Pairwise (fun d e => below e = some true → below d = some true)

theorem Parted.append {ds es : List ε} (h : Parted below (ds ++ es)) : Parted below ds ∧ Parted below es := by
  obtain ⟨hds, hes, -⟩ := List.pairwise_append.mp h.pairwise
  exact ⟨⟨fun e he => h.ends e (List.mem_append_left _ he), hds⟩, fun e he => h.ends e (List.mem_append_right _ he), hes⟩

/-- The first element that is not less. -/
def firstNotBelow (below : ε → Option Bool) (es : List ε) : Option ε := es.find? (fun e => below e == some false)

/-- What is at the first element that is not less. -/
def seek (below above : ε → Option Bool) (es : List ε) : Option (Option ε) :=
  match firstNotBelow below es with
  | none => some none
  | some e => (above e).map (fun b => if b then none else some e)

theorem firstNotBelow_eq_none {es : List ε} (h : ∀ e ∈ es, below e = some true) : firstNotBelow below es = none := by
  refine List.find?_eq_none.mpr (fun e he => ?_)
  rw [h e he]
  decide

/-- The descent ends at the first element that is not less, or else where it was before. -/
theorem lowerBound_eq : ∀ {t : BinaryTree ε} {y : Option ε}, Parted below (inorder t) →
    lowerBound below t y = some ((firstNotBelow below (inorder t)).or y)
  | .nil, _, _ => rfl
  | .node e l r, y, h => by
      obtain ⟨hl, hr⟩ := h.append
      have hsplit : firstNotBelow below (inorder (.node e l r))
          = (firstNotBelow below (inorder l)).or (firstNotBelow below (e :: inorder r)) := List.find?_append
      obtain ⟨b, hb⟩ := hr.ends e List.mem_cons_self
      unfold lowerBound
      rw [hb, hsplit]
      cases b with
      | true =>
          -- what is left of `e` is less as well
          have hless : ∀ d ∈ inorder l, below d = some true :=
            fun d hd => (List.pairwise_append.mp h.pairwise).2.2 d hd e List.mem_cons_self hb
          have hskip : firstNotBelow below (e :: inorder r) = firstNotBelow below (inorder r) := by
            rw [firstNotBelow, List.find?_cons_of_neg (by rw [hb]; decide)]
            rfl
          rw [firstNotBelow_eq_none hless, Option.none_or, hskip]
          exact lowerBound_eq ⟨fun d hd => hr.ends d (List.mem_cons_of_mem e hd), (List.pairwise_cons.mp hr.pairwise).2⟩
      | false =>
          have hhere : firstNotBelow below (e :: inorder r) = some e := List.find?_cons_of_pos (by rw [hb]; decide)
          rw [hhere, Option.or_assoc, Option.some_or]
          exact lowerBound_eq hl

/-- **The answer does not depend on the tree.** -/
theorem find_eq_seek {t : BinaryTree ε} (h : Parted below (inorder t)) :
    find below above t = seek below above (inorder t) := by
  unfold find seek
  rw [lowerBound_eq h, Option.or_none]
  cases firstNotBelow below (inorder t) with
  | none => rfl
  | some e =>
      show (above e).bind _ = (above e).map _
      cases above e <;> rfl

theorem seek_total {es : List ε} (h : ∀ e ∈ es, ∃ b, above e = some b) : ∃ found, seek below above es = some found := by
  unfold seek
  split
  · exact ⟨none, rfl⟩
  · rename_i e he
    obtain ⟨b, hb⟩ := h e (List.mem_of_find?_eq_some he)
    exact ⟨_, congrArg (Option.map _) hb⟩

/-! ## Searches through lists -/

/-- Passing an element that is less. -/
theorem seek_cons_of_below {e : ε} {es : List ε} (h : below e = some true) :
    seek below above (e :: es) = seek below above es := by
  unfold seek firstNotBelow
  rw [List.find?_cons_of_neg (by rw [h]; decide)]

theorem seek_cons_of_not_below {e : ε} {es : List ε} (h : below e = some false) :
    seek below above (e :: es) = (above e).map (fun b => if b then none else some e) := by
  unfold seek firstNotBelow
  rw [List.find?_cons_of_pos (by rw [h]; decide)]

/-- A comparison says whether the left operand is less. -/
def isLess (r : Option Int) : Option Bool := r.map (fun r => decide (r < 0))

/-- **The linear lower bound** finds it, where the comparisons with the wanted key come to an end. -/
theorem seek_eq_search {cmp : Cmp α} {k : α} {es : List ε} {xs : List α}
    (h : List.Forall₂ (fun e x => below e = isLess (cmp x k) ∧ above e = isLess (cmp k x)) es xs)
    (hends : ∀ e ∈ es, ∃ b, below e = some b) :
    seek below above es = (search cmp k xs).map (fun res => if res.2 then es[res.1]? else none) := by
  induction h with
  | nil => rfl
  | @cons e x es xs hex _ ih =>
      obtain ⟨b, hb⟩ := hends e List.mem_cons_self
      obtain ⟨r, hr, rfl⟩ := Option.map_eq_some_iff.mp (hex.1.symm.trans hb)
      by_cases hr0 : r < 0
      · rw [decide_eq_true hr0] at hb
        rw [seek_cons_of_below hb, ih (fun d hd => hends d (List.mem_cons_of_mem e hd)), search_cons_of_lt hr hr0,
          Option.map_map]
        rfl
      · rw [decide_eq_false hr0] at hb
        rw [seek_cons_of_not_below hb, hex.2, search]
        simp only [hr, Option.bind_eq_bind, Option.bind_some, if_neg hr0]
        cases hk : cmp k x with
        | none => rfl
        | some r' => by_cases hr' : r' < 0 <;> simp [isLess, hr']

/-- **The look-up** in a list that is ordered by a relation. -/
theorem seek_eq_lookup {κ β : Type} {r : κ → κ → Prop} [DecidableRel r] {k : κ} {below above : κ × β → Option Bool}
    (hbelow : ∀ d, below d = some (decide (r d.1 k))) (habove : ∀ d, above d = some (decide (r k d.1)))
    (l : List (κ × β)) : (seek below above l).map (Option.map Prod.snd) = some (OrderedMap.lookup r k l) := by
  induction l with
  | nil => rfl
  | cons d ds ih =>
      rw [OrderedMap.lookup]
      by_cases hd : r d.1 k
      · rw [seek_cons_of_below ((hbelow d).trans (congrArg some (decide_eq_true hd))), ih, if_pos hd]
      · rw [seek_cons_of_not_below ((hbelow d).trans (congrArg some (decide_eq_false hd))), habove, if_neg hd]
        by_cases hk : r k d.1 <;> simp [hk]

/-! ## What is parted -/

/-- Elements that are in order are parted by every key. -/
theorem parted_of_ordered {cmp : Nat → Cmp α} (hmono : ∀ n m, n ≤ m → (cmp n).Le (cmp m)) (hlaw : ∀ n, Lawful (cmp n))
    {key : ε → α} {k : α} {es : List ε} (hes : es.Pairwise (fun d e => Below cmp (key d) (key e))) {n : Nat}
    (hends : ∀ e ∈ es, ∃ r, cmp n (key e) k = some r) : Parted (fun e => isLess (cmp n (key e) k)) es where
  ends := by
    intro e he
    obtain ⟨r, hr⟩ := hends e he
    exact ⟨_, congrArg isLess hr⟩
  pairwise := by
    refine List.Pairwise.imp_of_mem (fun {d e} hd _ hde hlt => ?_) hes
    obtain ⟨r, hr, hr0⟩ := Option.map_eq_some_iff.mp hlt
    obtain ⟨m, t, ht, ht0⟩ := Below.trans hmono hlaw hde ⟨n, r, hr, of_decide_eq_true hr0⟩
    obtain ⟨r', hr'⟩ := hends d hd
    -- at a depth that is enough for both, the comparisons of `d` are one
    obtain rfl : r' = t := Option.some.inj ((hmono n _ (Nat.le_max_left n m) _ _ _ hr').symm.trans
      (hmono m _ (Nat.le_max_right n m) _ _ _ ht))
    show isLess (cmp n (key d) k) = some true
    rw [hr']
    exact congrArg some (decide_eq_true ht0)

theorem parted_of_sorted {κ β : Type} {r : κ → κ → Prop} [DecidableRel r] (hr : OrderedMap.Strict r) {k : κ}
    {l : List (κ × β)} (hl : OrderedMap.Sorted r l) : Parted (fun d => some (decide (r d.1 k))) l where
  ends := fun _ _ => ⟨_, rfl⟩
  pairwise := hl.imp (fun hde hlt => congrArg some (decide_eq_true (hr.trans hde (of_decide_eq_true (Option.some.inj hlt)))))

end SearchTree
end Cclib
