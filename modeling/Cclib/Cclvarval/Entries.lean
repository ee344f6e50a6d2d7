import Cclib.Cclvar.Acyclic
import Cclib.Cclvarval.ReadOnly
import Cclib.Lib.SearchTree

/-!
# `Cclvarval.Entries` — what a search in a dict finds

`has_key` and `operator[]` go down in the tree of a `std::map`, and `Access.hasKey` and `Access.find` go through its
entries in their order. The two agree on every tree that holds the entries (`FoundInTrees`) where the keys that are
less than the wanted one stand before the others, for each key that a validation looks up (`Searchable`). Sets and dicts
that are in order have that property (`searchable_of_inOrder`).

## Contents
- `Found`, `NotFound`, `RootEntry`.
- `searchKey`, `searchText`: the searches in a tree; `Searchable`, `FoundInTrees`.
- `found_in_trees`, `searchable_of_inOrder`.
-/

namespace Cclib
namespace Cclvarval

open Cclvar Compare Run SearchTree

variable {F R : Type}

/-! ## Entries -/

section Relations

variable [LT F] [DecidableLT F] (s : Store F) (schema value : Addr)

/-- The value of a dict entry. -/
def Found (a key b : Addr) : Prop := ∃ depth, Access.hasKey s depth a key = some (.ok (some b))

/-- The dict has no entry for the key. -/
def NotFound (a key : Addr) : Prop := ∃ depth, Access.hasKey s depth a key = some (.ok none)

/-- The `"root"` entry of a schema. -/
def RootEntry (root : Addr) : Prop := ∃ depth, Access.find s depth schema (bytes "root") = some (.ok (.value root))

/-! ## Trees of entries -/

/-- The keys that are less than the wanted one. -/
def keyBelow (depth : Nat) (key : Addr) (e : Addr × Addr) : Option Bool := isLess (s.compare depth e.1 key)

/-- The keys that are less than the text. -/
def textBelow (depth : Nat) (key : StringT) (e : Addr × Addr) : Option Bool :=
  (s.look e.1).bind (fun d => isLess (compareLoc (s.compare depth) d (.string key)))

/-- `std::map::at`, in a tree of entries. -/
def searchKey (depth : Nat) (key : Addr) (t : BinaryTree (Addr × Addr)) : Option (Option (Addr × Addr)) :=
  find (keyBelow s depth key) (fun e => isLess (s.compare depth key e.1)) t

/-- The search of `std::map::operator[]` for a text. -/
def searchText (depth : Nat) (key : StringT) (t : BinaryTree (Addr × Addr)) : Option (Option (Addr × Addr)) :=
  find (textBelow s depth key)
    (fun e => (s.look e.1).bind (fun d => isLess (compareLoc (s.compare depth) (.string key) d))) t

/-- Part of the schema or of the value. -/
def Searched (a : Addr) : Prop := s.Reach schema a ∨ s.Reach value a

/-- In the dicts of schema and value the keys that are less than one of the schema stand before the others, and those
    that are less than `"root"` do in the schema itself. -/
structure Searchable : Prop where
  keys : ∀ a es key, Searched s schema value a → s.look a = some (.dict es) → s.Reach schema key →
    ∃ depth, Parted (keyBelow s depth key) es ∧ ∀ e ∈ es, ∃ r, s.compare depth key e.1 = some r
  root : ∀ es, s.look schema = some (.dict es) → ∃ depth, Parted (textBelow s depth (bytes "root")) es

/-- Whichever trees hold the entries of the dicts, the searches in them find what `Found`, `NotFound` and `RootEntry`
    say. -/
structure FoundInTrees : Prop where
  keys : ∀ a es key t, Searched s schema value a → s.look a = some (.dict es) → s.Reach schema key → inorder t = es →
    ∃ depth found, searchKey s depth key t = some found ∧ Access.hasKey s depth a key = some (.ok (found.map Prod.snd))
  root : ∀ es t, s.look schema = some (.dict es) → inorder t = es → ∀ b,
    RootEntry s schema b ↔ ∃ depth k, searchText s depth (bytes "root") t = some (some (k, b))

end Relations

section Lemmas

variable [LT F] [DecidableLT F] {s : Store F} {schema value : Nat}

theorem RootEntry.find {root : Addr} (h : RootEntry s schema root) (depth : Nat) :
    Access.find s depth schema (bytes "root") = some (.ok (.value root)) := by
  obtain ⟨depth', hd⟩ := h
  rw [find_depth depth depth', hd]

/-- With a `"root"` entry the call validates against it. -/
theorem RootEntry.rootReport {root : Addr} {lib : RegexLib R} (h : RootEntry s schema root) (fuel : Nat) (value : Addr) :
    rootReport lib s schema fuel value = report lib s schema fuel value root := by
  rw [Cclvarval.rootReport, h.find fuel]

/-- `Access.hasKey` finds a key where `Store.hasKey` does. -/
theorem hasKey_isSome {depth a key : Nat} {es : List (Addr × Addr)} (hd : s.look a = some (.dict es)) :
    s.hasKey depth a key = (Access.hasKey s depth a key).map (fun r => match r with
      | .ok found => found.isSome
      | .error _ => false) := by
  unfold Store.hasKey Access.hasKey
  rw [hd, Option.bind_some, Option.map_map]
  refine Option.map_congr (fun res hres => ?_)
  obtain ⟨i, found⟩ := res
  cases found with
  | false => rfl
  | true =>
      have hi : i < es.length := List.length_map Prod.fst ▸ search_lt_length hres
      simp [hi]

/-- A search for a key that comes to an end in a list ends in every tree, with the same entry. -/
theorem searchKey_eq {depth a key : Nat} {es : List (Addr × Addr)} {t : BinaryTree (Addr × Addr)}
    (hd : s.look a = some (.dict es)) (ht : inorder t = es) (hparted : Parted (keyBelow s depth key) es) :
    Access.hasKey s depth a key = (searchKey s depth key t).map (fun found => .ok (found.map Prod.snd)) := by
  subst ht
  have hforall : List.Forall₂ (fun e x => keyBelow s depth key e = isLess (s.compare depth x key)
      ∧ isLess (s.compare depth key e.1) = isLess (s.compare depth key x)) (inorder t) ((inorder t).map Prod.fst) :=
    List.forall₂_map_right_iff.mpr (List.forall₂_same.mpr (fun e _ => ⟨rfl, rfl⟩))
  unfold searchKey Access.hasKey
  rw [find_eq_seek hparted, seek_eq_search hforall hparted.ends, hd, Option.bind_some, Option.map_map]
  refine Option.map_congr (fun res _ => ?_)
  rcases res with ⟨i, _ | _⟩ <;> rfl

omit [LT F] [DecidableLT F] in
/-- The contents of the keys. -/
theorem forall₂_mapM_look : ∀ {es : List (Addr × Addr)} {keys : List (Data F Addr)},
    es.mapM (fun e => s.look e.1) = some keys → List.Forall₂ (fun e d => s.look e.1 = some d) es keys
  | [], keys, h => by
      obtain rfl := Option.some.inj h
      exact .nil
  | e :: es, keys, h => by
      rw [List.mapM_cons] at h
      obtain ⟨d, hd, h⟩ := Option.bind_eq_some_iff.mp h
      obtain ⟨keys', hkeys, h⟩ := Option.bind_eq_some_iff.mp h
      obtain rfl := Option.some.inj h
      exact .cons hd (forall₂_mapM_look hkeys)

/-- The search for a text ends in every tree where it does in the list. -/
theorem searchText_iff {depth a b : Nat} {key : StringT} {es : List (Addr × Addr)} {t : BinaryTree (Addr × Addr)}
    (hd : s.look a = some (.dict es)) (ht : inorder t = es) (hparted : Parted (textBelow s depth key) es) :
    Access.find s depth a key = some (.ok (.value b)) ↔ ∃ k, searchText s depth key t = some (some (k, b)) := by
  subst ht
  have hlook : ∀ e ∈ inorder t, ∃ d, s.look e.1 = some d := by
    intro e he
    obtain ⟨below, hbelow⟩ := hparted.ends e he
    obtain ⟨d, hd, -⟩ := Option.bind_eq_some_iff.mp hbelow
    exact ⟨d, hd⟩
  obtain ⟨keys, hkeys⟩ := mapM_look hlook
  have htotal : ∀ d ∈ keys, (∃ r, compareLoc (s.compare depth) d (.string key) = some r)
      ∧ ∃ r, compareLoc (s.compare depth) (.string key) d = some r :=
    fun d _ => compareLoc_string_total (s.compare depth) d key
  obtain ⟨i, found, hs, hi⟩ := search_total htotal
  have hfind : Access.find s depth a key =
      if found then ((inorder t)[i]?).map (fun e => .ok (.value e.2)) else some (.ok (.missing (inorder t) i)) := by
    unfold Access.find
    rw [hd, Option.bind_some]
    cases found <;> simp only [hkeys, Option.bind_some, hs, if_true, if_false, Bool.false_eq_true]
  have htree : searchText s depth key t = some (if found then (inorder t)[i]? else none) := by
    unfold searchText
    rw [find_eq_seek hparted, seek_eq_search ((forall₂_mapM_look hkeys).imp (fun e d he => ?_)) hparted.ends, hs]
    · rfl
    · rw [textBelow, he]
      exact ⟨rfl, rfl⟩
  rw [hfind, htree]
  cases found with
  | false => simp
  | true =>
      have hlt : i < (inorder t).length := length_mapM_look hkeys ▸ hi rfl
      simp [hlt, Prod.ext_iff]

/-- How deep the comparisons with a text go makes no difference. -/
theorem searchText_depth (depth depth' : Nat) (key : StringT) (t : BinaryTree (Addr × Addr)) :
    searchText s depth key t = searchText s depth' key t := by
  unfold searchText textBelow
  simp only [fun d => (compareLoc_string (s.compare depth) (s.compare depth') d key).1,
    fun d => (compareLoc_string (s.compare depth) (s.compare depth') d key).2]

/-- **The searches agree with those in any trees.** -/
theorem found_in_trees (h : Searchable s schema value) : FoundInTrees s schema value where
  keys := by
    intro a es key t ha hd hkey ht
    obtain ⟨depth, hparted, hends⟩ := h.keys a es key ha hd hkey
    have hfound : ∃ found, searchKey s depth key t = some found := by
      unfold searchKey
      rw [find_eq_seek (ht ▸ hparted), ht]
      refine seek_total (fun e he => ?_)
      obtain ⟨r, hr⟩ := hends e he
      exact ⟨_, congrArg isLess hr⟩
    obtain ⟨found, hfound⟩ := hfound
    exact ⟨depth, found, hfound, by rw [searchKey_eq hd ht hparted, hfound]; rfl⟩
  root := by
    intro es t hd ht b
    obtain ⟨depth, hparted⟩ := h.root es hd
    have hiff := searchText_iff (b := b) hd ht hparted
    constructor
    · intro hroot
      obtain ⟨k, hk⟩ := hiff.mp (hroot.find depth)
      exact ⟨depth, k, hk⟩
    · rintro ⟨depth', k, hk⟩
      exact ⟨depth, hiff.mpr ⟨k, (searchText_depth depth depth' _ t).trans hk⟩⟩

end Lemmas

/-! ## Dicts in order -/

section InOrder

variable {s : Store F} {schema value a b : Nat}

theorem live_reach (ha : s.Live a) (h : s.Reach a b) : s.Live b := by
  induction h with
  | refl => exact ha
  | step _ hd hb ih => exact .step ih hd hb

theorem acyclic_reach (ha : s.Acyclic a) (h : s.Reach a b) : s.Acyclic b := by
  induction h with
  | refl => exact ha
  | step _ hd hb ih => exact ih.child ⟨_, hd, hb⟩

theorem lt_of_live (hc : s.Closed) (h : s.Live a) : a < s.cells.length := by
  cases h with
  | root hx => exact hc.vars _ _ hx
  | step _ hd hb => exact hc.handles _ _ _ hd hb

variable [LinearOrder F]

/-- Keys in order are parted by every text. -/
theorem parted_text {es : List (Addr × Addr)} (hes : es.Pairwise (fun d e => Below s.compare d.1 e.1))
    (hlook : ∀ e ∈ es, ∃ d, s.look e.1 = some d) (key : StringT) (depth : Nat) : Parted (textBelow s depth key) es where
  ends := by
    intro e he
    obtain ⟨d, hd⟩ := hlook e he
    obtain ⟨r, hr⟩ := (compareLoc_string_total (s.compare depth) d key).1
    exact ⟨_, by rw [textBelow, hd, Option.bind_some, hr]; rfl⟩
  pairwise := by
    refine hes.imp (fun {d e} hde hlt => ?_)
    obtain ⟨n, r, hr, hr0⟩ := hde
    cases n with
    | zero => simp [Store.compare, compareAt] at hr
    | succ n =>
        obtain ⟨x, y, hx, hy, hxy⟩ := compareAt_succ_eq_some.mp hr
        obtain ⟨y', hy', hlt⟩ := Option.bind_eq_some_iff.mp hlt
        obtain rfl := Option.some.inj (hy.symm.trans hy')
        obtain ⟨r', hr', hr0'⟩ := Option.map_eq_some_iff.mp hlt
        rw [(compareLoc_string _ (s.compare n) y key).1] at hr'
        -- the key in front is less than the one behind, which is less than the text
        obtain ⟨t, ht, ht0, hiff⟩ := (lawful_compareLoc (lawful_compareAt s.look n)).trans hxy hr' (Int.le_of_lt hr0)
          (Int.le_of_lt (of_decide_eq_true hr0'))
        have htne : t ≠ 0 := fun h => absurd (hiff.mp h).1 (by omega)
        rw [textBelow, hx, Option.bind_some, (compareLoc_string _ (s.compare n) x key).1.trans ht]
        exact congrArg some (decide_eq_true (by omega))

/-- **Schema and value that are in order can be searched**, as long as they are finite and without cycles. -/
theorem searchable_of_inOrder (hs : s.InOrder) (hschema : s.Live schema) (hvalue : s.Live value)
    (hschema' : s.Acyclic schema) (hvalue' : s.Acyclic value) : Searchable s schema value where
  keys := by
    intro a es key ha hd hkey
    have hlive : s.Live a := ha.elim (live_reach hschema) (live_reach hvalue)
    have hacyclic : s.Acyclic a := ha.elim (acyclic_reach hschema') (acyclic_reach hvalue')
    have hchild : ∀ e ∈ es, s.Child a e.1 := fun e he => ⟨_, hd, List.mem_flatMap.mpr ⟨e, he, by simp⟩⟩
    -- one depth for the comparisons with all keys
    obtain ⟨n, hn⟩ := exists_common
      (P := fun n e => (∃ r, s.compare n e.1 key = some r) ∧ ∃ r, s.compare n key e.1 = some r)
      (by
        rintro n m e hnm ⟨⟨r, hr⟩, r', hr'⟩
        exact ⟨⟨r, compareAt_mono s.look hnm e.1 key r hr⟩, r', compareAt_mono s.look hnm key e.1 r' hr'⟩)
      es (fun e he => Store.compare_total hs.closed (hacyclic.child (hchild e he)) ((hchild e he).lt hs.closed)
        (lt_of_live hs.closed (live_reach hschema hkey)))
    have hordered : es.Pairwise (fun d e => Below s.compare d.1 e.1) := List.pairwise_map.mp (hs.ordered a _ hlive hd)
    exact ⟨n, parted_of_ordered (Store.compare_le s) (lawful_compareAt s.look) hordered (fun e he => (hn e he).1),
      fun e he => (hn e he).2⟩
  root := by
    intro es hd
    refine ⟨0, parted_text (List.pairwise_map.mp (hs.ordered schema _ hschema hd)) (fun e he => ?_) _ 0⟩
    exact Store.look_lt (hs.closed.handles schema e.1 _ hd (List.mem_flatMap.mpr ⟨e, he, by simp⟩))

/-- A store given cell by cell is in order if its cells are. -/
theorem inOrder_of_forall (hc : s.Closed) (depth : Nat)
    (h : ∀ d ∈ s.cells, d.ordered.Pairwise (fun x y => isLess (s.compare depth x y) = some true)) : s.InOrder where
  closed := hc
  ordered := by
    intro a d _ hd
    refine (h d (List.mem_of_getElem? hd)).imp (fun hlt => ?_)
    obtain ⟨r, hr, hr0⟩ := Option.map_eq_some_iff.mp hlt
    exact ⟨depth, r, hr, of_decide_eq_true hr0⟩

/-- The example is in order, and finite. -/
theorem searchable_itemStore : Searchable itemStore 0 12 := by
  have hacyclic : ∀ a, itemStore.Acyclic a := Store.acyclic_of_ascending (by decide)
  have horder : itemStore.InOrder := inOrder_of_forall itemStore_closed 1 (by decide)
  exact searchable_of_inOrder horder (.root (x := 0) rfl) (.root (x := 1) rfl) (hacyclic 0) (hacyclic 12)

end InOrder

end Cclvarval
end Cclib
