import Cclib.Cclvar.Value
import Mathlib.Data.List.InsertIdx
import Mathlib.Data.List.Perm.Basic

/-!
# `Cclvar.Handles` — the `var_c` objects stored in a container, and the operations on handles

A `var_c` is a place that holds the address of a `loc_c`: an object of its own (a local, a member, a
temporary), or one of the handles a container stores. `Op` lists what a program can do with them. The two
readings of `Op` are `Cclvar.Heap`, with reference counts and deletion, and `Cclvar.Store`, with the
contents of the cells alone.
-/

namespace Cclib
namespace Cclvar

open Compare

/-- The address of a `loc_c`. -/
abbrev Addr := Nat

/-- Where a `var_c` is. -/
inductive Place where
  /-- an object of its own -/
  | var (x : Nat)
  /-- the `i`-th handle that the cell at `a` stores -/
  | slot (a : Addr) (i : Nat)
deriving DecidableEq, Repr

/-- The cell a stored handle is stored in. -/
def Place.holder : Place → Option Addr
  | .var _ => none
  | .slot a _ => some a

namespace Data

variable {F X Y : Type}

def map (f : X → Y) : Data F X → Data F Y
  | .blank => .blank
  | .bool b => .bool b
  | .integer n => .integer n
  | .float x => .float x
  | .string s => .string s
  | .array xs => .array (xs.map f)
  | .set xs => .set (xs.map f)
  | .list xs => .list (xs.map f)
  | .dict es => .dict (es.map (fun e => (f e.1, f e.2)))

/-- The stored handles in order; each key of a dict is followed by its value. -/
def handles : Data F X → List X
  | .array xs => xs
  | .set xs => xs
  | .list xs => xs
  | .dict es => es.flatMap (fun e => [e.1, e.2])
  | _ => []

/-- Assign to the `i`-th handle. The elements of a set and the keys of a dict are `const`. -/
def put (i : Nat) (x : X) : Data F X → Option (Data F X)
  | .array xs => if i < xs.length then some (.array (xs.set i x)) else none
  | .list xs => if i < xs.length then some (.list (xs.set i x)) else none
  | .dict es =>
    if i % 2 = 1 then (es[i / 2]?).map (fun e => .dict (es.set (i / 2) (e.1, x))) else none
  | _ => none

/-- `operator<` of a comparison; `false` also when the comparison does not return. -/
def less (cmp : Cmp X) (x y : X) : Bool :=
  match cmp x y with
  | some r => r < 0
  | none => false

/-- Position `i` is where a search for `k` ends that does not find it. Whatever the shape of the tree,
    `std::set` and `std::map` have then compared `k` with the element before and the one behind. -/
def fits (cmp : Cmp X) (xs : List X) (i : Nat) (k : X) : Bool :=
  decide (i ≤ xs.length) && (xs.take i).getLast?.all (less cmp · k) && (xs.drop i).head?.all (less cmp k)

/-- Insert at position `i`: `push_back` on an array, `insert` on a list, and on a set or a dict where the
    search for the element or key has ended. An entry of a dict is two handles. -/
def insert (cmp : Cmp X) (i : Nat) : List X → Data F X → Option (Data F X)
  | [x], .array xs => if i = xs.length then some (.array (xs ++ [x])) else none
  | [x], .list xs => if i ≤ xs.length then some (.list (xs.insertIdx i x)) else none
  | [x], .set xs => if fits cmp xs i x then some (.set (xs.insertIdx i x)) else none
  | [k, v], .dict es =>
    if fits cmp (es.map Prod.fst) i k then some (.dict (es.insertIdx i (k, v))) else none
  | _, _ => none

/-- Erase the `i`-th element or entry, on an array only the last (`pop_back`): the handles that are
    destroyed, in that order, and what is left. -/
def erase (i : Nat) : Data F X → Option (List X × Data F X)
  | .array xs => if i + 1 = xs.length then (xs[i]?).map (fun x => ([x], .array (xs.eraseIdx i))) else none
  | .list xs => (xs[i]?).map (fun x => ([x], .list (xs.eraseIdx i)))
  | .set xs => (xs[i]?).map (fun x => ([x], .set (xs.eraseIdx i)))
  | .dict es => (es[i]?).map (fun e => ([e.2, e.1], .dict (es.eraseIdx i)))
  | _ => none

/-- Arrays, lists, sets and dicts. -/
def isContainer : Data F X → Bool
  | .array _ => true
  | .set _ => true
  | .list _ => true
  | .dict _ => true
  | _ => false

/-! ## What the operations do to the stored handles -/

theorem handles_of_scalar {d : Data F X} (h : d.isContainer = false) : d.handles = [] := by
  cases d <;> first | rfl | cases h

@[simp] theorem handles_map_elim (d : Data F Empty) : (d.map (Empty.elim : Empty → X)).handles = [] := by
  cases d with
  | array xs => cases xs with | nil => rfl | cons x _ => exact x.elim
  | set xs => cases xs with | nil => rfl | cons x _ => exact x.elim
  | list xs => cases xs with | nil => rfl | cons x _ => exact x.elim
  | dict es => cases es with | nil => rfl | cons e _ => exact e.1.elim
  | _ => rfl

theorem Rel.of_handles {R : X → X → Prop} {d : Data F X} (h : ∀ x ∈ d.handles, R x x) : d.Rel R d := by
  cases d with
  | array xs => exact .array (List.forall₂_same.mpr h)
  | set xs => exact .set (List.forall₂_same.mpr h)
  | list xs => exact .list (List.forall₂_same.mpr h)
  | dict es =>
      refine .dict (List.forall₂_same.mpr (fun e he => ⟨h e.1 ?_, h e.2 ?_⟩)) <;>
        exact List.mem_flatMap.mpr ⟨e, he, by simp⟩
  | blank => exact .blank
  | bool b => exact .bool b
  | integer n => exact .integer n
  | float f => exact .float f
  | string s => exact .string s

/-- Related contents store related handles. -/
theorem Rel.handles {R : X → Y → Prop} {d : Data F X} {e : Data F Y} (h : d.Rel R e) :
    List.Forall₂ R d.handles e.handles := by
  cases h with
  | array h | set h | list h => exact h
  | dict h =>
      induction h with
      | nil => exact .nil
      | cons he _ ih => exact .cons he.1 (.cons he.2 ih)
  | _ => exact .nil

theorem Rel.isContainer_eq {R : X → Y → Prop} {d : Data F X} {e : Data F Y} (h : d.Rel R e) :
    d.isContainer = e.isContainer := by
  cases h <;> rfl

theorem Rel.imp {R R' : X → Y → Prop} {d : Data F X} {e : Data F Y} (h : d.Rel R e) (himp : ∀ x y, R x y → R' x y) :
    d.Rel R' e := by
  cases h with
  | array h => exact .array (h.imp himp)
  | set h => exact .set (h.imp himp)
  | list h => exact .list (h.imp himp)
  | dict h => exact .dict (h.imp (fun _ _ he => ⟨himp _ _ he.1, himp _ _ he.2⟩))
  | blank => exact .blank
  | bool b => exact .bool b
  | integer n => exact .integer n
  | float f => exact .float f
  | string s => exact .string s

theorem Rel.flip {R : X → Y → Prop} {d : Data F X} {e : Data F Y} (h : d.Rel R e) : e.Rel (fun y x => R x y) d := by
  cases h with
  | array h => exact .array h.flip
  | set h => exact .set h.flip
  | list h => exact .list h.flip
  | dict h => exact .dict h.flip
  | blank => exact .blank
  | bool b => exact .bool b
  | integer n => exact .integer n
  | float f => exact .float f
  | string s => exact .string s

theorem pairs_getElem? : ∀ (es : List (X × X)) (i : Nat), (es.flatMap (fun e => [e.1, e.2]))[i]?
      = (es[i / 2]?).map (fun e => if i % 2 = 0 then e.1 else e.2)
  | [], i => by simp
  | e :: es, 0 => by simp
  | e :: es, 1 => by simp
  | e :: es, i + 2 => by
      have ih := pairs_getElem? es i
      have hdiv : (i + 2) / 2 = i / 2 + 1 := by omega
      have hmod : (i + 2) % 2 = i % 2 := by omega
      rw [hdiv, hmod]
      simpa using ih

theorem handles_dict_getElem? (es : List (X × X)) (i : Nat) : (dict es : Data F X).handles[i]?
    = (es[i / 2]?).map (fun e => if i % 2 = 0 then e.1 else e.2) := pairs_getElem? es i

@[simp] theorem length_handles_dict (es : List (X × X)) : (dict es : Data F X).handles.length = 2 * es.length := by
  induction es with
  | nil => rfl
  | cons e es ih =>
      simp only [handles, List.flatMap_cons, List.length_append, List.length_cons, List.length_nil] at ih ⊢
      omega

/-- An assignment replaces one handle. -/
theorem handles_put {d d' : Data F X} {i : Nat} {x : X} (h : d.put i x = some d') :
    i < d.handles.length ∧ d'.handles = d.handles.set i x := by
  cases d with
  | array xs =>
      simp only [put, Option.ite_none_right_eq_some, Option.some.injEq] at h
      obtain ⟨hi, rfl⟩ := h
      exact ⟨hi, rfl⟩
  | list xs =>
      simp only [put, Option.ite_none_right_eq_some, Option.some.injEq] at h
      obtain ⟨hi, rfl⟩ := h
      exact ⟨hi, rfl⟩
  | dict es =>
      simp only [put, Option.ite_none_right_eq_some, Option.map_eq_some_iff] at h
      obtain ⟨hodd, e, he, rfl⟩ := h
      have hlt : i / 2 < es.length := (List.getElem?_eq_some_iff.mp he).1
      refine ⟨by rw [length_handles_dict]; omega, List.ext_getElem? (fun j => ?_)⟩
      rw [handles_dict_getElem?, List.getElem?_set, List.getElem?_set, handles_dict_getElem?]
      by_cases hij : i = j
      · subst hij
        simp [hlt, hodd]
        omega
      · rw [if_neg hij]
        by_cases hdiv : i / 2 = j / 2
        · have hj : j % 2 = 0 := by omega
          rw [if_pos hdiv, ← hdiv, he, if_pos hlt]
          simp [hj]
        · rw [if_neg hdiv]
  | _ => simp [put] at h

theorem put_isContainer {d d' : Data F X} {i : Nat} {x : X} (h : d.put i x = some d') : d.isContainer = true := by
  cases d <;> first | rfl | simp [put] at h

theorem insert_isContainer {cmp : Cmp X} {d d' : Data F X} {i : Nat} {xs : List X}
    (h : d.insert cmp i xs = some d') : d.isContainer = true := by
  cases d <;> first | rfl | simp [insert] at h

theorem erase_isContainer {d : Data F X} {i : Nat} {r : List X × Data F X} (h : d.erase i = some r) :
    d.isContainer = true := by
  cases d <;> first | rfl | simp [erase] at h

/-- Whether a handle can be assigned to does not depend on what is assigned. -/
theorem put_isSome (d : Data F X) (i : Nat) (x y : X) : (d.put i x).isSome = (d.put i y).isSome := by
  cases d with
  | array xs =>
      simp only [put]
      split <;> rfl
  | list xs =>
      simp only [put]
      split <;> rfl
  | dict es =>
      simp only [put]
      split
      · rw [Option.isSome_map, Option.isSome_map]
      · rfl
  | _ => rfl

theorem put_perm {d d' : Data F X} {i : Nat} {x : X} (h : d.put i x = some d') :
    d'.handles.Perm (x :: d.handles.eraseIdx i) := by
  obtain ⟨hi, hd⟩ := handles_put h
  rw [hd]
  exact List.set_perm_cons_eraseIdx hi x

/-- An insertion adds the inserted handles. -/
theorem insert_perm {cmp : Cmp X} {d d' : Data F X} {i : Nat} {xs : List X}
    (h : d.insert cmp i xs = some d') : d'.handles.Perm (xs ++ d.handles) := by
  unfold insert at h
  split at h
  case h_1 x ys =>
    simp only [Option.ite_none_right_eq_some, Option.some.injEq] at h
    obtain ⟨-, rfl⟩ := h
    exact List.perm_append_singleton x ys
  case h_2 x ys =>
    simp only [Option.ite_none_right_eq_some, Option.some.injEq] at h
    obtain ⟨hi, rfl⟩ := h
    exact List.perm_insertIdx x ys hi
  case h_3 x ys =>
    simp only [Option.ite_none_right_eq_some, Option.some.injEq] at h
    obtain ⟨hfit, rfl⟩ := h
    simp only [fits, Bool.and_eq_true, decide_eq_true_eq] at hfit
    exact List.perm_insertIdx x ys hfit.1.1
  case h_4 k v es =>
    simp only [Option.ite_none_right_eq_some, Option.some.injEq] at h
    obtain ⟨hfit, rfl⟩ := h
    simp only [fits, Bool.and_eq_true, decide_eq_true_eq, List.length_map] at hfit
    exact (List.perm_insertIdx (k, v) es hfit.1.1).flatMap_right _
  case h_5 => simp at h

/-- A key above all the others belongs at the end. -/
theorem fits_length {cmp : Cmp X} {xs : List X} {k : X} (h : ∀ x ∈ xs, less cmp x k = true) :
    fits cmp xs xs.length k = true := by
  have hlast : xs.getLast?.all (less cmp · k) = true := by
    cases hl : xs.getLast? with
    | none => rfl
    | some x => exact h x (List.mem_of_getLast? hl)
  simp [fits, hlast]

/-- A comparison that answers more lets an insertion through that went through before. -/
theorem fits_mono {cmp cmp' : Cmp X} (hle : cmp.Le cmp') {xs : List X} {i : Nat} {k : X}
    (h : fits cmp xs i k = true) : fits cmp' xs i k = true := by
  have hless : ∀ x y, less cmp x y = true → less cmp' x y = true := by
    intro x y hxy
    unfold less at hxy ⊢
    cases hc : cmp x y with
    | none => simp [hc] at hxy
    | some r =>
        rw [hle x y r hc]
        simpa [hc] using hxy
  simp only [fits, Bool.and_eq_true, Option.all_eq_true] at h ⊢
  exact ⟨⟨h.1.1, fun x hx => hless x k (h.1.2 x hx)⟩, fun x hx => hless k x (h.2 x hx)⟩

theorem insert_mono {cmp cmp' : Cmp X} (hle : cmp.Le cmp') {d d' : Data F X} {i : Nat} {xs : List X}
    (h : d.insert cmp i xs = some d') : d.insert cmp' i xs = some d' := by
  unfold insert at h ⊢
  split at h
  case h_3 x ys =>
    simp only [Option.ite_none_right_eq_some, Option.some.injEq] at h ⊢
    exact ⟨fits_mono hle h.1, h.2⟩
  case h_4 k v es =>
    simp only [Option.ite_none_right_eq_some, Option.some.injEq] at h ⊢
    exact ⟨fits_mono hle h.1, h.2⟩
  all_goals exact h

/-- An erasure removes the destroyed handles. -/
theorem erase_perm {d d' : Data F X} {i : Nat} {xs : List X} (h : d.erase i = some (xs, d')) :
    (xs ++ d'.handles).Perm d.handles := by
  cases d with
  | array ys =>
      simp only [erase, Option.ite_none_right_eq_some, Option.map_eq_some_iff, Prod.mk.injEq] at h
      obtain ⟨-, x, hx, rfl, rfl⟩ := h
      obtain ⟨hi, rfl⟩ := List.getElem?_eq_some_iff.mp hx
      exact List.getElem_cons_eraseIdx_perm hi
  | list ys =>
      simp only [erase, Option.map_eq_some_iff, Prod.mk.injEq] at h
      obtain ⟨x, hx, rfl, rfl⟩ := h
      obtain ⟨hi, rfl⟩ := List.getElem?_eq_some_iff.mp hx
      exact List.getElem_cons_eraseIdx_perm hi
  | set ys =>
      simp only [erase, Option.map_eq_some_iff, Prod.mk.injEq] at h
      obtain ⟨x, hx, rfl, rfl⟩ := h
      obtain ⟨hi, rfl⟩ := List.getElem?_eq_some_iff.mp hx
      exact List.getElem_cons_eraseIdx_perm hi
  | dict es =>
      simp only [erase, Option.map_eq_some_iff, Prod.mk.injEq] at h
      obtain ⟨e, he, rfl, rfl⟩ := h
      obtain ⟨hi, rfl⟩ := List.getElem?_eq_some_iff.mp he
      have hp := (List.getElem_cons_eraseIdx_perm hi).flatMap_right (fun e => [e.1, e.2])
      exact ((List.Perm.swap es[i].1 es[i].2 []).append_right _).trans hp
  | _ => simp [erase] at h

end Data

/-- The place a handle leads to, given the cells and the objects outside of containers. -/
def handleAt {F : Type} (look : Addr → Option (Data F Addr)) (vars : List (Option Addr)) :
    Place → Option Addr
  | .var x => (vars[x]?).join
  | .slot a i => (look a).bind (fun d => d.handles[i]?)

/-! ## Operations -/

/-- What a program does with handles, one call after the other. Each operation names the handles it
    uses by their places; `construct` and `copyConstruct` make the next object. -/
inductive Op (F : Type) where
  /-- a constructor from a scalar, a string or an empty container -/
  | construct (d : Data F Empty)
  /-- `var_c(const var_c &)` -/
  | copyConstruct (q : Place)
  /-- `operator=`; `has_idx` and `has_key` end in one, too -/
  | assign (p q : Place)
  /-- `~var_c` of an object of its own -/
  | destroy (x : Nat)
  /-- `push_back` and `insert` on the container of `c` -/
  | insert (c : Place) (i : Nat) (qs : List Place)
  /-- `operator[]` on a dict without the key: the key with a new blank -/
  | index (c : Place) (i : Nat) (k : Place)
  /-- `pop_back` and `erase` -/
  | erase (c : Place) (i : Nat)

/-- The handles an operation copies. -/
def Op.sources {F : Type} : Op F → List Place
  | .copyConstruct q => [q]
  | .assign _ q => [q]
  | .insert _ _ qs => qs
  | .index _ _ k => [k]
  | _ => []

/-- The handle an insertion orders by, on a set or a dict. -/
def Op.key {F : Type} : Op F → Option Place
  | .insert _ _ qs => qs.head?
  | .index _ _ k => some k
  | _ => none

/-- The handles an operation uses. -/
def Op.places {F : Type} : Op F → List Place
  | .construct _ => []
  | .copyConstruct q => [q]
  | .assign p q => [p, q]
  | .destroy x => [.var x]
  | .insert c _ qs => c :: qs
  | .index c _ k => [c, k]
  | .erase c _ => [c]

theorem Op.sources_subset {F : Type} {op : Op F} {q : Place} (h : q ∈ op.sources) : q ∈ op.places := by
  cases op <;> simp_all [Op.sources, Op.places]

end Cclvar
end Cclib
