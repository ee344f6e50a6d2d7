import Cclib.Lib.SearchTree
import Cclib.Cclvar.Order

/-!
# `Cclvar.Lookup` — `operator[]`, `has_idx`, `has_key` and `keys`

A `dict_t` is a `std::map` ordered by `var_c::compare`. Its `operator[]` gives a key that it does not have the value blank,
also where the program only reads; `has_key` and `keys` change nothing. An array does not grow, and an index that it does
not have throws. Here a program works on one variable with values that nobody changes in place. The keys of a dict have no
NaN in them.

## Contents
- `index`, `indexKey`, `assign`, `assignKey`, `has_idx`, `has_key`, `keys`.
- `LookupOp`, `perform`, `performed`.
- `lookup_in_trees`: the search of `std::map` in a tree.
- `touch`, `table`: the dict that the operations called so far make; `Answers`.
- `perform_table`: one operation; `dict_is_table`.
- `touchAt`, `perform_array`, `array_is_vector`.
-/

namespace Cclib
namespace Cclvar
namespace VarC

open OrderedMap

variable {F : Type}

def error_VARIABLE_INVALID_TYPE_REQUESTED : String := "cclvar: invalid variable type requested"
def error_INVALID_OPERATION_ON_VARIABLE : String := "cclvar: invalid operation on variable"
def error_ARRAY_INDEX_EXCEEDS_RANGE : String := "cclvar: index exceeds array range"

/-! ## The functions -/

section Functions

variable [LT F] [DecidableLT F]

/-- `std::vector::at`; a negative index is a `size_t` beyond every array. -/
def elemAt (xs : List (VarC F)) (a_idx : Int64) : Option (VarC F) :=
  if a_idx.toInt < 0 then none else xs[a_idx.toInt.toNat]?

/-- `to_int` -/
def to_int : VarC F → Except String Int64
  | .integer n => .ok n
  | _ => .error error_VARIABLE_INVALID_TYPE_REQUESTED

/-- What a reference into an array or a dict leads to, and the container behind its creation. -/
abbrev Ref (F : Type) := VarC F × VarC F

/-- An element of an array. -/
def indexArray (xs : List (VarC F)) (a_idx : Int64) : Except String (Ref F) :=
  match elemAt xs a_idx with
  | some x => .ok (x, .array xs)
  | none => .error error_ARRAY_INDEX_EXCEEDS_RANGE

/-- `std::map::operator[]`: a key that is not there gets the value blank. -/
def indexDict (es : List (VarC F × VarC F)) (a_key : VarC F) : Ref F :=
  ((lookup Lt a_key es).getD .blank, .dict (alter Lt a_key (fun v => v.getD .blank) es))

/-- `loc_c::operator[]` with an integer. -/
def index (v : VarC F) (a_idx : Int64) : Except String (Ref F) :=
  match v with
  | .array xs => indexArray xs a_idx
  | .dict es => .ok (indexDict es (.integer a_idx))
  | _ => .error error_INVALID_OPERATION_ON_VARIABLE

/-- `loc_c::operator[]` with a variable. -/
def indexKey (v : VarC F) (a_key : VarC F) : Except String (Ref F) :=
  match v with
  | .array xs => do
    let idx ← a_key.to_int
    indexArray xs idx
  | .dict es => .ok (indexDict es a_key)
  | _ => .error error_INVALID_OPERATION_ON_VARIABLE

/-- The element at an index is assigned to. -/
def setElem (v : VarC F) (a_idx : Int64) (w : VarC F) : VarC F :=
  match v with
  | .array xs => .array (xs.set a_idx.toInt.toNat w)
  | v => v

/-- The value of a key is assigned to. -/
def setValue (v : VarC F) (a_key w : VarC F) : VarC F :=
  match v with
  | .dict es => .dict (alter Lt a_key (fun _ => w) es)
  | v => v

/-- `v[a_idx] = w` -/
def assign (v : VarC F) (a_idx : Int64) (w : VarC F) : Except String (VarC F) := do
  let r ← v.index a_idx
  return (r.2.setElem a_idx w).setValue (.integer a_idx) w

/-- `v[a_key] = w` -/
def assignKey (v : VarC F) (a_key w : VarC F) : Except String (VarC F) := do
  let r ← v.indexKey a_key
  match a_key with
  | .integer n => return (r.2.setElem n w).setValue a_key w
  | _ => return r.2.setValue a_key w

/-- `loc_c::has_idx`, with the value it finds. -/
def has_idx (v : VarC F) (a_idx : Int64) : Except String (Option (VarC F)) :=
  match v with
  | .array xs => .ok (elemAt xs a_idx)
  | _ => .error error_INVALID_OPERATION_ON_VARIABLE

/-- `loc_c::has_key`, with the value it finds. -/
def has_key (v : VarC F) (a_key : VarC F) : Except String (Option (VarC F)) :=
  match v with
  | .dict es => .ok (lookup Lt a_key es)
  | _ => .error error_INVALID_OPERATION_ON_VARIABLE

/-- `loc_c::keys` -/
def keys (v : VarC F) : Except String (VarC F) :=
  match v with
  | .dict es => .ok (.array (es.map Prod.fst))
  | _ => .error error_INVALID_OPERATION_ON_VARIABLE

/-! ## Operations one after the other -/

inductive LookupOp (F : Type) where
  | index (a_idx : Int64)
  | indexKey (a_key : VarC F)
  | assign (a_idx : Int64) (w : VarC F)
  | assignKey (a_key w : VarC F)
  | has_idx (a_idx : Int64)
  | has_key (a_key : VarC F)
  | keys

/-- A value, a value that was found or not, or nothing. -/
inductive Answer (F : Type) where
  | value (v : VarC F)
  | found (v : Option (VarC F))
  | done

/-- The answer of an operation, and the variable behind it. -/
def perform (v : VarC F) : LookupOp F → Except String (Answer F) × VarC F
  | .index a_idx => match v.index a_idx with
    | .ok (x, v) => (.ok (.value x), v)
    | .error e => (.error e, v)
  | .indexKey a_key => match v.indexKey a_key with
    | .ok (x, v) => (.ok (.value x), v)
    | .error e => (.error e, v)
  | .assign a_idx w => match v.assign a_idx w with
    | .ok v => (.ok .done, v)
    | .error e => (.error e, v)
  | .assignKey a_key w => match v.assignKey a_key w with
    | .ok v => (.ok .done, v)
    | .error e => (.error e, v)
  | .has_idx a_idx => ((v.has_idx a_idx).map .found, v)
  | .has_key a_key => ((v.has_key a_key).map .found, v)
  | .keys => (v.keys.map .value, v)

/-- The variable behind operations. -/
def performed (v : VarC F) (ops : List (LookupOp F)) : VarC F := ops.foldl (fun v op => (v.perform op).2) v

/-! ## The dict as a table -/

/-- What an operation does to the value of a key: an assignment gives it, and `operator[]` makes it blank where there is
    none. -/
def touch (k : VarC F) (cur : Option (VarC F)) : LookupOp F → Option (VarC F)
  | .index a_idx => if compare k (.integer a_idx) = 0 then some (cur.getD .blank) else cur
  | .indexKey a_key => if compare k a_key = 0 then some (cur.getD .blank) else cur
  | .assign a_idx w => if compare k (.integer a_idx) = 0 then some w else cur
  | .assignKey a_key w => if compare k a_key = 0 then some w else cur
  | _ => cur

/-- The value of each key behind operations on an empty dict. -/
def table (ops : List (LookupOp F)) (k : VarC F) : Option (VarC F) := ops.foldl (touch k) none

/-- What the answer of an operation on a table is. -/
def Answers (m : VarC F → Option (VarC F)) : LookupOp F → Except String (Answer F) → Prop
  | .index a_idx, r => r = .ok (.value ((m (.integer a_idx)).getD .blank))
  | .indexKey a_key, r => r = .ok (.value ((m a_key).getD .blank))
  | .assign _ _, r => r = .ok .done
  | .assignKey _ _, r => r = .ok .done
  | .has_idx _, r => r = .error error_INVALID_OPERATION_ON_VARIABLE
  | .has_key a_key, r => r = .ok (.found (m a_key))
  | .keys, r => ∃ ks, r = .ok (.value (.array ks)) ∧ ks.Pairwise Lt ∧ ∀ k, k ∈ ks ↔ m k ≠ none

/-- A dict that has the values of a table. -/
def IsTable (v : VarC F) (m : VarC F → Option (VarC F)) : Prop :=
  ∃ es, v = .dict es ∧ OrderedMap.Sorted Lt es ∧ ∀ k, lookup Lt k es = m k

end Functions

section Table

variable [LinearOrder F] {v : VarC F} {m : VarC F → Option (VarC F)} {op : LookupOp F}

theorem strict_lt : Strict (Lt (F := F)) where
  irrefl a h := by
    unfold Lt at h
    rw [compare_self] at h
    exact absurd h (Int.lt_irrefl 0)
  trans := Lt.trans
  total := by
    intro a b hab hba
    unfold Lt at hab hba
    rw [compare_swap a b] at hba
    exact compare_eq_zero_iff.mp (by omega)

/-- **Any tree** that holds the entries of a dict is searched with the answer of `lookup`. -/
theorem lookup_in_trees {es : List (VarC F × VarC F)} (hes : OrderedMap.Sorted Lt es) (a_key : VarC F)
    {t : BinaryTree (VarC F × VarC F)} (ht : SearchTree.inorder t = es) :
    (SearchTree.find (fun d => some (decide (Lt d.1 a_key))) (fun d => some (decide (Lt a_key d.1))) t).map
      (Option.map Prod.snd) = some (lookup Lt a_key es) := by
  subst ht
  rw [SearchTree.find_eq_seek (SearchTree.parted_of_sorted strict_lt hes)]
  exact SearchTree.seek_eq_lookup (fun _ => rfl) (fun _ => rfl) _

/-- The key of an alteration is told by `compare`. -/
theorem lookup_alter {es : List (VarC F × VarC F)} (hes : OrderedMap.Sorted Lt es) (k a_key : VarC F)
    (f : Option (VarC F) → VarC F) :
    lookup Lt k (alter Lt a_key f es) = if compare k a_key = 0 then some (f (lookup Lt k es)) else lookup Lt k es := by
  split_ifs with h
  · obtain rfl := compare_eq_zero_iff.mp h
    exact lookup_alter_self strict_lt k f es
  · exact lookup_alter_ne strict_lt hes (fun heq => h (compare_eq_zero_iff.mpr heq))

theorem IsTable.indexDict {es : List (VarC F × VarC F)} (hes : OrderedMap.Sorted Lt es)
    (hm : ∀ k, lookup Lt k es = m k) (a_key : VarC F) :
    IsTable (indexDict es a_key).2 (fun k => if compare k a_key = 0 then some ((m k).getD .blank) else m k) := by
  refine ⟨_, rfl, sorted_alter strict_lt hes, ?_⟩
  intro k
  rw [lookup_alter hes, hm]

theorem IsTable.setValue (h : IsTable v m) (a_key w : VarC F) :
    IsTable (v.setValue a_key w) (fun k => if compare k a_key = 0 then some w else m k) := by
  obtain ⟨es, rfl, hes, hm⟩ := h
  refine ⟨_, rfl, sorted_alter strict_lt hes, ?_⟩
  intro k
  rw [lookup_alter hes, hm]

theorem IsTable.congr {m' : VarC F → Option (VarC F)} (h : IsTable v m) (hm : ∀ k, m k = m' k) : IsTable v m' := by
  obtain ⟨es, rfl, hes, heq⟩ := h
  exact ⟨es, rfl, hes, fun k => (heq k).trans (hm k)⟩

/-- **One operation** on a dict answers as the table does, and leaves a dict with the table behind it. -/
theorem perform_table (h : IsTable v m) (op : LookupOp F) :
    Answers m op (v.perform op).1 ∧ IsTable (v.perform op).2 (fun k => touch k (m k) op) := by
  obtain ⟨es, rfl, hes, hm⟩ := h
  have hdict : IsTable (.dict es) m := ⟨es, rfl, hes, hm⟩
  -- an assignment finds or makes the entry, and then sets it
  have hset : ∀ a_key w : VarC F, IsTable ((VarC.indexDict es a_key).2.setValue a_key w)
      (fun k => if compare k a_key = 0 then some w else m k) := by
    intro a_key w
    refine ((IsTable.indexDict hes hm a_key).setValue a_key w).congr ?_
    intro k
    split_ifs <;> rfl
  cases op with
  | index a_idx => exact ⟨by rw [Answers, ← hm]; rfl, IsTable.indexDict hes hm (.integer a_idx)⟩
  | indexKey a_key => exact ⟨by rw [Answers, ← hm]; rfl, IsTable.indexDict hes hm a_key⟩
  | assign a_idx w => exact ⟨rfl, hset (.integer a_idx) w⟩
  | assignKey a_key w =>
      cases a_key with
      | integer n => exact ⟨rfl, hset (.integer n) w⟩
      | _ => exact ⟨rfl, hset _ w⟩
  | has_idx a_idx => exact ⟨rfl, hdict⟩
  | has_key a_key => exact ⟨by rw [Answers, ← hm]; rfl, hdict⟩
  | keys =>
      refine ⟨⟨es.map Prod.fst, rfl, ?_, ?_⟩, hdict⟩
      · exact List.pairwise_map.mpr hes
      · intro k
        rw [mem_keys_iff strict_lt hes, hm]

theorem performed_table (ops : List (LookupOp F)) : ∀ (v : VarC F) (m : VarC F → Option (VarC F)), IsTable v m →
    IsTable (v.performed ops) (fun k => ops.foldl (touch k) (m k)) := by
  induction ops with
  | nil => exact fun _ _ h => h
  | cons op ops ih => exact fun v m h => ih _ _ (perform_table h op).2

/-- **A dict is a table of the latest values**: behind whatever operations, each answers by the value that its key was
    last assigned, blank for one that was only looked at, and none for one that was not named; `keys` lists the named
    keys in order, once each. -/
theorem dict_is_table (ops : List (LookupOp F)) (op : LookupOp F) :
    Answers (table ops) op ((performed (.dict []) ops).perform op).1 :=
  (perform_table (performed_table ops (.dict []) (fun _ => none) ⟨[], rfl, List.Pairwise.nil, fun _ => rfl⟩) op).1

end Table

/-! ## The array -/

section Array

variable [LT F] [DecidableLT F]

/-- What an operation does to the element at a position. -/
def touchAt (i : Nat) (cur : VarC F) : LookupOp F → VarC F
  | .assign a_idx w => if a_idx.toInt = i then w else cur
  | .assignKey (.integer a_idx) w => if a_idx.toInt = i then w else cur
  | _ => cur

theorem assign_array (xs : List (VarC F)) (n : Int64) (w : VarC F) :
    (elemAt xs n = none ∧ assign (.array xs) n w = .error error_ARRAY_INDEX_EXCEEDS_RANGE) ∨
      (0 ≤ n.toInt ∧ assign (.array xs) n w = .ok (.array (xs.set n.toInt.toNat w))) := by
  cases h : elemAt xs n with
  | none =>
      have hindex : indexArray xs n = .error error_ARRAY_INDEX_EXCEEDS_RANGE := by
        simp only [indexArray, h]
      exact Or.inl ⟨rfl, by simp only [assign, index, hindex]; rfl⟩
  | some x =>
      have hindex : indexArray xs n = .ok (x, .array xs) := by
        simp only [indexArray, h]
      refine Or.inr ⟨?_, by simp only [assign, index, hindex]; rfl⟩
      by_contra hneg
      rw [elemAt, if_pos (Int.not_le.mp hneg)] at h
      exact Option.some_ne_none x h.symm

/-- With a key that is an integer the two kinds of assignment are the same. -/
theorem assignKey_integer (v : VarC F) (n : Int64) (w : VarC F) : assignKey v (.integer n) w = assign v n w := by
  cases v <;> rfl

omit [LT F] [DecidableLT F] in
theorem set_getElem (xs : List (VarC F)) (n : Int64) (w : VarC F) (hn : 0 ≤ n.toInt) (i : Nat) (x : VarC F)
    (hx : xs[i]? = some x) : (xs.set n.toInt.toNat w)[i]? = some (if n.toInt = i then w else x) := by
  rw [List.getElem?_set]
  by_cases hi : n.toInt = i
  · have hnat : n.toInt.toNat = i := by omega
    rw [if_pos hnat, if_pos hi, if_pos (hnat ▸ (List.getElem?_eq_some_iff.mp hx).1)]
  · rw [if_neg (by omega), if_neg hi, hx]

/-- **One operation** on an array: it stays one of the same length, and changes at most the named element. -/
theorem perform_array (xs : List (VarC F)) (op : LookupOp F) : ∃ ys, (perform (.array xs) op).2 = .array ys ∧
    ys.length = xs.length ∧ ∀ (i : Nat) (x : VarC F), xs[i]? = some x → ys[i]? = some (touchAt i x op) := by
  have hsame : ∃ ys, (.array xs : VarC F) = .array ys ∧ ys.length = xs.length ∧
      ∀ (i : Nat) (x : VarC F), xs[i]? = some x → ys[i]? = some x := ⟨xs, rfl, rfl, fun _ _ h => h⟩
  have hassign : ∀ (n : Int64) (w : VarC F), ∃ ys, (perform (.array xs) (.assign n w)).2 = .array ys ∧
      ys.length = xs.length ∧ ∀ (i : Nat) (x : VarC F), xs[i]? = some x → ys[i]? = some (touchAt i x (.assign n w)) := by
    intro n w
    rcases assign_array xs n w with ⟨hnone, h⟩ | ⟨hn, h⟩
    · refine ⟨xs, by rw [perform, h], rfl, ?_⟩
      intro i x hx
      -- a position of the array is not the index
      have hne : ¬ n.toInt = i := by
        intro hi
        rw [elemAt, if_neg (by omega), show n.toInt.toNat = i by omega, hx] at hnone
        exact Option.some_ne_none x hnone
      rw [touchAt, if_neg hne, hx]
    · refine ⟨xs.set n.toInt.toNat w, by rw [perform, h], List.length_set, ?_⟩
      exact fun i x hx => set_getElem xs n w hn i x hx
  cases op with
  | index a_idx =>
      cases h : elemAt xs a_idx <;> simp only [perform, index, indexArray, h] <;> exact hsame
  | indexKey a_key =>
      cases a_key with
      | integer n =>
          have hkey : indexKey (.array xs) (.integer n) = indexArray xs n := rfl
          cases h : elemAt xs n <;> simp only [perform, hkey, indexArray, h] <;> exact hsame
      | _ => exact hsame
  | assign a_idx w => exact hassign a_idx w
  | assignKey a_key w =>
      cases a_key with
      | integer n =>
          have h := hassign n w
          simp only [perform, assignKey_integer] at h ⊢
          exact h
      | _ => exact hsame
  | has_idx a_idx => exact hsame
  | has_key a_key => exact hsame
  | keys => exact hsame

/-- **An array is a vector of the latest values**: behind whatever operations it has its length, and at each position the
    value that was last assigned there, or the first one. -/
theorem array_is_vector (xs : List (VarC F)) (ops : List (LookupOp F)) : ∃ ys, performed (.array xs) ops = .array ys ∧
    ys.length = xs.length ∧ ∀ (i : Nat) (x : VarC F), xs[i]? = some x → ys[i]? = some (ops.foldl (touchAt i) x) := by
  induction ops generalizing xs with
  | nil => exact ⟨xs, rfl, rfl, fun _ _ h => h⟩
  | cons op ops ih =>
      obtain ⟨ys, hys, hlen, helem⟩ := perform_array xs op
      obtain ⟨zs, hzs, hlen', helem'⟩ := ih ys
      refine ⟨zs, ?_, hlen'.trans hlen, ?_⟩
      · rw [performed, List.foldl_cons, hys]
        exact hzs
      · intro i x hx
        exact helem' i _ (helem i x hx)

end Array

end VarC
end Cclvar
end Cclib
