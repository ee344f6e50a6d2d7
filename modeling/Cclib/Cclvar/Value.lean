import Cclib.Lib.Compare
import Mathlib.Data.List.Basic

/-!
# `Cclvar.Value` — what a `var_c` holds, and `var_c::compare`

A `loc_c` is a type tag with data of that type; containers hold further `var_c` handles. `Data F X` is
that record with the handles of a type `X` of its own: an address when the cells of a heap are meant
(`Cclvar.Store`), a whole value when the finite tree a handle denotes is meant (`VarC` below). `F` is the
type of `double`s, of which the code uses `<` only.

`loc_c::compare` is written once over `Data`, with the comparison of the stored handles as a parameter
(`compareLoc`); `compareAt` iterates it along any way of looking into a handle. `VarC.compare` is the
same function by structural recursion on values, and `VarC.compareAt_eq` connects the two.

`std::set` and `std::map` are modelled by their in-order sequence of elements.
-/

namespace Cclib
namespace Cclvar

open Compare

/-- `string_t`: any sequence of bytes. -/
abbrev StringT := List UInt8

/-- The type tags `type_blank`, …, `type_dict`. -/
inductive DataType where
  | blank | bool | integer | float | string | array | set | list | dict
deriving DecidableEq, Repr

/-- The value of the enumerator, which `loc_c::compare` orders types by. -/
def DataType.code : DataType → Nat
  | .blank => 0
  | .bool => 1
  | .integer => 2
  | .float => 3
  | .string => 4
  | .array => 5
  | .set => 6
  | .list => 7
  | .dict => 8

theorem DataType.code_inj {t u : DataType} (h : t.code = u.code) : t = u := by
  cases t <;> cases u <;> first | rfl | simp [code] at h

/-- `m_type` and `m_data_ptr` of a `loc_c`, with handles of type `X`. -/
inductive Data (F X : Type) where
  | blank
  | bool (b : Bool)
  | integer (n : Int64)
  | float (f : F)
  | string (s : StringT)
  | array (xs : List X)
  | set (xs : List X)
  | list (xs : List X)
  | dict (es : List (X × X))
deriving DecidableEq, Repr

namespace Data

variable {F X : Type}

/-- `loc_c::type`. -/
def type : Data F X → DataType
  | .blank => .blank
  | .bool _ => .bool
  | .integer _ => .integer
  | .float _ => .float
  | .string _ => .string
  | .array _ => .array
  | .set _ => .set
  | .list _ => .list
  | .dict _ => .dict

/-- The same data but for handles that `R` relates. -/
inductive Rel {Y : Type} (R : X → Y → Prop) : Data F X → Data F Y → Prop where
  | blank : Rel R .blank .blank
  | bool (b : Bool) : Rel R (.bool b) (.bool b)
  | integer (n : Int64) : Rel R (.integer n) (.integer n)
  | float (f : F) : Rel R (.float f) (.float f)
  | string (s : StringT) : Rel R (.string s) (.string s)
  | array {xs ys} (h : List.Forall₂ R xs ys) : Rel R (.array xs) (.array ys)
  | set {xs ys} (h : List.Forall₂ R xs ys) : Rel R (.set xs) (.set ys)
  | list {xs ys} (h : List.Forall₂ R xs ys) : Rel R (.list xs) (.list ys)
  | dict {es fs} (h : List.Forall₂ (fun e f => R e.1 f.1 ∧ R e.2 f.2) es fs) : Rel R (.dict es) (.dict fs)

theorem Rel.type_eq {Y : Type} {R : X → Y → Prop} {d : Data F X} {d' : Data F Y} (h : d.Rel R d') :
    d.type = d'.type := by
  cases h <;> rfl

theorem Rel.refl {R : X → X → Prop} [Std.Refl R] (d : Data F X) : d.Rel R d := by
  cases d with
  | array xs => exact .array (List.forall₂_refl xs)
  | set xs => exact .set (List.forall₂_refl xs)
  | list xs => exact .list (List.forall₂_refl xs)
  | dict es => exact .dict (List.forall₂_same.mpr (fun e _ => ⟨refl_of R e.1, refl_of R e.2⟩))
  | blank => exact .blank
  | bool b => exact .bool b
  | integer n => exact .integer n
  | float f => exact .float f
  | string s => exact .string s

end Data

section Compare

variable {F X : Type} [LT F] [DecidableLT F]

/-- `loc_c::compare_value`: operands of one type. The `bool` is read as the `m_int64` it is stored in;
    operands of different types would run into `assert(false)` or read foreign data. -/
def compareValue (cmp : Cmp X) : Cmp (Data F X)
  | .blank, .blank => some 0
  | .bool a, .bool b => some (ofLT a.toInt b.toInt)
  | .integer a, .integer b => some (ofLT a.toInt b.toInt)
  | .float a, .float b => some (ofLT a b)
  | .string a, .string b => some (ofLT a b)
  | .array as, .array bs => sized cmp as bs
  | .list as, .list bs => sized cmp as bs
  | .set as, .set bs => sized cmp as bs
  | .dict as, .dict bs => sized (pair cmp) as bs
  | _, _ => none

/-- `loc_c::compare`: types first, then `compare_value`. -/
def compareLoc (cmp : Cmp X) : Cmp (Data F X) := ranked (fun d => d.type.code) (compareValue cmp)

/-- `loc_c::compare` along handles, following at most `depth` of them. -/
def compareAt (look : X → Option (Data F X)) : Nat → Cmp X
  | 0, _, _ => none
  | depth + 1, x, y => do
    let d ← look x
    let e ← look y
    compareLoc (compareAt look depth) d e

theorem compareLoc_of_type_eq {cmp : Cmp X} {d e : Data F X} (h : d.type = e.type) :
    compareLoc cmp d e = compareValue cmp d e := ranked_of_eq (by rw [h])

theorem compareLoc_of_type_ne {cmp : Cmp X} {d e : Data F X} (h : d.type ≠ e.type) :
    compareLoc cmp d e = some (if d.type.code < e.type.code then -1 else 1) :=
  ranked_of_ne (fun hc => h (DataType.code_inj hc))

theorem compareLoc_rel {Y : Type} {R : X → Y → Prop} {cmp : Cmp X} {cmp' : Cmp Y} (hle : cmp.LeVia R cmp') :
    (compareLoc (F := F) cmp).LeVia (Data.Rel R) (compareLoc cmp') := by
  intro d e d' e' r hd he h
  refine ranked_rel (by rw [hd.type_eq]) (by rw [he.type_eq]) (fun _ h => ?_) h
  cases hd <;> cases he <;> simp only [compareValue, reduceCtorEq] at h ⊢
  case array.array has _ _ hbs _ _ => exact sized_rel hle has hbs h
  case set.set has _ _ hbs _ _ => exact sized_rel hle has hbs h
  case list.list has _ _ hbs _ _ => exact sized_rel hle has hbs h
  case dict.dict has _ _ hbs _ _ => exact sized_rel (pair_rel hle) has hbs h
  all_goals exact h

theorem compareLoc_mono {cmp cmp' : Cmp X} (hle : cmp.Le cmp') :
    (compareLoc (F := F) cmp).Le (compareLoc cmp') :=
  fun d e _ h => compareLoc_rel hle.via (Data.Rel.refl d) (Data.Rel.refl e) h

theorem compareAt_succ_eq_some {look : X → Option (Data F X)} {n : Nat} {x y : X} {r : Int} :
    compareAt look (n + 1) x y = some r ↔
      ∃ d e, look x = some d ∧ look y = some e ∧ compareLoc (compareAt look n) d e = some r := by
  unfold compareAt
  cases look x <;> cases look y <;> simp

/-- Comparisons along handles agree where the handles of one side simulate those of the other. -/
theorem compareAt_rel {Y : Type} {look : X → Option (Data F X)} {look' : Y → Option (Data F Y)}
    {R : X → Y → Prop} (hR : ∀ x y d, R x y → look x = some d → ∃ d', look' y = some d' ∧ d.Rel R d') :
    ∀ n, (compareAt look n).LeVia R (compareAt look' n) := by
  intro n
  induction n with
  | zero =>
      intro x y x' y' r _ _ h
      simp [compareAt] at h
  | succ n ih =>
      intro x y x' y' r hx hy h
      obtain ⟨d, e, hd, he, h⟩ := compareAt_succ_eq_some.mp h
      obtain ⟨d', hd', hdd'⟩ := hR x x' d hx hd
      obtain ⟨e', he', hee'⟩ := hR y y' e hy he
      exact compareAt_succ_eq_some.mpr ⟨d', e', hd', he', compareLoc_rel ih hdd' hee' h⟩

/-- Following more handles gives the same answer. -/
theorem compareAt_succ (look : X → Option (Data F X)) :
    ∀ depth, (compareAt look depth).Le (compareAt look (depth + 1))
  | 0, _, _, _, h => by simp [compareAt] at h
  | depth + 1, x, y, r, h => by
      obtain ⟨d, e, hd, he, h⟩ := compareAt_succ_eq_some.mp h
      exact compareAt_succ_eq_some.mpr ⟨d, e, hd, he, compareLoc_mono (compareAt_succ look depth) d e r h⟩

theorem compareAt_mono (look : X → Option (Data F X)) {n m : Nat} (hnm : n ≤ m) :
    (compareAt look n).Le (compareAt look m) := by
  induction hnm with
  | refl => exact fun _ _ _ h => h
  | step _ ih => exact fun a b r h => compareAt_succ look _ a b r (ih a b r h)

end Compare

/-! ## Values -/

/-- The finite tree of data a `var_c` denotes. -/
inductive VarC (F : Type) where
  | blank
  | bool (b : Bool)
  | integer (n : Int64)
  | float (f : F)
  | string (s : StringT)
  | array (xs : List (VarC F))
  | set (xs : List (VarC F))
  | list (xs : List (VarC F))
  | dict (es : List (VarC F × VarC F))

namespace VarC

variable {F : Type}

/-- The data at the root of a value. -/
def view : VarC F → Data F (VarC F)
  | .blank => .blank
  | .bool b => .bool b
  | .integer n => .integer n
  | .float f => .float f
  | .string s => .string s
  | .array xs => .array xs
  | .set xs => .set xs
  | .list xs => .list xs
  | .dict es => .dict es

/-- `var_c::type`. -/
def type (v : VarC F) : DataType := v.view.type

/-- Induction on values, with the hypothesis for every element of a container. -/
@[elab_as_elim, induction_eliminator]
theorem induction {motive : VarC F → Prop} (blank : motive .blank) (bool : ∀ b, motive (.bool b))
    (integer : ∀ n, motive (.integer n)) (float : ∀ f, motive (.float f))
    (string : ∀ s, motive (.string s))
    (array : ∀ xs, (∀ x ∈ xs, motive x) → motive (.array xs))
    (set : ∀ xs, (∀ x ∈ xs, motive x) → motive (.set xs))
    (list : ∀ xs, (∀ x ∈ xs, motive x) → motive (.list xs))
    (dict : ∀ es, (∀ e ∈ es, motive e.1) → (∀ e ∈ es, motive e.2) → motive (.dict es))
    (v : VarC F) : motive v := by
  refine VarC.rec (motive_1 := motive) (motive_2 := fun xs => ∀ x ∈ xs, motive x)
    (motive_3 := fun es => ∀ e ∈ es, motive e.1 ∧ motive e.2)
    (motive_4 := fun e => motive e.1 ∧ motive e.2)
    blank bool integer float string array set list ?_ ?_ ?_ ?_ ?_ ?_ v
  · exact fun es h => dict es (fun e he => (h e he).1) (fun e he => (h e he).2)
  · exact fun x hx => absurd hx (by simp)
  · rintro y ys hy hys x hx
    rcases List.mem_cons.mp hx with rfl | hx'
    · exact hy
    · exact hys x hx'
  · exact fun e he => absurd he (by simp)
  · rintro e es he hes e' he'
    rcases List.mem_cons.mp he' with rfl | he''
    · exact he
    · exact hes e' he''
  · exact fun _ _ h h' => ⟨h, h'⟩

section Compare

variable [LT F] [DecidableLT F]

mutual
/-- `var_c::compare` on values. -/
def compare : VarC F → VarC F → Int
  | .blank, .blank => 0
  | .bool a, .bool b => ofLT a.toInt b.toInt
  | .integer a, .integer b => ofLT a.toInt b.toInt
  | .float a, .float b => ofLT a b
  | .string a, .string b => ofLT a b
  | .array as, .array bs =>
    if as.length ≠ bs.length then (if as.length < bs.length then -1 else 1) else compareElems as bs
  | .list as, .list bs =>
    if as.length ≠ bs.length then (if as.length < bs.length then -1 else 1) else compareElems as bs
  | .set as, .set bs =>
    if as.length ≠ bs.length then (if as.length < bs.length then -1 else 1) else compareElems as bs
  | .dict as, .dict bs =>
    if as.length ≠ bs.length then (if as.length < bs.length then -1 else 1) else compareEntries as bs
  | a, b => if a.type.code < b.type.code then -1 else 1

/-- The element loop of arrays, lists and sets. -/
def compareElems : List (VarC F) → List (VarC F) → Int
  | a :: as, b :: bs =>
    let result := compare a b
    if result ≠ 0 then result else compareElems as bs
  | _, _ => 0

/-- The entry loop of dicts: keys, then values. -/
def compareEntries : List (VarC F × VarC F) → List (VarC F × VarC F) → Int
  | (k, v) :: as, (l, w) :: bs =>
    let result := compare k l
    if result ≠ 0 then result
    else
      let result := compare v w
      if result ≠ 0 then result else compareEntries as bs
  | _, _ => 0
end

/-- `var_c::operator<`. -/
def Lt (a b : VarC F) : Prop := compare a b < 0

instance : DecidableRel (Lt (F := F)) := fun a b => inferInstanceAs (Decidable (compare a b < 0))

example : compare (F := Nat) (.array [.integer 1]) (.array [.integer 0, .integer 0]) = -1 := by decide

/-- Values of different types are ordered by their types. -/
theorem compare_of_type_ne {a b : VarC F} (h : a.type ≠ b.type) :
    compare a b = if a.type.code < b.type.code then -1 else 1 := by
  cases a <;> cases b <;> first | rfl | exact absurd rfl h

/-- Handles of values lead straight into the values. -/
def look (v : VarC F) : Option (Data F (VarC F)) := some v.view

theorem compareAt_look (n : Nat) (a b : VarC F) :
    compareAt look (n + 1) a b = compareLoc (compareAt look n) a.view b.view := by
  simp [compareAt, look]

theorem compareAt_of_type_eq (n : Nat) (a b : VarC F) (h : a.type = b.type) :
    compareAt look (n + 1) a b = compareValue (compareAt look n) a.view b.view :=
  (compareAt_look n a b).trans (compareLoc_of_type_eq h)

/-- Enough depth for every element is enough depth for the element loop. -/
theorem elems_compareAt_eq : ∀ (as bs : List (VarC F)),
    (∀ a ∈ as, ∀ b, ∃ n, compareAt look n a b = some (compare a b)) →
    ∃ n, elems (compareAt look n) as bs = some (compareElems as bs)
  | [], bs, _ => ⟨0, by simp [elems, compareElems]⟩
  | _ :: _, [], _ => ⟨0, by simp [elems, compareElems]⟩
  | a :: as, b :: bs, h => by
      obtain ⟨n, hn⟩ := h a (by simp) b
      obtain ⟨m, hm⟩ := elems_compareAt_eq as bs (fun x hx => h x (by simp [hx]))
      have hn' := compareAt_mono look (Nat.le_max_left n m) _ _ _ hn
      have hm' := elems_mono (compareAt_mono look (Nat.le_max_right n m)) _ _ _ hm
      refine ⟨max n m, ?_⟩
      by_cases h0 : compare a b = 0
      · rw [elems_of_eq (by rw [hn', h0]), hm']
        simp [compareElems, h0]
      · rw [elems_of_ne hn' h0]
        simp [compareElems, h0]

theorem entries_compareAt_eq : ∀ (as bs : List (VarC F × VarC F)),
    (∀ a ∈ as, ∀ b, ∃ n, compareAt look n a.1 b = some (compare a.1 b)) →
    (∀ a ∈ as, ∀ b, ∃ n, compareAt look n a.2 b = some (compare a.2 b)) →
    ∃ n, elems (pair (compareAt look n)) as bs = some (compareEntries as bs)
  | [], bs, _, _ => ⟨0, by simp [elems, compareEntries]⟩
  | _ :: _, [], _, _ => ⟨0, by simp [elems, compareEntries]⟩
  | (k, v) :: as, (l, w) :: bs, hk, hv => by
      obtain ⟨n₁, hn₁⟩ := hk (k, v) (by simp) l
      obtain ⟨n₂, hn₂⟩ := hv (k, v) (by simp) w
      obtain ⟨m, hm⟩ := entries_compareAt_eq as bs (fun x hx => hk x (by simp [hx]))
        (fun x hx => hv x (by simp [hx]))
      let N := max (max n₁ n₂) m
      have hk' := compareAt_mono look (show n₁ ≤ N by omega) _ _ _ hn₁
      have hv' := compareAt_mono look (show n₂ ≤ N by omega) _ _ _ hn₂
      have hm' := elems_mono (pair_mono (compareAt_mono look (show m ≤ N by omega))) _ _ _ hm
      have hpair : pair (compareAt look N) (k, v) (l, w)
          = if compare k l ≠ 0 then some (compare k l) else some (compare v w) := by
        rw [pair_eq_of_fst hk', hv']
      refine ⟨N, ?_⟩
      by_cases h0 : compare k l = 0
      · by_cases h1 : compare v w = 0
        · rw [elems_of_eq (by rw [hpair]; simp [h0, h1]), hm']
          simp [compareEntries, h0, h1]
        · rw [elems_of_ne (by rw [hpair]; simp [h0]) h1]
          simp [compareEntries, h0, h1]
      · rw [elems_of_ne (by rw [hpair]; simp [h0]) h0]
        simp [compareEntries, h0]

/-- **`VarC.compare` is `loc_c::compare`** followed along as many handles as the values have. -/
theorem compareAt_eq (a b : VarC F) : ∃ n, compareAt look n a b = some (compare a b) := by
  -- different types and different sizes are told apart without a look at the elements
  have hne : ∀ a b : VarC F, a.type ≠ b.type → ∃ n, compareAt look n a b = some (compare a b) :=
    fun a b h => ⟨1, by rw [compareAt_look, compareLoc_of_type_ne h, compare_of_type_ne h]; rfl⟩
  have hsized : ∀ as bs : List (VarC F),
      (∀ a ∈ as, ∀ b, ∃ n, compareAt look n a b = some (compare a b)) →
      ∃ n, sized (compareAt look n) as bs = some (if as.length ≠ bs.length then
        (if as.length < bs.length then -1 else 1) else compareElems as bs) := by
    intro as bs ih
    by_cases hl : as.length = bs.length
    · obtain ⟨n, hn⟩ := elems_compareAt_eq as bs ih
      exact ⟨n, by rw [sized, ranked_of_eq hl, hn, if_neg (not_not.mpr hl)]⟩
    · exact ⟨0, by rw [sized, ranked_of_ne hl, if_pos hl]⟩
  induction a generalizing b with
  | blank =>
      cases b
      case blank => exact ⟨1, rfl⟩
      all_goals exact hne _ _ (by simp [type, view, Data.type])
  | bool a =>
      cases b
      case bool b => exact ⟨1, rfl⟩
      all_goals exact hne _ _ (by simp [type, view, Data.type])
  | integer a =>
      cases b
      case integer b => exact ⟨1, rfl⟩
      all_goals exact hne _ _ (by simp [type, view, Data.type])
  | float a =>
      cases b
      case float b => exact ⟨1, rfl⟩
      all_goals exact hne _ _ (by simp [type, view, Data.type])
  | string a =>
      cases b
      case string b => exact ⟨1, rfl⟩
      all_goals exact hne _ _ (by simp [type, view, Data.type])
  | array as ih =>
      cases b
      case array bs =>
        obtain ⟨n, hn⟩ := hsized as bs ih
        exact ⟨n + 1, by rw [compareAt_of_type_eq n (.array as) (.array bs) rfl, compare]; exact hn⟩
      all_goals exact hne _ _ (by simp [type, view, Data.type])
  | set as ih =>
      cases b
      case set bs =>
        obtain ⟨n, hn⟩ := hsized as bs ih
        exact ⟨n + 1, by rw [compareAt_of_type_eq n (.set as) (.set bs) rfl, compare]; exact hn⟩
      all_goals exact hne _ _ (by simp [type, view, Data.type])
  | list as ih =>
      cases b
      case list bs =>
        obtain ⟨n, hn⟩ := hsized as bs ih
        exact ⟨n + 1, by rw [compareAt_of_type_eq n (.list as) (.list bs) rfl, compare]; exact hn⟩
      all_goals exact hne _ _ (by simp [type, view, Data.type])
  | dict as ihk ihv =>
      cases b
      case dict bs =>
        by_cases hl : as.length = bs.length
        · obtain ⟨n, hn⟩ := entries_compareAt_eq as bs ihk ihv
          refine ⟨n + 1, ?_⟩
          rw [compareAt_of_type_eq n (.dict as) (.dict bs) rfl, compare, if_neg (not_not.mpr hl)]
          exact (ranked_of_eq hl).trans hn
        · refine ⟨1, ?_⟩
          rw [compareAt_of_type_eq 0 (.dict as) (.dict bs) rfl, compare, if_pos hl]
          exact ranked_of_ne hl
      all_goals exact hne _ _ (by simp [type, view, Data.type])

end Compare

end VarC
end Cclvar
end Cclib
