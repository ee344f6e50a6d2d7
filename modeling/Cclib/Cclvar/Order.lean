import Cclib.Cclvar.Value

/-!
# `Cclvar.Order` — `var_c::compare` is a total order

With `<` on floats a linear order (no NaN), `loc_c::compare` obeys `Compare.Lawful` along every way of
looking into handles (`lawful_compareAt`): that is one step of the data (`lawful_compareLoc`) and an
induction on the number of handles followed. Values inherit it through `VarC.compareAt_eq`, and on values
an answer of `0` means equality of the trees (`VarC.compare_eq_zero_iff`).
-/

namespace Cclib
namespace Cclvar

open Compare

variable {F X : Type} [LinearOrder F]

/-! ## One step of the data -/

theorem compareValue_swap {cmp : Cmp X} (h : Lawful cmp) (d e : Data F X) (r : Int)
    (hr : compareValue cmp d e = some r) : compareValue cmp e d = some (-r) := by
  cases d <;> cases e <;> simp only [compareValue, reduceCtorEq, Option.some.injEq] at hr ⊢
  case blank.blank => omega
  case bool.bool a b => rw [← hr, ofLT_swap]
  case integer.integer a b => rw [← hr, ofLT_swap]
  case float.float a b => rw [← hr, ofLT_swap]
  case string.string a b => rw [← hr, ofLT_swap]
  case array.array as bs => exact h.sized.swap hr
  case set.set as bs => exact h.sized.swap hr
  case list.list as bs => exact h.sized.swap hr
  case dict.dict as bs => exact h.pair.sized.swap hr

theorem compareValue_trans {cmp : Cmp X} (h : Lawful cmp) (a b c : Data F X) (hab : a.type = b.type)
    (hbc : b.type = c.type) : TransAt (compareValue cmp) a b c := by
  have hint : Lawful (fun a b : Int => some (ofLT a b)) := lawful_ofLT
  have hfloat : Lawful (fun a b : F => some (ofLT a b)) := lawful_ofLT
  have hstring : Lawful (fun a b : StringT => some (ofLT a b)) := lawful_ofLT
  cases a <;> cases b <;> simp only [Data.type, reduceCtorEq] at hab <;>
    cases c <;> simp only [Data.type, reduceCtorEq] at hbc
  case blank => exact fun r s hr hs _ _ => ⟨0, rfl, le_refl 0, by simp_all [compareValue, eq_comm]⟩
  case bool a b c => exact hint.transAt a.toInt b.toInt c.toInt
  case integer a b c => exact hint.transAt a.toInt b.toInt c.toInt
  case float a b c => exact hfloat.transAt a b c
  case string a b c => exact hstring.transAt a b c
  case array as bs cs => exact h.sized.transAt as bs cs
  case set as bs cs => exact h.sized.transAt as bs cs
  case list as bs cs => exact h.sized.transAt as bs cs
  case dict as bs cs => exact h.pair.sized.transAt as bs cs

/-- A lawful comparison of handles gives a lawful comparison of the cells that hold them. -/
theorem lawful_compareLoc {cmp : Cmp X} (h : Lawful cmp) : Lawful (compareLoc (F := F) cmp) :=
  lawful_ranked (fun d e r _ hr => compareValue_swap h d e r hr)
    (fun a b c hab hbc =>
      compareValue_trans h a b c (DataType.code_inj hab) (DataType.code_inj hbc))

/-! ## Along handles -/

/-- `loc_c::compare` is lawful at every depth, whatever the handles lead to. -/
theorem lawful_compareAt (look : X → Option (Data F X)) : ∀ n, Lawful (compareAt look n)
  | 0 => ⟨fun h => by simp [compareAt] at h, fun h => by simp [compareAt] at h⟩
  | n + 1 => by
      have ih := lawful_compareLoc (F := F) (lawful_compareAt look n)
      constructor
      · intro x y r hr
        obtain ⟨d, e, hx, hy, h⟩ := compareAt_succ_eq_some.mp hr
        exact compareAt_succ_eq_some.mpr ⟨e, d, hy, hx, ih.swap h⟩
      · intro x y z r s hr hs hr0 hs0
        obtain ⟨d, e, hx, hy, h⟩ := compareAt_succ_eq_some.mp hr
        obtain ⟨e', f, hy', hz, h'⟩ := compareAt_succ_eq_some.mp hs
        obtain rfl : e = e' := Option.some.inj (hy.symm.trans hy')
        obtain ⟨t, ht, ht'⟩ := ih.trans h h' hr0 hs0
        exact ⟨t, compareAt_succ_eq_some.mpr ⟨d, f, hx, hz, ht⟩, ht'⟩

/-! ## On values -/

namespace VarC

/-- `VarC.compare` is lawful. -/
theorem lawful_compare : Lawful (fun a b : VarC F => some (compare a b)) where
  swap := by
    intro a b r h
    obtain ⟨n, hn⟩ := compareAt_eq a b
    obtain ⟨m, hm⟩ := compareAt_eq b a
    have hn' := compareAt_mono look (Nat.le_max_left n m) _ _ _ hn
    have hm' := compareAt_mono look (Nat.le_max_right n m) _ _ _ hm
    have hs := (lawful_compareAt look (max n m)).swap hn'
    rw [← Option.some.inj h]
    exact congrArg some (Option.some.inj (hm'.symm.trans hs))
  trans := by
    intro a b c r s hr hs hr0 hs0
    obtain ⟨n₁, h₁⟩ := compareAt_eq a b
    obtain ⟨n₂, h₂⟩ := compareAt_eq b c
    obtain ⟨n₃, h₃⟩ := compareAt_eq a c
    let N := max (max n₁ n₂) n₃
    have h₁' := compareAt_mono look (show n₁ ≤ N by omega) _ _ _ h₁
    have h₂' := compareAt_mono look (show n₂ ≤ N by omega) _ _ _ h₂
    have h₃' := compareAt_mono look (show n₃ ≤ N by omega) _ _ _ h₃
    rw [Option.some.inj hr] at h₁'
    rw [Option.some.inj hs] at h₂'
    obtain ⟨t, ht, ht'⟩ := (lawful_compareAt look N).trans h₁' h₂' hr0 hs0
    exact ⟨t, h₃'.symm.trans ht, ht'⟩

theorem compareElems_eq_zero : ∀ {as bs : List (VarC F)},
    (∀ a ∈ as, ∀ b, compare a b = 0 → a = b) → as.length = bs.length → compareElems as bs = 0 →
    as = bs
  | [], [], _, _, _ => rfl
  | a :: as, b :: bs, ih, hl, h => by
      unfold compareElems at h
      by_cases h0 : compare a b = 0
      · simp only [h0, ne_eq, not_true_eq_false, if_false] at h
        rw [ih a (by simp) b h0, compareElems_eq_zero (fun x hx => ih x (by simp [hx])) (by simpa using hl) h]
      · simp only [ne_eq, h0, not_false_eq_true, if_true] at h

theorem compareEntries_eq_zero : ∀ {as bs : List (VarC F × VarC F)},
    (∀ a ∈ as, ∀ b, compare a.1 b = 0 → a.1 = b) → (∀ a ∈ as, ∀ b, compare a.2 b = 0 → a.2 = b) →
    as.length = bs.length → compareEntries as bs = 0 → as = bs
  | [], [], _, _, _, _ => rfl
  | (k, v) :: as, (l, w) :: bs, ihk, ihv, hl, h => by
      unfold compareEntries at h
      by_cases h0 : compare k l = 0
      · by_cases h1 : compare v w = 0
        · simp only [h0, h1, ne_eq, not_true_eq_false, if_false] at h
          obtain rfl : k = l := ihk (k, v) (by simp) l h0
          obtain rfl : v = w := ihv (k, v) (by simp) w h1
          rw [compareEntries_eq_zero (fun x hx => ihk x (by simp [hx])) (fun x hx => ihv x (by simp [hx]))
            (by simpa using hl) h]
        · simp only [h0, ne_eq, h1, not_true_eq_false, not_false_eq_true, if_false, if_true] at h
      · simp only [ne_eq, h0, not_false_eq_true, if_true] at h

theorem type_eq_of_compare_eq_zero {a b : VarC F} (h : compare a b = 0) : a.type = b.type := by
  by_contra hne
  rw [compare_of_type_ne hne] at h
  split at h <;> simp at h

/-- A comparison that answers `0` compared equal trees. -/
theorem eq_of_compare_eq_zero {a b : VarC F} (h : compare a b = 0) : a = b := by
  -- containers that compare equal have one size
  have hlen : ∀ {β : Type} {as bs : List β} {x : Int},
      (if as.length ≠ bs.length then (if as.length < bs.length then (-1 : Int) else 1) else x) = 0 →
      as.length = bs.length ∧ x = 0 := by
    intro β as bs x hx
    by_cases hl : as.length = bs.length
    · exact ⟨hl, by simpa [hl] using hx⟩
    · rw [if_pos hl] at hx
      split at hx <;> simp at hx
  induction a generalizing b <;> have hty := type_eq_of_compare_eq_zero h
  case blank => cases b <;> first | rfl | exact absurd hty (by simp [type, view, Data.type])
  case bool a =>
      cases b <;> simp only [type, view, Data.type, reduceCtorEq] at hty
      rename_i b
      have := ofLT_eq_zero_iff.mp h
      cases a <;> cases b <;> first | rfl | simp at this
  case integer a =>
      cases b <;> simp only [type, view, Data.type, reduceCtorEq] at hty
      rw [Int64.toInt_inj.mp (ofLT_eq_zero_iff.mp h)]
  case float a =>
      cases b <;> simp only [type, view, Data.type, reduceCtorEq] at hty
      rw [ofLT_eq_zero_iff.mp h]
  case string a =>
      cases b <;> simp only [type, view, Data.type, reduceCtorEq] at hty
      rw [ofLT_eq_zero_iff.mp h]
  case array as ih =>
      cases b <;> simp only [type, view, Data.type, reduceCtorEq] at hty
      obtain ⟨hl, h0⟩ := hlen h
      rw [compareElems_eq_zero (fun a ha b hab => ih a ha hab) hl h0]
  case set as ih =>
      cases b <;> simp only [type, view, Data.type, reduceCtorEq] at hty
      obtain ⟨hl, h0⟩ := hlen h
      rw [compareElems_eq_zero (fun a ha b hab => ih a ha hab) hl h0]
  case list as ih =>
      cases b <;> simp only [type, view, Data.type, reduceCtorEq] at hty
      obtain ⟨hl, h0⟩ := hlen h
      rw [compareElems_eq_zero (fun a ha b hab => ih a ha hab) hl h0]
  case dict as ihk ihv =>
      cases b <;> simp only [type, view, Data.type, reduceCtorEq] at hty
      obtain ⟨hl, h0⟩ := hlen h
      rw [compareEntries_eq_zero (fun a ha b hab => ihk a ha hab) (fun a ha b hab => ihv a ha hab) hl h0]

section Reflexive

variable {F : Type} [LT F] [DecidableLT F]

theorem compareElems_self : ∀ {as : List (VarC F)}, (∀ a ∈ as, compare a a = 0) → compareElems as as = 0
  | [], _ => rfl
  | a :: as, h => by
      have htl := compareElems_self (fun x hx => h x (List.mem_cons_of_mem a hx))
      simp [compareElems, h a, htl]

theorem compareEntries_self : ∀ {as : List (VarC F × VarC F)}, (∀ a ∈ as, compare a.1 a.1 = 0) →
    (∀ a ∈ as, compare a.2 a.2 = 0) → compareEntries as as = 0
  | [], _, _ => rfl
  | (k, v) :: as, hk, hv => by
      have htl := compareEntries_self (fun x hx => hk x (List.mem_cons_of_mem _ hx))
        (fun x hx => hv x (List.mem_cons_of_mem _ hx))
      simp [compareEntries, hk (k, v), hv (k, v), htl]

variable [Std.Irrefl (fun a b : F => a < b)]

/-- A value compares equal to itself; this holds with NaN among its floats, too. -/
theorem compare_self (a : VarC F) : compare a a = 0 := by
  induction a with
  | blank => rfl
  | bool a => exact ofLT_self a.toInt
  | integer a => exact ofLT_self a.toInt
  | float a => exact ofLT_self a
  | string a => exact ofLT_self a
  | array as ih => simp [compare, compareElems_self ih]
  | set as ih => simp [compare, compareElems_self ih]
  | list as ih => simp [compare, compareElems_self ih]
  | dict as ihk ihv => simp [compare, compareEntries_self ihk ihv]

end Reflexive

/-- **Equality.** `compare` answers `0` exactly on equal trees: the same type and, recursively, the same
    contents, those of sets and dicts in order. -/
theorem compare_eq_zero_iff {a b : VarC F} : compare a b = 0 ↔ a = b :=
  ⟨eq_of_compare_eq_zero, fun h => h ▸ compare_self a⟩

theorem compare_swap (a b : VarC F) : compare b a = - compare a b :=
  Option.some.inj (lawful_compare.swap (a := a) rfl)

/-- `operator<` is transitive. -/
theorem Lt.trans {a b c : VarC F} (hab : Lt a b) (hbc : Lt b c) : Lt a c := by
  unfold Lt at *
  obtain ⟨t, ht, ht0, ht'⟩ := lawful_compare.trans (a := a) (b := b) (c := c) rfl rfl
    (Int.le_of_lt hab) (Int.le_of_lt hbc)
  rw [Option.some.inj ht]
  omega

/-- **`var_c::compare` is a total order**: antisymmetric in sign, transitive, and `0` exactly on values of
    the same type and contents. -/
theorem compare_total_order (a b c : VarC F) :
    (compare a b).sign = -(compare b a).sign
      ∧ (compare a b ≤ 0 → compare b c ≤ 0 → compare a c ≤ 0)
      ∧ (compare a b = 0 ↔ a = b) := by
  refine ⟨?_, ?_, compare_eq_zero_iff⟩
  · rw [compare_swap b a, Int.sign_neg]
  · intro hab hbc
    obtain ⟨t, ht, ht0, _⟩ := lawful_compare.trans (a := a) (b := b) (c := c) rfl rfl hab hbc
    rw [Option.some.inj ht]
    exact ht0

end VarC
end Cclvar
end Cclib
