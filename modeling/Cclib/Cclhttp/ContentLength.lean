import Cclib.Cclhttp.Connection
import Cclib.Ccljson.Actions
import Mathlib.Data.List.TakeWhile

/-!
# `Cclhttp.ContentLength` — `connection_c::content_length`

The function reads the header with `strtoll`, and takes it if nothing is left of it. So it takes more than lengths:
white space and a sign may stand in front of the digits, a negative number becomes a large `size_t`, and what does not
fit an `int64_t` the largest one.

## Contents
- `strtollEnd`, `contentLength`.
- `Digits`, `Lead`, `declared`, `Misread`.
- `scan_number`, `scan_other`: a number with what may stand in front of it, and anything else.
- `content_length_iff`.
-/

namespace Cclib
namespace Cclhttp

open Ccljson (strtoll isSpace isDigit digitsValue not_space_of_digit)

/-! ## The functions -/

/-- What `strtoll` leaves in `end_ptr`. -/
def strtollEnd (s : Bytes) : Bytes :=
  let ds := match s.dropWhile isSpace with
    | 45 :: ds => ds
    | 43 :: ds => ds
    | ds => ds
  if ds.takeWhile isDigit = [] then s else ds.dropWhile isDigit

/-- `connection_c::content_length`, of the header that libmicrohttpd finds. -/
def contentLength (length_str : Option CString) : Nat :=
  match length_str with
  | none => 0
  | some length_str =>
    let length := (strtoll length_str.bytes).toUInt64
    if strtollEnd length_str.bytes ≠ [] then 0 else length.toNat

/-! ## What a header says -/

def Digits (ds : Bytes) : Prop := ds ≠ [] ∧ ∀ c ∈ ds, isDigit c = true

/-- White space, and a sign or none: what `strtoll` skips. -/
def Lead (lead : Bytes) : Prop :=
  ∃ space sign, lead = space ++ sign ∧ (∀ c ∈ space, isSpace c = true) ∧ (sign = [] ∨ sign = [43] ∨ sign = [45])

/-- The length that a header declares: one that is digits alone their number, and any other none. -/
def declared (s : Bytes) : Nat := if s ≠ [] ∧ s.all isDigit then digitsValue s else 0

/-- A number that does not fit, or one but zero that has something in front of it. -/
def Misread (s : Bytes) : Prop :=
  (Digits s ∧ 2 ^ 63 ≤ digitsValue s) ∨
    ∃ lead ds, s = lead ++ ds ∧ lead ≠ [] ∧ Lead lead ∧ Digits ds ∧ digitsValue ds ≠ 0

variable {s lead space sign ds tail : Bytes} {c : UInt8}

/-! ## What `strtoll` reads -/

theorem dropWhile_space (hspace : ∀ c ∈ space, isSpace c = true) (hc : isSpace c = false) (tail : Bytes) :
    (space ++ c :: tail).dropWhile isSpace = c :: tail := by
  rw [List.dropWhile_append_of_pos hspace, List.dropWhile_cons, hc]
  rfl

theorem Digits.takeWhile (h : Digits ds) : ds.takeWhile isDigit = ds := List.takeWhile_eq_self_iff.mpr h.2

theorem Digits.dropWhile (h : Digits ds) : ds.dropWhile isDigit = [] := List.dropWhile_eq_nil_iff.mpr h.2

/-- A number is read to its end, whatever may stand in front of it. -/
theorem scan_number (hlead : Lead lead) (hds : Digits ds) :
    strtollEnd (lead ++ ds) = [] ∧ ∃ i : Int, strtoll (lead ++ ds) = Int64.ofIntClamp i ∧
      (i = 0 ↔ digitsValue ds = 0) ∧ (lead = [] → i = digitsValue ds) := by
  obtain ⟨space, sign, rfl, hspace, hsign⟩ := hlead
  rw [List.append_assoc]
  rcases hsign with rfl | rfl | rfl
  · obtain ⟨c, cs, rfl⟩ := List.exists_cons_of_ne_nil hds.1
    obtain ⟨hc, hminus, hplus⟩ := not_space_of_digit (hds.2 c List.mem_cons_self)
    have hdrop := dropWhile_space hspace hc cs
    refine ⟨?_, digitsValue (c :: cs), ?_, Int.natCast_eq_zero, fun _ => rfl⟩
    · simp only [strtollEnd, List.nil_append, hdrop]
      split
      · rename_i heq
        exact absurd (List.cons.inj heq).1 hminus
      · rename_i heq
        exact absurd (List.cons.inj heq).1 hplus
      · rw [hds.takeWhile, if_neg hds.1, hds.dropWhile]
    · simp only [strtoll, List.nil_append, hdrop]
      split
      · rename_i heq
        exact absurd (List.cons.inj heq).1 hminus
      · rename_i heq
        exact absurd (List.cons.inj heq).1 hplus
      · rw [hds.takeWhile]
  · have hdrop := dropWhile_space hspace (c := 43) (by decide) ds
    refine ⟨?_, digitsValue ds, ?_, Int.natCast_eq_zero, fun _ => rfl⟩
    · simp only [strtollEnd, List.singleton_append, hdrop, hds.takeWhile, hds.dropWhile, if_neg hds.1]
    · simp only [strtoll, List.singleton_append, hdrop, hds.takeWhile]
  · have hdrop := dropWhile_space hspace (c := 45) (by decide) ds
    refine ⟨?_, -(digitsValue ds : Int), ?_, by omega, fun h => ?_⟩
    · simp only [strtollEnd, List.singleton_append, hdrop, hds.takeWhile, hds.dropWhile, if_neg hds.1]
    · simp only [strtoll, List.singleton_append, hdrop, hds.takeWhile]
    · simp at h

/-- Nothing else is. -/
theorem scan_other (h : strtollEnd s = []) : s = [] ∨ ∃ lead ds, s = lead ++ ds ∧ Lead lead ∧ Digits ds := by
  have hspace : ∀ c ∈ s.takeWhile isSpace, isSpace c = true := fun c hc => List.mem_takeWhile_imp hc
  have hsplit := List.takeWhile_append_dropWhile (p := isSpace) (l := s)
  -- the digits, behind a sign or not
  have hnumber : ∀ ds : Bytes, (if ds.takeWhile isDigit = [] then s else ds.dropWhile isDigit) = [] →
      s = [] ∨ Digits ds := by
    intro ds h
    split at h
    · exact .inl h
    · rename_i hne
      refine .inr ⟨?_, List.dropWhile_eq_nil_iff.mp h⟩
      rintro rfl
      exact hne rfl
  unfold strtollEnd at h
  dsimp only at h
  split at h
  · rename_i ds hdrop
    rcases hnumber ds h with hnil | hds
    · exact .inl hnil
    · refine .inr ⟨s.takeWhile isSpace ++ [45], ds, ?_, ⟨_, _, rfl, hspace, .inr (.inr rfl)⟩, hds⟩
      rw [List.append_assoc, List.singleton_append, ← hdrop, hsplit]
  · rename_i ds hdrop
    rcases hnumber ds h with hnil | hds
    · exact .inl hnil
    · refine .inr ⟨s.takeWhile isSpace ++ [43], ds, ?_, ⟨_, _, rfl, hspace, .inr (.inl rfl)⟩, hds⟩
      rw [List.append_assoc, List.singleton_append, ← hdrop, hsplit]
  · rcases hnumber _ h with hnil | hds
    · exact .inl hnil
    · exact .inr ⟨s.takeWhile isSpace, _, hsplit.symm, ⟨_, [], (List.append_nil _).symm, hspace, .inl rfl⟩, hds⟩

/-! ## As a `size_t` -/

theorem toNat_clamp_eq_zero (i : Int) : (Int64.ofIntClamp i).toUInt64.toNat = 0 ↔ i = 0 := by
  constructor
  · intro h
    have hbits : (Int64.ofIntClamp i).toUInt64 = 0 := UInt64.toNat.inj h
    have hzero : Int64.ofIntClamp i = 0 := congrArg UInt64.toInt64 hbits
    unfold Int64.ofIntClamp at hzero
    split at hzero
    · split at hzero
      · have hi := congrArg Int64.toInt hzero
        rwa [Int64.toInt_ofIntLE] at hi
      · cases hzero
    · cases hzero
  · rintro rfl
    rfl

theorem toNat_clamp_eq_iff (n : Nat) : (Int64.ofIntClamp n).toUInt64.toNat = n ↔ n < 2 ^ 63 := by
  by_cases hn : n < 2 ^ 63
  · have hpos : 0 ≤ Int64.ofIntClamp n := by
      rw [Int64.le_iff_toInt_le, Int64.toInt_ofIntClamp (by rw [Int64.toInt_minValue]; omega)
        (by rw [Int64.toInt_maxValue]; omega), Int64.toInt_zero]
      exact Int.natCast_nonneg n
    refine iff_of_true ?_ hn
    rw [Int64.toNat_toUInt64_of_le hpos, Int64.toNatClampNeg_ofIntClamp_of_lt (by omega), Int.toNat_natCast]
  · refine iff_of_false (fun h => ?_) hn
    have hclamp : Int64.ofIntClamp n = Int64.maxValue := by
      rw [Int64.ofIntClamp, dif_pos (by rw [Int64.toInt_minValue]; omega), dif_neg (by rw [Int64.toInt_maxValue]; omega)]
    rw [hclamp] at h
    have hmax : Int64.maxValue.toUInt64.toNat = 2 ^ 63 - 1 := by decide
    omega

/-- What stands in front of a number is no digit. -/
theorem Lead.not_digits (h : Lead lead) (hne : lead ≠ []) : ¬ ∀ c ∈ lead, isDigit c = true := by
  intro hall
  obtain ⟨space, sign, rfl, hspace, hsign⟩ := h
  cases space with
  | nil =>
      rcases hsign with rfl | rfl | rfl
      · exact hne rfl
      · exact absurd (hall 43 List.mem_cons_self) (by decide)
      · exact absurd (hall 45 List.mem_cons_self) (by decide)
  | cons c space =>
      have hc := (not_space_of_digit (hall c List.mem_cons_self)).1
      rw [hspace c List.mem_cons_self] at hc
      cases hc

theorem lead_nil : Lead [] := ⟨[], [], rfl, by simp, .inl rfl⟩

/-- **The length of a request.** It is the one that the header declares, exactly if the header is neither a number of
    2⁶³ or more nor a number but zero with a sign or white space in front of it. -/
theorem content_length_iff (length_str : CString) :
    contentLength (some length_str) = declared length_str.bytes ↔ ¬ Misread length_str.bytes := by
  obtain ⟨s, hnul⟩ := length_str
  simp only [contentLength]
  have hdeclared : ∀ ds, Digits ds → declared ds = digitsValue ds :=
    fun ds hds => if_pos ⟨hds.1, List.all_eq_true.mpr hds.2⟩
  have hnone : ∀ {s}, ¬ Digits s → declared s = 0 :=
    fun hnot => if_neg (fun h => hnot ⟨h.1, List.all_eq_true.mp h.2⟩)
  by_cases hend : strtollEnd s = []
  · rw [if_neg (not_not.mpr hend)]
    rcases scan_other hend with rfl | ⟨lead, ds, rfl, hlead, hds⟩
    · refine iff_of_true rfl ?_
      rintro (⟨hdigits, -⟩ | ⟨lead, ds, heq, hne, -⟩)
      · exact hdigits.1 rfl
      · exact hne (List.append_eq_nil_iff.mp heq.symm).1
    · obtain ⟨-, i, hi, hzero, hvalue⟩ := scan_number hlead hds
      rw [hi]
      by_cases hne : lead = []
      · subst hne
        obtain rfl := hvalue rfl
        rw [List.nil_append, hdeclared ds hds, toNat_clamp_eq_iff, ← Nat.not_le, not_iff_not]
        refine ⟨fun hle => .inl ⟨hds, hle⟩, ?_⟩
        rintro (⟨-, hle⟩ | ⟨lead, ds', heq, hne, hlead', -⟩)
        · exact hle
        · exact absurd (fun c hc => hds.2 c (heq ▸ List.mem_append_left _ hc)) (hlead'.not_digits hne)
      · have hnot : ¬ Digits (lead ++ ds) :=
          fun h => hlead.not_digits hne (fun c hc => h.2 c (List.mem_append_left _ hc))
        rw [hnone hnot, toNat_clamp_eq_zero]
        constructor
        · rintro rfl (⟨hdigits, -⟩ | ⟨lead', ds', heq, hne', hlead', hds', hvalue'⟩)
          · exact hnot hdigits
          · -- both are the number that is read
            obtain ⟨-, i', hi', hzero', -⟩ := scan_number hlead' hds'
            rw [← heq, hi] at hi'
            have hread := (toNat_clamp_eq_zero i').mp (hi' ▸ rfl)
            exact hvalue' (hzero'.mp hread)
        · intro hmisread
          by_contra hi0
          exact hmisread (.inr ⟨lead, ds, rfl, hne, hlead, hds, fun h => hi0 (hzero.mpr h)⟩)
  · have hread : ∀ {lead ds}, s = lead ++ ds → Lead lead → ¬ Digits ds := by
      rintro lead ds rfl hlead hds
      exact hend (scan_number hlead hds).1
    rw [if_pos hend, hnone (hread rfl lead_nil)]
    refine iff_of_true rfl ?_
    rintro (⟨hdigits, -⟩ | ⟨lead, ds, heq, -, hlead, hds, -⟩)
    · exact hread rfl lead_nil hdigits
    · exact hread heq hlead hds

end Cclhttp
end Cclib
