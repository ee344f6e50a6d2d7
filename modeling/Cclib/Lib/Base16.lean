import Mathlib.Data.List.Basic

/-!
# `Lib.Base16` — the base 16 encoding of bytes

A byte is two digits of four bits each. Digits are written in lower case and read in either case, so that a text that
is read and written again is the same but for the case of its letters (`encode_decode`).

## Contents
- **Digits.** `digit`, `value`, `value_digit`, `digit_value`.
- **Encoding.** `encode`, `decode`, `decode_encode`, `decode_isSome`, `encode_decode`.
-/

namespace Cclib
namespace Base16

/-! ## Digits -/

/-- The character of a digit: `0` to `9` and `a` to `f`. -/
def digit (v : Nat) : UInt8 := if v < 10 then UInt8.ofNat (0x30 + v) else UInt8.ofNat (0x61 + (v - 10))

/-- The characters of digits, in either case. -/
def IsDigit (c : UInt8) : Prop := (0x30 ≤ c ∧ c ≤ 0x39) ∨ (0x61 ≤ c ∧ c ≤ 0x66) ∨ (0x41 ≤ c ∧ c ≤ 0x46)

instance (c : UInt8) : Decidable (IsDigit c) :=
  inferInstanceAs (Decidable ((0x30 ≤ c ∧ c ≤ 0x39) ∨ (0x61 ≤ c ∧ c ≤ 0x66) ∨ (0x41 ≤ c ∧ c ≤ 0x46)))

/-- The number that a digit stands for. -/
def value (c : UInt8) : Nat :=
  if c ≤ 0x39 then c.toNat - 0x30 else if c ≤ 0x46 then 10 + (c.toNat - 0x41) else 10 + (c.toNat - 0x61)

/-- Letters in lower case, everything else as it is. -/
def lower (c : UInt8) : UInt8 := if 0x41 ≤ c ∧ c ≤ 0x5a then c + 0x20 else c

theorem value_digit {v : Nat} (hv : v < 16) : value (digit v) = v := by
  have hall : ∀ v < 16, value (digit v) = v := by decide
  exact hall v hv

theorem isDigit_digit {v : Nat} (hv : v < 16) : IsDigit (digit v) := by
  have hall : ∀ v < 16, IsDigit (digit v) := by decide
  exact hall v hv

/-- Bytes are numbers below 256. -/
theorem forall_byte {P : UInt8 → Prop} (h : ∀ n < 256, P (UInt8.ofNat n)) (c : UInt8) : P c := by
  have hc := h c.toNat c.toNat_lt
  rwa [UInt8.ofNat_toNat] at hc

theorem value_lt {c : UInt8} (h : IsDigit c) : value c < 16 := by
  have hall : ∀ c : UInt8, IsDigit c → value c < 16 := forall_byte (by decide +kernel)
  exact hall c h

/-- A digit in either case, written again. -/
theorem digit_value {c : UInt8} (h : IsDigit c) : digit (value c) = lower c := by
  have hall : ∀ c : UInt8, IsDigit c → digit (value c) = lower c := forall_byte (by decide +kernel)
  exact hall c h

/-! ## Encoding -/

/-- The two digits of each byte. -/
def encode (x : List UInt8) : List UInt8 := x.flatMap (fun c => [digit (c.toNat / 16), digit (c.toNat % 16)])

/-- The byte of each two digits. -/
def decode : List UInt8 → Option (List UInt8)
  | [] => some []
  | [_] => none
  | a :: b :: rest =>
    if IsDigit a ∧ IsDigit b then (decode rest).map (UInt8.ofNat (value a * 16 + value b) :: ·) else none

theorem encode_cons (c : UInt8) (x : List UInt8) :
    encode (c :: x) = digit (c.toNat / 16) :: digit (c.toNat % 16) :: encode x := rfl

theorem length_encode (x : List UInt8) : (encode x).length = 2 * x.length := by
  induction x with
  | nil => rfl
  | cons c x ih =>
      rw [encode_cons, List.length_cons, List.length_cons, List.length_cons, ih]
      omega

/-- **What was encoded is decoded.** -/
theorem decode_encode (x : List UInt8) : decode (encode x) = some x := by
  induction x with
  | nil => rfl
  | cons c x ih =>
      have hc := c.toNat_lt
      have hhigh : c.toNat / 16 < 16 := by omega
      have hlow : c.toNat % 16 < 16 := by omega
      rw [encode_cons, decode, if_pos ⟨isDigit_digit hhigh, isDigit_digit hlow⟩, ih, value_digit hhigh,
        value_digit hlow, show c.toNat / 16 * 16 + c.toNat % 16 = c.toNat by omega, UInt8.ofNat_toNat, Option.map_some]

/-- **Whole pairs of digits** are decoded, and nothing else. -/
theorem decode_isSome (s : List UInt8) : (decode s).isSome = true ↔ 2 ∣ s.length ∧ ∀ c ∈ s, IsDigit c := by
  induction s using decode.induct with
  | case1 => simp [decode]
  | case2 a => simp [decode]
  | case3 a b rest hdigits ih =>
      rw [decode, if_pos hdigits, Option.isSome_map, ih, List.forall_mem_cons, List.forall_mem_cons, List.length_cons,
        List.length_cons]
      have hlen : 2 ∣ rest.length + 1 + 1 ↔ 2 ∣ rest.length := by omega
      rw [hlen]
      constructor
      · rintro ⟨hdvd, hrest⟩
        exact ⟨hdvd, hdigits.1, hdigits.2, hrest⟩
      · rintro ⟨hdvd, -, -, hrest⟩
        exact ⟨hdvd, hrest⟩
  | case4 a b rest hdigits =>
      rw [decode, if_neg hdigits, Option.isSome_none]
      constructor
      · intro h
        cases h
      · rintro ⟨-, hall⟩
        have ha := hall a List.mem_cons_self
        have hb := hall b (List.mem_cons_of_mem _ List.mem_cons_self)
        exact absurd ⟨ha, hb⟩ hdigits

/-- **What was decoded is encoded** in lower case. -/
theorem encode_decode {s x : List UInt8} (h : decode s = some x) : encode x = s.map lower := by
  induction s using decode.induct generalizing x with
  | case1 =>
      cases h
      rfl
  | case2 a => cases h
  | case3 a b rest hdigits ih =>
      rw [decode, if_pos hdigits] at h
      obtain ⟨y, hy, rfl⟩ := Option.map_eq_some_iff.mp h
      have ha := value_lt hdigits.1
      have hb := value_lt hdigits.2
      have hbyte : (UInt8.ofNat (value a * 16 + value b)).toNat = value a * 16 + value b :=
        UInt8.toNat_ofNat_of_lt' (by change _ < 256; omega)
      have hhigh : (value a * 16 + value b) / 16 = value a := by omega
      have hlow : (value a * 16 + value b) % 16 = value b := by omega
      rw [encode_cons, hbyte, hhigh, hlow, ih hy, digit_value hdigits.1, digit_value hdigits.2, List.map_cons,
        List.map_cons]
  | case4 a b rest hdigits =>
      rw [decode, if_neg hdigits] at h
      cases h

end Base16
end Cclib
