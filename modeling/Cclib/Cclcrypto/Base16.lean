import Cclib.Lib.Base16
import Cclib.Cclcrypto.Base64

/-!
# `Cclcrypto.Base16` — `base16_encode` and `base16_decode`

Both are loops over the characters of a string, one at a time and two at a time. A `char` is signed: a byte from `0x80`
on is negative, and so before every digit. `reserve` changes no contents and is left out.

## Contents
- `base16Encode`, `base16Decode`.
- `base16Encode_eq`, `base16Decode_eq`: what the loops compute.
- `base16_codec`.
-/

namespace Cclib
namespace Cclcrypto

/-- The exceptions of the digests, the passwords and the base 16 texts. -/
inductive CryptoError where
  | messageDigestError
  | invalidBase16DataSize
  | invalidBase16Data
  | outOfRange
deriving DecidableEq, Repr

/-- The message of the exception; `std::out_of_range` has one of its own. -/
def CryptoError.what : CryptoError → Option String
  | .messageDigestError => some "error while computing message digest"
  | .invalidBase16DataSize => some "invalid base16 data size"
  | .invalidBase16Data => some "invalid base16 data"
  | .outOfRange => none

/-! ## The functions -/

/-- `c_base16_map`: the characters `0` to `9` and `a` to `f`. -/
def cBase16Map : List UInt8 :=
  [0x30, 0x31, 0x32, 0x33, 0x34, 0x35, 0x36, 0x37, 0x38, 0x39, 0x61, 0x62, 0x63, 0x64, 0x65, 0x66]

/-- An element of `c_base16_map`; behind the last one is the NUL of the literal. -/
def mapAt (i : UInt8) : UInt8 := cBase16Map.getD i.toNat 0

/-- `base16_encode`. -/
def base16Encode (a_data : StringT) : StringT :=
  a_data.foldl (fun (result : StringT) (ch : UInt8) => result ++ [mapAt (ch >>> 4)] ++ [mapAt (ch &&& 0x0f)]) []

/-- The number that the character `c` stands for, as an `int`; `none` where `base16_decode` throws. -/
def digitOf (c : UInt8) : Option Int :=
  let char := c.toInt8
  if 0x30 ≤ char ∧ char ≤ 0x39 then some (char.toInt - 0x30)
  else if 0x61 ≤ char ∧ char ≤ 0x66 then some (10 + (char.toInt - 0x61))
  else if 0x41 ≤ char ∧ char ≤ 0x46 then some (10 + (char.toInt - 0x41))
  else none

/-- The loop of `base16_decode`, with `result` so far. Where one character is left, the NUL behind it is no digit. -/
def decodeLoop (result : StringT) : StringT → Except CryptoError StringT
  | [] => .ok result
  | [_] => .error .invalidBase16Data
  | first :: second :: rest =>
    match digitOf first with
    | none => .error .invalidBase16Data
    | some high =>
      match digitOf second with
      | none => .error .invalidBase16Data
      | some low => decodeLoop (result ++ [UInt8.ofInt high <<< 4 + UInt8.ofInt low]) rest

/-- `base16_decode`. -/
def base16Decode (a_data : StringT) : Except CryptoError StringT :=
  if a_data.length &&& 0x01 ≠ 0 then .error .invalidBase16DataSize else decodeLoop [] a_data

/-! ## What the loops compute -/

variable {x s result : StringT}

theorem mapAt_halves (ch : UInt8) :
    mapAt (ch >>> 4) = Base16.digit (ch.toNat / 16) ∧ mapAt (ch &&& 0x0f) = Base16.digit (ch.toNat % 16) := by
  have hall : ∀ ch : UInt8, mapAt (ch >>> 4) = Base16.digit (ch.toNat / 16) ∧
      mapAt (ch &&& 0x0f) = Base16.digit (ch.toNat % 16) := Base16.forall_byte (by decide +kernel)
  exact hall ch

/-- The three ranges are those of the digits. -/
theorem digitOf_eq (c : UInt8) :
    digitOf c = if Base16.IsDigit c then some (Base16.value c : Int) else none := by
  have hall : ∀ c : UInt8, digitOf c = if Base16.IsDigit c then some (Base16.value c : Int) else none :=
    Base16.forall_byte (by decide +kernel)
  exact hall c

/-- Two digits in an `unsigned char`. -/
theorem shift_add {a b : Nat} (ha : a < 16) (hb : b < 16) :
    UInt8.ofInt a <<< 4 + UInt8.ofInt b = UInt8.ofNat (a * 16 + b) := by
  have hall : ∀ a < 16, ∀ b < 16,
      UInt8.ofInt (a : Nat) <<< 4 + UInt8.ofInt (b : Nat) = UInt8.ofNat (a * 16 + b) := by decide
  exact hall a ha b hb

theorem foldl_encode (x result : StringT) :
    x.foldl (fun (result : StringT) (ch : UInt8) => result ++ [mapAt (ch >>> 4)] ++ [mapAt (ch &&& 0x0f)]) result =
      result ++ Base16.encode x := by
  induction x generalizing result with
  | nil => exact (List.append_nil result).symm
  | cons ch x ih =>
      obtain ⟨hhigh, hlow⟩ := mapAt_halves ch
      rw [List.foldl_cons, ih, hhigh, hlow, Base16.encode_cons, List.append_assoc, List.append_assoc]
      rfl

/-- `base16_encode` writes two digits a byte. -/
theorem base16Encode_eq (x : StringT) : base16Encode x = Base16.encode x := by
  rw [base16Encode, foldl_encode, List.nil_append]

/-- The loop appends the bytes of the digits, or throws. -/
theorem decodeLoop_eq (s result : StringT) : decodeLoop result s =
    match Base16.decode s with
    | some x => .ok (result ++ x)
    | none => .error .invalidBase16Data := by
  induction s using Base16.decode.induct generalizing result with
  | case1 =>
      simp only [decodeLoop, Base16.decode]
      rw [List.append_nil]
  | case2 a => rfl
  | case3 a b rest hdigits ih =>
      have ha := Base16.value_lt hdigits.1
      have hb := Base16.value_lt hdigits.2
      rw [decodeLoop, digitOf_eq, digitOf_eq, if_pos hdigits.1, if_pos hdigits.2, Base16.decode, if_pos hdigits]
      simp only [shift_add ha hb]
      rw [ih]
      cases Base16.decode rest with
      | none => rfl
      | some y => simp only [Option.map_some, List.append_assoc, List.singleton_append]
  | case4 a b rest hdigits =>
      rw [decodeLoop, digitOf_eq, digitOf_eq, Base16.decode, if_neg hdigits]
      by_cases ha : Base16.IsDigit a
      · have hb : ¬ Base16.IsDigit b := fun hb => hdigits ⟨ha, hb⟩
        rw [if_pos ha, if_neg hb]
      · rw [if_neg ha]

/-- `base16_decode` reads two digits a byte; an odd length is an error of its own. -/
theorem base16Decode_eq (s : StringT) : base16Decode s =
    match Base16.decode s with
    | some x => .ok x
    | none => .error (if 2 ∣ s.length then .invalidBase16Data else .invalidBase16DataSize) := by
  have hodd : s.length &&& 0x01 ≠ 0 ↔ ¬ 2 ∣ s.length := by
    rw [Nat.and_one_is_mod]
    omega
  rw [base16Decode, decodeLoop_eq]
  by_cases hdvd : 2 ∣ s.length
  · rw [if_neg (fun h => hodd.mp h hdvd), if_pos hdvd]
    rfl
  · rw [if_pos (hodd.mpr hdvd), if_neg hdvd]
    cases hdecode : Base16.decode s with
    | none => rfl
    | some x =>
        have hsome := (Base16.decode_isSome s).mp (by rw [hdecode]; rfl)
        exact absurd hsome.1 hdvd

theorem base16Decode_eq_ok : base16Decode s = .ok x ↔ Base16.decode s = some x := by
  rw [base16Decode_eq]
  cases Base16.decode s with
  | none => simp
  | some y => simp

/-! ## The codec -/

/-- **Base 16.** What is encoded is decoded; the texts that are decoded are the whole pairs of digits, and such a text
is what its bytes are encoded to, but for the case of its letters. -/
theorem base16_codec : (∀ x, base16Decode (base16Encode x) = .ok x) ∧
    (∀ s, (∃ x, base16Decode s = .ok x) ↔ 2 ∣ s.length ∧ ∀ c ∈ s, Base16.IsDigit c) ∧
    ∀ s x, base16Decode s = .ok x → base16Encode x = s.map Base16.lower := by
  refine ⟨?_, ?_, ?_⟩
  · intro x
    rw [base16Encode_eq]
    exact base16Decode_eq_ok.mpr (Base16.decode_encode x)
  · intro s
    rw [← Base16.decode_isSome, Option.isSome_iff_exists]
    exact exists_congr (fun x => base16Decode_eq_ok)
  · intro s x h
    rw [base16Encode_eq]
    exact Base16.encode_decode (base16Decode_eq_ok.mp h)

end Cclcrypto
end Cclib
