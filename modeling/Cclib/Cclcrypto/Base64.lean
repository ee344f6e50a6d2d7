import Cclib.Lib.Base64
import Mathlib.Algebra.Group.Nat.Defs
import Mathlib.Data.FinEnum
import Mathlib.Data.List.Basic

/-!
# `Cclcrypto.Base64` — `base64_encode` and `base64_decode`

Both functions make a result buffer, have a block function of OpenSSL fill it, and cut it to the length that this
returns. The block functions are a parameter (`Evp`): a call writes bytes to the beginning of the buffer and returns
an `int`. What is documented of them is `Evp.Documented`; a write past the buffer is an error of its own here.

The decoder's block function gives three bytes for each four characters, those for `=` included, and `base64_decode`
keeps them all: the zero bits that fill the last group up come back as bytes.

## Contents
- `Evp`, `base64Encode`, `base64Decode`.
- `Evp.Documented`.
- `base64_round_trip_iff`.
-/

namespace Cclib
namespace Cclcrypto

/-- The bytes of a `std::string`. -/
abbrev StringT := List UInt8

/-- The exceptions, and a write past the end of a buffer, which is undefined. -/
inductive Error where
  | cryptoInvalidBase64Data
  | lengthError
  | overrun
deriving DecidableEq, Repr

/-- The message of the exception. -/
def Error.what : Error → Option String
  | .cryptoInvalidBase64Data => some "invalid base64 data to decode"
  | .lengthError | .overrun => none

/-- A call of a block function: what it writes to the buffer, and what it returns. -/
structure Call where
  written : List UInt8
  ret : Int32
deriving DecidableEq, Repr

/-- `EVP_EncodeBlock` and `EVP_DecodeBlock`, on a source buffer and the number of its bytes. -/
structure Evp where
  encodeBlock : StringT → Int32 → Call
  decodeBlock : StringT → Int32 → Call

/-! ## The functions -/

/-- `std::string::resize`. -/
def resize (s : StringT) (n : Nat) : StringT := s.take n ++ List.replicate (n - s.length) 0

/-- `resize` with an `int`: a negative one is more than `max_size` as a `size_t`. -/
def resizeInt (s : StringT) (length : Int32) : Except Error StringT :=
  if length.toInt < 0 then .error .lengthError else .ok (resize s length.toInt.toNat)

/-- The buffer after bytes were written to its beginning. -/
def write (buffer written : StringT) : Except Error StringT :=
  if buffer.length < written.length then .error .overrun else .ok (written ++ buffer.drop written.length)

/-- `base64_encode`. -/
def base64Encode (evp : Evp) (a_data : StringT) : Except Error StringT :=
  let call := evp.encodeBlock a_data (Int32.ofNat a_data.length)
  match write (resize [] ((a_data.length / 3 + 1) <<< 2 + 1)) call.written with
  | .error e => .error e
  | .ok result => resizeInt result call.ret

/-- `base64_decode`. -/
def base64Decode (evp : Evp) (a_data : StringT) : Except Error StringT :=
  let call := evp.decodeBlock a_data (Int32.ofNat a_data.length)
  match write (resize [] ((a_data.length >>> 2) * 3 + 1)) call.written with
  | .error e => .error e
  | .ok result => if call.ret = -1 then .error .cryptoInvalidBase64Data else resizeInt result call.ret

/-! ## What is documented -/

/-- What is documented of the block functions, for a source of at most `INT_MAX` bytes. The encoder writes the
encoding and a NUL, and returns the length without the NUL, where an `int` holds it. The decoder returns -1, or the
number of the bytes it has written, three for each four of the characters; from whole groups with padding at the end
it writes what these stand for. -/
structure Evp.Documented (evp : Evp) : Prop where
  encode_written : ∀ f (n : Int32), n.toInt = f.length → (evp.encodeBlock f n).written = Base64.encode f ++ [0]
  encode_ret : ∀ f (n : Int32), n.toInt = f.length → (Base64.encode f).length < 2 ^ 31 →
    (evp.encodeBlock f n).ret.toInt = (Base64.encode f).length
  decode_ret : ∀ f (n : Int32), n.toInt = f.length → (evp.decodeBlock f n).ret ≠ -1 →
    ∃ k : Nat, (evp.decodeBlock f n).ret.toInt = 3 * k ∧ 4 * k ≤ f.length ∧
      (evp.decodeBlock f n).written.length = 3 * k
  decode_valid : ∀ f (n : Int32), n.toInt = f.length → Base64.Valid f →
    (evp.decodeBlock f n).written = Base64.decode f ∧ (evp.decodeBlock f n).ret.toInt = (Base64.decode f).length

theorem toInt_ofNat {n : Nat} (h : n < 2 ^ 31) : (Int32.ofNat n).toInt = n := by
  exact Int32.toInt_ofNat_of_lt h

@[simp] theorem length_resize (s : StringT) (n : Nat) : (resize s n).length = n := by
  simp only [resize, List.length_append, List.length_take, List.length_replicate]
  omega

theorem write_of_le {buffer written : StringT} (h : written.length ≤ buffer.length) :
    write buffer written = .ok (written ++ buffer.drop written.length) := by
  rw [write, if_neg (by omega)]

theorem length_resizeInt {s out : StringT} {n : Int32} (h : resizeInt s n = .ok out) :
    (out.length : Int) = n.toInt := by
  unfold resizeInt at h
  split at h
  · exact absurd h (by simp)
  · obtain rfl := Except.ok.inj h
    rw [length_resize]
    omega

/-- A resize that cuts off what was not written. -/
theorem resizeInt_append {s t : StringT} {n : Int32} (h : n.toInt = s.length) : resizeInt (s ++ t) n = .ok s := by
  have hn : n.toInt.toNat = s.length := by omega
  rw [resizeInt, if_neg (by omega), hn, resize, List.take_left, List.length_append, Nat.sub_eq_zero_of_le (by omega)]
  simp

variable {evp : Evp} {x y : StringT}

/-! ## Encoding -/

/-- The encoding and the NUL fit into the buffer of `base64_encode`. -/
theorem encode_fits (hevp : evp.Documented) (hx : x.length < 2 ^ 31) :
    (evp.encodeBlock x (Int32.ofNat x.length)).written.length ≤
      (resize [] ((x.length / 3 + 1) <<< 2 + 1)).length := by
  rw [hevp.encode_written x _ (toInt_ofNat hx), List.length_append, Base64.length_encode, length_resize,
    Nat.shiftLeft_eq]
  simp only [List.length_cons, List.length_nil]
  omega

/-- Where an `int` holds the length, `base64_encode` returns the encoding. -/
theorem base64Encode_eq (hevp : evp.Documented) (hx : x.length < 2 ^ 31) (hret : (Base64.encode x).length < 2 ^ 31) :
    base64Encode evp x = .ok (Base64.encode x) := by
  simp only [base64Encode, write_of_le (encode_fits hevp hx)]
  rw [hevp.encode_written x _ (toInt_ofNat hx), List.append_assoc]
  exact resizeInt_append (hevp.encode_ret x _ (toInt_ofNat hx) hret)

theorem base64Encode_ne_overrun (hevp : evp.Documented) (hx : x.length < 2 ^ 31) :
    base64Encode evp x ≠ .error .overrun := by
  simp only [base64Encode, write_of_le (encode_fits hevp hx), resizeInt]
  split
  · simp
  · simp

/-- An encoded text has fewer bytes than an `int` counts. -/
theorem length_base64Encode (h : base64Encode evp x = .ok y) : y.length < 2 ^ 31 := by
  simp only [base64Encode] at h
  split at h
  · exact absurd h (by simp)
  · have hlen := length_resizeInt h
    have hlt := (evp.encodeBlock x (Int32.ofNat x.length)).ret.toInt_lt
    omega

/-! ## Decoding -/

/-- What `base64_decode` returns has three bytes for each four characters it decodes. -/
theorem length_base64Decode (hevp : evp.Documented) (hy : y.length < 2 ^ 31) (h : base64Decode evp y = .ok x) :
    ∃ k, x.length = 3 * k ∧ 4 * k ≤ y.length := by
  simp only [base64Decode] at h
  split at h
  · exact absurd h (by simp)
  · split at h
    · exact absurd h (by simp)
    · rename_i hret
      obtain ⟨k, hk, hle, _⟩ := hevp.decode_ret y _ (toInt_ofNat hy) hret
      have hlen := length_resizeInt h
      exact ⟨k, by omega, hle⟩

/-- From whole groups `base64_decode` returns what they stand for, the zero bits of the padding included. -/
theorem base64Decode_eq (hevp : evp.Documented) (hy : y.length < 2 ^ 31) (hvalid : Base64.Valid y) :
    base64Decode evp y = .ok (Base64.decode y) := by
  obtain ⟨hwritten, hret⟩ := hevp.decode_valid y _ (toInt_ofNat hy) hvalid
  have hfits : (evp.decodeBlock y (Int32.ofNat y.length)).written.length ≤
      (resize [] ((y.length >>> 2) * 3 + 1)).length := by
    rw [hwritten, Base64.length_decode, length_resize, Nat.shiftRight_eq_div_pow]
    omega
  have hne : (evp.decodeBlock y (Int32.ofNat y.length)).ret ≠ -1 := by
    intro h
    rw [h] at hret
    have : (-1 : Int32).toInt = -1 := rfl
    omega
  simp only [base64Decode, write_of_le hfits]
  rw [if_neg hne, hwritten]
  exact resizeInt_append hret

/-! ## Round trip -/

/-- Where an `int` holds the length of the encoding, what comes back is the text with the bytes that filled it up. -/
theorem bind_base64Decode (hevp : evp.Documented) (hx : x.length < 2 ^ 31) (hlen : (Base64.encode x).length < 2 ^ 31) :
    (base64Encode evp x).bind (base64Decode evp) =
      .ok (x ++ List.replicate (3 * ((x.length + 2) / 3) - x.length) 0) := by
  rw [base64Encode_eq hevp hx hlen, ← Base64.decode_encode]
  exact base64Decode_eq hevp hlen (Base64.valid_encode x)

/-- Block functions as documented; the decoder takes padding anywhere. -/
def blocks : Evp where
  encodeBlock := fun f _ => ⟨Base64.encode f ++ [0], Int32.ofNat (Base64.encode f).length⟩
  decodeBlock := fun f _ =>
    if 4 ∣ f.length ∧ ∀ c ∈ f, Base64.IsDigit c ∨ c = Base64.pad then
      ⟨Base64.decode f, Int32.ofNat (Base64.decode f).length⟩
    else ⟨[], -1⟩

theorem blocks_documented : blocks.Documented where
  encode_written := fun f n _ => rfl
  encode_ret := fun f n _ h => toInt_ofNat h
  decode_ret := by
    intro f n hn hret
    have hlt := n.toInt_lt
    have hlen := Base64.length_decode f
    by_cases h : 4 ∣ f.length ∧ ∀ c ∈ f, Base64.IsDigit c ∨ c = Base64.pad
    · refine ⟨f.length / 4, ?_, by omega, ?_⟩
      · simp only [blocks, if_pos h]
        rw [toInt_ofNat (by omega), hlen]
        rfl
      · simp only [blocks, if_pos h]
        exact hlen
    · simp only [blocks, if_neg h] at hret
      exact absurd rfl hret
  decode_valid := by
    rintro f n hn ⟨hdvd, body, k, rfl, _, hdigits⟩
    have hlt := n.toInt_lt
    have hlen := Base64.length_decode (body ++ List.replicate k Base64.pad)
    have hchars : ∀ c ∈ body ++ List.replicate k Base64.pad, Base64.IsDigit c ∨ c = Base64.pad := by
      intro c hc
      rcases List.mem_append.mp hc with hc | hc
      · exact Or.inl (hdigits c hc)
      · exact Or.inr (List.eq_of_mem_replicate hc)
    simp only [blocks, if_pos (And.intro hdvd hchars), true_and]
    exact toInt_ofNat (by omega)

/-- **Round trip.** Decoding gives the text back, without a write past a buffer, exactly where the text consists of
whole groups of three bytes and an `int` holds the length of its encoding. -/
theorem base64_round_trip_iff (evp : Evp) (x : StringT) (hevp : evp.Documented) (hx : x.length < 2 ^ 31) :
    ((base64Encode evp x).bind (base64Decode evp) = .ok x ∧ base64Encode evp x ≠ .error .overrun ∧
      ∀ y, base64Encode evp x = .ok y → base64Decode evp y ≠ .error .overrun) ↔
      3 ∣ x.length ∧ 4 * (x.length / 3) < 2 ^ 31 := by
  constructor
  · rintro ⟨htrip, _, _⟩
    cases hy : base64Encode evp x with
    | error e =>
        rw [hy] at htrip
        exact absurd htrip (by simp [Except.bind])
    | ok y =>
        rw [hy] at htrip
        -- The text is as long as some number of whole groups.
        obtain ⟨k, hk, hle⟩ := length_base64Decode hevp (length_base64Encode hy) htrip
        have hlt := length_base64Encode hy
        omega
  · rintro ⟨hdvd, hlt⟩
    have hlen : (Base64.encode x).length < 2 ^ 31 := by
      rw [Base64.length_encode]
      omega
    have hzero : 3 * ((x.length + 2) / 3) - x.length = 0 := by omega
    have htrip := bind_base64Decode hevp hx hlen
    rw [hzero, List.replicate_zero, List.append_nil] at htrip
    refine ⟨htrip, base64Encode_ne_overrun hevp hx, ?_⟩
    intro y hy hover
    rw [hy] at htrip
    exact absurd (hover.symm.trans htrip) (by simp)

/-- The text `abc`. -/
theorem base64_round_trip_three :
    ((base64Encode blocks [0x61, 0x62, 0x63]).bind (base64Decode blocks) = .ok [0x61, 0x62, 0x63] ∧
      base64Encode blocks [0x61, 0x62, 0x63] ≠ .error .overrun ∧
      ∀ y, base64Encode blocks [0x61, 0x62, 0x63] = .ok y → base64Decode blocks y ≠ .error .overrun) ↔
      3 ∣ [0x61, 0x62, 0x63].length ∧ 4 * ([0x61, 0x62, 0x63].length / 3) < 2 ^ 31 :=
  base64_round_trip_iff blocks [0x61, 0x62, 0x63] blocks_documented (by decide)

/-- The text `a` comes back with two more bytes. -/
theorem base64_round_trip_one : blocks.Documented ∧
    (base64Encode blocks [0x61]).bind (base64Decode blocks) = .ok [0x61, 0x00, 0x00] ∧
    (base64Encode blocks [0x61]).bind (base64Decode blocks) ≠ .ok [0x61] := by
  have hlen : (Base64.encode [0x61]).length < 2 ^ 31 := by rw [Base64.length_encode]; decide
  have htrip := bind_base64Decode blocks_documented (x := [0x61]) (by decide) hlen
  refine ⟨blocks_documented, htrip, ?_⟩
  intro h
  exact absurd (htrip.symm.trans h) (by decide)

end Cclcrypto
end Cclib
