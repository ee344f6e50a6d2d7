import Mathlib.Data.Nat.Basic

/-!
# `Lib.Base64` — the base 64 encoding of bytes

Three bytes are four digits of six bits each. A last group of one or two bytes is filled up with zero bits, and the
digits that hold nothing but these are written `=`. `decode` reads `=` as zero bits and gives three bytes for each
four characters: it does not tell the bytes that filled the last group up from those of the text
(`decode_encode`).

## Contents
- **Digits.** `digit`, `value`, `value_digit`.
- **Encoding.** `encode`, `length_encode`, `valid_encode`.
- **Decoding.** `decode`, `decode_encode`.
-/

namespace Cclib
namespace Base64

/-! ## Digits -/

/-- The character of a digit: `A` to `Z`, `a` to `z`, `0` to `9`, `+` and `/`. -/
def digit (v : Nat) : UInt8 :=
  if v < 26 then UInt8.ofNat (0x41 + v)
  else if v < 52 then UInt8.ofNat (0x61 + (v - 26))
  else if v < 62 then UInt8.ofNat (0x30 + (v - 52))
  else if v = 62 then 0x2b else 0x2f

/-- The padding character, `=`. -/
def pad : UInt8 := 0x3d

/-- The digit that a character stands for; other characters stand for zero. -/
def value (c : UInt8) : Nat :=
  if 0x41 ≤ c ∧ c ≤ 0x5a then c.toNat - 0x41
  else if 0x61 ≤ c ∧ c ≤ 0x7a then c.toNat - 0x61 + 26
  else if 0x30 ≤ c ∧ c ≤ 0x39 then c.toNat - 0x30 + 52
  else if c = 0x2b then 62 else if c = 0x2f then 63 else 0

/-- The characters of digits. -/
def IsDigit (c : UInt8) : Prop := ∃ v < 64, digit v = c

instance (c : UInt8) : Decidable (IsDigit c) := inferInstanceAs (Decidable (∃ v < 64, digit v = c))

theorem value_digit {v : Nat} (hv : v < 64) : value (digit v) = v := by
  have hall : ∀ v < 64, value (digit v) = v := by decide
  exact hall v hv

theorem value_pad : value pad = 0 := rfl

/-! ## Encoding -/

/-- The number of the 24 bits of three bytes. -/
def bits (a b c : UInt8) : Nat := a.toNat * 65536 + b.toNat * 256 + c.toNat

theorem bits_lt (a b c : UInt8) : bits a b c < 16777216 := by
  have ha := a.toNat_lt
  have hb := b.toNat_lt
  have hc := c.toNat_lt
  unfold bits
  omega

/-- The four digits of 24 bits. -/
def quad (n : Nat) : List UInt8 :=
  [digit (n / 262144), digit (n / 4096 % 64), digit (n / 64 % 64), digit (n % 64)]

/-- The encoding of a text. -/
def encode : List UInt8 → List UInt8
  | a :: b :: c :: rest => quad (bits a b c) ++ encode rest
  | [a, b] => (quad (bits a b 0)).take 3 ++ [pad]
  | [a] => (quad (bits a 0 0)).take 2 ++ [pad, pad]
  | [] => []

/-- Four characters for every three bytes, the last of which need not be there. -/
theorem length_encode (x : List UInt8) : (encode x).length = 4 * ((x.length + 2) / 3) := by
  induction x using encode.induct with
  | case1 a b c rest ih =>
      simp only [encode, quad, List.length_append, List.length_cons, List.length_nil, ih]
      omega
  | case2 a b => simp [encode, quad]
  | case3 a => simp [encode, quad]
  | case4 => rfl

/-- Whole groups of digits, where up to two characters at the end are padding. -/
def Valid (t : List UInt8) : Prop :=
  4 ∣ t.length ∧ ∃ body n, t = body ++ List.replicate n pad ∧ n ≤ 2 ∧ ∀ c ∈ body, IsDigit c

theorem isDigit_quad {n : Nat} (hn : n < 16777216) : ∀ c ∈ quad n, IsDigit c := by
  intro c hc
  simp only [quad, List.mem_cons, List.not_mem_nil, or_false] at hc
  rcases hc with rfl | rfl | rfl | rfl
  · exact ⟨_, by omega, rfl⟩
  · exact ⟨_, Nat.mod_lt _ (by decide), rfl⟩
  · exact ⟨_, Nat.mod_lt _ (by decide), rfl⟩
  · exact ⟨_, Nat.mod_lt _ (by decide), rfl⟩

theorem valid_encode (x : List UInt8) : Valid (encode x) := by
  refine ⟨⟨_, length_encode x⟩, ?_⟩
  induction x using encode.induct with
  | case1 a b c rest ih =>
      obtain ⟨body, n, hbody, hn, hdigits⟩ := ih
      refine ⟨quad (bits a b c) ++ body, n, ?_, hn, ?_⟩
      · rw [encode, hbody, List.append_assoc]
      · intro d hd
        rcases List.mem_append.mp hd with hd | hd
        · exact isDigit_quad (bits_lt a b c) d hd
        · exact hdigits d hd
  | case2 a b =>
      refine ⟨(quad (bits a b 0)).take 3, 1, rfl, by decide, ?_⟩
      intro d hd
      exact isDigit_quad (bits_lt a b 0) d (List.mem_of_mem_take hd)
  | case3 a =>
      refine ⟨(quad (bits a 0 0)).take 2, 2, rfl, by decide, ?_⟩
      intro d hd
      exact isDigit_quad (bits_lt a 0 0) d (List.mem_of_mem_take hd)
  | case4 => exact ⟨[], 0, rfl, by decide, by simp⟩

/-! ## Decoding -/

/-- The three bytes of 24 bits. -/
def triple (n : Nat) : List UInt8 :=
  [UInt8.ofNat (n / 65536), UInt8.ofNat (n / 256 % 256), UInt8.ofNat (n % 256)]

/-- Three bytes for each four characters. -/
def decode : List UInt8 → List UInt8
  | p :: q :: r :: s :: rest =>
    triple (value p * 262144 + value q * 4096 + value r * 64 + value s) ++ decode rest
  | _ => []

theorem length_decode (t : List UInt8) : (decode t).length = 3 * (t.length / 4) := by
  induction t using decode.induct with
  | case1 p q r s rest ih =>
      simp only [decode, triple, List.length_append, List.length_cons, List.length_nil, ih]
      omega
  | case2 t h =>
      have hlt : t.length < 4 := by
        match t, h with
        | [], _ => simp
        | [_], _ => simp
        | [_, _], _ => simp
        | [_, _, _], _ => simp
        | p :: q :: r :: s :: rest, h => exact absurd rfl (h p q r s rest)
      rw [decode]
      · rw [Nat.div_eq_of_lt hlt]
        rfl
      · exact h

theorem triple_bits (a b c : UInt8) : triple (bits a b c) = [a, b, c] := by
  have ha := a.toNat_lt
  have hb := b.toNat_lt
  have hc := c.toNat_lt
  have h₁ : bits a b c / 65536 = a.toNat := by unfold bits; omega
  have h₂ : bits a b c / 256 % 256 = b.toNat := by unfold bits; omega
  have h₃ : bits a b c % 256 = c.toNat := by unfold bits; omega
  rw [triple, h₁, h₂, h₃, UInt8.ofNat_toNat, UInt8.ofNat_toNat, UInt8.ofNat_toNat]

/-- The digits of 24 bits, put together again. -/
theorem value_quad {n : Nat} (hn : n < 16777216) :
    value (digit (n / 262144)) * 262144 + value (digit (n / 4096 % 64)) * 4096 + value (digit (n / 64 % 64)) * 64 +
      value (digit (n % 64)) = n := by
  rw [value_digit (by omega), value_digit (by omega), value_digit (by omega), value_digit (by omega)]
  omega

/-- **Decoding.** What was encoded, followed by zero bytes where the last group was filled up. -/
theorem decode_encode (x : List UInt8) :
    decode (encode x) = x ++ List.replicate (3 * ((x.length + 2) / 3) - x.length) 0 := by
  induction x using encode.induct with
  | case1 a b c rest ih =>
      have hlen : 3 * (((a :: b :: c :: rest).length + 2) / 3) - (a :: b :: c :: rest).length =
          3 * ((rest.length + 2) / 3) - rest.length := by
        simp only [List.length_cons]
        omega
      simp only [encode, quad, List.cons_append, List.nil_append, decode]
      rw [value_quad (bits_lt a b c), triple_bits, ih, hlen]
      rfl
  | case2 a b =>
      -- The digit that `=` stands for holds no bit of the two bytes.
      have hzero : bits a b 0 % 64 = 0 := by unfold bits; simp; omega
      have hsum := value_quad (bits_lt a b 0)
      rw [hzero] at hsum
      simp only [encode, quad, List.take_succ_cons, List.take_zero, List.cons_append, List.nil_append, decode]
      rw [value_pad, show (0 : Nat) = value (digit 0) from rfl, hsum, triple_bits]
      simp
  | case3 a =>
      have hzero : bits a 0 0 % 64 = 0 := by unfold bits; simp; omega
      have hzero' : bits a 0 0 / 64 % 64 = 0 := by unfold bits; simp; omega
      have hsum := value_quad (bits_lt a 0 0)
      rw [hzero, hzero'] at hsum
      simp only [encode, quad, List.take_succ_cons, List.take_zero, List.cons_append, List.nil_append, decode]
      rw [value_pad, show (0 : Nat) = value (digit 0) from rfl, hsum, triple_bits]
      simp
  | case4 => rfl

end Base64
end Cclib
