import Mathlib.Data.List.Basic

/-!
# `Lib.Utf8` — texts in UTF-8

`encode` puts the UTF-8 bytes of characters one after the other. A byte below 0x80 is always a character of its own
(`byte_mem`), so an encoded text can be taken apart at one: what is before it and what is behind it are encoded
texts too (`encode_split`).
-/

namespace Cclib
namespace Utf8

/-- The bytes of a text. -/
def encode (cs : List Char) : List UInt8 := cs.flatMap String.utf8EncodeChar

@[simp] theorem encode_nil : encode [] = [] := rfl

@[simp] theorem encode_cons (c : Char) (cs : List Char) : encode (c :: cs) = String.utf8EncodeChar c ++ encode cs := rfl

@[simp] theorem encode_append (cs cs' : List Char) : encode (cs ++ cs') = encode cs ++ encode cs' := List.flatMap_append

/-- A character below 0x80 is one byte. -/
theorem encodeChar_ascii {c : Char} (h : c.toNat < 0x80) : String.utf8EncodeChar c = [UInt8.ofNat c.toNat] := by
  have hle : c.val.toNat ≤ 0x7f := Nat.lt_succ_iff.mp h
  rw [String.utf8EncodeChar]
  exact if_pos hle

/-- A character from 0x10000 on is four bytes. -/
theorem encodeChar_length {c : Char} (h : 0x10000 ≤ c.toNat) : (String.utf8EncodeChar c).length = 4 := by
  have hval : c.val.toNat = c.toNat := rfl
  rw [String.utf8EncodeChar]
  simp only [hval]
  rw [if_neg (by omega), if_neg (by omega), if_neg (by omega)]
  rfl

/-- A character from 0x80 on has no byte below it. -/
theorem high_of_mem {c : Char} (h : 0x80 ≤ c.toNat) {b : UInt8} (hb : b ∈ String.utf8EncodeChar c) : 0x80 ≤ b.toNat := by
  have hnot : ¬ c.val.toNat ≤ 0x7f := Nat.not_le.mpr h
  -- every byte of these is a remainder with one of the marks 0x80, 0xc0, 0xe0, 0xf0
  have hmark : ∀ {n m k : Nat}, k + m ≤ 256 → 0x80 ≤ m → 0 < k → 0x80 ≤ (UInt8.ofNat (n % k + m)).toNat := by
    intro n m k hkm hm hk
    have hlt := Nat.mod_lt n hk
    have hsize : n % k + m < UInt8.size := Nat.lt_of_lt_of_le (Nat.add_lt_add_right hlt m) hkm
    rw [UInt8.toNat_ofNat_of_lt' hsize]
    omega
  rw [String.utf8EncodeChar] at hb
  simp only [if_neg hnot] at hb
  split at hb
  · simp only [List.mem_cons, List.not_mem_nil, or_false] at hb
    rcases hb with rfl | rfl <;> exact hmark (by decide) (by decide) (by decide)
  · split at hb
    · simp only [List.mem_cons, List.not_mem_nil, or_false] at hb
      rcases hb with rfl | rfl | rfl <;> exact hmark (by decide) (by decide) (by decide)
    · simp only [List.mem_cons, List.not_mem_nil, or_false] at hb
      rcases hb with rfl | rfl | rfl | rfl <;> exact hmark (by decide) (by decide) (by decide)

/-- A byte below 0x80 is the character with its number. -/
theorem byte_mem {c : Char} {b : UInt8} (hb : b ∈ String.utf8EncodeChar c) (hlt : b.toNat < 0x80) :
    String.utf8EncodeChar c = [b] ∧ c.toNat = b.toNat := by
  by_cases h : c.toNat < 0x80
  · rw [encodeChar_ascii h, List.mem_singleton] at hb
    subst hb
    refine ⟨encodeChar_ascii h, ?_⟩
    rw [UInt8.toNat_ofNat_of_lt' (Nat.lt_trans h (by decide))]
  · exact absurd (high_of_mem (Nat.not_lt.mp h) hb) (Nat.not_le.mpr hlt)

/-- **A text is taken apart at a byte below 0x80.** -/
theorem encode_split : ∀ {cs : List Char} {u v : List UInt8} {b : UInt8}, encode cs = u ++ b :: v → b.toNat < 0x80 →
    ∃ cs₁ c cs₂, cs = cs₁ ++ c :: cs₂ ∧ u = encode cs₁ ∧ v = encode cs₂ ∧ c.toNat = b.toNat
  | [], _, _, _, h, _ => absurd h.symm (List.append_ne_nil_of_right_ne_nil _ (List.cons_ne_nil _ _))
  | c :: cs, u, v, b, h, hlt => by
      rw [encode_cons] at h
      rcases List.append_eq_append_iff.mp h with ⟨u', rfl, htail⟩ | ⟨w, hw, htail⟩
      · obtain ⟨cs₁, c', cs₂, rfl, rfl, rfl, hc'⟩ := encode_split htail hlt
        exact ⟨c :: cs₁, c', cs₂, rfl, rfl, rfl, hc'⟩
      · cases w with
        | nil =>
            rw [List.append_nil] at hw
            have htail' : encode cs = [] ++ b :: v := htail.symm
            obtain ⟨cs₁, c', cs₂, rfl, hu, rfl, hc'⟩ := encode_split htail' hlt
            refine ⟨c :: cs₁, c', cs₂, rfl, ?_, rfl, hc'⟩
            rw [encode_cons, ← hu, List.append_nil, hw]
        | cons b' w =>
            injection htail with hb htail
            subst hb
            -- the byte is in the first character, so it is all of it
            have hmem : b ∈ String.utf8EncodeChar c := by
              rw [hw]
              exact List.mem_append_right _ List.mem_cons_self
            obtain ⟨hone, hc⟩ := byte_mem hmem hlt
            rw [hone] at hw
            have hlen := congrArg List.length hw
            simp only [List.length_append, List.length_cons, List.length_nil] at hlen
            have hu : u = [] := List.length_eq_zero_iff.mp (by omega)
            have hw' : w = [] := List.length_eq_zero_iff.mp (by omega)
            subst hu hw'
            exact ⟨[], c, cs, rfl, rfl, htail, hc⟩

end Utf8
end Cclib
