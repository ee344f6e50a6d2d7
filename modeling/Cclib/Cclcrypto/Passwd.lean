import Cclib.Lib.Compare
import Cclib.Cclstr.Split
import Cclib.Cclcrypto.Base16

/-!
# `Cclcrypto.Passwd` — digests and password hashes

A password hash is a salt and the digest of the salt and the password, each as long as the digests are. OpenSSL is a
parameter: `EvpMd` says what the calls of `digest` answer, `Rand` what `RAND_bytes` leaves in a buffer. `passwd_verify`
takes the salt with `substr`, which cuts off what is missing, and the digest with `compare`, which throws where the
hash is shorter than the salt and does not look at what comes behind the digest.

## Contents
- `digest`, `random`, `passwdCreate`, `passwdVerify`, and the two on base 16.
- `creates_iff`: the hashes that `passwd_create` can produce.
- `passwdVerify_eq`, `passwd_verify_iff`.
- `Spells`, `BeginsCreated`, `passwd_verify_base16_iff`: the texts in base 16.
-/

namespace Cclib
namespace Cclcrypto

open Compare (ofLT)

/-! ## The functions -/

/-- A message digest, and what the calls on it answer: `size` is `EVP_MD_size`, and `digestFinal` the bytes that
`EVP_DigestFinal_ex` writes, `none` where it fails. -/
structure EvpMd where
  size : Nat
  ctxCreate : Bool
  digestInit : Bool
  digestUpdate : StringT → Bool
  malloc : Bool
  digestFinal : StringT → Option StringT

/-- `digest`. -/
def digest (a_data : StringT) (a_md : EvpMd) : Except CryptoError StringT :=
  if a_md.ctxCreate = false then .error .messageDigestError
  else if a_md.digestInit = false then .error .messageDigestError
  else if a_md.digestUpdate a_data = false then .error .messageDigestError
  else if a_md.malloc = false then .error .messageDigestError
  else
    match a_md.digestFinal a_data with
    | none => .error .messageDigestError
    | some dg_data => .ok dg_data

/-- What `RAND_bytes` leaves in a buffer. -/
abbrev Rand := (n : Nat) → Vector UInt8 n

/-- `random`. -/
def random (rand : Rand) (a_size : Nat) : StringT := (rand a_size).toList

/-- `std::string::compare` of a part of a string with another string; characters are compared as bytes. -/
def comparePart (s : StringT) (pos n : Nat) (t : StringT) : Except Cclstr.Error Int :=
  (Cclstr.substr s pos n).map (fun part => ofLT part t)

/-- `passwd_create`. -/
def passwdCreate (rand : Rand) (a_passwd : StringT) (a_md : EvpMd) : Except CryptoError StringT :=
  let salt := random rand a_md.size
  match digest (salt ++ a_passwd) a_md with
  | .error e => .error e
  | .ok dg => .ok (salt ++ dg)

/-- `passwd_create_base16`. -/
def passwdCreateBase16 (rand : Rand) (a_passwd : StringT) (a_md : EvpMd) : Except CryptoError StringT :=
  (passwdCreate rand a_passwd a_md).map base16Encode

/-- `passwd_verify`. -/
def passwdVerify (a_passwd a_hash : StringT) (a_md : EvpMd) : Except CryptoError Bool :=
  match Cclstr.substr a_hash 0 a_md.size with
  | .error _ => .error .outOfRange
  | .ok salt =>
    match digest (salt ++ a_passwd) a_md with
    | .error e => .error e
    | .ok dg =>
      match comparePart a_hash a_md.size a_md.size dg with
      | .error _ => .error .outOfRange
      | .ok result => .ok (result == 0)

/-- `passwd_verify_base16`. -/
def passwdVerifyBase16 (a_passwd a_hash : StringT) (a_md : EvpMd) : Except CryptoError Bool :=
  match base16Decode a_hash with
  | .error e => .error e
  | .ok hash => passwdVerify a_passwd hash a_md

/-! ## Created hashes -/

/-- The calls succeed, and a digest has the size of the digests. -/
def EvpMd.Works (a_md : EvpMd) : Prop := ∀ data, ∃ dg, digest data a_md = .ok dg ∧ dg.length = a_md.size

/-- `passwd_create` can produce `hash`. -/
def Creates (a_md : EvpMd) (a_passwd hash : StringT) : Prop := ∃ rand, passwdCreate rand a_passwd a_md = .ok hash

variable {md : EvpMd} {passwd hash salt dg : StringT}

/-- **Created hashes** are a salt and its digest, and nothing else. -/
theorem creates_iff : Creates md passwd hash ↔
    ∃ salt dg, salt.length = md.size ∧ digest (salt ++ passwd) md = .ok dg ∧ hash = salt ++ dg := by
  constructor
  · rintro ⟨rand, h⟩
    simp only [passwdCreate] at h
    split at h
    · cases h
    · rename_i dg hdg
      exact ⟨random rand md.size, dg, Vector.length_toList, hdg, (Except.ok.inj h).symm⟩
  · rintro ⟨salt, dg, hlen, hdg, rfl⟩
    refine ⟨fun n => if h : salt.length = n then ⟨salt.toArray, h⟩ else Vector.replicate n 0, ?_⟩
    simp only [passwdCreate, random, dif_pos hlen]
    rw [show (Vector.mk salt.toArray hlen).toList = salt from rfl, hdg]

theorem Creates.length (hmd : md.Works) (h : Creates md passwd hash) : hash.length = 2 * md.size := by
  obtain ⟨salt, dg, hsalt, hdg, rfl⟩ := creates_iff.mp h
  obtain ⟨dg', hdg', hlen⟩ := hmd (salt ++ passwd)
  obtain rfl := Except.ok.inj (hdg.symm.trans hdg')
  rw [List.length_append]
  omega

/-! ## Verified hashes -/

theorem comparePart_of_le {s t : StringT} {pos n : Nat} (h : pos ≤ s.length) :
    comparePart s pos n t = .ok (ofLT ((s.drop pos).take n) t) := by
  rw [comparePart, Cclstr.substr, if_neg (Nat.not_lt.mpr h)]
  rfl

theorem comparePart_of_lt {s t : StringT} {pos n : Nat} (h : s.length < pos) :
    comparePart s pos n t = .error .outOfRange := by
  rw [comparePart, Cclstr.substr, if_pos h]
  rfl

/-- **What is compared** is the part of a digest's length behind the salt; there has to be a salt. -/
theorem passwdVerify_eq (hdg : digest (hash.take md.size ++ passwd) md = .ok dg) :
    passwdVerify passwd hash md =
      if hash.length < md.size then .error .outOfRange
      else .ok (decide ((hash.drop md.size).take md.size = dg)) := by
  simp only [passwdVerify, Cclstr.substr, Nat.not_lt_zero, if_false, List.drop_zero, hdg]
  rcases Nat.lt_or_ge hash.length md.size with hlt | hge
  · rw [comparePart_of_lt hlt, if_pos hlt]
  · rw [comparePart_of_le hge, if_neg (Nat.not_lt.mpr hge)]
    have hzero : ofLT ((hash.drop md.size).take md.size) dg = 0 ↔ (hash.drop md.size).take md.size = dg :=
      Compare.ofLT_eq_zero_iff
    simp only [beq_eq_decide, hzero]

/-- What `passwd_verify` accepts begins with a created hash. -/
theorem passwdVerify_true_iff (hmd : md.Works) :
    passwdVerify passwd hash md = .ok true ↔ ∃ created extra, Creates md passwd created ∧ hash = created ++ extra := by
  obtain ⟨dg, hdg, hlen⟩ := hmd (hash.take md.size ++ passwd)
  rw [passwdVerify_eq hdg]
  constructor
  · intro h
    split at h
    · cases h
    · rename_i hge
      have hpart := of_decide_eq_true (Except.ok.inj h)
      refine ⟨hash.take md.size ++ dg, (hash.drop md.size).drop md.size, ?_, ?_⟩
      · refine creates_iff.mpr ⟨_, dg, ?_, hdg, rfl⟩
        rw [List.length_take]
        omega
      · rw [← hpart, List.append_assoc, List.take_append_drop, List.take_append_drop]
  · rintro ⟨created, extra, hcreated, rfl⟩
    obtain ⟨salt, dg', hsalt, hdg', rfl⟩ := creates_iff.mp hcreated
    have htake : (salt ++ dg' ++ extra).take md.size = salt := by
      rw [List.append_assoc, ← hsalt, List.take_left]
    have hdrop : (salt ++ dg' ++ extra).drop md.size = dg' ++ extra := by
      rw [List.append_assoc, ← hsalt, List.drop_left]
    rw [htake] at hdg
    obtain rfl := Except.ok.inj (hdg.symm.trans hdg')
    have hge : ¬ (salt ++ dg ++ extra).length < md.size := by
      rw [List.length_append, List.length_append]
      omega
    rw [if_neg hge, hdrop, ← hlen, List.take_left, decide_eq_true rfl]

/-- Created hashes are accepted, also in base 16. -/
theorem passwdVerify_created (hmd : md.Works) (h : Creates md passwd hash) :
    passwdVerify passwd hash md = .ok true ∧ passwdVerifyBase16 passwd (base16Encode hash) md = .ok true := by
  have hverify : passwdVerify passwd hash md = .ok true :=
    (passwdVerify_true_iff hmd).mpr ⟨hash, [], h, (List.append_nil hash).symm⟩
  have hdecode : base16Decode (base16Encode hash) = .ok hash := by
    rw [base16Encode_eq]
    exact base16Decode_eq_ok.mpr (Base16.decode_encode hash)
  refine ⟨hverify, ?_⟩
  simp only [passwdVerifyBase16, hdecode, hverify]

/-- **Passwords.** `passwd_verify` returns, and accepts the created hashes alone, on every string that is not too short
for a salt and is no created hash with more bytes behind it. -/
theorem passwd_verify_iff (a_md : EvpMd) (hmd : a_md.Works) (a_passwd a_hash : StringT) :
    ((∃ b, passwdVerify a_passwd a_hash a_md = .ok b) ∧
      (passwdVerify a_passwd a_hash a_md = .ok true ↔ Creates a_md a_passwd a_hash)) ↔
    a_md.size ≤ a_hash.length ∧
      ∀ created extra, Creates a_md a_passwd created → extra ≠ [] → a_hash ≠ created ++ extra := by
  obtain ⟨dg, hdg, hlen⟩ := hmd (a_hash.take a_md.size ++ a_passwd)
  have hreturns : (∃ b, passwdVerify a_passwd a_hash a_md = .ok b) ↔ a_md.size ≤ a_hash.length := by
    rw [passwdVerify_eq hdg]
    constructor
    · rintro ⟨b, h⟩
      split at h
      · cases h
      · omega
    · intro h
      exact ⟨_, if_neg (Nat.not_lt.mpr h)⟩
  rw [hreturns, passwdVerify_true_iff hmd]
  refine and_congr_right (fun _ => ?_)
  constructor
  · intro h created extra hcreated hne heq
    -- a longer hash would be a created one itself
    have hlonger := (h.mp ⟨created, extra, hcreated, heq⟩).length hmd
    rw [heq, List.length_append, hcreated.length hmd] at hlonger
    exact hne (List.length_eq_zero_iff.mp (by omega))
  · intro h
    constructor
    · rintro ⟨created, extra, hcreated, rfl⟩
      cases extra with
      | nil => rwa [List.append_nil]
      | cons c extra => exact absurd rfl (h created (c :: extra) hcreated (List.cons_ne_nil c extra))
    · intro hcreated
      exact ⟨a_hash, [], hcreated, (List.append_nil a_hash).symm⟩

/-- The SHA-256 digest of 32 zero bytes and `heslo`. -/
def sha256Heslo : StringT :=
  [0x7f, 0x4d, 0xb8, 0x06, 0x31, 0x88, 0x92, 0x38, 0xed, 0xdc, 0x56, 0xb2, 0x3b, 0x48, 0xc9, 0xe1,
   0x15, 0x62, 0xb8, 0xb0, 0xb4, 0xea, 0x05, 0xd1, 0xeb, 0x16, 0xc6, 0x2c, 0xc0, 0xee, 0xed, 0x77]

/-- A digest of 32 bytes, which is that of SHA-256 on a salt of zeros and the password `heslo`. -/
def mdHeslo : EvpMd where
  size := 32
  ctxCreate := true
  digestInit := true
  digestUpdate := fun _ => true
  malloc := true
  digestFinal := fun _ => some sha256Heslo

theorem mdHeslo_works : mdHeslo.Works := fun _ => ⟨sha256Heslo, rfl, rfl⟩

/-- The hash of `heslo` with a salt of zeros. -/
theorem passwd_verify_heslo :
    ((∃ b, passwdVerify [0x68, 0x65, 0x73, 0x6c, 0x6f] (List.replicate 32 0 ++ sha256Heslo) mdHeslo = .ok b) ∧
      (passwdVerify [0x68, 0x65, 0x73, 0x6c, 0x6f] (List.replicate 32 0 ++ sha256Heslo) mdHeslo = .ok true ↔
        Creates mdHeslo [0x68, 0x65, 0x73, 0x6c, 0x6f] (List.replicate 32 0 ++ sha256Heslo))) ↔
    mdHeslo.size ≤ (List.replicate 32 0 ++ sha256Heslo).length ∧
      ∀ created extra, Creates mdHeslo [0x68, 0x65, 0x73, 0x6c, 0x6f] created → extra ≠ [] →
        List.replicate 32 0 ++ sha256Heslo ≠ created ++ extra :=
  passwd_verify_iff mdHeslo mdHeslo_works [0x68, 0x65, 0x73, 0x6c, 0x6f] (List.replicate 32 0 ++ sha256Heslo)

/-- The empty hash throws; a created hash with a byte behind it is accepted. -/
theorem passwd_verify_boundaries : mdHeslo.Works ∧
    passwdVerify [0x68, 0x65, 0x73, 0x6c, 0x6f] [] mdHeslo = .error .outOfRange ∧
    passwdVerify [0x68, 0x65, 0x73, 0x6c, 0x6f] (List.replicate 32 0 ++ sha256Heslo ++ [0x78]) mdHeslo = .ok true ∧
    ¬ Creates mdHeslo [0x68, 0x65, 0x73, 0x6c, 0x6f] (List.replicate 32 0 ++ sha256Heslo ++ [0x78]) := by
  refine ⟨mdHeslo_works, by decide, by decide +kernel, ?_⟩
  intro h
  exact absurd (h.length mdHeslo_works) (by decide)

/-! ## In base 16 -/

/-- A text of whole pairs of digits. -/
def Spells (a_text : StringT) : Prop := 2 ∣ a_text.length ∧ ∀ c ∈ a_text, Base16.IsDigit c

/-- But for the case of its letters, a text begins with one that `passwd_create_base16` can produce. -/
def BeginsCreated (a_md : EvpMd) (a_passwd a_text : StringT) : Prop :=
  ∃ rand created more, passwdCreateBase16 rand a_passwd a_md = .ok created ∧
    a_text.map Base16.lower = created ++ more

variable {x text : StringT}

/-- A text begins with a created one where its bytes begin with a created hash. -/
theorem beginsCreated_iff (h : Base16.decode text = some x) :
    (∃ created extra, Creates md passwd created ∧ x = created ++ extra) ↔ BeginsCreated md passwd text := by
  have hencode := Base16.encode_decode h
  constructor
  · rintro ⟨created, extra, ⟨rand, hcreate⟩, rfl⟩
    refine ⟨rand, base16Encode created, Base16.encode extra, ?_, ?_⟩
    · rw [passwdCreateBase16, hcreate]
      rfl
    · rw [base16Encode_eq, ← hencode, Base16.encode, List.flatMap_append]
      rfl
  · rintro ⟨rand, created₁₆, more, hcreate, hbegins⟩
    unfold passwdCreateBase16 at hcreate
    cases hhash : passwdCreate rand passwd md with
    | error e =>
        rw [hhash] at hcreate
        cases hcreate
    | ok created =>
        rw [hhash] at hcreate
        obtain rfl := Except.ok.inj hcreate
        rw [← hencode, base16Encode_eq] at hbegins
        have hlen := congrArg List.length hbegins
        rw [List.length_append, Base16.length_encode, Base16.length_encode] at hlen
        -- the digits of as many bytes as the created hash has
        have hparts : Base16.encode x =
            Base16.encode (x.take created.length) ++ Base16.encode (x.drop created.length) := by
          rw [Base16.encode, Base16.encode, Base16.encode, ← List.flatMap_append, List.take_append_drop]
        have htake : (x.take created.length).length = created.length := List.length_take_of_le (by omega)
        rw [hparts] at hbegins
        have hsame := (List.append_inj hbegins (by rw [Base16.length_encode, Base16.length_encode, htake])).1
        have hcreated : x.take created.length = created := by
          have hdecode := congrArg Base16.decode hsame
          rw [Base16.decode_encode, Base16.decode_encode] at hdecode
          exact Option.some.inj hdecode
        refine ⟨created, x.drop created.length, ⟨rand, hhash⟩, ?_⟩
        nth_rewrite 1 [← hcreated]
        exact (List.take_append_drop _ _).symm

/-- The bytes of a text are verified, if it has any. -/
theorem passwdVerifyBase16_eq (passwd text : StringT) (md : EvpMd) : passwdVerifyBase16 passwd text md =
    match Base16.decode text with
    | some x => passwdVerify passwd x md
    | none => .error (if 2 ∣ text.length then .invalidBase16Data else .invalidBase16DataSize) := by
  rw [passwdVerifyBase16, base16Decode_eq]
  cases Base16.decode text <;> rfl

/-- **Passwords in base 16.** What `passwd_verify_base16` does with a text: an odd length, a character that is no digit
and a text that is too short for a salt are an error each; of the others it accepts those that begin with a created
text, in whatever case their letters are. -/
theorem passwd_verify_base16_iff (a_md : EvpMd) (hmd : a_md.Works) (a_passwd a_text : StringT) :
    (passwdVerifyBase16 a_passwd a_text a_md = .error .invalidBase16DataSize ↔ ¬ 2 ∣ a_text.length) ∧
    (passwdVerifyBase16 a_passwd a_text a_md = .error .invalidBase16Data ↔
      2 ∣ a_text.length ∧ ∃ c ∈ a_text, ¬ Base16.IsDigit c) ∧
    (passwdVerifyBase16 a_passwd a_text a_md = .error .outOfRange ↔
      Spells a_text ∧ a_text.length < 2 * a_md.size) ∧
    (passwdVerifyBase16 a_passwd a_text a_md = .ok true ↔ Spells a_text ∧ BeginsCreated a_md a_passwd a_text) ∧
    (passwdVerifyBase16 a_passwd a_text a_md = .ok false ↔
      Spells a_text ∧ 2 * a_md.size ≤ a_text.length ∧ ¬ BeginsCreated a_md a_passwd a_text) := by
  have hsome := Base16.decode_isSome a_text
  rw [passwdVerifyBase16_eq]
  cases hdecode : Base16.decode a_text with
  | none =>
      have hnot : ¬ Spells a_text := by
        intro hspells
        rw [hdecode] at hsome
        exact absurd (hsome.mpr hspells) Bool.false_ne_true
      by_cases hdvd : 2 ∣ a_text.length
      · have hdigit : ∃ c ∈ a_text, ¬ Base16.IsDigit c := by
          by_contra hall
          push Not at hall
          exact hnot ⟨hdvd, hall⟩
        simp [hdvd, hnot, hdigit]
      · simp [hdvd, hnot]
  | some x =>
      have hspells : Spells a_text := hsome.mp (by rw [hdecode]; rfl)
      have hnone : ¬ ∃ c ∈ a_text, ¬ Base16.IsDigit c := fun ⟨c, hc, hnot⟩ => hnot (hspells.2 c hc)
      have hlen : a_text.length = 2 * x.length := by
        rw [← Base16.length_encode, Base16.encode_decode hdecode, List.length_map]
      obtain ⟨dg, hdg, -⟩ := hmd (x.take a_md.size ++ a_passwd)
      have htrue : passwdVerify a_passwd x a_md = .ok true ↔ BeginsCreated a_md a_passwd a_text :=
        (passwdVerify_true_iff hmd).trans (beginsCreated_iff hdecode)
      simp only
      rw [passwdVerify_eq hdg] at htrue ⊢
      by_cases hlt : x.length < a_md.size
      · have hshort : a_text.length < 2 * a_md.size := by omega
        rw [if_pos hlt] at htrue ⊢
        have hnot : ¬ BeginsCreated a_md a_passwd a_text := by
          intro hbegins
          cases htrue.mpr hbegins
        simp only [reduceCtorEq, Except.error.injEq, hspells.1, hnone, hspells, hshort, hnot, Nat.not_le.mpr hshort,
          not_true, and_true, and_false, false_and]
      · have hlong : 2 * a_md.size ≤ a_text.length := by omega
        rw [if_neg hlt] at htrue ⊢
        generalize decide ((x.drop a_md.size).take a_md.size = dg) = accepted at htrue ⊢
        cases accepted with
        | false =>
            have hnot : ¬ BeginsCreated a_md a_passwd a_text := by
              intro hbegins
              cases htrue.mpr hbegins
            simp [hspells.1, hnone, hspells, Nat.not_lt.mpr hlong, hlong, hnot]
        | true =>
            have hbegins := htrue.mp rfl
            simp [hspells.1, hnone, hspells, Nat.not_lt.mpr hlong, hbegins]

/-- The hash of `heslo` in capital letters, with two digits behind it. -/
def capitalHeslo : StringT :=
  (base16Encode (List.replicate 32 0 ++ sha256Heslo)).map (fun c => if 0x61 ≤ c then c - 0x20 else c) ++ [0x30, 0x30]

/-- One digit is an error; the capital letters are accepted, and so are the digits behind them. -/
theorem passwd_verify_base16_heslo :
    passwdVerifyBase16 [0x68, 0x65, 0x73, 0x6c, 0x6f] [0x30] mdHeslo = .error .invalidBase16DataSize ∧
    Spells capitalHeslo ∧ BeginsCreated mdHeslo [0x68, 0x65, 0x73, 0x6c, 0x6f] capitalHeslo :=
  ⟨(passwd_verify_base16_iff mdHeslo mdHeslo_works [0x68, 0x65, 0x73, 0x6c, 0x6f] [0x30]).1.mpr (by decide),
    (passwd_verify_base16_iff mdHeslo mdHeslo_works [0x68, 0x65, 0x73, 0x6c, 0x6f] capitalHeslo).2.2.2.1.mp
      (by decide +kernel)⟩

end Cclcrypto
end Cclib
