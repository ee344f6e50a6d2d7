import Cclib.Ccljson.Print

/-!
# `Ccljson.Rewrite` — what `create` makes of a parsed text

The text that `create` prints of a parsed text is described from the derivation of the latter alone:

- `keepFirst` leaves out of every object the pairs whose key came before;
- `hasNulEscape` tells whether a literal decodes to a string with a NUL in it;
- `writtenSize` is the number of bytes of the new text.

`writes_keepFirst` says that these are right.
-/

namespace Cclib
namespace Ccljson
open Cclvar

/-! ## Literals -/

/-- Between the quotes of a literal stands the escape of a NUL. -/
def hasNulEscape : StringT → Bool
  | [] => false
  | c :: rest =>
    if c = 92 then
      match rest with
      | [] => false
      | e :: rest =>
        if e = 117 then
          match rest with
          | d₁ :: d₂ :: d₃ :: d₄ :: rest =>
            decide (d₁ = 48 ∧ d₂ = 48 ∧ d₃ = 48 ∧ d₄ = 48) || hasNulEscape rest
          | _ => false
        else hasNulEscape rest
    else hasNulEscape rest

/-- The bytes `append_string` writes for a value of 16 bits. -/
def unicodeSize (value : Nat) : Nat :=
  if value ≤ 0x7f then (appendChar (UInt8.ofNat value)).length else if value ≤ 0x7ff then 2 else 3

/-- The bytes `append_string` writes for what stands between the quotes of a literal. -/
def rewrittenSize : StringT → Nat
  | [] => 0
  | c :: rest =>
    if c = 92 then
      match rest with
      | [] => 0
      | e :: rest =>
        if e = 117 then
          match rest with
          | d₁ :: d₂ :: d₃ :: d₄ :: rest =>
            unicodeSize ((unicodeValue [d₁, d₂, d₃, d₄]).getD 0) + rewrittenSize rest
          | _ => 0
        else 2 + rewrittenSize rest
    else (appendChar c).length + rewrittenSize rest

theorem hexDigit_lt {c : UInt8} {d : Nat} (h : hexDigit c = some d) : d < 16 ∧ (d = 0 ↔ c = 48) := by
  unfold hexDigit at h
  simp only [UInt8.le_iff_toNat_le, ← UInt8.toNat_inj] at h ⊢
  split_ifs at h with hdecimal hlower hupper
  all_goals
    cases h
    simp at *
    omega

/-- Four hexadecimal digits make a value of 16 bits, `0` when all are `0`. -/
theorem unicodeValue_lt {d₁ d₂ d₃ d₄ : UInt8} {value : Nat} (h : unicodeValue [d₁, d₂, d₃, d₄] = some value) :
    value < 0x10000 ∧ (value = 0 ↔ d₁ = 48 ∧ d₂ = 48 ∧ d₃ = 48 ∧ d₄ = 48) := by
  simp only [unicodeValue, List.foldlM_cons, List.foldlM_nil, Option.bind_eq_bind, Option.bind_eq_some_iff,
    Option.map_eq_some_iff, Option.pure_def, Option.some.injEq, Nat.shiftLeft_eq] at h
  obtain ⟨_, ⟨n₁, h₁, rfl⟩, _, ⟨n₂, h₂, rfl⟩, _, ⟨n₃, h₃, rfl⟩, _, ⟨n₄, h₄, rfl⟩, rfl⟩ := h
  obtain ⟨hlt₁, hz₁⟩ := hexDigit_lt h₁
  obtain ⟨hlt₂, hz₂⟩ := hexDigit_lt h₂
  obtain ⟨hlt₃, hz₃⟩ := hexDigit_lt h₃
  obtain ⟨hlt₄, hz₄⟩ := hexDigit_lt h₄
  rw [← hz₁, ← hz₂, ← hz₃, ← hz₄]
  omega

/-- A byte with its top bit set is written as it is. -/
theorem appendChar_high {n : Nat} (h : 0x80 ≤ n) (hn : n < 256) :
    appendChar (UInt8.ofNat n) = [UInt8.ofNat n] := by
  have hescapes : ∀ d ∈ ([8, 9, 10, 12, 13, 34, 92] : StringT), d < 0x80 := forall_mem_of_all (by decide)
  refine appendChar_self fun hmem => ?_
  have hlow := hescapes _ hmem
  simp [UInt8.lt_iff_toNat_lt] at hlow
  omega

/-- A continuation or leading byte of UTF-8. -/
theorem or_high {a b : Nat} (ha : 0x80 ≤ a) (ha' : a < 256) (hb : b < 256) : 0x80 ≤ a ||| b ∧ a ||| b < 256 :=
  ⟨ha.trans Nat.left_le_or, Nat.or_lt_two_pow (n := 8) ha' hb⟩

theorem appendString_utf8 {value : Nat} (h : value < 0x10000) :
    (appendString (utf8 value)).length = unicodeSize value ∧ (0 ∈ utf8 value ↔ value = 0) := by
  have hmask : ∀ x : Nat, x &&& 0x3f < 256 := fun x => lt_of_le_of_lt Nat.and_le_right (by decide)
  have hnul : ∀ n, 0x80 ≤ n → n < 256 → (0 : UInt8) ≠ UInt8.ofNat n := by
    intro n hle hlt heq
    have := congrArg UInt8.toNat heq
    rw [UInt8.toNat_ofNat'] at this
    change 0 = n % 256 at this
    omega
  unfold utf8 unicodeSize
  split_ifs with h₁ h₂
  -- one byte, the value itself
  · refine ⟨by simp [appendString], ?_⟩
    rw [List.mem_singleton]
    constructor
    · intro heq
      have := congrArg UInt8.toNat heq
      rw [UInt8.toNat_ofNat'] at this
      change 0 = value % 256 at this
      omega
    · rintro rfl
      rfl
  · have hshift : value >>> 6 < 256 := by
      rw [Nat.shiftRight_eq_div_pow]
      omega
    obtain ⟨ha, ha'⟩ := or_high (show 0x80 ≤ 0xc0 by decide) (by decide) hshift
    obtain ⟨hb, hb'⟩ := or_high (show 0x80 ≤ 0x80 by decide) (by decide) (hmask value)
    refine ⟨by simp only [appendString, List.flatMap_cons, List.flatMap_nil, appendChar_high ha ha',
      appendChar_high hb hb']; rfl, ?_⟩
    simp only [List.mem_cons, List.not_mem_nil, or_false, hnul _ ha ha', hnul _ hb hb', false_iff]
    omega
  · have hshift : value >>> 12 < 256 := by
      rw [Nat.shiftRight_eq_div_pow]
      omega
    obtain ⟨ha, ha'⟩ := or_high (show 0x80 ≤ 0xe0 by decide) (by decide) hshift
    obtain ⟨hb, hb'⟩ := or_high (show 0x80 ≤ 0x80 by decide) (by decide) (hmask (value >>> 6))
    obtain ⟨hc, hc'⟩ := or_high (show 0x80 ≤ 0x80 by decide) (by decide) (hmask value)
    refine ⟨by simp only [appendString, List.flatMap_cons, List.flatMap_nil, appendChar_high ha ha',
      appendChar_high hb hb', appendChar_high hc hc']; rfl, ?_⟩
    simp only [List.mem_cons, List.not_mem_nil, or_false, hnul _ ha ha', hnul _ hb hb', hnul _ hc hc', false_iff]
    omega

theorem unescape_special {e c : UInt8} (h : unescape e = some c) : (appendChar c).length = 2 ∧ c ≠ 0 := by
  unfold unescape at h
  split_ifs at h <;> cases h <;> decide

theorem appendString_append (s s' : StringT) : appendString (s ++ s') = appendString s ++ appendString s' :=
  List.flatMap_append

/-- **A decoded literal.** Its NULs come from escapes, and its size is known. -/
theorem decodeString_spec {body s : StringT} (hbody : 0 ∉ body) (h : decodeString body = .ok s) :
    (appendString s).length = rewrittenSize body ∧ (0 ∈ s ↔ hasNulEscape body = true) := by
  induction body using decodeString.induct generalizing s with
  | case1 =>
      cases h
      simp [appendString, rewrittenSize, hasNulEscape]
  | case2 => cases h
  | case3 d₁ d₂ d₃ d₄ rest value hvalue ih =>
      -- `\u` and four hexadecimal digits: up to three bytes, NUL for the value 0
      have hrest : 0 ∉ rest := fun hmem => hbody (by simp [hmem])
      rw [decodeString.eq_def] at h
      simp only [if_true, hvalue] at h
      obtain ⟨tail, htail, rfl⟩ := map_eq_ok.mp h
      obtain ⟨hsize, hnul⟩ := ih hrest htail
      obtain ⟨hlt, hzero⟩ := unicodeValue_lt hvalue
      obtain ⟨hutf8, hmem⟩ := appendString_utf8 hlt
      rw [appendString_append, List.length_append, hsize, hutf8, List.mem_append, hmem, hnul]
      simp [rewrittenSize, hasNulEscape, hvalue, hzero]
  | case4 d₁ d₂ d₃ d₄ rest hvalue =>
      rw [decodeString.eq_def] at h
      simp only [if_true, hvalue] at h
      cases h
  | case5 rest _ =>
      rw [decodeString.eq_def] at h
      simp only [if_true] at h
      cases h
  | case6 e rest he c hc ih =>
      -- a letter behind the backslash: one byte, which is escaped again
      have hrest : 0 ∉ rest := fun hmem => hbody (by simp [hmem])
      rw [decodeString.eq_def] at h
      simp only [if_true, if_neg he, hc] at h
      obtain ⟨tail, htail, rfl⟩ := map_eq_ok.mp h
      obtain ⟨hsize, hnul⟩ := ih hrest htail
      obtain ⟨hlength, hne⟩ := unescape_special hc
      rw [show c :: tail = [c] ++ tail from rfl, appendString_append, List.length_append, hsize,
        List.mem_append, hnul]
      rw [rewrittenSize.eq_def (92 :: e :: rest), hasNulEscape.eq_def (92 :: e :: rest)]
      simp only [if_true, if_neg he]
      refine ⟨by simp [appendString, hlength], ?_⟩
      simp [hne.symm]
  | case7 e rest he hnone =>
      rw [decodeString.eq_def] at h
      simp only [if_true, if_neg he, hnone] at h
      cases h
  | case8 c rest hc ih =>
      -- a byte as it is
      have hne : (0 : UInt8) ≠ c := fun heq => hbody (by simp [heq])
      have hrest : 0 ∉ rest := fun hmem => hbody (by simp [hmem])
      rw [decodeString.eq_def] at h
      simp only [if_neg hc] at h
      obtain ⟨tail, htail, rfl⟩ := map_eq_ok.mp h
      obtain ⟨hsize, hnul⟩ := ih hrest htail
      rw [show c :: tail = [c] ++ tail from rfl, appendString_append, List.length_append, hsize,
        List.mem_append, hnul]
      rw [rewrittenSize.eq_def (c :: rest), hasNulEscape.eq_def (c :: rest)]
      simp only [if_neg hc]
      refine ⟨by simp [appendString], ?_⟩
      simp [hne]

/-! ## The pairs that are kept -/

section Tree

variable (source : StringT)

/-- The string a key decodes to. -/
def keyString (k : Token) : Option StringT := (stringConst source k.start k.stop).toOption

mutual
/-- The tree without the pairs whose key came before in their object. -/
def keepFirst : JTree → JTree
  | .object ps => .object (keepPairs [] ps)
  | .array vs => .array (keepValues vs)
  | .string t => .string t
  | .integer t => .integer t
  | .float t => .float t
  | .true_ => .true_
  | .false_ => .false_
  | .null => .null

/-- The pairs whose key is not among the keys `seen` and did not come before. -/
def keepPairs (seen : List (Option StringT)) : List (Token × JTree) → List (Token × JTree)
  | [] => []
  | (k, t) :: ps =>
    if keyString source k ∈ seen then keepPairs seen ps
    else (k, keepFirst t) :: keepPairs (keyString source k :: seen) ps

def keepValues : List JTree → List JTree
  | [] => []
  | t :: vs => keepFirst t :: keepValues vs
end

/-- The bytes of a rewritten string. -/
def literalSize (t : Token) : Nat := 2 + rewrittenSize (stringBody source t.start t.stop)

mutual
/-- The bytes of a rewritten tree. -/
def writtenSize : JTree → Nat
  | .string t => literalSize source t
  | .integer t => (showInt (strtoll (source.drop t.start))).length
  | .float _ => 0
  | .true_ => 4
  | .false_ => 5
  | .null => 4
  | .object ps => 1 + max 1 (pairsSize ps)
  | .array vs => 1 + max 1 (valuesSize vs)

/-- Each pair with the brace or comma in front of it. -/
def pairsSize : List (Token × JTree) → Nat
  | [] => 0
  | (k, t) :: ps => (1 + literalSize source k + 1 + writtenSize t) + pairsSize ps

def valuesSize : List JTree → Nat
  | [] => 0
  | t :: vs => (1 + writtenSize t) + valuesSize vs
end

/-- A string token with the escape of a NUL. -/
def EscapesNul (t : Token) : Prop := hasNulEscape (stringBody source t.start t.stop) = true

end Tree

/-! ## The size of a printed value -/

variable {F : Type} {showFloat : F → StringT} {xs : List (VarC F)} {es : List (VarC F × VarC F)}
  {first : Bool} {ps : List Piece}

/-- The bytes `create` prints of a value. -/
def textSize (showFloat : F → StringT) (v : VarC F) : Nat :=
  match pieces showFloat v with
  | .ok ps => (render ps).length
  | .error _ => 0

theorem textSize_of_pieces {v : VarC F} (h : pieces showFloat v = .ok ps) :
    textSize showFloat v = (render ps).length := by
  rw [textSize, h]

theorem textSize_string (s : StringT) : textSize showFloat (.string s) = 2 + (appendString s).length := by
  rw [textSize_of_pieces (by rw [pieces]), render_stringPiece]
  simp only [render_nil, List.append_nil, List.length_cons, List.length_append, List.length_nil]
  omega

/-- Each element with the bracket or comma in front of it. -/
theorem elemPieces_size (h : elemPieces showFloat first xs = .ok ps) :
    (render ps).length + (if first = true ∧ xs ≠ [] then 1 else 0) =
      (xs.map (fun x => 1 + textSize showFloat x)).sum := by
  induction xs generalizing first ps with
  | nil =>
      cases h
      simp
  | cons x xs ih =>
      obtain ⟨px, qs, hpx, hqs, rfl⟩ := elemPieces_cons.mp h
      have htail := ih hqs
      simp only [Bool.false_eq_true, false_and, if_false, Nat.add_zero] at htail
      rw [List.map_cons, List.sum_cons, ← htail, textSize_of_pieces hpx]
      cases first <;> simp [comma, punct] <;> omega

/-- Each entry with the brace or comma in front of it. -/
theorem entryPieces_size (h : entryPieces showFloat first es = .ok ps) :
    (render ps).length + (if first = true ∧ es ≠ [] then 1 else 0) =
      (es.map (fun e => 1 + textSize showFloat e.1 + 1 + textSize showFloat e.2)).sum := by
  induction es generalizing first ps with
  | nil =>
      cases h
      simp
  | cons e es ih =>
      obtain ⟨s, pv, qs, hs, hpv, hqs, rfl⟩ := entryPieces_cons.mp h
      have htail := ih hqs
      simp only [Bool.false_eq_true, false_and, if_false, Nat.add_zero] at htail
      rw [List.map_cons, List.sum_cons, ← htail, textSize_of_pieces hpv, hs, textSize_string]
      cases first <;> simp [comma, punct, stringPiece, literal, appendString_eq] <;> omega

theorem textSize_array {ok : StringT → Prop} [LT F] [DecidableLT F] (h : Plain ok (.array xs)) :
    textSize showFloat (.array xs) = 1 + max 1 (xs.map (fun x => 1 + textSize showFloat x)).sum := by
  obtain ⟨ps, hps⟩ := h.pieces_defined showFloat
  obtain ⟨qs, hqs, rfl⟩ := pieces_array.mp hps
  have hsize := elemPieces_size hqs
  rw [textSize_of_pieces hps, ← hsize]
  cases xs with
  | nil =>
      cases hqs
      simp [punct]
  | cons x xs => simp [punct]; omega

theorem textSize_dict {ok : StringT → Prop} [LT F] [DecidableLT F] (h : Plain ok (.dict es)) :
    textSize showFloat (.dict es) =
      1 + max 1 (es.map (fun e => 1 + textSize showFloat e.1 + 1 + textSize showFloat e.2)).sum := by
  obtain ⟨ps, hps⟩ := h.pieces_defined showFloat
  obtain ⟨qs, hqs, rfl⟩ := pieces_dict.mp hps
  have hsize := entryPieces_size hqs
  rw [textSize_of_pieces hps, ← hsize]
  cases es with
  | nil =>
      cases hqs
      simp [punct]
  | cons e es => simp [punct]; omega

/-! ## The kept tree is what is printed -/

section Writes

variable [LT F] [DecidableLT F] {source : StringT}

/-- The value of a token's text, whose bytes are no NULs. -/
def CleanBody (source : StringT) (t : Token) : Prop := 0 ∉ stringBody source t.start t.stop

/-- `create` prints the value `v` as the tree says. -/
structure Writes (source : StringT) (showFloat : F → StringT) (t : JTree) (v : VarC F) : Prop where
  plain : Plain (fun _ => True) v
  size : textSize showFloat v = writtenSize source t
  nul : Plain (fun s => 0 ∉ s) v ↔ ∀ k ∈ t.tokens 0, ¬ EscapesNul source k
  /-- It has no lists. -/
  arrays : toArrays v = v

/-- A string token and its string. -/
structure WritesString (source : StringT) (k : Token) (s : StringT) : Prop where
  size : 2 + (appendString s).length = literalSize source k
  nul : 0 ∈ s ↔ EscapesNul source k

omit [LT F] [DecidableLT F] in
theorem writesString {k : Token} {s : StringT} (hk : CleanBody source k)
    (h : stringConst source k.start k.stop = .ok s) : WritesString source k s := by
  unfold stringConst at h
  split at h
  · cases h
  · obtain ⟨hsize, hnul⟩ := decodeString_spec hk h
    exact ⟨by rw [hsize, literalSize], hnul⟩

/-- A pair and its entry. -/
def WritesPair (source : StringT) (showFloat : F → StringT) (p : Token × JTree) (e : VarC F × VarC F) : Prop :=
  ∃ s, e.1 = .string s ∧ WritesString source p.1 s ∧ Writes source showFloat p.2 e.2

theorem pairs_plain {qs : List (Token × JTree)} (h : List.Forall₂ (WritesPair source showFloat) qs es) :
    ∀ e ∈ es, ((∃ s, e.1 = .string s ∧ True) ∧ Plain (fun _ => True) e.2) ∧
      (toArrays e.1, toArrays e.2) = e := by
  induction h with
  | nil => simp
  | @cons p e qs es hpair _ ih =>
      obtain ⟨s, hs, -, hvalue⟩ := hpair
      refine List.forall_mem_cons.mpr ⟨⟨⟨⟨s, hs, trivial⟩, hvalue.plain⟩, ?_⟩, ih⟩
      rw [hs, hvalue.arrays, toArrays, ← hs]

theorem values_plain {vs : List JTree} (h : List.Forall₂ (Writes source showFloat) vs xs) :
    ∀ x ∈ xs, Plain (fun _ => True) x ∧ toArrays x = x := by
  induction h with
  | nil => simp
  | cons hvalue _ ih => exact List.forall_mem_cons.mpr ⟨⟨hvalue.plain, hvalue.arrays⟩, ih⟩

/-- The sum over the pairs of an object is the sum over its entries. -/
theorem pairsSize_eq {qs : List (Token × JTree)} (h : List.Forall₂ (WritesPair source showFloat) qs es) :
    (es.map (fun e => 1 + textSize showFloat e.1 + 1 + textSize showFloat e.2)).sum = pairsSize source qs := by
  induction h with
  | nil => rfl
  | cons hpair _ ih =>
      obtain ⟨s, hs, hstring, hvalue⟩ := hpair
      rw [List.map_cons, List.sum_cons, ih, hs, textSize_string, hstring.size, hvalue.size, pairsSize]

theorem valuesSize_eq {vs : List JTree} (h : List.Forall₂ (Writes source showFloat) vs xs) :
    (xs.map (fun x => 1 + textSize showFloat x)).sum = valuesSize source vs := by
  induction h with
  | nil => rfl
  | cons hvalue _ ih => rw [List.map_cons, List.sum_cons, ih, hvalue.size, valuesSize]

/-- The entries of an object are free of NULs when the pairs have no escape of one. -/
theorem pairs_nul {qs : List (Token × JTree)} (h : List.Forall₂ (WritesPair source showFloat) qs es) :
    (∀ e ∈ es, (∃ s, e.1 = .string s ∧ 0 ∉ s) ∧ Plain (fun s => 0 ∉ s) e.2) ↔
      ∀ k ∈ pairsTokens 0 qs, ¬ EscapesNul source k := by
  induction h with
  | nil => simp [pairsTokens]
  | @cons p e qs es hpair _ ih =>
      obtain ⟨s, hs, hstring, hvalue⟩ := hpair
      have hkey : (∃ s, e.1 = .string s ∧ 0 ∉ s) ↔ ¬ EscapesNul source p.1 := by
        rw [← hstring.nul, hs]
        simp
      rw [List.forall_mem_cons, ih, hkey, hvalue.nul, pairsTokens]
      simp only [if_true, List.mem_append, or_imp, forall_and, List.forall_mem_singleton]

theorem values_nul {vs : List JTree} (h : List.Forall₂ (Writes source showFloat) vs xs) :
    (∀ x ∈ xs, Plain (fun s => 0 ∉ s) x) ↔ ∀ k ∈ valuesTokens 0 vs, ¬ EscapesNul source k := by
  induction h with
  | nil => simp [valuesTokens]
  | cons hvalue _ ih =>
      rw [List.forall_mem_cons, ih, hvalue.nul, valuesTokens]
      simp only [List.mem_append, or_imp, forall_and]

theorem plain_array_iff {ok : StringT → Prop} : Plain ok (.array xs) ↔ ∀ x ∈ xs, Plain ok x := by
  constructor
  · intro h
    cases h with
    | array h => exact h
  · exact Plain.array

theorem plain_dict_iff {ok : StringT → Prop} (hsorted : VarC.KeysSorted es) :
    Plain ok (.dict es) ↔ ∀ e ∈ es, (∃ s, e.1 = .string s ∧ ok s) ∧ Plain ok e.2 := by
  constructor
  · intro h
    cases h with
    | dict _ hkeys h => exact fun e he => ⟨hkeys e he, h e he⟩
  · intro h
    exact .dict hsorted (fun e he => (h e he).1) (fun e he => (h e he).2)

mutual
/-- **What `create` prints of the value of a tree** is what the kept tree says. -/
theorem writes_keepFirst : ∀ (t : JTree) (v : VarC F), (∀ k ∈ t.tokens 0, CleanBody source k) →
    treeValue source t = some v → Writes source showFloat (keepFirst source t) v
  | .string t, v, hclean, h => by
      obtain ⟨s, hs, rfl⟩ := Option.map_eq_some_iff.mp h
      obtain ⟨hsize, hnul⟩ := writesString (hclean t (by simp [JTree.tokens])) (toOption_eq_some hs)
      have hplain : Plain (fun _ => True) (.string s : VarC F) := .string trivial
      refine ⟨hplain, by rw [textSize_string, hsize, keepFirst, writtenSize], ?_, by rw [toArrays]⟩
      simp only [keepFirst, JTree.tokens, if_true, List.forall_mem_singleton, ← hnul]
      constructor
      · intro hplain
        cases hplain with
        | string hs => exact hs
      · intro hs
        exact .string hs
  | .integer t, v, _, h => by
      cases h
      refine ⟨.integer _, ?_, by simp [keepFirst, JTree.tokens, Plain.integer], by rw [toArrays]⟩
      rw [textSize_of_pieces (by rw [pieces])]
      simp [keepFirst, writtenSize]
  | .float t, v, _, h => by cases h
  | .true_, v, _, h => by
      cases h
      exact ⟨.bool _, rfl, by simp [keepFirst, JTree.tokens, Plain.bool], by rw [toArrays]⟩
  | .false_, v, _, h => by
      cases h
      exact ⟨.bool _, rfl, by simp [keepFirst, JTree.tokens, Plain.bool], by rw [toArrays]⟩
  | .null, v, _, h => by
      cases h
      exact ⟨.blank, rfl, by simp [keepFirst, JTree.tokens, Plain.blank], by rw [toArrays]⟩
  | .object ps, v, hclean, h => by
      obtain ⟨es, hes, rfl⟩ := Option.map_eq_some_iff.mp h
      obtain ⟨es', hpairs, hsorted, hperm⟩ := writes_keepPairs ps [] [] es hclean (by simp [VarC.StringKeys])
        List.Pairwise.nil (by simp) hes
      have hperm : (VarC.insertAll es).Perm es' := hperm
      have hsorted : VarC.KeysSorted (VarC.insertAll es) := hsorted
      have hplain : Plain (fun _ => True) (.dict (VarC.insertAll es)) := by
        refine (plain_dict_iff hsorted).mpr fun e he => ?_
        exact (pairs_plain hpairs e (hperm.mem_iff.mp he)).1
      refine ⟨hplain, ?_, ?_, ?_⟩
      · rw [textSize_dict hplain, (hperm.map _).sum_nat, pairsSize_eq hpairs, keepFirst, writtenSize]
      · rw [plain_dict_iff hsorted, keepFirst, JTree.tokens, ← pairs_nul hpairs]
        exact forall_congr' fun e => by rw [hperm.mem_iff]
      · rw [toArrays, entriesToArrays_eq]
        have hmap := List.map_congr_left fun e he => (pairs_plain hpairs e (hperm.mem_iff.mp he)).2
        rw [hmap, List.map_id']
  | .array vs, v, hclean, h => by
      obtain ⟨xs, hxs, rfl⟩ := Option.map_eq_some_iff.mp h
      have hvalues := writes_keepValues vs xs hclean hxs
      have hplain : Plain (fun _ => True) (.array xs) := .array fun x hx => (values_plain hvalues x hx).1
      refine ⟨hplain, ?_, ?_, ?_⟩
      · rw [textSize_array hplain, valuesSize_eq hvalues, keepFirst, writtenSize]
      · rw [plain_array_iff, keepFirst, JTree.tokens, ← values_nul hvalues]
      · rw [toArrays, elemsToArrays_eq]
        rw [List.map_congr_left fun x hx => (values_plain hvalues x hx).2, List.map_id']

theorem writes_keepPairs : ∀ (ps : List (Token × JTree)) (seen : List (Option StringT))
    (ds es : List (VarC F × VarC F)), (∀ k ∈ pairsTokens 0 ps, CleanBody source k) → VarC.StringKeys ds →
    VarC.KeysSorted ds → (∀ s, some s ∈ seen ↔ ∃ d ∈ ds, d.1 = .string s) → pairsValue source ps = some es →
    ∃ es', List.Forall₂ (WritesPair source showFloat) (keepPairs source seen ps) es' ∧
      VarC.KeysSorted (es.foldl (fun ds e => VarC.dictInsert e ds) ds) ∧
      (es.foldl (fun ds e => VarC.dictInsert e ds) ds).Perm (ds ++ es')
  | [], seen, ds, es, _, _, hsorted, _, h => by
      cases h
      exact ⟨[], .nil, hsorted, by simp⟩
  | (k, t) :: ps, seen, ds, es, hclean, hds, hsorted, hseen, h => by
      obtain ⟨s, hs, h⟩ := Option.bind_eq_some_iff.mp h
      obtain ⟨v, hv, h⟩ := Option.bind_eq_some_iff.mp h
      obtain ⟨es, hes, rfl⟩ := Option.map_eq_some_iff.mp h
      simp only [pairsTokens, if_true, List.mem_append, or_imp, forall_and, List.forall_mem_singleton] at hclean
      obtain ⟨⟨hk, ht⟩, hps⟩ := hclean
      rw [keepPairs, keyString, hs, List.foldl_cons]
      split_ifs with hmem
      -- a key that came before: neither side keeps the pair
      · rw [VarC.dictInsert_old rfl hds hsorted ((hseen s).mp hmem)]
        exact writes_keepPairs ps seen ds es hps hds hsorted hseen hes
      -- a new key: both sides keep the pair, and `seen` grows as `ds` does
      · have hnew : ∀ d ∈ ds, d.1 ≠ .string s := fun d hd heq => hmem ((hseen s).mpr ⟨d, hd, heq⟩)
        have hinsert := VarC.dictInsert_new (e := (.string s, v)) rfl hds hnew
        have hseen' : ∀ s', some s' ∈ some s :: seen ↔
            ∃ d ∈ VarC.dictInsert (.string s, v) ds, d.1 = .string s' := by
          intro s'
          have hmem' : ∀ d, d ∈ VarC.dictInsert (.string s, v) ds ↔ d = (.string s, v) ∨ d ∈ ds := by
            intro d
            rw [hinsert.mem_iff, List.mem_cons]
          simp only [List.mem_cons, hseen, hmem', or_and_right, exists_or, exists_eq_left,
            Option.some.injEq, VarC.string.injEq, eq_comm]
        obtain ⟨es', hpairs, hsorted', hperm⟩ := writes_keepPairs ps (some s :: seen)
          (VarC.dictInsert (.string s, v) ds) es hps (VarC.dictInsert_string rfl hds)
          (VarC.dictInsert_sorted rfl hds hsorted) hseen' hes
        refine ⟨(.string s, v) :: es', .cons ⟨s, rfl, writesString hk (toOption_eq_some hs), ?_⟩ hpairs,
          hsorted', ?_⟩
        · exact writes_keepFirst t v ht hv
        · exact hperm.trans ((hinsert.append_right es').trans List.perm_middle.symm)

theorem writes_keepValues : ∀ (vs : List JTree) (xs : List (VarC F)),
    (∀ k ∈ valuesTokens 0 vs, CleanBody source k) → valuesValue source vs = some xs →
    List.Forall₂ (Writes source showFloat) (keepValues source vs) xs
  | [], xs, _, h => by
      cases h
      exact .nil
  | t :: vs, xs, hclean, h => by
      obtain ⟨v, hv, h⟩ := Option.bind_eq_some_iff.mp h
      obtain ⟨xs, hxs, rfl⟩ := Option.map_eq_some_iff.mp h
      simp only [valuesTokens, List.mem_append, or_imp, forall_and] at hclean
      exact .cons (writes_keepFirst t v hclean.1 hv) (writes_keepValues vs xs hclean.2 hxs)
end

end Writes

end Ccljson
end Cclib
