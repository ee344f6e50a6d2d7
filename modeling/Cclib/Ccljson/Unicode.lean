import Cclib.Ccljson.Lexemes
import Cclib.Lib.Utf8

/-!
# `Ccljson.Unicode` — the Unicode of string tokens

`pa_json_string` copies the bytes of a string token, replaces the named escapes and makes UTF-8 of every `\u`
escape on its own. An escape that stands for a code point becomes the UTF-8 of it. A surrogate pair stands for
one code point, but becomes two sequences of three bytes.

- `utf8_scalar` — the bit operations make UTF-8.
- `itemsValue_of_denotes` — a literal becomes what it denotes, with two bytes more for every surrogate pair.
- `stop_of_wrapped` — a token that the cursor wraps in.
- `decodes_iff` — the tokens that become what they denote.
- `surrogates_apart` — one that does not.
-/

namespace Cclib
namespace Ccljson
open Cclvar

/-! ## What a literal denotes -/

/-- The number of a hexadecimal digit. -/
def hexNumber (d : UInt8) : Nat :=
  if d ≤ 0x39 then d.toNat - 0x30 else if d ≤ 0x46 then d.toNat - 0x41 + 10 else d.toNat - 0x61 + 10

/-- The UTF-16 code unit of a `\u` escape. -/
def codeUnit (d₁ d₂ d₃ d₄ : UInt8) : Nat :=
  hexNumber d₁ * 0x1000 + hexNumber d₂ * 0x100 + hexNumber d₃ * 0x10 + hexNumber d₄

def HighSurrogate (u : Nat) : Prop := 0xd800 ≤ u ∧ u ≤ 0xdbff

def LowSurrogate (u : Nat) : Prop := 0xdc00 ≤ u ∧ u ≤ 0xdfff

/-- The letters of the named escapes, and what they name. -/
def namedEscapes : List (UInt8 × UInt8) :=
  [(0x22, 0x22), (0x5c, 0x5c), (0x62, 0x08), (0x66, 0x0c), (0x6e, 0x0a), (0x72, 0x0d), (0x74, 0x09)]

/-- The text that a literal denotes. Its `\u` escapes are well-formed UTF-16: a code unit is a code point, or a
    high surrogate that the escape of a low one follows. -/
inductive Denotes : List Item → StringT → Prop
  | nil : Denotes [] []
  | raw {c : UInt8} {items : List Item} {s : StringT} (h : Denotes items s) : Denotes (.raw c :: items) (c :: s)
  | named {e c : UInt8} {items : List Item} {s : StringT} (he : (e, c) ∈ namedEscapes) (h : Denotes items s) :
      Denotes (.esc e :: items) (c :: s)
  | scalar {d₁ d₂ d₃ d₄ : UInt8} {c : Char} {items : List Item} {s : StringT} (hc : c.toNat = codeUnit d₁ d₂ d₃ d₄)
      (h : Denotes items s) : Denotes (.unicode d₁ d₂ d₃ d₄ :: items) (String.utf8EncodeChar c ++ s)
  | pair {d₁ d₂ d₃ d₄ e₁ e₂ e₃ e₄ : UInt8} {c : Char} {items : List Item} {s : StringT}
      (hhigh : HighSurrogate (codeUnit d₁ d₂ d₃ d₄)) (hlow : LowSurrogate (codeUnit e₁ e₂ e₃ e₄))
      (hc : c.toNat = 0x10000 + (codeUnit d₁ d₂ d₃ d₄ - 0xd800) * 0x400 + (codeUnit e₁ e₂ e₃ e₄ - 0xdc00))
      (h : Denotes items s) :
      Denotes (.unicode d₁ d₂ d₃ d₄ :: .unicode e₁ e₂ e₃ e₄ :: items) (String.utf8EncodeChar c ++ s)

/-- An escape of half a surrogate pair. -/
def Item.Surrogate : Item → Prop
  | .unicode d₁ d₂ d₃ d₄ => HighSurrogate (codeUnit d₁ d₂ d₃ d₄) ∨ LowSurrogate (codeUnit d₁ d₂ d₃ d₄)
  | _ => False

/-! ## UTF-8 -/

/-- **The bit operations make UTF-8.** -/
theorem utf8_scalar {c : Char} (h : c.toNat < 0x10000) : utf8 c.toNat = String.utf8EncodeChar c := by
  have hmark : ∀ m : Nat, (m = 0x80 ∨ m = 0xc0 ∨ m = 0xe0) → ∀ n < (if m = 0x80 then 64 else if m = 0xc0 then 32 else 16),
      m ||| n = n + m := by
    rintro m (rfl | rfl | rfl) <;> decide +kernel
  have hlow : ∀ n : Nat, 0x80 ||| (n &&& 0x3f) = n % 64 + 0x80 := by
    intro n
    rw [show (0x3f : Nat) = 2 ^ 6 - 1 by rfl, Nat.and_two_pow_sub_one_eq_mod]
    exact hmark 0x80 (Or.inl rfl) _ (Nat.mod_lt n (by decide))
  have hval : c.val.toNat = c.toNat := rfl
  rw [utf8, String.utf8EncodeChar]
  simp only [hval]
  split_ifs with h₁ h₂ h₃
  · rfl
  · have hhigh : 0xc0 ||| c.toNat >>> 6 = c.toNat / 64 % 0x20 + 0xc0 := by
      rw [Nat.shiftRight_eq_div_pow, show 2 ^ 6 = 64 by rfl, hmark 0xc0 (Or.inr (Or.inl rfl)) _ (by simp; omega),
        Nat.mod_eq_of_lt (by omega)]
    rw [hhigh, hlow]
  · have hhigh : 0xe0 ||| c.toNat >>> 12 = c.toNat / 4096 % 0x10 + 0xe0 := by
      rw [Nat.shiftRight_eq_div_pow, show 2 ^ 12 = 4096 by rfl, hmark 0xe0 (Or.inr (Or.inr rfl)) _ (by simp; omega),
        Nat.mod_eq_of_lt (by omega)]
    rw [hhigh, hlow, hlow, Nat.shiftRight_eq_div_pow]
  · omega

theorem utf8_length {value : Nat} (h : 0x800 ≤ value) : (utf8 value).length = 3 := by
  rw [utf8, if_neg (by omega), if_neg (by omega)]
  rfl

/-- A character is no surrogate. -/
theorem char_not_surrogate (c : Char) : ¬ (HighSurrogate c.toNat ∨ LowSurrogate c.toNat) := by
  have hvalid : c.toNat < 0xd800 ∨ 0xdfff < c.toNat ∧ c.toNat < 0x110000 := c.valid
  unfold HighSurrogate LowSurrogate
  omega

/-! ## What a literal becomes -/

theorem hexDigit_eq {d : UInt8} (h : (hexDigit d).isSome = true) : hexDigit d = some (hexNumber d) ∧ hexNumber d < 16 := by
  have hall : ∀ d : UInt8, (hexDigit d).isSome = true → hexDigit d = some (hexNumber d) ∧ hexNumber d < 16 :=
    forall_byte (by decide +kernel)
  exact hall d h

/-- The value of a `\u` escape is its code unit. -/
theorem unicodeValue_eq {d₁ d₂ d₃ d₄ : UInt8} (h : (Item.unicode d₁ d₂ d₃ d₄).Lexes) :
    unicodeValue [d₁, d₂, d₃, d₄] = some (codeUnit d₁ d₂ d₃ d₄) ∧ codeUnit d₁ d₂ d₃ d₄ < 0x10000 := by
  obtain ⟨h₁, hlt₁⟩ := hexDigit_eq (h d₁ (by simp))
  obtain ⟨h₂, hlt₂⟩ := hexDigit_eq (h d₂ (by simp))
  obtain ⟨h₃, hlt₃⟩ := hexDigit_eq (h d₃ (by simp))
  obtain ⟨h₄, hlt₄⟩ := hexDigit_eq (h d₄ (by simp))
  constructor
  · simp only [unicodeValue, List.foldlM_cons, List.foldlM_nil, h₁, h₂, h₃, h₄, Option.map_some, Option.bind_eq_bind,
      Option.bind_some, Nat.shiftLeft_eq, Option.pure_def, Option.some.injEq, codeUnit]
    omega
  · unfold codeUnit
    omega

theorem value_unicode {d₁ d₂ d₃ d₄ : UInt8} (h : (Item.unicode d₁ d₂ d₃ d₄).Lexes) :
    (Item.unicode d₁ d₂ d₃ d₄).value = some (utf8 (codeUnit d₁ d₂ d₃ d₄)) := by
  rw [Item.value, (unicodeValue_eq h).1]
  rfl

/-- The `switch` knows the named escapes. -/
theorem value_named {e c : UInt8} (h : (e, c) ∈ namedEscapes) : (Item.esc e).value = some [c] := by
  have hall : namedEscapes.all (fun p => decide (unescape p.1 = some p.2)) = true := by decide
  have hone : unescape e = some c := of_decide_eq_true (List.all_eq_true.mp hall (e, c) h)
  rw [Item.value, hone]
  rfl

/-- An escape of a code point becomes the UTF-8 of it. -/
theorem value_scalar {d₁ d₂ d₃ d₄ : UInt8} {c : Char} (h : (Item.unicode d₁ d₂ d₃ d₄).Lexes)
    (hc : c.toNat = codeUnit d₁ d₂ d₃ d₄) :
    (Item.unicode d₁ d₂ d₃ d₄).value = some (String.utf8EncodeChar c) ∧ ¬ (Item.unicode d₁ d₂ d₃ d₄).Surrogate := by
  have hlt := (unicodeValue_eq h).2
  rw [← hc] at hlt
  constructor
  · rw [value_unicode h, ← hc, utf8_scalar hlt]
  · rw [Item.Surrogate, ← hc]
    exact char_not_surrogate c

/-- A surrogate becomes three bytes. -/
theorem value_surrogate {d₁ d₂ d₃ d₄ : UInt8} (h : (Item.unicode d₁ d₂ d₃ d₄).Lexes)
    (hsurrogate : (Item.unicode d₁ d₂ d₃ d₄).Surrogate) :
    ∃ v, (Item.unicode d₁ d₂ d₃ d₄).value = some v ∧ v.length = 3 := by
  refine ⟨_, value_unicode h, utf8_length ?_⟩
  rcases hsurrogate with hhigh | hlow
  · exact Nat.le_trans (by decide) hhigh.1
  · exact Nat.le_trans (by decide) hlow.1

theorem itemsValue_cons {item : Item} {items : List Item} {v t : StringT} (hv : item.value = some v)
    (ht : itemsValue items = some t) : itemsValue (item :: items) = some (v ++ t) := by
  rw [itemsValue, hv, ht]
  rfl

/-- **A literal becomes what it denotes**, but for its `n` surrogate pairs, which become two bytes more than
    they should. -/
theorem itemsValue_of_denotes {items : List Item} {s : StringT} (hlex : ∀ item ∈ items, item.Lexes)
    (h : Denotes items s) : ∃ t n, itemsValue items = some t ∧ t.length = s.length + 2 * n ∧ (n = 0 → t = s) ∧
      (n = 0 ↔ ∀ item ∈ items, ¬ item.Surrogate) := by
  induction h with
  | nil => exact ⟨[], 0, rfl, rfl, fun _ => rfl, by simp⟩
  | @raw c items s h ih =>
      obtain ⟨hitem, hitems⟩ := List.forall_mem_cons.mp hlex
      obtain ⟨t, n, ht, hlen, hsame, hnone⟩ := ih hitems
      refine ⟨c :: t, n, itemsValue_cons (show (Item.raw c).value = some [c] from rfl) ht, ?_, ?_, ?_⟩
      · simp only [List.length_cons, hlen]
        omega
      · exact fun hn => congrArg (c :: ·) (hsame hn)
      · rw [List.forall_mem_cons, hnone]
        simp [Item.Surrogate]
  | @named e c items s he h ih =>
      obtain ⟨hitem, hitems⟩ := List.forall_mem_cons.mp hlex
      obtain ⟨t, n, ht, hlen, hsame, hnone⟩ := ih hitems
      refine ⟨c :: t, n, itemsValue_cons (value_named he) ht, ?_, ?_, ?_⟩
      · simp only [List.length_cons, hlen]
        omega
      · exact fun hn => congrArg (c :: ·) (hsame hn)
      · rw [List.forall_mem_cons, hnone]
        simp [Item.Surrogate]
  | @scalar d₁ d₂ d₃ d₄ c items s hc h ih =>
      obtain ⟨hitem, hitems⟩ := List.forall_mem_cons.mp hlex
      obtain ⟨t, n, ht, hlen, hsame, hnone⟩ := ih hitems
      obtain ⟨hvalue, hscalar⟩ := value_scalar hitem hc
      refine ⟨String.utf8EncodeChar c ++ t, n, itemsValue_cons hvalue ht, ?_, ?_, ?_⟩
      · simp only [List.length_append, hlen]
        omega
      · exact fun hn => congrArg (String.utf8EncodeChar c ++ ·) (hsame hn)
      · rw [List.forall_mem_cons, hnone]
        exact (and_iff_right hscalar).symm
  | @pair d₁ d₂ d₃ d₄ e₁ e₂ e₃ e₄ c items s hhigh hlow hc h ih =>
      obtain ⟨hfirst, hlex⟩ := List.forall_mem_cons.mp hlex
      obtain ⟨hsecond, hitems⟩ := List.forall_mem_cons.mp hlex
      obtain ⟨t, n, ht, hlen, -⟩ := ih hitems
      obtain ⟨v, hv, hvlen⟩ := value_surrogate hfirst (Or.inl hhigh)
      obtain ⟨w, hw, hwlen⟩ := value_surrogate hsecond (Or.inr hlow)
      refine ⟨v ++ (w ++ t), n + 1, itemsValue_cons hv (itemsValue_cons hw ht), ?_, ?_, ?_⟩
      · -- six bytes for the four of the code point
        have hfour : (String.utf8EncodeChar c).length = 4 := Utf8.encodeChar_length (by omega)
        simp only [List.length_append, hvlen, hwlen, hfour, hlen]
        omega
      · intro hn
        omega
      · constructor
        · intro hn
          omega
        · intro hnone
          exact absurd (Or.inl hhigh) (List.forall_mem_cons.mp hnone).1

/-! ## Tokens -/

/-- From `i` to `j` the cursor moves over a literal of these items. -/
structure LiteralAt (source : StringT) (i n j : Nat) (items : List Item) : Prop where
  walks : Walks source i n j
  text_eq : walked source i n = literal items
  lexes : ∀ item ∈ items, item.Lexes

section Tokens

variable {source s : StringT} {i j n fuel : Nat} {state state' : LexState} {items : List Item}

theorem walked_add (m n : Nat) (hi : i < c_uint32_range) :
    walked source i (m + n) = walked source i m ++ walked source ((i + m) % c_uint32_range) n := by
  induction m generalizing i with
  | zero => rw [Nat.zero_add, Nat.add_zero, Nat.mod_eq_of_lt hi, walked, List.nil_append]
  | succ m ih =>
      rw [show m + 1 + n = (m + n) + 1 by omega, walked, walked, ih (Nat.mod_lt _ (by decide)), Nat.mod_add_mod,
        show i + 1 + m = i + (m + 1) by omega, List.cons_append]

theorem walked_length (i n : Nat) : (walked source i n).length = n := by
  induction n generalizing i with
  | zero => rfl
  | succ n ih => rw [walked, List.length_cons, ih]

/-- A quote leads into a string, or out of it. -/
theorem goto_quote (h : lexGoto state (34 : UInt8).toNat = .inl state') : state' = .state2 ∨ state' = .state16 := by
  have hall : ∀ state : LexState, lexGoto state (34 : UInt8).toNat = .inl .state2 ∨
      lexGoto state (34 : UInt8).toNat = .inl .state16 ∨ lexGoto state (34 : UInt8).toNat = .inr (lexTerminal state) := by
    intro state
    cases state <;> decide +kernel
  rcases hall state with h' | h' | h'
  · rw [h'] at h
    exact Or.inl (Sum.inl.inj h).symm
  · rw [h'] at h
    exact Or.inr (Sum.inl.inj h).symm
  · rw [h'] at h
    cases h

/-- Nothing goes on from the end of a string. -/
theorem scan_state16 {w : StringT} (h : scan .state16 w = some state) : w = [] := by
  cases w with
  | nil => rfl
  | cons c w =>
      have hout : lexGoto .state16 c.toNat = .inr (some 0) := rfl
      rw [scan, hout] at h
      cases h

theorem LiteralAt.scanned (h : LiteralAt source i n j items) :
    scan .state0 (walked source i n) = some .state16 := by
  obtain ⟨state, hscan, hterm⟩ := (lexeme_literal h.lexes).scanned
  have hstate : state = .state16 := by
    cases state <;> first | rfl | cases hterm
  rw [h.text_eq, hscan, hstate]

/-- **A token that the cursor wraps in** ends before it starts, or with its first character: when the cursor is
    at the first character again, what follows reads as it did before. -/
theorem LiteralAt.stop_of_wrapped (h : LiteralAt source i n j items) (hi : i < c_uint32_range)
    (hwrap : c_uint32_range ≤ i + n) : j < i + 2 := by
  by_contra hge
  have hj := h.walks.1
  have hn : c_uint32_range + 2 ≤ n := by
    unfold c_uint32_range at *
    omega
  obtain ⟨m, rfl⟩ : ∃ m, n = c_uint32_range + (m + 2) := ⟨n - (c_uint32_range + 2), by omega⟩
  -- the text is a round of the cursor and then `w`, with which it starts, too
  have hround : walked source i (c_uint32_range + (m + 2)) = walked source i c_uint32_range ++ walked source i (m + 2) := by
    rw [walked_add _ _ hi, Nat.add_mod_right, Nat.mod_eq_of_lt hi]
  have hstart : walked source i (c_uint32_range + (m + 2)) =
      walked source i (m + 2) ++ walked source ((i + (m + 2)) % c_uint32_range) c_uint32_range := by
    rw [Nat.add_comm, walked_add _ _ hi]
  obtain ⟨w, hw, hwlen⟩ : ∃ w, walked source i (m + 2) = 34 :: w ∧ w.length = m + 1 := by
    have htext := h.text_eq
    rw [hstart, walked, literal, List.cons_append] at htext
    exact ⟨_, by rw [walked, (List.cons.inj htext).1], walked_length _ _⟩
  have hscan := h.scanned
  have hscan' := h.scanned
  rw [hround, hw, scan_append] at hscan
  rw [hstart, hw, scan_append] at hscan'
  -- the second time the quote stands in a string and does not end it
  obtain ⟨state₁, -, hscan⟩ := Option.bind_eq_some_iff.mp hscan
  have hin : scan .state2 w = some .state16 := by
    rw [scan] at hscan
    cases hgoto : lexGoto state₁ (34 : UInt8).toNat with
    | inl state₂ =>
        rw [hgoto] at hscan
        rcases goto_quote hgoto with rfl | rfl
        · exact hscan
        · rw [scan_state16 hscan] at hwlen
          cases hwlen
    | inr term =>
        rw [hgoto] at hscan
        cases hscan
  -- so the first time the token has ended before
  have hfirst : scan .state0 (34 :: w) = some .state16 := hin
  rw [hfirst, Option.bind_some] at hscan'
  have hlen := congrArg List.length (scan_state16 hscan')
  rw [walked_length] at hlen
  cases hlen

/-- A string token is a literal. -/
theorem literalAt_of_recognize (hi : i < c_uint32_range) (h : recognizeTerminal fuel source i = some (some 0, j)) :
    ∃ n items, LiteralAt source i n j items := by
  rcases recognized_walked hi h with ⟨hend, -⟩ | ⟨n, state, hwalks, hscan, hterm, -⟩
  · cases hend
  · have hnul := hwalks.no_nul hi
    obtain ⟨items, hlex, htext⟩ := literal_of_text hterm (scan_text hscan hnul)
    exact ⟨n + 1, items, hwalks, htext, hlex⟩

/-- The string of a literal. -/
theorem LiteralAt.stringConst_iff (h : LiteralAt source i n j items) (hi : i < c_uint32_range) :
    stringConst source i j = .ok s ↔ i + n < c_uint32_range ∧ itemsValue items = some s := by
  rcases Nat.lt_or_ge (i + n) c_uint32_range with hlt | hge
  · obtain ⟨rfl, hlen, hdrop⟩ := h.walks.text hlt
    rw [h.text_eq] at hlen hdrop
    rw [← hlen, stringConst_literal h.lexes hdrop, hlen]
    cases itemsValue items <;> simp [hlt]
  · have hstop := h.stop_of_wrapped hi hge
    rw [stringConst, if_pos hstop]
    constructor
    · intro herror
      cases herror
    · rintro ⟨hlt, -⟩
      omega

variable {F : Type}

/-- What the action pushes is the string that the loop makes. -/
theorem leafString_iff {c : Caches F} (hc : c.Ok) {start stop : Nat} :
    (∃ c', leafString source c start stop = .ok (.string s, c')) ↔ stringConst source start stop = .ok s := by
  constructor
  · rintro ⟨c', h⟩
    obtain ⟨str, hstr, heq, -⟩ := leafString_ok hc h
    cases heq
    exact hstr
  · intro hs
    obtain ⟨r, hr⟩ : ∃ r, leafString source c start stop = .ok r := by
      rw [leafString, hs]
      exact ⟨_, rfl⟩
    obtain ⟨str, hstr, heq, -⟩ := leafString_ok hc (show leafString source c start stop = .ok (r.1, r.2) from hr)
    rw [hs] at hstr
    cases hstr
    exact ⟨r.2, by rw [hr, ← heq]⟩

/-- **The tokens that become what they denote.** A string token is a literal, and where its `\u` escapes are
    well-formed UTF-16, the action pushes the text it denotes exactly when none of them is a surrogate and the
    cursor does not wrap in it. -/
theorem decodes_iff {c : Caches F} (hc : c.Ok) (hi : i < c_uint32_range)
    (h : recognizeTerminal fuel source i = some (some 0, j)) :
    (∃ n items, LiteralAt source i n j items) ∧
      ∀ n items s, LiteralAt source i n j items → Denotes items s →
        ((∃ c', leafString source c i j = .ok (.string s, c')) ↔
          i + n < c_uint32_range ∧ ∀ item ∈ items, ¬ item.Surrogate) := by
  refine ⟨literalAt_of_recognize hi h, ?_⟩
  intro n items s hat hdenotes
  obtain ⟨t, k, ht, hlen, hsame, hnone⟩ := itemsValue_of_denotes hat.lexes hdenotes
  rw [leafString_iff hc, hat.stringConst_iff hi, ht, Option.some.injEq, ← hnone]
  refine and_congr_right fun _ => ⟨?_, hsame⟩
  rintro rfl
  omega

/-- The theorem for an accented letter, `"\u00e9"`. -/
theorem decodes_iff_letter : ∃ c', leafString [0x22, 0x5c, 0x75, 0x30, 0x30, 0x65, 0x39, 0x22]
    (Caches.empty : Caches Int) 0 8 = .ok (.string [0xc3, 0xa9], c') := by
  have hat : LiteralAt [0x22, 0x5c, 0x75, 0x30, 0x30, 0x65, 0x39, 0x22] 0 8 8 [.unicode 0x30 0x30 0x65 0x39] :=
    ⟨⟨rfl, by decide⟩, rfl, List.forall_mem_singleton.mpr (forall_mem_of_all (by decide))⟩
  have hdenotes : Denotes [.unicode 0x30 0x30 0x65 0x39] (String.utf8EncodeChar (Char.ofNat 0xe9) ++ []) :=
    .scalar rfl .nil
  have hrec : recognizeTerminal 8 [0x22, 0x5c, 0x75, 0x30, 0x30, 0x65, 0x39, 0x22] 0 = some (some 0, 8) := rfl
  refine ((decodes_iff Caches.ok_empty (by decide) hrec).2 8 _ _ hat hdenotes).mpr ⟨by decide, ?_⟩
  refine List.forall_mem_singleton.mpr ?_
  rw [Item.Surrogate, HighSurrogate, LowSurrogate]
  decide

/-- **A surrogate pair is taken apart.** `"\ud83d\ude00"` denotes one character of four bytes, and six bytes
    are pushed. -/
theorem surrogates_apart :
    let source : StringT := [0x22, 0x5c, 0x75, 0x64, 0x38, 0x33, 0x64, 0x5c, 0x75, 0x64, 0x65, 0x30, 0x30, 0x22]
    let items : List Item := [.unicode 0x64 0x38 0x33 0x64, .unicode 0x64 0x65 0x30 0x30]
    recognizeTerminal 14 source 0 = some (some 0, 14) ∧ LiteralAt source 0 14 14 items ∧
      Denotes items [0xf0, 0x9f, 0x98, 0x80] ∧
      ∃ c', leafString source (Caches.empty : Caches Int) 0 14 =
        .ok (.string [0xed, 0xa0, 0xbd, 0xed, 0xb8, 0x80], c') := by
  refine ⟨rfl, ⟨⟨rfl, by decide⟩, rfl, ?_⟩, ?_, ⟨_, rfl⟩⟩
  · refine List.forall_mem_cons.mpr ⟨forall_mem_of_all (by decide), ?_⟩
    exact List.forall_mem_singleton.mpr (forall_mem_of_all (by decide))
  · have hpair : Denotes [.unicode 0x64 0x38 0x33 0x64, .unicode 0x64 0x65 0x30 0x30]
        (String.utf8EncodeChar (Char.ofNat 0x1f600) ++ []) := by
      refine .pair ?_ ?_ rfl .nil
      · exact ⟨by decide, by decide⟩
      · exact ⟨by decide, by decide⟩
    exact hpair

end Tokens

end Ccljson
end Cclib
