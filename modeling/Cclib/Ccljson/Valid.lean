import Cclib.Ccljson.Nice
import Cclib.Ccljson.Rfc

/-!
# `Ccljson.Valid` — what `create` and `create_nice` print is JSON

The printed text against the grammar of RFC 8259, on its ASCII structure: every byte from 0x80 on counts as
a character that needs no escape (`ascii`). Both printers print `nicePieces`, so one induction on values
serves both.

- `emits_json_iff` — the text of a value without floats is a text of the RFC exactly when no string in it,
  keys included, has a byte below 0x20 other than the five that `append_string` knows an escape for.
-/

namespace Cclib
namespace Ccljson
open Cclvar

/-! ## JSON texts -/

/-- `JSON-text = ws value ws` -/
inductive JsonText : StringT → Prop
  | mk {w v w' : StringT} (hw : Ws w) (hv : RfcValue v) (hw' : Ws w') : JsonText (w ++ v ++ w')

/-- A byte as a reader sees it that takes every byte of a multi-byte character for an ordinary one. -/
def asciiByte (c : UInt8) : UInt8 := if c < 0x80 then c else 0x3f

def ascii (s : StringT) : StringT := s.map asciiByte

/-- `x` stands somewhere in a value, as a key, an element or the value itself. -/
inductive Has {F : Type} (x : VarC F) : VarC F → Prop
  | self : Has x x
  | array {xs : List (VarC F)} {y : VarC F} (hy : y ∈ xs) (h : Has x y) : Has x (.array xs)
  | set {xs : List (VarC F)} {y : VarC F} (hy : y ∈ xs) (h : Has x y) : Has x (.set xs)
  | list {xs : List (VarC F)} {y : VarC F} (hy : y ∈ xs) (h : Has x y) : Has x (.list xs)
  | key {es : List (VarC F × VarC F)} {e : VarC F × VarC F} (he : e ∈ es) (h : Has x e.1) : Has x (.dict es)
  | value {es : List (VarC F × VarC F)} {e : VarC F × VarC F} (he : e ∈ es) (h : Has x e.2) : Has x (.dict es)

/-- No float stands in the value. -/
def FloatFree {F : Type} (v : VarC F) : Prop := ∀ f, ¬ Has (.float f) v

/-- A byte that JSON allows in a string, or that `append_string` escapes. -/
def Escapable (c : UInt8) : Prop := 0x20 ≤ c ∨ c ∈ ([8, 9, 10, 12, 13] : StringT)

/-- Every byte of every string in the value is one of these. -/
def Clean {F : Type} (v : VarC F) : Prop := ∀ s, Has (.string s) v → ∀ c ∈ s, Escapable c

/-- The text is JSON, and no literal in it holds a raw byte below 0x20. -/
structure EmitsJson {F : Type} (v : VarC F) (text : StringT) : Prop where
  json : JsonText (ascii text)
  literals : ∀ s, Has (.string s) v → ∀ c ∈ appendString s, 0x20 ≤ c

/-! ## The bytes of a JSON text -/

/-- The bytes that can stand in a JSON text. -/
def Printable (c : UInt8) : Prop := 0x20 ≤ c ∨ c = 0x09 ∨ c = 0x0a ∨ c = 0x0d

instance (c : UInt8) : Decidable (Printable c) := inferInstanceAs (Decidable (_ ∨ _))
instance (c : UInt8) : Decidable (Escapable c) := inferInstanceAs (Decidable (_ ∨ _))

theorem ws_printable {w : StringT} (h : Ws w) : ∀ c ∈ w, Printable c := by
  intro c hc
  rcases h c hc with rfl | rfl | rfl | rfl <;> decide

theorem structural_printable {c : UInt8} {s : StringT} (hc : Printable c) (h : Structural c s) :
    ∀ d ∈ s, Printable d := by
  obtain ⟨w, w', hw, hw', rfl⟩ := h
  exact List.forall_mem_append.mpr ⟨ws_printable hw, List.forall_mem_cons.mpr ⟨hc, ws_printable hw'⟩⟩

theorem number_printable {s : StringT} (h : RfcNumber s) : ∀ c ∈ s, Printable c ∧ c < 0x80 := by
  have hmarks : ∀ c ∈ ([0x2d, 0x2b, 0x2e, 0x65, 0x45] : StringT), Printable c ∧ c < 0x80 :=
    forall_mem_of_all (by decide)
  intro c hc
  rcases rfcNumber_chars h c hc with hdigit | hmark
  · exact ⟨Or.inl (UInt8.le_trans (by decide) hdigit.1), UInt8.lt_of_le_of_lt hdigit.2 (by decide)⟩
  · exact hmarks c hmark

theorem char_printable {s : StringT} (h : RfcChar s) : ∀ c ∈ s, Printable c := by
  have hhex : ∀ d : UInt8, HexDigit d → Printable d := by
    rintro d (h | h | h) <;> exact Or.inl (UInt8.le_trans (by decide) h.1)
  have hhigh : ∀ {a b : UInt8}, 0x20 ≤ a → a ≤ b → Printable b := fun ha hb => Or.inl (UInt8.le_trans ha hb)
  cases h with
  | unescaped h =>
      cases h with
      | one ha _ _ => exact List.forall_mem_singleton.mpr (Or.inl ha.1)
      | two ha hb =>
          simp only [List.forall_mem_cons, List.not_mem_nil, false_imp_iff, implies_true, and_true]
          exact ⟨hhigh (by decide) ha.1, hhigh (by decide) hb.1⟩
      | three ha hb hc _ _ =>
          simp only [List.forall_mem_cons, List.not_mem_nil, false_imp_iff, implies_true, and_true]
          exact ⟨hhigh (by decide) ha.1, hhigh (by decide) hb.1, hhigh (by decide) hc.1⟩
      | four ha hb hc hd _ _ =>
          simp only [List.forall_mem_cons, List.not_mem_nil, false_imp_iff, implies_true, and_true]
          exact ⟨hhigh (by decide) ha.1, hhigh (by decide) hb.1, hhigh (by decide) hc.1, hhigh (by decide) hd.1⟩
  | unicode h₁ h₂ h₃ h₄ =>
      simp only [List.forall_mem_cons, List.not_mem_nil, false_imp_iff, implies_true, and_true]
      exact ⟨by decide, by decide, hhex _ h₁, hhex _ h₂, hhex _ h₃, hhex _ h₄⟩
  | _ => exact forall_mem_of_all (by decide)

theorem string_printable {s : StringT} (h : RfcString s) : ∀ c ∈ s, Printable c := by
  obtain ⟨h⟩ := h
  refine List.forall_mem_cons.mpr ⟨by decide, List.forall_mem_append.mpr ⟨?_, forall_mem_of_all (by decide)⟩⟩
  intro c hc
  obtain ⟨cs, hcs, hmem⟩ := List.mem_flatten.mp hc
  exact char_printable (h cs hcs) c hmem

mutual
theorem value_printable {s : StringT} : RfcValue s → ∀ c ∈ s, Printable c
  | .false_ => forall_mem_of_all (by decide)
  | .null => forall_mem_of_all (by decide)
  | .true_ => forall_mem_of_all (by decide)
  | .object h => object_printable h
  | .array h => array_printable h
  | .number h => fun c hc => (number_printable h c hc).1
  | .string h => string_printable h

theorem object_printable {s : StringT} : RfcObject s → ∀ c ∈ s, Printable c
  | .empty ho hc => List.forall_mem_append.mpr
      ⟨structural_printable (by decide) ho, structural_printable (by decide) hc⟩
  | .members ho h hc => List.forall_mem_append.mpr ⟨List.forall_mem_append.mpr
      ⟨structural_printable (by decide) ho, members_printable h⟩, structural_printable (by decide) hc⟩

theorem members_printable {s : StringT} : RfcMembers s → ∀ c ∈ s, Printable c
  | .one h => member_printable h
  | .more h hs hm => List.forall_mem_append.mpr ⟨List.forall_mem_append.mpr
      ⟨members_printable h, structural_printable (by decide) hs⟩, member_printable hm⟩

theorem member_printable {s : StringT} : RfcMember s → ∀ c ∈ s, Printable c
  | .mk hk hs hv => List.forall_mem_append.mpr ⟨List.forall_mem_append.mpr
      ⟨string_printable hk, structural_printable (by decide) hs⟩, value_printable hv⟩

theorem array_printable {s : StringT} : RfcArray s → ∀ c ∈ s, Printable c
  | .empty ho hc => List.forall_mem_append.mpr
      ⟨structural_printable (by decide) ho, structural_printable (by decide) hc⟩
  | .values ho h hc => List.forall_mem_append.mpr ⟨List.forall_mem_append.mpr
      ⟨structural_printable (by decide) ho, values_printable h⟩, structural_printable (by decide) hc⟩

theorem values_printable {s : StringT} : RfcValues s → ∀ c ∈ s, Printable c
  | .one h => value_printable h
  | .more h hs hv => List.forall_mem_append.mpr ⟨List.forall_mem_append.mpr
      ⟨values_printable h, structural_printable (by decide) hs⟩, value_printable hv⟩
end

/-- **No other byte stands in a JSON text.** -/
theorem JsonText.printable {s : StringT} (h : JsonText s) : ∀ c ∈ s, Printable c := by
  obtain ⟨hw, hv, hw'⟩ := h
  exact List.forall_mem_append.mpr ⟨List.forall_mem_append.mpr
    ⟨ws_printable hw, value_printable hv⟩, ws_printable hw'⟩

/-! ## The lexemes of the printers -/

@[simp] theorem ascii_nil : ascii [] = [] := rfl
@[simp] theorem ascii_cons (c : UInt8) (s : StringT) : ascii (c :: s) = asciiByte c :: ascii s := rfl
@[simp] theorem ascii_append (s t : StringT) : ascii (s ++ t) = ascii s ++ ascii t := List.map_append

theorem ascii_eq_self {s : StringT} (h : ∀ c ∈ s, c < 0x80) : ascii s = s := by
  conv_rhs => rw [← List.map_id s]
  exact List.map_congr_left fun c hc => if_pos (h c hc)

theorem ascii_ws {w : StringT} (h : Ws w) : ascii w = w := by
  refine ascii_eq_self fun c hc => ?_
  rcases h c hc with rfl | rfl | rfl | rfl <;> decide

/-- A positive number is written without a leading zero. -/
theorem showNat_head {n : Nat} (hn : 0 < n) : ∃ d ds, showNat n = d :: ds ∧ 0x31 ≤ d ∧ d ≤ 0x39 := by
  induction n using Nat.strong_induction_on with
  | _ n ih =>
      rcases Nat.lt_or_ge n 10 with h | h
      · have hall : ∀ n < 10, 0 < n → 0x31 ≤ UInt8.ofNat (48 + n) ∧ UInt8.ofNat (48 + n) ≤ 0x39 := by decide
        exact ⟨_, [], showNat_of_lt h, hall n h hn⟩
      · obtain ⟨d, ds, heq, hd⟩ := ih (n / 10) (by omega) (by omega)
        exact ⟨d, _, by rw [showNat_of_le h, heq, List.cons_append], hd⟩

theorem int_showNat (n : Nat) : RfcInt (showNat n) := by
  rcases Nat.eq_zero_or_pos n with rfl | hn
  · exact .zero
  · obtain ⟨d, ds, heq, hd⟩ := showNat_head hn
    have hdigits := showNat_digits n
    rw [heq] at hdigits ⊢
    exact .digits hd fun c hc => (isDigit_iff c).mp (hdigits c (List.mem_cons_of_mem _ hc))

theorem number_showInt (n : Int64) : RfcNumber (showInt n) := by
  have hnumber : ∀ minus m, (minus = [] ∨ minus = [0x2d]) → RfcNumber (minus ++ showNat m) := by
    intro minus m hminus
    simpa using RfcNumber.mk hminus (int_showNat m) .none .none
  unfold showInt
  split
  · exact hnumber [0x2d] _ (Or.inr rfl)
  · exact hnumber [] _ (Or.inl rfl)

/-- An escaped character, unless it is one that has no escape. -/
theorem char_escapeItem {c : UInt8} (h : Escapable c) : RfcChar (ascii (escapeItem c).text) := by
  unfold escapeItem
  split_ifs with h8 h12 h10 h13 h9 h92 h34
  · exact .backspace
  · exact .formFeed
  · exact .lineFeed
  · exact .carriageReturn
  · exact .tab
  · exact .backslash
  · exact .quote
  · have hlow : 0x20 ≤ c := by
      rcases h with h | h
      · exact h
      · simp [h8, h12, h10, h13, h9] at h
    have hall : ∀ c : UInt8, 0x20 ≤ c ∧ c ≠ 34 ∧ c ≠ 92 →
        (0x20 ≤ asciiByte c ∧ asciiByte c ≤ 0x7f) ∧ asciiByte c ≠ 0x22 ∧ asciiByte c ≠ 0x5c := by
      rintro c ⟨hlow, hquote, hback⟩
      unfold asciiByte
      split_ifs with h
      · have htop : c ≤ 0x7f := by
          simp [UInt8.le_iff_toNat_le, UInt8.lt_iff_toNat_lt] at h ⊢
          omega
        exact ⟨⟨hlow, htop⟩, hquote, hback⟩
      · decide
    obtain ⟨hrange, hquote, hback⟩ := hall c ⟨hlow, h34, h92⟩
    exact .unescaped (.one hrange hquote hback)

/-- A printed string, with nothing but such characters. -/
theorem string_literal {s : StringT} (h : ∀ c ∈ s, Escapable c) :
    RfcString (ascii (literal (s.map escapeItem))) := by
  have heq : ascii (literal (s.map escapeItem)) =
      0x22 :: ((s.map (fun c => ascii (escapeItem c).text)).flatten ++ [0x22]) := by
    have hquote : asciiByte 34 = 34 := by decide
    have hitems : ascii (itemsText (s.map escapeItem)) = (s.map (fun c => ascii (escapeItem c).text)).flatten := by
      simp only [itemsText, ascii, List.map_flatMap, List.flatMap_map]
      rfl
    rw [literal, ascii_cons, ascii_append, hitems, ascii_cons, hquote, ascii_nil]
  rw [heq]
  refine .mk fun cs hcs => ?_
  obtain ⟨c, hc, rfl⟩ := List.mem_map.mp hcs
  exact char_escapeItem (h c hc)

/-- What `append_string` leaves as it is stands in its output. -/
theorem mem_appendString {c : UInt8} {s : StringT} (hc : c ∈ s) (h : ¬ Escapable c) : c ∈ appendString s := by
  have hescapes : ∀ d ∈ ([8, 9, 10, 12, 13, 34, 92] : StringT), Escapable d :=
    forall_mem_of_all (by decide)
  refine List.mem_flatMap.mpr ⟨c, hc, ?_⟩
  rw [appendChar_self fun hmem => h (hescapes c hmem)]
  exact List.mem_singleton_self c

theorem appendString_clean {s : StringT} (h : ∀ c ∈ s, Escapable c) : ∀ c ∈ appendString s, 0x20 ≤ c := by
  have hall : ∀ c : UInt8, Escapable c → ∀ d ∈ appendChar c, 0x20 ≤ d := by
    intro c h
    unfold appendChar
    split_ifs with h8 h12 h10 h13 h9 h92 h34
    -- the escapes are two printable characters
    iterate 7 exact forall_mem_of_all (by decide)
    rcases h with h | h
    · exact List.forall_mem_singleton.mpr h
    · simp [h8, h12, h10, h13, h9] at h
  intro d hd
  obtain ⟨c, hc, hd⟩ := List.mem_flatMap.mp hd
  exact hall c (h c hc) d hd

/-! ## The text of a clean value -/

/-- Pieces whose text is white space `w` and something of the kind `R`. -/
def Shows (R : StringT → Prop) (w : StringT) (ps : List Piece) : Prop :=
  ∃ s, ascii (render ps) = w ++ s ∧ R s

variable {w : StringT} {ps : List Piece}

theorem shows_piece {R : StringT → Prop} (hw : Ws w) {term : Nat} {lexeme : StringT} (h : R (ascii lexeme)) :
    Shows R w [⟨w, term, lexeme⟩] := by
  refine ⟨ascii lexeme, ?_, h⟩
  simp [ascii_ws hw]

/-- A comma or a bracket and the white space around it. -/
theorem structural_between {w w' : StringT} (hw : Ws w) (hw' : Ws w') (c : UInt8) :
    Structural c (w ++ c :: w') := ⟨w, w', hw, hw', rfl⟩

/-- More items, with a comma in front of each. -/
theorem joined_more {R Rs : StringT → Prop}
    (hmore : ∀ {vs c v}, Rs vs → Structural 0x2c c → R v → Rs (vs ++ c ++ v)) (hw : Ws w)
    {items : List (Except CreateError (List Piece))} (hitems : ∀ i ∈ items, ∀ ps, i = .ok ps → Shows R w ps)
    {vs : StringT} (hvs : Rs vs) (h : joined false items = .ok ps) : Rs (vs ++ ascii (render ps)) := by
  induction items generalizing vs ps with
  | nil =>
      cases h
      simpa [ascii] using hvs
  | cons i items ih =>
      cases i with
      | error e => cases h
      | ok px =>
          obtain ⟨qs, hqs, rfl⟩ := map_eq_ok.mp h
          obtain ⟨v, hv, hR⟩ := hitems _ List.mem_cons_self px rfl
          have hcomma : Structural 0x2c ([] ++ 0x2c :: w) := structural_between (by simp [Ws]) hw 0x2c
          have hnext := hmore hvs hcomma hR
          have hrest := ih (fun j hj => hitems j (List.mem_cons_of_mem _ hj)) hnext hqs
          have hbyte : asciiByte 44 = 44 := by decide
          simpa [comma, punct, hv, hbyte] using hrest

/-- **Items with commas between them.** `Rs` is one `R` or more, with commas between them. -/
theorem joined_shows {R Rs : StringT → Prop} (hone : ∀ {s}, R s → Rs s)
    (hmore : ∀ {vs c v}, Rs vs → Structural 0x2c c → R v → Rs (vs ++ c ++ v)) (hw : Ws w)
    {items : List (Except CreateError (List Piece))} {item : Except CreateError (List Piece)}
    (hitems : ∀ i ∈ item :: items, ∀ ps, i = .ok ps → Shows R w ps)
    (h : joined true (item :: items) = .ok ps) : Shows Rs w ps := by
  obtain ⟨hitem, hrest⟩ := List.forall_mem_cons.mp hitems
  cases item with
  | error e => cases h
  | ok px =>
      obtain ⟨qs, hqs, rfl⟩ := map_eq_ok.mp h
      obtain ⟨v, hv, hR⟩ := hitem px rfl
      refine ⟨v ++ ascii (render qs), ?_, joined_more hmore hw hrest (hone hR) hqs⟩
      simp [comma, hv]

/-- A container with items between its brackets. -/
theorem shows_container {Rs R : StringT → Prop} {o c : Nat} {opening closing : UInt8} {w w₁ w₂ : StringT}
    (hR : ∀ {b s e}, Structural opening b → Rs s → Structural closing e → R (b ++ s ++ e))
    (hascii : opening < 0x80 ∧ closing < 0x80) (hw : Ws w) (hw₁ : Ws w₁) (hw₂ : Ws w₂) (h : Shows Rs w₁ ps) :
    Shows R w ((punct o opening).after w :: (ps ++ [(punct c closing).after w₂])) := by
  obtain ⟨s, hs, hRs⟩ := h
  have hnone : Ws [] := by simp [Ws]
  refine ⟨([] ++ opening :: w₁) ++ s ++ (w₂ ++ closing :: []), ?_,
    hR (structural_between hnone hw₁ _) hRs (structural_between hw₂ hnone _)⟩
  have hopening : asciiByte opening = opening := if_pos hascii.1
  have hclosing : asciiByte closing = closing := if_pos hascii.2
  simp [Piece.after, punct, hs, ascii_ws hw, ascii_ws hw₂, hopening, hclosing]

/-- A container without items. -/
theorem shows_empty {R : StringT → Prop} {o c : Nat} {opening closing : UInt8}
    (hR : ∀ {b e}, Structural opening b → Structural closing e → R (b ++ e))
    (hascii : opening < 0x80 ∧ closing < 0x80) (hw : Ws w) :
    Shows R w ((punct o opening).after w :: ([] ++ [(punct c closing).after []])) := by
  have hnone : Ws [] := by simp [Ws]
  refine ⟨([] ++ opening :: []) ++ ([] ++ closing :: []), ?_,
    hR (structural_between hnone hnone _) (structural_between hnone hnone _)⟩
  have hopening : asciiByte opening = opening := if_pos hascii.1
  have hclosing : asciiByte closing = closing := if_pos hascii.2
  simp [Piece.after, punct, ascii_ws hw, hopening, hclosing]

variable {F : Type} {showFloat : F → StringT} {indent : Nat → StringT}

/-- An array or a list. -/
theorem shows_array (hindent : ∀ n, Ws (indent n)) {xs : List (VarC F)}
    (hx : ∀ x ∈ xs, ∀ depth w ps, Ws w → nicePieces showFloat indent depth w x = .ok ps → Shows RfcValue w ps)
    {depth : Nat} (hw : Ws w) {qs : List Piece}
    (h : joined true (niceElems showFloat indent (depth + 1) xs) = .ok qs) :
    Shows RfcValue w
      ((punct 8 91).after w :: (qs ++ [(punct 9 93).after (if xs.isEmpty then [] else indent depth)])) := by
  cases xs with
  | nil =>
      cases h
      exact shows_empty (fun hb he => .array (.empty hb he)) (by decide) hw
  | cons x xs =>
      refine shows_container (fun hb hvs he => .array (.values hb hvs he)) (by decide) hw (hindent (depth + 1))
        (hindent depth) ?_
      refine joined_shows .one .more (hindent (depth + 1)) ?_ h
      intro i hi ps hps
      rw [niceElems_eq, ← List.map_cons] at hi
      obtain ⟨y, hy, rfl⟩ := List.mem_map.mp hi
      exact hx y hy _ _ ps (hindent _) hps

/-- An entry of a dict. -/
theorem shows_entry (hindent : ∀ n, Ws (indent n)) {e : VarC F × VarC F}
    (hkey : ∀ s, e.1 = .string s → ∀ c ∈ s, Escapable c)
    (hv : ∀ depth w ps, Ws w → nicePieces showFloat indent depth w e.2 = .ok ps → Shows RfcValue w ps)
    {depth : Nat} (h : niceEntry showFloat indent depth e = .ok ps) : Shows RfcMember (indent depth) ps := by
  obtain ⟨k, v⟩ := e
  cases k with
  | string s =>
      obtain ⟨pv, hpv, rfl⟩ := map_eq_ok.mp h
      have hnone : Ws [] := by simp [Ws]
      obtain ⟨t, ht, hvalue⟩ := hv depth [] pv hnone hpv
      have hcolon : asciiByte 58 = 58 := by decide
      refine ⟨_, ?_, .mk (string_literal (hkey s rfl)) (structural_between hnone hnone 0x3a) hvalue⟩
      simp [Piece.after, stringPiece, punct, ascii_ws (hindent depth), hcolon, ht]
  | _ => cases h

/-- **A value without floats and without bytes that have no escape is printed as a value of the RFC.** -/
theorem shows_value (hindent : ∀ n, Ws (indent n)) (v : VarC F) (hfloat : FloatFree v) (hclean : Clean v) :
    ∀ depth w ps, Ws w → nicePieces showFloat indent depth w v = .ok ps → Shows RfcValue w ps := by
  induction v with
  | blank =>
      rintro depth w ps hw h
      cases h
      exact shows_piece hw .null
  | bool b =>
      rintro depth w ps hw h
      cases h
      cases b
      · exact shows_piece hw .false_
      · exact shows_piece hw .true_
  | integer n =>
      rintro depth w ps hw h
      cases h
      -- the characters of a number are their own code points
      have hascii : ascii (showInt n) = showInt n := by
        exact ascii_eq_self fun c hc => (number_printable (number_showInt n) c hc).2
      refine shows_piece hw ?_
      rw [hascii]
      exact .number (number_showInt n)
  | float f => exact absurd .self (hfloat f)
  | string s =>
      rintro depth w ps hw h
      cases h
      exact shows_piece hw (.string (string_literal (hclean s .self)))
  | set xs _ =>
      rintro depth w ps hw h
      cases h
  | array xs ih =>
      rintro depth w ps hw h
      obtain ⟨qs, hqs, rfl⟩ := map_eq_ok.mp h
      refine shows_array hindent (fun x hx => ?_) hw hqs
      exact ih x hx (fun f hf => hfloat f (.array hx hf)) (fun s hs => hclean s (.array hx hs))
  | list xs ih =>
      rintro depth w ps hw h
      obtain ⟨qs, hqs, rfl⟩ := map_eq_ok.mp h
      refine shows_array hindent (fun x hx => ?_) hw hqs
      exact ih x hx (fun f hf => hfloat f (.list hx hf)) (fun s hs => hclean s (.list hx hs))
  | dict es _ ih =>
      rintro depth w ps hw h
      obtain ⟨qs, hqs, rfl⟩ := map_eq_ok.mp h
      cases es with
      | nil =>
          cases hqs
          exact shows_empty (fun hb he => .object (.empty hb he)) (by decide) hw
      | cons e es =>
          refine shows_container (fun hb hms he => .object (.members hb hms he)) (by decide) hw
            (hindent (depth + 1)) (hindent depth) ?_
          refine joined_shows .one .more (hindent (depth + 1)) ?_ hqs
          intro i hi ps hps
          rw [niceEntries_eq, ← List.map_cons] at hi
          obtain ⟨d, hd, rfl⟩ := List.mem_map.mp hi
          refine shows_entry hindent ?_ ?_ hps
          · intro s hs
            exact hclean s (.key hd (hs ▸ .self))
          · exact ih d hd (fun f hf => hfloat f (.value hd hf)) (fun s hs => hclean s (.value hd hs))

/-! ## The strings of a text -/

/-- Every item is in the text. -/
theorem mem_joined {items : List (Except CreateError (List Piece))} {i : Except CreateError (List Piece)}
    {first : Bool} (hi : i ∈ items) (h : joined first items = .ok ps) :
    ∃ pi, i = .ok pi ∧ ∀ c ∈ render pi, c ∈ render ps := by
  induction items generalizing first ps with
  | nil => cases hi
  | cons j items ih =>
      cases j with
      | error e => cases h
      | ok pj =>
          obtain ⟨qs, hqs, rfl⟩ := map_eq_ok.mp h
          rcases List.mem_cons.mp hi with rfl | hi
          · refine ⟨pj, rfl, fun c hc => ?_⟩
            simp [hc]
          · obtain ⟨pi, hpi, hmem⟩ := ih hi hqs
            refine ⟨pi, hpi, fun c hc => ?_⟩
            simp [hmem c hc]

/-- **Every string of the value is in the text.** -/
theorem mem_render {s : StringT} {v : VarC F} (h : Has (.string s) v) : ∀ {depth : Nat} {w : StringT} {ps : List Piece},
    nicePieces showFloat indent depth w v = .ok ps → ∀ c ∈ appendString s, c ∈ render ps := by
  induction h with
  | self =>
      rintro depth w ps h c hc
      cases h
      -- the string itself, between its quotes
      rw [appendString_eq] at hc
      simp [Piece.after, stringPiece, literal, hc]
  | array hy _ ih | list hy _ ih =>
      rintro depth w ps h c hc
      obtain ⟨qs, hqs, rfl⟩ := map_eq_ok.mp h
      rw [niceElems_eq] at hqs
      obtain ⟨py, hpy, hmem⟩ := mem_joined (List.mem_map_of_mem hy) hqs
      simp [hmem c (ih hpy c hc)]
  | set hy _ _ =>
      rintro depth w ps h
      cases h
  | @key es e he hkey _ =>
      rintro depth w ps h c hc
      obtain ⟨qs, hqs, rfl⟩ := map_eq_ok.mp h
      rw [niceEntries_eq] at hqs
      obtain ⟨pe, hpe, hmem⟩ := mem_joined (List.mem_map_of_mem he) hqs
      have hin : c ∈ render pe := by
        obtain ⟨k, v⟩ := e
        -- a key contains no other value, so the string is the key
        cases hkey with
        | self =>
            obtain ⟨pv, -, rfl⟩ := map_eq_ok.mp hpe
            rw [appendString_eq] at hc
            simp [Piece.after, stringPiece, literal, hc]
        | _ => cases hpe
      simp [hmem c hin]
  | @value es e he _ ih =>
      rintro depth w ps h c hc
      obtain ⟨qs, hqs, rfl⟩ := map_eq_ok.mp h
      rw [niceEntries_eq] at hqs
      obtain ⟨pe, hpe, hmem⟩ := mem_joined (List.mem_map_of_mem he) hqs
      have hin : c ∈ render pe := by
        obtain ⟨k, v⟩ := e
        cases k with
        | string k =>
            obtain ⟨pv, hpv, rfl⟩ := map_eq_ok.mp hpe
            simp [ih hpv c hc]
        | _ => cases hpe
      simp [hmem c hin]

/-! ## Valid texts -/

/-- The text of either printer. -/
theorem emits_of_pieces (hindent : ∀ n, Ws (indent n)) {v : VarC F} (hfloat : FloatFree v)
    (h : nicePieces showFloat indent 0 [] v = .ok ps) : EmitsJson v (render ps) ↔ Clean v := by
  have hnone : Ws [] := by simp [Ws]
  constructor
  · intro hemits s hs c hc
    -- a byte that is not escaped is in the text as it is, and the RFC does not print it
    by_contra hraw
    have hin : c ∈ render ps := mem_render hs h c (mem_appendString hc hraw)
    have hprintable := hemits.json.printable (asciiByte c) (List.mem_map_of_mem hin)
    obtain ⟨hlow, hlist⟩ := not_or.mp hraw
    simp only [List.mem_cons, not_or] at hlist
    rw [asciiByte, if_pos (UInt8.lt_trans (UInt8.not_le.mp hlow) (by decide))] at hprintable
    rcases hprintable with hprintable | htab | hlineFeed | hreturn
    · exact hlow hprintable
    · exact hlist.2.1 htab
    · exact hlist.2.2.1 hlineFeed
    · exact hlist.2.2.2.2.1 hreturn
  · intro hclean
    obtain ⟨s, hs, hvalue⟩ := shows_value hindent v hfloat hclean 0 [] ps hnone h
    refine ⟨?_, fun s hs => appendString_clean (hclean s hs)⟩
    rw [hs]
    simpa using JsonText.mk hnone hvalue hnone

/-- **`create` and `create_nice` print JSON exactly of the values whose strings they can escape.** -/
theorem emits_json_iff (showFloat : F → StringT) (v : VarC F) (hfloat : FloatFree v) :
    (∀ text, Creates showFloat v (.ok text) → (EmitsJson v text ↔ Clean v)) ∧
      ∀ a_tab_str, (∀ c ∈ a_tab_str, c = 0x20 ∨ c = 0x09) → ∀ text,
        CreatesNice showFloat a_tab_str v (.ok text) → (EmitsJson v text ↔ Clean v) := by
  constructor
  · intro text htext
    have heq := htext.unique (create_returns showFloat v)
    obtain ⟨ps, hps, rfl⟩ := map_eq_ok.mp heq.symm
    rw [pieces_eq v 0] at hps
    exact emits_of_pieces (fun _ => by simp [Ws]) hfloat hps
  · intro a_tab_str htab text htext
    have hindent : ∀ n, Ws (lineBreak a_tab_str n) := by
      intro n
      refine List.forall_mem_cons.mpr ⟨by decide, fun c hc => ?_⟩
      obtain ⟨t, ht, hc⟩ := List.mem_flatten.mp hc
      rw [List.eq_of_mem_replicate ht] at hc
      rcases htab c hc with rfl | rfl <;> decide
    have heq := htext.unique (createNice_returns showFloat a_tab_str v)
    obtain ⟨ps, hps, rfl⟩ := map_eq_ok.mp heq.symm
    exact emits_of_pieces hindent hfloat hps

/-- `{"k":["\n"]}`, the line break being one byte of the string: as `create` writes it, and as `create_nice` does with
    two spaces. -/
theorem emits_json_newline :
    EmitsJson (.dict [(.string [107], .array [.string [10]])] : VarC Int)
        [123, 34, 107, 34, 58, 91, 34, 92, 110, 34, 93, 125] ∧
      EmitsJson (.dict [(.string [107], .array [.string [10]])] : VarC Int)
        [123, 10, 32, 32, 34, 107, 34, 58, 91, 10, 32, 32, 32, 32, 34, 92, 110, 34, 10, 32, 32, 93, 10, 125] := by
  -- what stands in the value
  have hhas : ∀ x : VarC Int, Has x (.dict [(.string [107], .array [.string [10]])]) →
      x.type = .dict ∨ x = .string [107] ∨ x.type = .array ∨ x = .string [10] := by
    intro x hx
    rcases hx with _ | _ | _ | _ | ⟨he, h⟩ | ⟨he, h⟩
    · exact Or.inl rfl
    · obtain rfl := List.mem_singleton.mp he
      cases h
      exact Or.inr (Or.inl rfl)
    · obtain rfl := List.mem_singleton.mp he
      rcases h with _ | ⟨hy, h⟩
      · exact Or.inr (Or.inr (Or.inl rfl))
      · obtain rfl := List.mem_singleton.mp hy
        cases h
        exact Or.inr (Or.inr (Or.inr rfl))
  have hfloat : FloatFree (.dict [(.string [107], .array [.string [10]])] : VarC Int) := by
    intro f hf
    rcases hhas _ hf with h | h | h | h <;> cases h
  have hclean : Clean (.dict [(.string [107], .array [.string [10]])] : VarC Int) := by
    intro s hs
    rcases hhas _ hs with h | h | h | h <;> cases h <;> decide +kernel
  obtain ⟨hcreate, hnice⟩ := emits_json_iff (fun _ : Int => []) _ hfloat
  exact ⟨(hcreate _ ⟨10, rfl⟩).mpr hclean, (hnice [32, 32] (by decide +kernel) _ ⟨10, rfl⟩).mpr hclean⟩

/-- A byte below 0x20 without an escape is written as it is, and no JSON text has it. -/
theorem control_byte_emitted : FloatFree (.string [1] : VarC Int) ∧
    Creates (fun _ : Int => []) (.string [1]) (.ok [34, 1, 34]) ∧
    CreatesNice (fun _ : Int => []) [32, 32] (.string [1]) (.ok [34, 1, 34]) ∧
    ¬ JsonText (ascii [34, 1, 34]) ∧ ¬ EmitsJson (.string [1] : VarC Int) [34, 1, 34] := by
  have hbyte : ¬ JsonText (ascii [34, 1, 34]) := by
    intro h
    exact absurd (h.printable 1 (by decide)) (by decide)
  refine ⟨?_, ⟨2, rfl⟩, ⟨2, rfl⟩, hbyte, fun h => hbyte h.json⟩
  intro f hf
  cases hf

end Ccljson
end Cclib
