import Cclib.Ccljson.Create
import Cclib.Ccljson.Parser
import Cclib.Ccljson.Tree

/-!
# `Ccljson.Print` — what `create` prints, read back

For a value without floats, sets and NUL bytes (`Plain`) the printed pieces can be lexed, they spell a
tree, and the tree has the value that was printed, lists read back as arrays (`Plain.written`). Numbers
and escapes come first; the induction on values follows the rules of the grammar.
-/

namespace Cclib
namespace Ccljson
open Cclvar

/-! ## Numbers -/

theorem showNat_of_lt {n : Nat} (h : n < 10) : showNat n = [UInt8.ofNat (48 + n)] := by
  rw [showNat, Nat.toDigits_of_lt_base h]
  have hall : ∀ n < 10, [n.digitChar].map (fun c => UInt8.ofNat c.toNat) = [UInt8.ofNat (48 + n)] := by decide
  exact hall n h

theorem showNat_of_le {n : Nat} (h : 10 ≤ n) :
    showNat n = showNat (n / 10) ++ [UInt8.ofNat (48 + n % 10)] := by
  have hdigit : n % 10 < 10 := Nat.mod_lt _ (by decide)
  rw [← showNat_of_lt hdigit, showNat, showNat, showNat, Nat.toDigits_of_base_le (by decide) h,
    Nat.toDigits_of_lt_base hdigit, List.map_append]

theorem toNat_digit {d : Nat} (h : d < 10) : (UInt8.ofNat (48 + d)).toNat = 48 + d := by
  rw [UInt8.toNat_ofNat']
  omega

theorem isDigit_digit {d : Nat} (h : d < 10) : isDigit (UInt8.ofNat (48 + d)) = true := by
  have hall : ∀ d < 10, isDigit (UInt8.ofNat (48 + d)) = true := by decide
  exact hall d h

theorem showNat_digits (n : Nat) : ∀ c ∈ showNat n, isDigit c = true := by
  induction n using Nat.strong_induction_on with
  | _ n ih =>
      rcases Nat.lt_or_ge n 10 with h | h
      · rw [showNat_of_lt h]
        simpa using isDigit_digit h
      · rw [showNat_of_le h]
        intro c hc
        rcases List.mem_append.mp hc with hc | hc
        · exact ih (n / 10) (by omega) c hc
        · rw [List.mem_singleton.mp hc]
          exact isDigit_digit (Nat.mod_lt _ (by decide))

/-- Reading the digits back. -/
theorem digitsValue_showNat (n : Nat) : digitsValue (showNat n) = n := by
  induction n using Nat.strong_induction_on with
  | _ n ih =>
      rcases Nat.lt_or_ge n 10 with h | h
      · rw [showNat_of_lt h, digitsValue, List.foldl_cons, List.foldl_nil, toNat_digit h]
        omega
      · rw [showNat_of_le h]
        have hprefix := ih (n / 10) (by omega)
        simp only [digitsValue] at hprefix ⊢
        rw [List.foldl_append, hprefix, List.foldl_cons, List.foldl_nil,
          toNat_digit (Nat.mod_lt _ (by decide))]
        omega

/-- A positive number has no leading zero. -/
theorem scan_showNat {n : Nat} (hn : 0 < n) : scan .state0 (showNat n) = some .state6 ∧
    scan .state4 (showNat n) = some .state6 := by
  induction n using Nat.strong_induction_on with
  | _ n ih =>
      rcases Nat.lt_or_ge n 10 with h | h
      · rw [showNat_of_lt h]
        have hall : ∀ n < 10, 0 < n → scan .state0 [UInt8.ofNat (48 + n)] = some .state6 ∧
            scan .state4 [UInt8.ofNat (48 + n)] = some .state6 := by decide
        exact hall n h hn
      · have hlast : ∀ d < 10, scan .state6 [UInt8.ofNat (48 + d)] = some .state6 := by decide
        obtain ⟨h₀, h₄⟩ := ih (n / 10) (by omega) (by omega)
        rw [showNat_of_le h, scan_append, scan_append, h₀, h₄]
        exact ⟨hlast _ (Nat.mod_lt _ (by decide)), hlast _ (Nat.mod_lt _ (by decide))⟩

theorem digit_ne_nul {c : UInt8} (h : isDigit c = true) : c ≠ 0 := by
  rintro rfl
  cases h

/-- A printed integer is an integer lexeme. -/
theorem lexeme_showInt (n : Int64) : Lexeme 1 (showInt n) where
  scanned := by
    unfold showInt
    split
    · rename_i hneg
      refine ⟨.state6, ?_, rfl⟩
      have hminus : lexGoto .state0 (45 : UInt8).toNat = .inl .state4 := by rfl
      rw [scan, hminus]
      exact (scan_showNat (by omega)).2
    · rcases Nat.eq_zero_or_pos n.toInt.natAbs with h | h
      · exact ⟨.state5, by rw [h]; rfl, rfl⟩
      · exact ⟨.state6, (scan_showNat h).1, rfl⟩
  ne_nil := by
    unfold showInt
    split
    · simp
    · simp [showNat]
  no_nul := by
    unfold showInt
    split
    · intro c hc
      rcases List.mem_cons.mp hc with rfl | hc
      · decide
      · exact digit_ne_nul (showNat_digits _ c hc)
    · exact fun c hc => digit_ne_nul (showNat_digits _ c hc)
  not_skip := by simp

theorem not_digit_of_delimiter {c : UInt8} (h : isDelimiter c = true) : isDigit c = false := by
  rw [Bool.eq_false_iff, Ne, isDigit_iff]
  rintro ⟨hlow, hhigh⟩
  simp [isDelimiter, isSkip, UInt8.le_iff_toNat_le, UInt8.lt_iff_toNat_lt, ← UInt8.toNat_inj] at *
  omega

/-- The digits in front of a delimiter. -/
theorem takeWhile_digits {ds rest : StringT} (hds : ∀ c ∈ ds, isDigit c = true)
    (hrest : isDelimiter (rest.headD 0) = true) : (ds ++ rest).takeWhile isDigit = ds := by
  have htail : rest.takeWhile isDigit = [] := by
    cases rest with
    | nil => rfl
    | cons c rest =>
        rw [List.takeWhile_cons, not_digit_of_delimiter (c := c) hrest]
        rfl
  rw [List.takeWhile_append_of_pos (by simpa using hds), htail, List.append_nil]

theorem strtoll_minus {ds rest : StringT} (hds : ∀ c ∈ ds, isDigit c = true)
    (hrest : isDelimiter (rest.headD 0) = true) :
    strtoll (45 :: ds ++ rest) = Int64.ofIntClamp (-(digitsValue ds : Int)) := by
  have hspace : isSpace 45 = false := by decide
  rw [strtoll, List.cons_append, List.dropWhile_cons, hspace]
  simp only [Bool.false_eq_true, if_false, takeWhile_digits hds hrest]

theorem strtoll_digits {ds rest : StringT} (hne : ds ≠ []) (hds : ∀ c ∈ ds, isDigit c = true)
    (hrest : isDelimiter (rest.headD 0) = true) :
    strtoll (ds ++ rest) = Int64.ofIntClamp (digitsValue ds) := by
  obtain ⟨c, cs, rfl⟩ := List.exists_cons_of_ne_nil hne
  obtain ⟨hspace, hminus, hplus⟩ := not_space_of_digit (hds c List.mem_cons_self)
  have hdigits := takeWhile_digits hds hrest
  rw [List.cons_append] at hdigits ⊢
  rw [strtoll, List.dropWhile_cons, hspace]
  simp only [Bool.false_eq_true, if_false]
  split
  · rename_i heq
    exact absurd (List.cons.inj heq).1 hminus
  · rename_i heq
    exact absurd (List.cons.inj heq).1 hplus
  · rw [hdigits]

/-- **Reading a printed integer back.** -/
theorem strtoll_showInt (n : Int64) {rest : StringT} (hrest : isDelimiter (rest.headD 0) = true) :
    strtoll (showInt n ++ rest) = n := by
  have hclamp := Int64.ofIntClamp_toInt n
  unfold showInt
  split
  · rename_i hneg
    rw [strtoll_minus (showNat_digits _) hrest, digitsValue_showNat,
      show -(n.toInt.natAbs : Int) = n.toInt by omega, hclamp]
  · rename_i hpos
    rw [strtoll_digits (by simp [showNat]) (showNat_digits _) hrest, digitsValue_showNat,
      show (n.toInt.natAbs : Int) = n.toInt by omega, hclamp]

/-! ## Strings -/

/-- Escaping loses nothing, and leaves only what the lexer lets through. -/
theorem escapeItem_spec (c : UInt8) : (escapeItem c).value = some [c] ∧ (c ≠ 0 → (escapeItem c).Lexes) := by
  unfold escapeItem
  split_ifs <;> simp_all [Item.value, unescape, Item.Lexes]

theorem itemsValue_escape (s : StringT) : itemsValue (s.map escapeItem) = some s := by
  induction s with
  | nil => rfl
  | cons c s ih => simp [itemsValue, (escapeItem_spec c).1, ih]

theorem escape_lexes {s : StringT} (hs : 0 ∉ s) : ∀ item ∈ s.map escapeItem, item.Lexes := by
  intro item hitem
  obtain ⟨c, hc, rfl⟩ := List.mem_map.mp hitem
  exact (escapeItem_spec c).2 (fun h => hs (h ▸ hc))

/-! ## Where numbers end -/

section Delimited

variable {F : Type} {showFloat : F → StringT} {xs : List (VarC F)} {es : List (VarC F × VarC F)}
  {ps : List Piece} {first : Bool}

theorem delimited_singleton {p : Piece} {rest : StringT}
    (h : p.term = 1 ∨ p.term = 2 → isDelimiter (rest.headD 0) = true) : Delimited [p] rest := ⟨h, trivial⟩

/-- What follows an element is a comma or the end of its container. -/
theorem elemPieces_head {rest : StringT} (h : elemPieces showFloat false xs = .ok ps)
    (hrest : isDelimiter (rest.headD 0) = true) : isDelimiter ((render ps ++ rest).headD 0) = true := by
  cases xs with
  | nil =>
      cases h
      exact hrest
  | cons x xs =>
      obtain ⟨px, qs, -, -, rfl⟩ := elemPieces_cons.mp h
      rfl

theorem entryPieces_head {rest : StringT} (h : entryPieces showFloat false es = .ok ps)
    (hrest : isDelimiter (rest.headD 0) = true) : isDelimiter ((render ps ++ rest).headD 0) = true := by
  cases es with
  | nil =>
      cases h
      exact hrest
  | cons e es =>
      obtain ⟨s, pv, qs, -, -, -, rfl⟩ := entryPieces_cons.mp h
      rfl

theorem comma_delimited (first : Bool) (rest : StringT) : Delimited (comma first) rest := by
  cases first
  · exact delimited_singleton (by simp [punct])
  · trivial

theorem elemPieces_delimited
    (hx : ∀ x ∈ xs, ∀ px, pieces showFloat x = .ok px → ∀ rest, isDelimiter (rest.headD 0) = true →
      Delimited px rest)
    (h : elemPieces showFloat first xs = .ok ps) {rest : StringT} (hrest : isDelimiter (rest.headD 0) = true) :
    Delimited ps rest := by
  induction xs generalizing first ps with
  | nil =>
      cases h
      trivial
  | cons x xs ih =>
      obtain ⟨px, qs, hpx, hqs, rfl⟩ := elemPieces_cons.mp h
      rw [delimited_append, delimited_append]
      exact ⟨⟨comma_delimited _ _, hx x List.mem_cons_self px hpx _ (elemPieces_head hqs hrest)⟩,
        ih (fun y hy => hx y (List.mem_cons_of_mem _ hy)) hqs⟩

theorem entryPieces_delimited
    (hx : ∀ e ∈ es, ∀ pv, pieces showFloat e.2 = .ok pv → ∀ rest, isDelimiter (rest.headD 0) = true →
      Delimited pv rest)
    (h : entryPieces showFloat first es = .ok ps) {rest : StringT}
    (hrest : isDelimiter (rest.headD 0) = true) : Delimited ps rest := by
  induction es generalizing first ps with
  | nil =>
      cases h
      trivial
  | cons e es ih =>
      obtain ⟨s, pv, qs, -, hpv, hqs, rfl⟩ := entryPieces_cons.mp h
      rw [delimited_append, delimited_append]
      refine ⟨⟨comma_delimited _ _, by simp [stringPiece], by simp [punct], ?_⟩,
        ih (fun d hd => hx d (List.mem_cons_of_mem _ hd)) hqs⟩
      exact hx e List.mem_cons_self pv hpv _ (entryPieces_head hqs hrest)

theorem bracketed_delimited {open_ close : Piece} {rest : StringT} (hopen : 3 ≤ open_.term)
    (hclose : 3 ≤ close.term) (h : Delimited ps (render [close] ++ rest)) :
    Delimited (open_ :: (ps ++ [close])) rest :=
  ⟨by omega, delimited_append.mpr ⟨h, delimited_singleton (by omega)⟩⟩

/-- **Every number `create` prints is followed by a delimiter.** -/
theorem pieces_delimited (v : VarC F) : ∀ ps, pieces showFloat v = .ok ps →
    ∀ rest, isDelimiter (rest.headD 0) = true → Delimited ps rest := by
  induction v with
  | blank | bool b | integer n | float f | string s =>
      rintro ps h rest hrest
      cases h
      exact delimited_singleton (fun _ => hrest)
  | set xs _ =>
      rintro ps h
      cases h
  | array xs ih =>
      rintro ps h rest -
      obtain ⟨qs, hqs, rfl⟩ := pieces_array.mp h
      exact bracketed_delimited (by simp [punct]) (by simp [punct]) (elemPieces_delimited ih hqs rfl)
  | list xs ih =>
      rintro ps h rest -
      obtain ⟨qs, hqs, rfl⟩ := pieces_list.mp h
      exact bracketed_delimited (by simp [punct]) (by simp [punct]) (elemPieces_delimited ih hqs rfl)
  | dict es _ ih =>
      rintro ps h rest -
      obtain ⟨qs, hqs, rfl⟩ := pieces_dict.mp h
      exact bracketed_delimited (by simp [punct]) (by simp [punct]) (entryPieces_delimited ih hqs rfl)

end Delimited

/-! ## Values JSON can write -/

variable {F : Type} {showFloat : F → StringT} {ok : StringT → Prop}

/-- Values built from blanks, booleans, integers, strings that are `ok`, arrays, lists, and dicts with
    such strings as keys. -/
inductive Plain [LT F] [DecidableLT F] (ok : StringT → Prop) : VarC F → Prop
  | blank : Plain ok .blank
  | bool (b : Bool) : Plain ok (.bool b)
  | integer (n : Int64) : Plain ok (.integer n)
  | string {s : StringT} (h : ok s) : Plain ok (.string s)
  | array {xs : List (VarC F)} (h : ∀ x ∈ xs, Plain ok x) : Plain ok (.array xs)
  | list {xs : List (VarC F)} (h : ∀ x ∈ xs, Plain ok x) : Plain ok (.list xs)
  | dict {es : List (VarC F × VarC F)} (hsorted : VarC.KeysSorted es)
      (hkeys : ∀ e ∈ es, ∃ s, e.1 = .string s ∧ ok s) (h : ∀ e ∈ es, Plain ok e.2) : Plain ok (.dict es)

mutual
/-- The value with an array of the same elements for every list. -/
def toArrays : VarC F → VarC F
  | .array xs | .list xs => .array (elemsToArrays xs)
  | .set xs => .set (elemsToArrays xs)
  | .dict es => .dict (entriesToArrays es)
  | .blank => .blank
  | .bool b => .bool b
  | .integer n => .integer n
  | .float f => .float f
  | .string s => .string s

def elemsToArrays : List (VarC F) → List (VarC F)
  | [] => []
  | x :: xs => toArrays x :: elemsToArrays xs

def entriesToArrays : List (VarC F × VarC F) → List (VarC F × VarC F)
  | [] => []
  | (k, v) :: es => (toArrays k, toArrays v) :: entriesToArrays es
end

theorem elemsToArrays_eq (xs : List (VarC F)) : elemsToArrays xs = xs.map toArrays := by
  induction xs with
  | nil => rfl
  | cons x xs ih => rw [elemsToArrays, ih, List.map_cons]

theorem entriesToArrays_eq (es : List (VarC F × VarC F)) :
    entriesToArrays es = es.map (fun e => (toArrays e.1, toArrays e.2)) := by
  induction es with
  | nil => rfl
  | cons e es ih => rw [entriesToArrays, ih, List.map_cons]

/-! ### The pieces of such values -/

variable {v : VarC F} {xs : List (VarC F)} {es : List (VarC F × VarC F)} {ps : List Piece} {first : Bool}

theorem elemPieces_defined (h : ∀ x ∈ xs, ∃ px, pieces showFloat x = .ok px) :
    ∃ ps, elemPieces showFloat first xs = .ok ps := by
  induction xs generalizing first with
  | nil => exact ⟨[], rfl⟩
  | cons x xs ih =>
      obtain ⟨px, hpx⟩ := h x List.mem_cons_self
      obtain ⟨qs, hqs⟩ := ih (fun y hy => h y (List.mem_cons_of_mem _ hy))
      exact ⟨_, elemPieces_cons.mpr ⟨px, qs, hpx, hqs, rfl⟩⟩

theorem entryPieces_defined (hkeys : ∀ e ∈ es, ∃ s, e.1 = .string s ∧ ok s)
    (h : ∀ e ∈ es, ∃ pv, pieces showFloat e.2 = .ok pv) : ∃ ps, entryPieces showFloat first es = .ok ps := by
  induction es generalizing first with
  | nil => exact ⟨[], rfl⟩
  | cons e es ih =>
      obtain ⟨s, hs, -⟩ := hkeys e List.mem_cons_self
      obtain ⟨pv, hpv⟩ := h e List.mem_cons_self
      obtain ⟨qs, hqs⟩ := ih (fun d hd => hkeys d (List.mem_cons_of_mem _ hd))
        (fun d hd => h d (List.mem_cons_of_mem _ hd))
      exact ⟨_, entryPieces_cons.mpr ⟨s, pv, qs, hs, hpv, hqs, rfl⟩⟩

/-- `create` prints them without an error. -/
theorem Plain.pieces_defined [LT F] [DecidableLT F] (showFloat : F → StringT) (h : Plain ok v) :
    ∃ ps, pieces showFloat v = .ok ps := by
  induction h with
  | blank | bool b | integer n | string h => exact ⟨_, rfl⟩
  | array _ ih =>
      obtain ⟨ps, hps⟩ := elemPieces_defined ih
      exact ⟨_, pieces_array.mpr ⟨ps, hps, rfl⟩⟩
  | list _ ih =>
      obtain ⟨ps, hps⟩ := elemPieces_defined ih
      exact ⟨_, pieces_list.mpr ⟨ps, hps, rfl⟩⟩
  | dict _ hkeys _ ih =>
      obtain ⟨ps, hps⟩ := entryPieces_defined hkeys ih
      exact ⟨_, pieces_dict.mpr ⟨ps, hps, rfl⟩⟩

/-! ### What the pieces are -/

/-- The pieces that do not depend on a value. -/
def fixedPieces : List Piece :=
  [⟨[], 5, nullText⟩, ⟨[], 3, trueText⟩, ⟨[], 4, falseText⟩, punct 6 123, punct 7 125, punct 8 91,
    punct 9 93, punct 10 44, punct 11 58]

theorem fixedPieces_ok : ∀ p ∈ fixedPieces, p.Ok := by
  have hall : ∀ p ∈ fixedPieces, p.ws = [] ∧ (scan .state0 p.lexeme).bind lexTerminal = some p.term ∧
      p.lexeme ≠ [] ∧ (∀ c ∈ p.lexeme, c ≠ 0) ∧ p.term ≠ 12 := by decide +kernel
  intro p hp
  obtain ⟨hws, hscan, hne, hnul, hskip⟩ := hall p hp
  exact ⟨by simp [hws], Option.bind_eq_some_iff.mp hscan, hne, hnul, hskip⟩

/-- What holds of the fixed pieces, of integers and of the strings of a value, holds of all its pieces. -/
theorem Plain.forall_pieces [LT F] [DecidableLT F] {P : Piece → Prop} (hfixed : ∀ p ∈ fixedPieces, P p)
    (hint : ∀ n, P ⟨[], 1, showInt n⟩) (hstring : ∀ s, ok s → P (stringPiece s)) (h : Plain ok v) :
    ∀ ps, pieces showFloat v = .ok ps → ∀ p ∈ ps, P p := by
  have hcomma : P (punct 10 44) := hfixed _ (by simp [fixedPieces])
  have hcolon : P (punct 11 58) := hfixed _ (by simp [fixedPieces])
  have hbracketed : ∀ {o c : Piece} {qs : List Piece}, o ∈ fixedPieces → c ∈ fixedPieces →
      (∀ p ∈ qs, P p) → ∀ p ∈ o :: (qs ++ [c]), P p := by
    intro o c qs ho hc hqs p hp
    simp only [List.mem_cons, List.mem_append, List.not_mem_nil, or_false] at hp
    rcases hp with rfl | hp | rfl
    · exact hfixed _ ho
    · exact hqs p hp
    · exact hfixed _ hc
  induction h with
  | blank =>
      rintro ps h
      cases h
      simpa using hfixed _ (by simp [fixedPieces])
  | bool b =>
      rintro ps h
      cases h
      cases b <;> simpa using hfixed _ (by simp [fixedPieces])
  | integer n =>
      rintro ps h
      cases h
      simpa using hint n
  | string hs =>
      rintro ps h
      cases h
      simpa using hstring _ hs
  | array _ ih =>
      rintro ps h
      obtain ⟨qs, hqs, rfl⟩ := pieces_array.mp h
      exact hbracketed (by simp [fixedPieces]) (by simp [fixedPieces]) (forall_elemPieces hcomma ih hqs)
  | list _ ih =>
      rintro ps h
      obtain ⟨qs, hqs, rfl⟩ := pieces_list.mp h
      exact hbracketed (by simp [fixedPieces]) (by simp [fixedPieces]) (forall_elemPieces hcomma ih hqs)
  | dict _ hkeys _ ih =>
      rintro ps h
      obtain ⟨qs, hqs, rfl⟩ := pieces_dict.mp h
      refine hbracketed (by simp [fixedPieces]) (by simp [fixedPieces]) (forall_entryPieces hcomma hcolon ?_ ih hqs)
      intro e he s hs
      obtain ⟨s', hs', hok⟩ := hkeys e he
      obtain rfl : s = s' := VarC.string.inj (hs.symm.trans hs')
      exact hstring s hok

theorem stringPiece_ok {s : StringT} (hs : 0 ∉ s) : (stringPiece s).Ok :=
  ⟨by simp [stringPiece], lexeme_literal (escape_lexes hs)⟩

/-- **The pieces of a value without NUL bytes can be lexed.** -/
theorem Plain.lexable [LT F] [DecidableLT F] (h : Plain (fun s => 0 ∉ s) v) {rest : StringT}
    (hps : pieces showFloat v = .ok ps) (hrest : isDelimiter (rest.headD 0) = true) : Lexable ps rest where
  ok := h.forall_pieces fixedPieces_ok (fun n => ⟨by simp, lexeme_showInt n⟩) (fun _ hs => stringPiece_ok hs)
    ps hps
  delimited := pieces_delimited v ps hps rest hrest

theorem elemPieces_mem (h : elemPieces showFloat first xs = .ok ps) {x : VarC F} (hx : x ∈ xs) :
    ∃ px, pieces showFloat x = .ok px ∧ ∀ p ∈ px, p ∈ ps := by
  induction xs generalizing first ps with
  | nil => cases hx
  | cons y xs ih =>
      obtain ⟨py, qs, hpy, hqs, rfl⟩ := elemPieces_cons.mp h
      rcases List.mem_cons.mp hx with rfl | hx
      · exact ⟨py, hpy, fun p hp => by simp [hp]⟩
      · obtain ⟨px, hpx, hsub⟩ := ih hqs hx
        exact ⟨px, hpx, fun p hp => by simp [hsub p hp]⟩

theorem entryPieces_mem (h : entryPieces showFloat first es = .ok ps) {e : VarC F × VarC F} (he : e ∈ es) :
    ∃ s pv, e.1 = .string s ∧ pieces showFloat e.2 = .ok pv ∧ stringPiece s ∈ ps ∧ ∀ p ∈ pv, p ∈ ps := by
  induction es generalizing first ps with
  | nil => cases he
  | cons d es ih =>
      obtain ⟨s, pv, qs, hs, hpv, hqs, rfl⟩ := entryPieces_cons.mp h
      rcases List.mem_cons.mp he with rfl | he
      · exact ⟨s, pv, hs, hpv, by simp, fun p hp => by simp [hp]⟩
      · obtain ⟨s', pv', hs', hpv', hkey, hsub⟩ := ih hqs he
        exact ⟨s', pv', hs', hpv', by simp [hkey], fun p hp => by simp [hsub p hp]⟩

/-- The strings of a value are among its pieces. -/
theorem Plain.of_pieces [LT F] [DecidableLT F] {ok' : StringT → Prop} (h : Plain ok v) :
    ∀ ps, pieces showFloat v = .ok ps → (∀ s, stringPiece s ∈ ps → ok' s) → Plain ok' v := by
  induction h with
  | blank => exact fun _ _ _ => .blank
  | bool b => exact fun _ _ _ => .bool b
  | integer n => exact fun _ _ _ => .integer n
  | string _ =>
      rintro ps hps hstring
      cases hps
      exact .string (hstring _ (by simp))
  | array _ ih =>
      rintro ps hps hstring
      obtain ⟨qs, hqs, rfl⟩ := pieces_array.mp hps
      refine .array fun x hx => ?_
      obtain ⟨px, hpx, hsub⟩ := elemPieces_mem hqs hx
      exact ih x hx px hpx fun s hs => hstring s (by simp [hsub _ hs])
  | list _ ih =>
      rintro ps hps hstring
      obtain ⟨qs, hqs, rfl⟩ := pieces_list.mp hps
      refine .list fun x hx => ?_
      obtain ⟨px, hpx, hsub⟩ := elemPieces_mem hqs hx
      exact ih x hx px hpx fun s hs => hstring s (by simp [hsub _ hs])
  | dict hsorted _ _ ih =>
      rintro ps hps hstring
      obtain ⟨qs, hqs, rfl⟩ := pieces_dict.mp hps
      refine .dict hsorted (fun e he => ?_) (fun e he => ?_)
      · obtain ⟨s, pv, hs, -, hkey, -⟩ := entryPieces_mem hqs he
        exact ⟨s, hs, hstring s (by simp [hkey])⟩
      · obtain ⟨s, pv, -, hpv, -, hsub⟩ := entryPieces_mem hqs he
        exact ih e he pv hpv fun s hs => hstring s (by simp [hsub _ hs])

/-! ### Read back -/

/-- Wherever the pieces stand, in front of a delimiter, they spell a tree whose value is `v`. -/
def Spells [LT F] [DecidableLT F] (ps : List Piece) (v : VarC F) : Prop :=
  ∀ source i rest, source.drop i = render ps ++ rest → isDelimiter (rest.headD 0) = true →
    ∃ t, Spelled [.value t] (tokensFrom i ps) ∧ treeValue source t = some v

/-- A token on the stack. -/
theorem spelled_token (t : Token) : Spelled [.term t] [t] := .term .nil

/-- A rule whose body is one token. -/
theorem spelled_unit {r : Nat} {t : Token} {head : Node} (hr : Produces r [.term t] head) : Spelled [head] [t] :=
  Spelled.reduceAll hr (spelled_token t)

/-- A string in the text. -/
theorem stringConst_piece {s rest source : StringT} {i : Nat} (hs : 0 ∉ s)
    (hdrop : source.drop i = render [stringPiece s] ++ rest) :
    stringConst source i (i + (stringPiece s).lexeme.length) = .ok s := by
  have hdrop' : source.drop i = literal (s.map escapeItem) ++ rest := by simpa [stringPiece] using hdrop
  have hconst := stringConst_literal (escape_lexes hs) hdrop'
  rw [itemsValue_escape] at hconst
  exact hconst

theorem drop_append {source text rest : StringT} {i : Nat} (h : source.drop i = text ++ rest) :
    source.drop (i + text.length) = rest := by
  rw [← List.drop_drop, h, List.drop_left]

section ReadBack
variable [LT F] [DecidableLT F]

/-- Elements that follow the values read so far. -/
theorem spells_more {source rest : StringT} {i : Nat} {qs : List Piece} {ts : List JTree} {w : List Token}
    (hx : ∀ x ∈ xs, ∀ px, pieces showFloat x = .ok px → Spells px (toArrays x))
    (hqs : elemPieces showFloat false xs = .ok qs) (hdrop : source.drop i = render qs ++ rest)
    (hrest : isDelimiter (rest.headD 0) = true) (hts : Spelled [.values ts] w) :
    ∃ us, Spelled [.values (ts ++ us)] (w ++ tokensFrom i qs) ∧
      valuesValue source us = some (xs.map toArrays) := by
  induction xs generalizing i qs ts w with
  | nil =>
      cases hqs
      exact ⟨[], by simpa [tokensFrom] using hts, rfl⟩
  | cons x xs ih =>
      obtain ⟨px, rs, hpx, hrs, rfl⟩ := elemPieces_cons.mp hqs
      simp only [comma, Bool.false_eq_true, if_false, List.append_assoc, render_append] at hdrop
      have hdrop₁ := drop_append hdrop
      have hdrop₂ := drop_append hdrop₁
      obtain ⟨t, ht, hval⟩ := hx x List.mem_cons_self px hpx source _ _ hdrop₁ (elemPieces_head hrs hrest)
      have hmore := Spelled.reduceAll (.valuesMore rfl) ((hts.append (spelled_token ⟨10, i, i + 1⟩)).append ht)
      obtain ⟨us, hus, hvals⟩ := ih (fun y hy => hx y (List.mem_cons_of_mem _ hy)) hrs hdrop₂ hmore
      refine ⟨t :: us, ?_, by simp [valuesValue, hval, hvals]⟩
      rw [List.append_assoc, tokensFrom_append, tokensFrom_append]
      simpa [comma, tokensFrom, punct, Nat.add_assoc] using hus

/-- The elements of an array. -/
theorem spells_elems {source rest : StringT} {i : Nat} {qs : List Piece}
    (hx : ∀ x ∈ xs, ∀ px, pieces showFloat x = .ok px → Spells px (toArrays x))
    (hqs : elemPieces showFloat true xs = .ok qs) (hdrop : source.drop i = render qs ++ rest)
    (hrest : isDelimiter (rest.headD 0) = true) {o : Token} (ho : o.term = 8) :
    ∃ us, Spelled [.arrayOpen us] (o :: tokensFrom i qs) ∧ valuesValue source us = some (xs.map toArrays) := by
  have hbegin : Spelled [.arrayBegin] [o] := spelled_unit (.arrayBegin ho)
  cases xs with
  | nil =>
      cases hqs
      exact ⟨[], Spelled.reduceAll .arrayEmpty hbegin, rfl⟩
  | cons x xs =>
      obtain ⟨px, rs, hpx, hrs, rfl⟩ := elemPieces_cons.mp hqs
      simp only [comma, if_true, List.nil_append, render_append, List.append_assoc] at hdrop ⊢
      have hdrop₁ := drop_append hdrop
      obtain ⟨t, ht, hval⟩ := hx x List.mem_cons_self px hpx source _ _ hdrop (elemPieces_head hrs hrest)
      obtain ⟨us, hus, hvals⟩ := spells_more (fun y hy => hx y (List.mem_cons_of_mem _ hy)) hrs hdrop₁ hrest
        (Spelled.reduceAll .valuesOne ht)
      refine ⟨t :: us, ?_, by simp [valuesValue, hval, hvals]⟩
      rw [tokensFrom_append]
      exact Spelled.reduceAll .arrayValues (hbegin.append hus)

/-- A key and its value. -/
theorem spells_pair {source rest : StringT} {i : Nat} {s : StringT} {pv : List Piece} {v : VarC F}
    (hs : 0 ∉ s) (hv : Spells pv v)
    (hdrop : source.drop i = render (stringPiece s :: punct 11 58 :: pv) ++ rest)
    (hrest : isDelimiter (rest.headD 0) = true) :
    ∃ k t, Spelled [.pair (k, t)] (tokensFrom i (stringPiece s :: punct 11 58 :: pv)) ∧
      stringConst source k.start k.stop = .ok s ∧ treeValue source t = some v := by
  rw [show stringPiece s :: punct 11 58 :: pv = [stringPiece s] ++ ([punct 11 58] ++ pv) from rfl] at hdrop ⊢
  simp only [render_append, List.append_assoc] at hdrop
  have hdrop₁ := drop_append hdrop
  have hdrop₂ := drop_append hdrop₁
  obtain ⟨t, ht, hval⟩ := hv source _ _ hdrop₂ hrest
  refine ⟨⟨0, i, i + (stringPiece s).lexeme.length⟩, t, ?_, stringConst_piece hs hdrop, hval⟩
  rw [tokensFrom_append, tokensFrom_append]
  exact Spelled.reduceAll (.pair rfl)
    (((spelled_unit (.string rfl)).append (spelled_token _)).append ht)

/-- Entries that follow the pairs read so far. -/
theorem spells_morePairs {source rest : StringT} {i : Nat} {qs : List Piece} {ts : List (Token × JTree)}
    {w : List Token} (hkeys : ∀ e ∈ es, ∃ s, e.1 = .string s ∧ 0 ∉ s)
    (hx : ∀ e ∈ es, ∀ pv, pieces showFloat e.2 = .ok pv → Spells pv (toArrays e.2))
    (hqs : entryPieces showFloat false es = .ok qs) (hdrop : source.drop i = render qs ++ rest)
    (hrest : isDelimiter (rest.headD 0) = true) (hts : Spelled [.pairs ts] w) :
    ∃ us, Spelled [.pairs (ts ++ us)] (w ++ tokensFrom i qs) ∧
      pairsValue source us = some (es.map (fun e => (toArrays e.1, toArrays e.2))) := by
  induction es generalizing i qs ts w with
  | nil =>
      cases hqs
      exact ⟨[], by simpa [tokensFrom] using hts, rfl⟩
  | cons e es ih =>
      obtain ⟨k, v⟩ := e
      obtain ⟨s, pv, rs, hk, hpv, hrs, rfl⟩ := entryPieces_cons.mp hqs
      obtain ⟨s', hs', hnul⟩ := hkeys (k, v) List.mem_cons_self
      obtain rfl : s = s' := VarC.string.inj (hk.symm.trans hs')
      simp only [comma, Bool.false_eq_true, if_false, List.append_assoc, render_append] at hdrop
      have hdrop₁ := drop_append hdrop
      have hdrop₂ := drop_append hdrop₁
      obtain ⟨kt, t, ht, hconst, hval⟩ := spells_pair hnul (hx (k, v) List.mem_cons_self pv hpv) hdrop₁
        (entryPieces_head hrs hrest)
      have hmore := Spelled.reduceAll (.pairsMore rfl) ((hts.append (spelled_token ⟨10, i, i + 1⟩)).append ht)
      obtain ⟨us, hus, hvals⟩ := ih (fun d hd => hkeys d (List.mem_cons_of_mem _ hd))
        (fun d hd => hx d (List.mem_cons_of_mem _ hd)) hrs hdrop₂ hmore
      refine ⟨(kt, t) :: us, ?_, by simp [pairsValue, hconst, hval, hvals, hk, toArrays, Except.toOption]⟩
      rw [List.append_assoc, tokensFrom_append, tokensFrom_append]
      simpa [comma, tokensFrom, punct, Nat.add_assoc] using hus

/-- The entries of an object. -/
theorem spells_entries {source rest : StringT} {i : Nat} {qs : List Piece}
    (hkeys : ∀ e ∈ es, ∃ s, e.1 = .string s ∧ 0 ∉ s)
    (hx : ∀ e ∈ es, ∀ pv, pieces showFloat e.2 = .ok pv → Spells pv (toArrays e.2))
    (hqs : entryPieces showFloat true es = .ok qs) (hdrop : source.drop i = render qs ++ rest)
    (hrest : isDelimiter (rest.headD 0) = true) {o : Token} (ho : o.term = 6) :
    ∃ us, Spelled [.dict us] (o :: tokensFrom i qs) ∧
      pairsValue source us = some (es.map (fun e => (toArrays e.1, toArrays e.2))) := by
  have hbegin : Spelled [.dictBegin] [o] := spelled_unit (.dictBegin ho)
  cases es with
  | nil =>
      cases hqs
      exact ⟨[], Spelled.reduceAll .dictEmpty hbegin, rfl⟩
  | cons e es =>
      obtain ⟨k, v⟩ := e
      obtain ⟨s, pv, rs, hk, hpv, hrs, rfl⟩ := entryPieces_cons.mp hqs
      obtain ⟨s', hs', hnul⟩ := hkeys (k, v) List.mem_cons_self
      obtain rfl : s = s' := VarC.string.inj (hk.symm.trans hs')
      simp only [comma, if_true, List.nil_append, render_append, List.append_assoc] at hdrop ⊢
      have hdrop₁ := drop_append hdrop
      obtain ⟨kt, t, ht, hconst, hval⟩ := spells_pair hnul (hx (k, v) List.mem_cons_self pv hpv) hdrop
        (entryPieces_head hrs hrest)
      obtain ⟨us, hus, hvals⟩ := spells_morePairs (fun d hd => hkeys d (List.mem_cons_of_mem _ hd))
        (fun d hd => hx d (List.mem_cons_of_mem _ hd)) hrs hdrop₁ hrest
        (Spelled.reduceAll .pairsOne ht)
      refine ⟨(kt, t) :: us, ?_, by simp [pairsValue, hconst, hval, hvals, hk, toArrays, Except.toOption]⟩
      rw [tokensFrom_append]
      exact Spelled.reduceAll .dictPairs (hbegin.append hus)

/-- Keys that are strings stay in order. -/
theorem keysSorted_toArrays (hsorted : VarC.KeysSorted es) (hkeys : ∀ e ∈ es, ∃ s, e.1 = .string s ∧ ok s) :
    VarC.KeysSorted (es.map (fun e => (toArrays e.1, toArrays e.2))) := by
  refine List.pairwise_map.mpr (hsorted.imp_of_mem fun {a b} ha hb hlt => ?_)
  obtain ⟨s, hs, -⟩ := hkeys a ha
  obtain ⟨s', hs', -⟩ := hkeys b hb
  rw [hs, hs'] at hlt ⊢
  exact hlt

/-- An object. -/
theorem spells_object {source rest : StringT} {i : Nat} (hsorted : VarC.KeysSorted es)
    (hkeys : ∀ e ∈ es, ∃ s, e.1 = .string s ∧ 0 ∉ s)
    (hx : ∀ e ∈ es, ∀ pv, pieces showFloat e.2 = .ok pv → Spells pv (toArrays e.2))
    (hps : pieces showFloat (.dict es) = .ok ps) (hdrop : source.drop i = render ps ++ rest) :
    ∃ us, Spelled [.object us] (tokensFrom i ps) ∧
      treeValue source (.object us) = some (toArrays (.dict es)) := by
  obtain ⟨qs, hqs, rfl⟩ := pieces_dict.mp hps
  rw [show punct 6 123 :: (qs ++ [punct 7 125]) = [punct 6 123] ++ (qs ++ [punct 7 125]) from rfl] at hdrop ⊢
  rw [tokensFrom_append, tokensFrom_append]
  simp only [render_append, List.append_assoc] at hdrop
  obtain ⟨us, hus, hvals⟩ := spells_entries hkeys hx hqs (drop_append hdrop) rfl (o := ⟨6, i, i + 1⟩) rfl
  refine ⟨us, Spelled.reduceAll (.object rfl) (hus.append (spelled_token _)), ?_⟩
  rw [treeValue, hvals, Option.map_some, VarC.insertAll_of_sorted (keysSorted_toArrays hsorted hkeys), toArrays,
    entriesToArrays_eq]

/-- **What `create` prints spells its value**, with arrays for lists. -/
theorem Plain.written (h : Plain (fun s => 0 ∉ s) v) :
    ∀ ps, pieces showFloat v = .ok ps → Spells ps (toArrays v) := by
  induction h with
  | blank =>
      rintro ps h source i rest - -
      cases h
      exact ⟨.null, spelled_unit (.valueNull rfl), rfl⟩
  | bool b =>
      rintro ps h source i rest - -
      cases h
      cases b with
      | true => exact ⟨.true_, spelled_unit (.valueTrue rfl), rfl⟩
      | false => exact ⟨.false_, spelled_unit (.valueFalse rfl), rfl⟩
  | integer n =>
      rintro ps h source i rest hdrop hrest
      cases h
      refine ⟨.integer _, spelled_unit (.valueInteger rfl), ?_⟩
      have hdrop' : source.drop i = showInt n ++ rest := by simpa using hdrop
      simp only [treeValue, List.length_nil, Nat.add_zero, hdrop', strtoll_showInt n hrest, toArrays]
  | string hs =>
      rintro ps h source i rest hdrop -
      cases h
      refine ⟨.string ⟨0, i, _⟩, Spelled.reduceAll .valueString (spelled_unit (.string rfl)), ?_⟩
      have hconst := stringConst_piece hs hdrop
      simp only [treeValue, stringPiece, List.length_nil, Nat.add_zero] at hconst ⊢
      rw [hconst]
      rfl
  | array _ ih | list _ ih =>
      rintro ps h source i rest hdrop -
      obtain ⟨qs, hqs, rfl⟩ := pieces_array.mp h
      rw [show punct 8 91 :: (qs ++ [punct 9 93]) = [punct 8 91] ++ (qs ++ [punct 9 93]) from rfl] at hdrop ⊢
      rw [tokensFrom_append, tokensFrom_append]
      simp only [render_append, List.append_assoc] at hdrop
      obtain ⟨us, hus, hvals⟩ := spells_elems ih hqs (drop_append hdrop) rfl (o := ⟨8, i, i + 1⟩) rfl
      refine ⟨.array us, Spelled.reduceAll .valueArray
        (Spelled.reduceAll (.array rfl) (hus.append (spelled_token _))), ?_⟩
      rw [treeValue, hvals, Option.map_some, toArrays, elemsToArrays_eq]
  | dict hsorted hkeys _ ih =>
      rintro ps h source i rest hdrop -
      obtain ⟨us, hus, hval⟩ := spells_object hsorted hkeys ih h hdrop
      exact ⟨.object us, Spelled.reduceAll .valueObject hus, hval⟩

end ReadBack

end Ccljson
end Cclib
