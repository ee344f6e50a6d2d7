import Cclib.Ccljson.Unicode

/-!
# `Ccljson.Decoder` — the loop of `pa_json_string`, byte by byte

`decodeString` is what the loop makes of the text between the quotes. Here is the loop itself: a cursor into the source,
an exit test that asks for equality, rounds that advance by one, two or six bytes, and a record of the positions it
reads. A token that the lexer recognised consists of whole characters and escapes (`literalAt_of_recognize`), each round
takes one of them (`decodeRound_item`), and so the cursor comes to the end of the token unless a round stops at the
escape `\/`.

## Contents
- `Cursor`, `hexRound`, `decodeRound`, `decodeToken`.
- `decodeRound_item`: a round of the loop.
- `decode_items`, `LiteralAt.decodeToken`: the whole loop.
- `decodeToken_stringConst`: the loop makes the string that `stringConst` says.
- `decoder_stays_inside_iff`.
-/

namespace Cclib
namespace Ccljson
open Cclvar

/-- `iter` as a position in the source, `const_str`, and the positions that were read. -/
structure Cursor where
  iter : Nat
  const_str : StringT
  reads : List Nat
deriving DecidableEq, Repr

/-- How `pa_json_string` gets its string, or does not. -/
inductive DecodeEnd where
  | landed
  | lengthError
  | hexAssert
  | switchAssert
deriving DecidableEq, Repr

/-! ## The loop -/

def byteAt (source : StringT) (k : Nat) : UInt8 := source.getD k 0

def Cursor.read (s : Cursor) : Cursor := { s with reads := s.reads ++ [s.iter] }

def Cursor.advance (s : Cursor) : Cursor := { s with iter := s.iter + 1 }

def Cursor.append (s : Cursor) (str : StringT) : Cursor := { s with const_str := s.const_str ++ str }

/-- One round of the loop over the digits of `\u`; it is left without a value where the assert fails. -/
def hexRound (ndebug : Bool) (source : StringT) (iter_end : Nat) : Loop.Body (Cursor × Nat) (Cursor × Option Nat)
  | (s, value) =>
    let value := value <<< 4
    let s := s.read
    match hexDigit (byteAt source s.iter), ndebug with
    | none, false => some (.inr (s, none))
    | d, _ =>
      let value := value + d.getD 0
      let s := s.advance
      if s.iter < iter_end then some (.inl (s, value)) else some (.inr (s, some value))

/-- The exit test of the loop. -/
def untilEnd (iter_end : Nat) (s : Cursor) : Option (Cursor ⊕ (DecodeEnd × Cursor)) :=
  if s.iter ≠ iter_end then some (.inl s) else some (.inr (.landed, s))

/-- One round of the loop of `pa_json_string`. With `ndebug`, asserts are compiled out. -/
def decodeRound (ndebug : Bool) (source : StringT) (iter_end : Nat) : Loop.Body Cursor (DecodeEnd × Cursor) := fun s =>
  let s := s.read
  if byteAt source s.iter = 92 then
    let s := s.advance.read
    if byteAt source s.iter = 117 then
      let s := s.advance
      -- four rounds: the inner loop stops where it is four bytes further
      match Loop.run (hexRound ndebug source (s.iter + 4)) 4 (s, 0) with
      | none => none
      | some (s, none) => some (.inr (.hexAssert, s))
      | some (s, some value) => untilEnd iter_end (s.append (utf8 value))
    else
      let c := byteAt source s.iter
      let s := s.advance
      match unescape c, ndebug with
      | some c, _ => untilEnd iter_end (s.append [c])
      | none, true => untilEnd iter_end s
      | none, false => some (.inr (.switchAssert, s))
  else untilEnd iter_end (s.advance.append [byteAt source s.iter])

/-- `pa_json_string` up to the end of its loop, for the token from `start` to `stop`. -/
def decodeToken (ndebug : Bool) (source : StringT) (start stop fuel : Nat) : Option (DecodeEnd × Cursor) :=
  let s : Cursor := ⟨start + 1, [], []⟩
  if stop < start + 2 then some (.lengthError, s)
  else if start + 1 < stop - 1 then Loop.run (decodeRound ndebug source (stop - 1)) fuel s
  else some (.landed, s)

variable {source tail : StringT} {ndebug : Bool} {s : Cursor} {item : Item} {items : List Item}
  {iter_end start stop fuel i j n : Nat} {c : UInt8}

/-! ## A round -/

theorem byteAt_of_drop {k : Nat} (h : source.drop k = c :: tail) : byteAt source k = c := by
  have hget : source[k]? = some c := by
    rw [← Nat.add_zero k, ← List.getElem?_drop, h]
    rfl
  rw [byteAt, List.getD_eq_getElem?_getD, hget]
  rfl

/-- The cursor behind the next `n` bytes, which have been read. -/
def Cursor.skip (s : Cursor) (n : Nat) : Cursor :=
  { s with iter := s.iter + n, reads := s.reads ++ List.range' s.iter n }

theorem Cursor.skip_succ (s : Cursor) (n : Nat) : s.read.advance.skip n = s.skip (n + 1) := by
  simp only [Cursor.skip, Cursor.read, Cursor.advance, List.range'_succ, List.append_assoc, List.singleton_append]
  rw [Nat.add_assoc, Nat.add_comm 1 n]

theorem Cursor.skip_zero (s : Cursor) : s.skip 0 = s := by
  simp only [Cursor.skip, List.range'_zero, List.append_nil]
  rfl

theorem Cursor.append_nil (s : Cursor) : s.append [] = s := by
  rw [Cursor.append, List.append_nil]

/-- A round of the inner loop, on a digit. -/
theorem hexRound_digit {d : Nat} (hd : hexDigit (byteAt source s.iter) = some d) (value : Nat) :
    hexRound ndebug source iter_end (s, value) =
      if s.iter + 1 < iter_end then some (.inl (s.read.advance, (value <<< 4) + d))
      else some (.inr (s.read.advance, some ((value <<< 4) + d))) := by
  simp only [hexRound, Cursor.read, hd]
  rfl

/-- The inner loop reads digits up to its end. -/
theorem hexRounds {ds : StringT} (hne : ds ≠ []) (h : ∀ d ∈ ds, (hexDigit d).isSome = true)
    (hdrop : source.drop s.iter = ds ++ tail) (hend : iter_end = s.iter + ds.length) (value : Nat) :
    ∃ v, ds.foldlM (fun value c => (hexDigit c).map (fun d => (value <<< 4) + d)) value = some v ∧
      Loop.run (hexRound ndebug source iter_end) ds.length (s, value) = some (s.skip ds.length, some v) := by
  induction ds generalizing s value with
  | nil => exact absurd rfl hne
  | cons d ds ih =>
      obtain ⟨hd, hds⟩ := List.forall_mem_cons.mp h
      obtain ⟨n, hn⟩ := Option.isSome_iff_exists.mp hd
      rw [← byteAt_of_drop hdrop] at hn
      have hround := @hexRound_digit source ndebug s iter_end n hn value
      rw [List.length_cons] at hend
      rw [List.foldlM_cons, ← byteAt_of_drop hdrop, hn, Option.map_some, List.length_cons, ← Cursor.skip_succ]
      cases ds with
      | nil =>
          rw [if_neg (by rw [hend]; exact Nat.lt_irrefl _)] at hround
          rw [List.length_nil, Cursor.skip_zero]
          exact ⟨_, rfl, Loop.run_done hround 0⟩
      | cons e ds =>
          rw [if_pos (by rw [hend, List.length_cons]; omega)] at hround
          obtain ⟨v, hv, hrun⟩ := @ih s.read.advance (List.cons_ne_nil _ _) hds (drop_succ hdrop)
            (by rw [hend, List.length_cons]; simp only [Cursor.advance, Cursor.read]; omega) ((value <<< 4) + n)
          exact ⟨v, hv, (Loop.run_next hround _).trans hrun⟩

/-- What a round appends for an item; `none` where its assert stops it. -/
def Item.appended (ndebug : Bool) (item : Item) : Option StringT :=
  if ndebug then some (item.value.getD []) else item.value

theorem untilEnd_done (h : s.iter = iter_end) : untilEnd iter_end s = some (.inr (.landed, s)) :=
  if_neg (not_not_intro h)

theorem untilEnd_next (h : s.iter ≠ iter_end) : untilEnd iter_end s = some (.inl s) := if_pos h

/-- A round on a two-character escape. -/
theorem decodeRound_esc (h : (Item.esc c).Lexes) (hdrop : source.drop s.iter = 92 :: c :: tail) :
    decodeRound ndebug source iter_end s =
      match (Item.esc c).appended ndebug with
      | some v => untilEnd iter_end ((s.skip 2).append v)
      | none => some (.inr (.switchAssert, s.skip 2)) := by
  have hc : byteAt source s.iter = 92 := byteAt_of_drop hdrop
  have he : byteAt source (s.iter + 1) = c := byteAt_of_drop (drop_succ hdrop)
  have hne : c ≠ 117 := by
    rintro rfl
    have hmem : (117 : UInt8) ∉ [34, 47, 92, 98, 102, 110, 114, 116] := by decide
    exact hmem h
  have hskip : s.skip 2 = s.read.advance.read.advance := by
    rw [← Cursor.skip_succ, ← Cursor.skip_succ, Cursor.skip_zero]
  rw [hskip, Item.appended, Item.value]
  simp only [decodeRound, Cursor.read, Cursor.advance, hc, he, if_true, if_neg hne]
  cases unescape c with
  | none =>
      cases ndebug with
      | false => rfl
      | true => exact congrArg (untilEnd iter_end) (Cursor.append_nil _).symm
  | some b => cases ndebug <;> rfl

/-- A round on `\u` and its digits. -/
theorem decodeRound_unicode {d₁ d₂ d₃ d₄ : UInt8} (h : (Item.unicode d₁ d₂ d₃ d₄).Lexes)
    (hdrop : source.drop s.iter = 92 :: 117 :: ([d₁, d₂, d₃, d₄] ++ tail)) :
    ∃ v, (Item.unicode d₁ d₂ d₃ d₄).appended ndebug = some v ∧
      decodeRound ndebug source iter_end s = untilEnd iter_end ((s.skip 6).append v) := by
  have hc : byteAt source s.iter = 92 := byteAt_of_drop hdrop
  have he : byteAt source (s.iter + 1) = 117 := byteAt_of_drop (drop_succ hdrop)
  have hskip : s.skip 6 = s.read.advance.read.advance.skip 4 := by
    rw [← Cursor.skip_succ, ← Cursor.skip_succ]
  obtain ⟨value, hv, hrun⟩ := @hexRounds source tail ndebug s.read.advance.read.advance (s.iter + 1 + 1 + 4)
    [d₁, d₂, d₃, d₄] (List.cons_ne_nil _ _) h (drop_succ (drop_succ hdrop)) rfl 0
  have hvalue : unicodeValue [d₁, d₂, d₃, d₄] = some value := hv
  refine ⟨utf8 value, ?_, ?_⟩
  · rw [Item.appended, Item.value, hvalue]
    cases ndebug <;> rfl
  · rw [hskip, decodeRound]
    simp only [Cursor.read, Cursor.advance, hc, he, if_true]
    simp only [Cursor.read, Cursor.advance, List.length_cons, List.length_nil] at hrun
    rw [hrun]

/-- **A round** reads an item, whole. -/
theorem decodeRound_item (h : item.Lexes) (hdrop : source.drop s.iter = item.text ++ tail) :
    decodeRound ndebug source iter_end s =
      match item.appended ndebug with
      | some v => untilEnd iter_end ((s.skip item.text.length).append v)
      | none => some (.inr (.switchAssert, s.skip item.text.length)) := by
  cases item with
  | raw c =>
      have hc : byteAt source s.iter = c := byteAt_of_drop hdrop
      have hne : c ≠ 92 := h.2.2
      have happended : (Item.raw c).appended ndebug = some [c] := by
        cases ndebug <;> rfl
      simp only [decodeRound, Cursor.read, Cursor.advance, hc, if_neg hne, happended]
      rfl
  | esc c => exact decodeRound_esc h hdrop
  | unicode d₁ d₂ d₃ d₄ =>
      obtain ⟨v, happended, hround⟩ := decodeRound_unicode h hdrop
      rw [happended]
      exact hround

/-! ## The loop -/

/-- What the loop appends for items; `none` where an assert stops it. -/
def itemsAppended (ndebug : Bool) : List Item → Option StringT
  | [] => some []
  | item :: items => (item.appended ndebug).bind (fun v => (itemsAppended ndebug items).map (v ++ ·))

theorem itemsAppended_false (items : List Item) : itemsAppended false items = itemsValue items := by
  induction items with
  | nil => rfl
  | cons item items ih =>
      rw [itemsAppended, ih]
      rfl

theorem itemsAppended_true (items : List Item) : (itemsAppended true items).isSome = true := by
  induction items with
  | nil => rfl
  | cons item items ih =>
      obtain ⟨v, hv⟩ := Option.isSome_iff_exists.mp ih
      rw [itemsAppended, hv]
      rfl

/-- From `s` the loop was left with `out` at `t`: it read nothing at or behind `iter_end`, and came to `iter_end` with
all items appended unless an assert stopped it. -/
structure Decoded (ndebug : Bool) (items : List Item) (iter_end : Nat) (s : Cursor) (out : DecodeEnd) (t : Cursor) :
    Prop where
  reads : ∀ k ∈ t.reads, k ∈ s.reads ∨ s.iter ≤ k ∧ k < iter_end
  ends : match itemsAppended ndebug items with
    | some v => out = .landed ∧ t.iter = iter_end ∧ t.const_str = s.const_str ++ v
    | none => out = .switchAssert

theorem mem_skip {k m : Nat} (h : k ∈ (s.skip m).reads) : k ∈ s.reads ∨ s.iter ≤ k ∧ k < s.iter + m := by
  rcases List.mem_append.mp h with h | h
  · exact Or.inl h
  · exact Or.inr (List.mem_range'_1.mp h)

theorem Item.length_pos (item : Item) : 0 < item.text.length := by
  cases item <;> exact Nat.zero_lt_succ _

theorem itemsText_cons (item : Item) (items : List Item) : itemsText (item :: items) = item.text ++ itemsText items :=
  List.flatMap_cons

theorem Decoded.stopped (happended : item.appended ndebug = none) (hle : s.iter + item.text.length ≤ iter_end) :
    Decoded ndebug (item :: items) iter_end s .switchAssert (s.skip item.text.length) := by
  refine ⟨?_, ?_⟩
  · intro k hk
    exact (mem_skip hk).imp_right (fun hk => ⟨hk.1, Nat.lt_of_lt_of_le hk.2 hle⟩)
  · rw [itemsAppended, happended]
    rfl

theorem Decoded.last {v : StringT} (happended : item.appended ndebug = some v)
    (hend : s.iter + item.text.length = iter_end) :
    Decoded ndebug [item] iter_end s .landed ((s.skip item.text.length).append v) := by
  refine ⟨?_, ?_⟩
  · intro k hk
    exact (mem_skip hk).imp_right (fun hk => ⟨hk.1, Nat.lt_of_lt_of_le hk.2 (Nat.le_of_eq hend)⟩)
  · rw [itemsAppended, happended, itemsAppended, Option.bind_some, Option.map_some, List.append_nil]
    exact ⟨rfl, hend, rfl⟩

/-- An item in front. -/
theorem Decoded.cons {v : StringT} {out : DecodeEnd} {t : Cursor} (happended : item.appended ndebug = some v)
    (hle : s.iter + item.text.length ≤ iter_end)
    (h : Decoded ndebug items iter_end ((s.skip item.text.length).append v) out t) :
    Decoded ndebug (item :: items) iter_end s out t := by
  obtain ⟨hreads, hends⟩ := h
  refine ⟨?_, ?_⟩
  · intro k hk
    rcases hreads k hk with hk | ⟨hge, hlt⟩
    · exact (mem_skip hk).imp_right (fun hk => ⟨hk.1, Nat.lt_of_lt_of_le hk.2 hle⟩)
    · exact Or.inr ⟨Nat.le_trans (Nat.le_add_right _ _) hge, hlt⟩
  · rw [itemsAppended, happended, Option.bind_some]
    cases hrest : itemsAppended ndebug items with
    | none =>
        rw [hrest] at hends
        exact hends
    | some w =>
        rw [hrest] at hends
        obtain ⟨hout, hiter, hstr⟩ := hends
        refine ⟨hout, hiter, ?_⟩
        rw [hstr, ← List.append_assoc]
        rfl

/-- **The loop over items** is left, at the end of the items or at one that its assert stops at. -/
theorem decode_items (hne : items ≠ []) (h : ∀ item ∈ items, item.Lexes)
    (hdrop : source.drop s.iter = itemsText items ++ tail) (hend : iter_end = s.iter + (itemsText items).length) :
    ∃ out t, Loop.Returns (decodeRound ndebug source iter_end) s (out, t) ∧ Decoded ndebug items iter_end s out t := by
  induction items generalizing s with
  | nil => exact absurd rfl hne
  | cons item items ih =>
      obtain ⟨hitem, hitems⟩ := List.forall_mem_cons.mp h
      rw [itemsText_cons, List.append_assoc] at hdrop
      rw [itemsText_cons, List.length_append] at hend
      have hround := @decodeRound_item source _ ndebug s item iter_end hitem hdrop
      have hle : s.iter + item.text.length ≤ iter_end := by omega
      cases happended : item.appended ndebug with
      | none =>
          rw [happended] at hround
          exact ⟨_, _, Loop.returns_of_done hround, .stopped happended hle⟩
      | some v =>
          rw [happended] at hround
          change _ = untilEnd iter_end ((s.skip item.text.length).append v) at hround
          cases items with
          | nil =>
              have hiter : s.iter + item.text.length = iter_end := hend.symm
              rw [untilEnd_done hiter] at hround
              exact ⟨_, _, Loop.returns_of_done hround, .last happended hiter⟩
          | cons item' items =>
              have hlonger : ((s.skip item.text.length).append v).iter ≠ iter_end := by
                change s.iter + item.text.length ≠ iter_end
                have hpos := item'.length_pos
                rw [itemsText_cons, List.length_append] at hend
                omega
              rw [untilEnd_next hlonger] at hround
              have hdrop' : source.drop (s.iter + item.text.length) = itemsText (item' :: items) ++ tail := by
                rw [← List.drop_drop, hdrop, List.drop_left]
              obtain ⟨out, t, hreturns, hdecoded⟩ :=
                @ih ((s.skip item.text.length).append v) (List.cons_ne_nil _ _) hitems hdrop'
                  (by rw [hend, ← Nat.add_assoc]; rfl)
              exact ⟨out, t, (Loop.Next.returns_iff hround).mpr hreturns, .cons happended hle hdecoded⟩

/-! ## Tokens -/

theorem decodeToken_unique {fuel' : Nat} {r r' : DecodeEnd × Cursor}
    (h : decodeToken ndebug source start stop fuel = some r)
    (h' : decodeToken ndebug source start stop fuel' = some r') : r = r' := by
  unfold decodeToken at h h'
  split_ifs at h h' with hlength hentered
  · exact Option.some.inj (h.symm.trans h')
  · exact Loop.Returns.unique ⟨fuel, h⟩ ⟨fuel', h'⟩
  · exact Option.some.inj (h.symm.trans h')

/-- **A token** that the cursor does not wrap in is decoded between its quotes. -/
theorem LiteralAt.decodeToken (h : LiteralAt source i n j items) (hlt : i + n < c_uint32_range) (ndebug : Bool) :
    i + 2 ≤ j ∧ between source i j = literal items ∧
      ∃ fuel out t, Ccljson.decodeToken ndebug source i j fuel = some (out, t) ∧
        Decoded ndebug items (j - 1) ⟨i + 1, [], []⟩ out t := by
  obtain ⟨rfl, hlen, hdrop⟩ := h.walks.text hlt
  rw [h.text_eq] at hlen hdrop
  have hn : n = (itemsText items).length + 2 := by
    rw [← hlen, literal, List.length_cons, List.length_append, List.length_singleton]
  have hbody : source.drop (i + 1) = itemsText items ++ (34 :: source.drop (i + n)) := by
    rw [← List.drop_drop, hdrop, literal, List.cons_append, List.drop_succ_cons, List.drop_zero, List.append_assoc]
    rfl
  refine ⟨by omega, ?_, ?_⟩
  · rw [between, hdrop, Nat.add_sub_cancel_left, ← hlen, List.take_left]
  · cases items with
    | nil =>
        obtain rfl : n = 2 := hn
        refine ⟨0, .landed, ⟨i + 1, [], []⟩, ?_, ?_, ?_⟩
        · rw [Ccljson.decodeToken, if_neg (by omega), if_neg (by omega)]
        · exact fun k hk => absurd hk List.not_mem_nil
        · exact ⟨rfl, rfl, rfl⟩
    | cons item items =>
        have hpos : 0 < (itemsText (item :: items)).length := by
          rw [itemsText_cons, List.length_append]
          exact Nat.add_pos_left item.length_pos _
        obtain ⟨out, t, ⟨fuel, hrun⟩, hdecoded⟩ :=
          @decode_items source _ ndebug ⟨i + 1, [], []⟩ (item :: items) (i + n - 1) (List.cons_ne_nil _ _) h.lexes hbody
            (by rw [hn]; change _ = i + 1 + _; omega)
        refine ⟨fuel, out, t, ?_, hdecoded⟩
        rw [Ccljson.decodeToken, if_neg (by omega), if_pos (by omega)]
        exact hrun

/-- Where the cursor wraps in it, `reserve` throws. -/
theorem LiteralAt.decodeToken_wrapped (h : LiteralAt source i n j items) (hi : i < c_uint32_range)
    (hwrap : c_uint32_range ≤ i + n) (ndebug : Bool) (fuel : Nat) :
    j < i + 2 ∧ Ccljson.decodeToken ndebug source i j fuel = some (.lengthError, ⟨i + 1, [], []⟩) := by
  have hstop := h.stop_of_wrapped hi hwrap
  exact ⟨hstop, if_pos hstop⟩

/-- **The loop makes the string** that `stringConst` says, and fails where it does. -/
theorem decodeToken_stringConst (hi : i < c_uint32_range) (h : recognizeTerminal fuel source i = some (some 0, j)) :
    ∃ fuel out t, decodeToken false source i j fuel = some (out, t) ∧
      stringConst source i j =
        match out with
        | .landed => .ok t.const_str
        | .lengthError => .error .lengthError
        | _ => .error .assertFailed := by
  obtain ⟨n, items, hat⟩ := literalAt_of_recognize hi h
  rcases Nat.lt_or_ge (i + n) c_uint32_range with hlt | hge
  · obtain ⟨-, -, fuel, out, t, hrun, -, hends⟩ := hat.decodeToken hlt false
    refine ⟨fuel, out, t, hrun, ?_⟩
    obtain ⟨rfl, hlen, hdrop⟩ := hat.walks.text hlt
    rw [hat.text_eq] at hlen hdrop
    have hconst := stringConst_literal hat.lexes hdrop
    rw [hlen] at hconst
    rw [hconst]
    rw [itemsAppended_false] at hends
    cases hvalue : itemsValue items with
    | none =>
        rw [hvalue] at hends
        rw [hends]
    | some v =>
        rw [hvalue] at hends
        obtain ⟨rfl, -, hstr⟩ := hends
        rw [hstr]
        rfl
  · obtain ⟨hstop, hrun⟩ := hat.decodeToken_wrapped hi hge false 0
    exact ⟨0, _, _, hrun, by rw [stringConst, if_pos hstop]⟩

theorem hasSolidus_of_length {text : StringT} (h : text.length ≤ 1) : hasSolidus text = false := by
  cases text with
  | nil => rfl
  | cons a rest =>
      cases rest with
      | nil => rfl
      | cons b rest => exact absurd h (by rw [List.length_cons, List.length_cons]; omega)

/-- The decoder of the token from `start` to `stop` returns, reads nothing but what stands between the quotes, does not
come to the assert on digits, and where `reserve` does not throw, its cursor stops at the closing quote. -/
def StaysInside (ndebug : Bool) (source : StringT) (start stop : Nat) : Prop :=
  ∃ fuel out t, decodeToken ndebug source start stop fuel = some (out, t) ∧
    (∀ k ∈ t.reads, start < k ∧ k < stop - 1) ∧ out ≠ .hexAssert ∧
    (start + 2 ≤ stop → out = .landed ∧ t.iter = stop - 1)

theorem itemsAppended_isSome (h : ∀ item ∈ items, item.Lexes) (ndebug : Bool) :
    (itemsAppended ndebug items).isSome = true ↔ ndebug = true ∨ hasSolidus (literal items) = false := by
  have hsolidus := hasSolidus_literal h []
  rw [List.append_nil, hasSolidus, Bool.or_false] at hsolidus
  rw [hsolidus, decide_eq_false_iff_not, ← itemsValue_isSome h]
  cases ndebug with
  | false =>
      rw [itemsAppended_false]
      exact ⟨Or.inr, fun h => h.resolve_left Bool.false_ne_true⟩
  | true => exact ⟨fun _ => Or.inl rfl, fun _ => itemsAppended_true items⟩

/-- What `Decoded` says of a token. -/
theorem Decoded.staysInside_iff {out : DecodeEnd} {t : Cursor} (hle : start + 2 ≤ stop)
    (hrun : decodeToken ndebug source start stop fuel = some (out, t))
    (h : Decoded ndebug items (stop - 1) ⟨start + 1, [], []⟩ out t) :
    StaysInside ndebug source start stop ↔ (itemsAppended ndebug items).isSome = true := by
  obtain ⟨hreads, hends⟩ := h
  cases hvalue : itemsAppended ndebug items with
  | none =>
      rw [hvalue] at hends
      refine ⟨?_, fun h => absurd h Bool.false_ne_true⟩
      rintro ⟨fuel', out', t', hrun', -, -, hlands⟩
      have hsame := decodeToken_unique hrun hrun'
      cases hsame
      rw [(hlands hle).1] at hends
      cases hends
  | some v =>
      rw [hvalue] at hends
      obtain ⟨rfl, hiter, -⟩ := hends
      refine ⟨fun _ => rfl, fun _ => ⟨fuel, _, t, hrun, ?_, by decide, fun _ => ⟨rfl, hiter⟩⟩⟩
      intro k hk
      rcases hreads k hk with hk | hk
      · exact absurd hk List.not_mem_nil
      · exact hk

/-- **The decoder stays inside its token** exactly where asserts are compiled out or the token has no escape `\/`. -/
theorem decoder_stays_inside_iff (ndebug : Bool) (hi : i < c_uint32_range)
    (h : recognizeTerminal fuel source i = some (some 0, j)) :
    StaysInside ndebug source i j ↔ ndebug = true ∨ hasSolidus (between source i j) = false := by
  obtain ⟨n, items, hat⟩ := literalAt_of_recognize hi h
  rcases Nat.lt_or_ge (i + n) c_uint32_range with hlt | hge
  · obtain ⟨hle, hbetween, fuel, out, t, hrun, hdecoded⟩ := hat.decodeToken hlt ndebug
    rw [hdecoded.staysInside_iff hle hrun, itemsAppended_isSome hat.lexes, hbetween]
  · obtain ⟨hstop, hrun⟩ := hat.decodeToken_wrapped hi hge ndebug 0
    constructor
    · intro _
      refine Or.inr (hasSolidus_of_length ?_)
      -- at most one byte stands from `i` to `j`
      rw [between, List.length_take]
      omega
    · intro _
      exact ⟨0, _, _, hrun, fun k hk => absurd hk List.not_mem_nil, by decide, fun hle => absurd hle (by omega)⟩

/-- The theorem for an accented letter, `"\u00e9"`. -/
theorem decoder_stays_inside_letter : StaysInside false [0x22, 0x5c, 0x75, 0x30, 0x30, 0x65, 0x39, 0x22] 0 8 := by
  have hrec : recognizeTerminal 8 [0x22, 0x5c, 0x75, 0x30, 0x30, 0x65, 0x39, 0x22] 0 = some (some 0, 8) := rfl
  exact (decoder_stays_inside_iff false (by decide) hrec).mpr (Or.inr rfl)

/-- The text `{"a":"\/b"}`. -/
def solidusLetterText : StringT := [0x7b, 0x22, 0x61, 0x22, 0x3a, 0x22, 0x5c, 0x2f, 0x62, 0x22, 0x7d]

/-- The decoder of its second string does not come to the end of the token. -/
theorem solidus_stops : recognizeTerminal 10 solidusLetterText 5 = some (some 0, 10) ∧
    decodeToken false solidusLetterText 5 10 3 = some (.switchAssert, ⟨8, [], [6, 7]⟩) ∧
    ¬ ∀ source i j fuel, i < c_uint32_range → recognizeTerminal fuel source i = some (some 0, j) →
      StaysInside false source i j := by
  have hrec : recognizeTerminal 10 solidusLetterText 5 = some (some 0, 10) := rfl
  have hrun : decodeToken false solidusLetterText 5 10 3 = some (.switchAssert, ⟨8, [], [6, 7]⟩) := rfl
  refine ⟨hrec, hrun, ?_⟩
  intro h
  obtain ⟨fuel, out, t, hrun', -, -, hlands⟩ := h solidusLetterText 5 10 10 (by decide) hrec
  have hsame := decodeToken_unique hrun hrun'
  cases hsame
  cases (hlands (by decide)).1

end Ccljson
end Cclib
