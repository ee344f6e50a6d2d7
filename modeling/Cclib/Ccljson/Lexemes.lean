import Cclib.Ccljson.Rfc

/-!
# `Ccljson.Lexemes` — what the lexer takes for a lexeme

The converse of lexing known text. A terminal is recognised for a lexeme that its automaton reads and that
what follows does not go on (`LexemeAt`), and the text that leads to a label looks as `LexState.Text` says.
The lexer accepts more than RFC 8259: a decimal point without digits behind it, any byte but NUL, `"` and `\`
in a string, and the bytes 8 to 13 as white space.

- `recognized` — a terminal and its lexeme.
- `scan_text` — the texts that lead to a label, by induction on their last character.
- `recognized_lexeme` — the lexemes of numbers, strings, words and white space.
-/

namespace Cclib
namespace Ccljson
open Cclvar

/-! ## A terminal and its lexeme -/

/-- At `i` stands a lexeme of the terminal `term`, `rest` follows it and does not go on with it. -/
structure LexemeAt (source : StringT) (i term j : Nat) (lexeme rest : StringT) : Prop where
  drop_eq : source.drop i = lexeme ++ rest
  stop_eq : j = i + lexeme.length
  ne_nil : lexeme ≠ []
  no_nul : ∀ c ∈ lexeme, c ≠ 0
  stops : ∃ state, scan .state0 lexeme = some state ∧ lexTerminal state = some term ∧
    lexGoto state (rest.headD 0).toNat = .inr (some term)

/-- From `i` on the cursor comes to a NUL, or to the end of the source, before it wraps. -/
def Stops (source : StringT) (i : Nat) : Prop :=
  inChar source i ≠ 0 → ∃ n, i < n ∧ n < c_uint32_range ∧ inChar source n = 0

section Recognized

variable {source lexeme rest : StringT} {i j k t fuel : Nat} {state state' : LexState}

theorem stops_of_length (hlt : source.length < c_uint32_range) (i : Nat) : Stops source i := by
  intro hc
  refine ⟨source.length, ?_, hlt, ?_⟩
  · by_contra hge
    rw [inChar_eq, List.drop_eq_nil_of_le (by omega)] at hc
    exact hc rfl
  · rw [inChar_eq, List.drop_length]
    rfl

/-- Behind the start a NUL leads nowhere, or out of a string. -/
theorem lexTerminal_of_nul (hstate : state ≠ .state0) (h : lexGoto state 0 = .inl state') :
    lexTerminal state' = none := by
  have hall : ∀ state : LexState, state ≠ .state0 → lexGoto state 0 = .inl .state2 ∨
      lexGoto state 0 = .inr (lexTerminal state) := by
    intro state
    cases state <;> decide
  rcases hall state hstate with h' | h'
  · rw [h'] at h
    obtain rfl := Sum.inl.inj h
    rfl
  · rw [h'] at h
    cases h

/-- Nothing leads back to the start. -/
theorem ne_start {in_char : Nat} (h : lexGoto state in_char = .inl state') : state' ≠ .state0 := by
  have hall : ∀ state : LexState, ∀ arm ∈ lexArms state, arm.2.2 ≠ .state0 := by
    intro state
    cases state <;> decide
  rcases lexGoto_cases state in_char with ⟨arm, harm, hgoto, -⟩ | hgoto
  · rw [hgoto] at h
    rw [← Sum.inl.inj h]
    exact hall state arm harm
  · rw [hgoto] at h
    cases h

theorem lexTerminal_of_out {in_char : Nat} (h : lexGoto state in_char = .inr (some t)) : lexTerminal state = some t := by
  rcases lexGoto_cases state in_char with ⟨_, _, hgoto, -⟩ | hgoto
  · rw [hgoto] at h
    cases h
  · rw [hgoto] at h
    exact Sum.inr.inj h

theorem drop_eq_cons (h : inChar source k ≠ 0) :
    ∃ c : UInt8, c ≠ 0 ∧ c.toNat = inChar source k ∧ source.drop k = c :: source.drop (k + 1) := by
  rcases Nat.lt_or_ge k source.length with hlt | hge
  · have hdrop : source.drop k = source[k] :: source.drop (k + 1) := List.drop_eq_getElem_cons hlt
    have hc := inChar_of_drop hdrop
    refine ⟨source[k], ?_, hc.symm, hdrop⟩
    intro hnul
    rw [hc, hnul] at h
    exact h rfl
  · rw [inChar_eq, List.drop_eq_nil_of_le hge] at h
    exact absurd rfl h

/-- The characters that the cursor moves over from `i` on, `n` of them. -/
def walked (source : StringT) : Nat → Nat → StringT
  | _, 0 => []
  | i, n + 1 => UInt8.ofNat (inChar source i) :: walked source ((i + 1) % c_uint32_range) n

theorem inChar_byte (source : StringT) (k : Nat) : (UInt8.ofNat (inChar source k)).toNat = inChar source k := by
  rw [inChar_eq, UInt8.ofNat_toNat]

/-- The rounds from a label on read the rest of a lexeme. -/
theorem run_walked (hk : k < c_uint32_range) (hstate : state ≠ .state0)
    (h : Loop.run (lexRound source) fuel (state, inChar source k, k) = some (some t, j)) :
    (inChar source k = 0 ∧ lexTerminal state = some t ∧ j = k) ∨
      ∃ n state', Walks source k (n + 1) j ∧ scan state (walked source ((k + 1) % c_uint32_range) n) = some state' ∧
        lexGoto state' (inChar source j) = .inr (some t) := by
  induction fuel generalizing state k with
  | zero => cases h
  | succ fuel ih =>
      rcases run_succ h with ⟨hc, hterm, hj⟩ | ⟨hc, state₁, hgoto, h⟩ | ⟨hc, hgoto, rfl⟩
      · exact Or.inl ⟨hc, hterm, hj⟩
      · have hone := walks_one hk hc
        rcases ih hone.lt (ne_start hgoto) h with ⟨hnul, hterm, -⟩ | ⟨n, state', hwalks, hscan, hout⟩
        · -- the text ends here, inside a lexeme
          rw [hnul] at hgoto
          rw [lexTerminal_of_nul hstate hgoto] at hterm
          cases hterm
        · refine Or.inr ⟨n + 1, state', ?_, ?_, hout⟩
          · rw [show n + 1 + 1 = 1 + (n + 1) by omega]
            exact hone.trans hwalks
          · rw [walked, scan, inChar_byte, hgoto]
            exact hscan
      · exact Or.inr ⟨0, state, walks_one hk hc, rfl, hgoto⟩

/-- **What a recognised terminal was recognised for**: the end of the input, or the characters the cursor
    moved over. -/
theorem recognized_walked (hi : i < c_uint32_range) (h : recognizeTerminal fuel source i = some (some t, j)) :
    (t = 13 ∧ j = i ∧ inChar source i = 0) ∨ ∃ n state, Walks source i (n + 1) j ∧
      scan .state0 (walked source i (n + 1)) = some state ∧ lexTerminal state = some t ∧
      lexGoto state (inChar source j) = .inr (some t) := by
  unfold recognizeTerminal at h
  cases hgoto : lexGoto .state0 (inChar source i) with
  | inl state =>
      rw [hgoto] at h
      rcases run_walked hi (ne_start hgoto) h with ⟨hnul, hterm, hj⟩ | ⟨n, state', hwalks, hscan, hout⟩
      · rw [hnul] at hgoto
        obtain rfl := Sum.inl.inj hgoto
        exact Or.inl ⟨(Option.some.inj hterm).symm, hj, hnul⟩
      · refine Or.inr ⟨n, state', hwalks, ?_, lexTerminal_of_out hout, hout⟩
        rw [walked, scan, inChar_byte, hgoto]
        exact hscan
  | inr term =>
      rw [hgoto] at h
      cases h
      have hnone : lexTerminal .state0 = some t := lexTerminal_of_out hgoto
      cases hnone

/-- The first of the characters that the cursor moves over, and the others. -/
theorem Walks.tail {n : Nat} (h : Walks source i (n + 1) j) (hi : i < c_uint32_range) :
    inChar source i ≠ 0 ∧ Walks source ((i + 1) % c_uint32_range) n j := by
  obtain ⟨rfl, hchars⟩ := h
  constructor
  · have hfirst := hchars 0 (Nat.succ_pos n)
    rwa [Nat.add_zero, Nat.mod_eq_of_lt hi] at hfirst
  · refine ⟨by rw [Nat.mod_add_mod, Nat.add_assoc, Nat.add_comm 1 n], ?_⟩
    intro k hk
    rw [Nat.mod_add_mod, Nat.add_assoc, Nat.add_comm 1 k]
    exact hchars (k + 1) (by omega)

theorem Walks.no_nul {n : Nat} (h : Walks source i n j) (hi : i < c_uint32_range) : ∀ c ∈ walked source i n, c ≠ 0 := by
  induction n generalizing i with
  | zero => simp [walked]
  | succ n ih =>
      obtain ⟨hc, htail⟩ := h.tail hi
      refine List.forall_mem_cons.mpr ⟨?_, ih htail (Nat.mod_lt _ (by decide))⟩
      intro hnul
      apply hc
      rw [← inChar_byte, hnul]
      rfl

/-- The characters of a text, where the cursor does not wrap. -/
theorem Walks.text {n : Nat} (h : Walks source i n j) (hlt : i + n < c_uint32_range) :
    j = i + n ∧ (walked source i n).length = n ∧ source.drop i = walked source i n ++ source.drop (i + n) := by
  refine ⟨by rw [h.1, Nat.mod_eq_of_lt hlt], ?_⟩
  induction n generalizing i with
  | zero => exact ⟨rfl, rfl⟩
  | succ n ih =>
      obtain ⟨hc, htail⟩ := h.tail (by omega)
      rw [Nat.mod_eq_of_lt (show i + 1 < c_uint32_range by omega)] at htail
      obtain ⟨hlen, hdrop⟩ := ih htail (by omega)
      obtain ⟨c, -, hbyte, hcons⟩ := drop_eq_cons hc
      rw [walked, Nat.mod_eq_of_lt (show i + 1 < c_uint32_range by omega), ← hbyte, UInt8.ofNat_toNat]
      refine ⟨by rw [List.length_cons, hlen], ?_⟩
      rw [hcons, hdrop, List.cons_append, show i + 1 + n = i + (n + 1) by omega]

/-- Before a NUL the cursor does not wrap. -/
theorem Walks.lt_of_stops {n : Nat} (h : Walks source i (n + 1) j) (hstop : Stops source i) (hc : inChar source i ≠ 0) :
    i + (n + 1) < c_uint32_range := by
  obtain ⟨m, him, hm, hnul⟩ := hstop hc
  by_contra hge
  have hchar := h.2 (m - i) (by omega)
  rw [show i + (m - i) = m by omega, Nat.mod_eq_of_lt hm] at hchar
  exact hchar hnul

/-- **What a recognised terminal was recognised for** where the cursor comes to a NUL: the end of the input,
    or a lexeme. -/
theorem recognized (hstop : Stops source i) (h : recognizeTerminal fuel source i = some (some t, j)) :
    (t = 13 ∧ j = i ∧ inChar source i = 0) ∨ ∃ lexeme rest, LexemeAt source i t j lexeme rest := by
  by_cases hc : inChar source i = 0
  · -- an index out of range reads as the end of the source
    rcases Nat.eq_zero_or_pos fuel with rfl | hfuel
    · rw [recognizeTerminal, hc] at h
      cases h
    · rw [recognizeTerminal_end hc hfuel] at h
      cases h
      exact Or.inl ⟨rfl, rfl, hc⟩
  · obtain ⟨m, him, hm, -⟩ := hstop hc
    rcases recognized_walked (Nat.lt_trans him hm) h with hend | ⟨n, state, hwalks, hscan, hterm, hout⟩
    · exact absurd hend.2.2 hc
    · have hnul := hwalks.no_nul (Nat.lt_trans him hm)
      obtain ⟨rfl, hlen, hdrop⟩ := hwalks.text (hwalks.lt_of_stops hstop hc)
      rw [inChar_eq] at hout
      refine Or.inr ⟨_, _, hdrop, by rw [hlen], ?_, hnul, state, hscan, hterm, hout⟩
      exact List.cons_ne_nil _ _

end Recognized

/-! ## The texts of the labels -/

/-- `[ minus ]` -/
def Minus (s : StringT) : Prop := s = [] ∨ s = [0x2d]

/-- The fraction of a number. Unlike in the RFC, no digit need follow the decimal point. -/
inductive LaxFrac : StringT → Prop
  | none : LaxFrac []
  | digits {ds : StringT} (hds : ∀ c ∈ ds, 0x30 ≤ c ∧ c ≤ 0x39) : LaxFrac (0x2e :: ds)

/-- A number with the given fraction and exponent. -/
def LaxNumber (frac exp s : StringT) : Prop :=
  ∃ minus int, Minus minus ∧ RfcInt int ∧ LaxFrac frac ∧ RfcExp exp ∧ s = minus ++ int ++ frac ++ exp

/-- The only text that leads to a label, for the labels of words and punctuation. -/
def LexState.word : LexState → Option StringT
  | .state0 => some []
  | .state3 => some [44]
  | .state4 => some [45]
  | .state7 => some [58]
  | .state8 => some [91]
  | .state9 => some [93]
  | .state10 => some [102]
  | .state11 => some [110]
  | .state12 => some [116]
  | .state13 => some [123]
  | .state14 => some [125]
  | .state20 => some [102, 97]
  | .state21 => some [110, 117]
  | .state22 => some [116, 114]
  | .state26 => some [102, 97, 108]
  | .state27 => some [110, 117, 108]
  | .state28 => some [116, 114, 117]
  | .state30 => some [102, 97, 108, 115]
  | .state31 => some nullText
  | .state32 => some trueText
  | .state34 => some falseText
  | _ => none

/-- The escape `\u` with some of its digits, inside a string. -/
def InUnicode (n : Nat) (s : StringT) : Prop :=
  ∃ items ds, (∀ item ∈ items, item.Lexes) ∧ ds.length = n ∧ (∀ d ∈ ds, (hexDigit d).isSome = true) ∧
    s = 34 :: (itemsText items ++ 92 :: 117 :: ds)

/-- What a text without a NUL looks like that leads to the label. -/
def LexState.Text : LexState → StringT → Prop
  | .state2, s => ∃ items, (∀ item ∈ items, item.Lexes) ∧ s = 34 :: itemsText items
  | .state16, s => ∃ items, (∀ item ∈ items, item.Lexes) ∧ s = literal items
  | .state17, s => ∃ items, (∀ item ∈ items, item.Lexes) ∧ s = 34 :: (itemsText items ++ [92])
  | .state23, s => InUnicode 0 s
  | .state29, s => InUnicode 1 s
  | .state33, s => InUnicode 2 s
  | .state35, s => InUnicode 3 s
  | .state5, s => ∃ minus, Minus minus ∧ s = minus ++ [0x30]
  | .state6, s => ∃ minus d ds, Minus minus ∧ (0x31 ≤ d ∧ d ≤ 0x39) ∧ (∀ c ∈ ds, 0x30 ≤ c ∧ c ≤ 0x39) ∧
      s = minus ++ d :: ds
  | .state18, s => ∃ m ds, LaxNumber [] [] m ∧ (∀ c ∈ ds, 0x30 ≤ c ∧ c ≤ 0x39) ∧ s = m ++ 0x2e :: ds
  | .state19, s => ∃ frac m e, LaxNumber frac [] m ∧ (e = 0x65 ∨ e = 0x45) ∧ s = m ++ [e]
  | .state24, s => ∃ frac m e sign, LaxNumber frac [] m ∧ (e = 0x65 ∨ e = 0x45) ∧ (sign = 0x2d ∨ sign = 0x2b) ∧
      s = m ++ [e, sign]
  | .state25, s => ∃ frac m e sign ds, LaxNumber frac [] m ∧ (e = 0x65 ∨ e = 0x45) ∧
      (sign = [] ∨ sign = [0x2d] ∨ sign = [0x2b]) ∧ Digits ds ∧ s = m ++ e :: (sign ++ ds)
  | .state15, s => s ≠ [] ∧ ∀ c ∈ s, isSkip c = true
  | state, s => state.word = some s

section Labels

variable {state state' : LexState} {s : StringT} {c : UInt8}

theorem text_of_word (h : state.word = some s) : state.Text s := by
  cases state <;> first | exact h | cases h

theorem minus_of_word (hstate : state = .state0 ∨ state = .state4) (hs : state.word = some s) : Minus s := by
  rcases hstate with rfl | rfl
  · exact Or.inl (Option.some.inj hs).symm
  · exact Or.inr (Option.some.inj hs).symm

/-- From the label of a word, or from the start. -/
theorem text_step_word (hs : state.word = some s) (hc : c ≠ 0) (h : lexGoto state c.toNat = .inl state') :
    state'.Text (s ++ [c]) := by
  -- the ways out of the label of a word: its next letter, white space, a quote, or the digits of a number
  have harms : ∀ state : LexState, ∀ arm ∈ lexArms state, state.word ≠ none →
      arm.2.1 = 1 ∨
      arm.2.1 = arm.1 + 1 ∧ arm.2.2.word = state.word.map (· ++ [UInt8.ofNat arm.1]) ∨
      state = .state0 ∧ arm ∈ [(8, 14, .state15), (32, 33, .state15), (34, 35, .state2)] ∨
      (state = .state0 ∨ state = .state4) ∧ arm ∈ [(48, 49, .state5), (49, 58, .state6)] := by
    intro state
    cases state <;> decide
  have hnul : c.toNat ≠ 0 := fun h => hc (UInt8.toNat_inj.mp h)
  have hbyte : ∀ {n : Nat}, c.toNat = n → c = UInt8.ofNat n := by
    rintro n rfl
    exact (UInt8.ofNat_toNat).symm
  rcases lexGoto_cases state c.toNat with ⟨⟨low, up, target⟩, harm, hgoto, hle, hup⟩ | hgoto
  · dsimp only at hgoto hle hup
    rw [hgoto] at h
    obtain rfl := Sum.inl.inj h
    rcases harms state _ harm (by simp [hs]) with hone | ⟨hone, hword⟩ | ⟨rfl, hmem⟩ | ⟨hstate, hmem⟩
    · dsimp only at hone
      omega
    · dsimp only at hone hword
      apply text_of_word
      rw [hword, hs, hbyte (show c.toNat = low by omega)]
      rfl
    · obtain rfl := Option.some.inj hs
      simp only [List.mem_cons, Prod.mk.injEq, List.not_mem_nil, or_false] at hmem
      rcases hmem with ⟨rfl, rfl, rfl⟩ | ⟨rfl, rfl, rfl⟩ | ⟨rfl, rfl, rfl⟩
      · exact ⟨by simp, by simp [isSkip, UInt8.le_iff_toNat_le, UInt8.lt_iff_toNat_lt]; omega⟩
      · obtain rfl := hbyte (show c.toNat = 32 by omega)
        exact ⟨by simp, by simp [isSkip]⟩
      · obtain rfl := hbyte (show c.toNat = 34 by omega)
        exact ⟨[], by simp, rfl⟩
    · have hminus := minus_of_word hstate hs
      simp only [List.mem_cons, Prod.mk.injEq, List.not_mem_nil, or_false] at hmem
      rcases hmem with ⟨rfl, rfl, rfl⟩ | ⟨rfl, rfl, rfl⟩
      · obtain rfl := hbyte (show c.toNat = 48 by omega)
        exact ⟨s, hminus, rfl⟩
      · refine ⟨s, c, [], hminus, ?_, by simp, rfl⟩
        simp only [UInt8.le_iff_toNat_le]
        exact ⟨hle, Nat.le_of_lt_succ hup⟩
  · rw [hgoto] at h
    cases h

/-! ### Inside a string -/

/-- Where a character leads from the labels of strings. -/
theorem lexGoto_string (hc : c ≠ 0) :
    lexGoto .state2 c.toNat = (if c = 34 then .inl .state16 else if c = 92 then .inl .state17 else .inl .state2) ∧
      lexGoto .state17 c.toNat = (if c = 117 then .inl .state23
        else if c ∈ ([34, 47, 92, 98, 102, 110, 114, 116] : StringT) then .inl .state2 else .inr none) := by
  have hall : ∀ c : UInt8, c ≠ 0 →
      lexGoto .state2 c.toNat = (if c = 34 then .inl .state16 else if c = 92 then .inl .state17 else .inl .state2) ∧
      lexGoto .state17 c.toNat = (if c = 117 then .inl .state23
        else if c ∈ ([34, 47, 92, 98, 102, 110, 114, 116] : StringT) then .inl .state2 else .inr none) :=
    forall_byte (by decide +kernel)
  exact hall c hc

/-- A label that a hexadecimal digit alone leads on from. -/
def HexLabel (state target : LexState) : Prop :=
  ∀ c : UInt8, lexGoto state c.toNat = if (hexDigit c).isSome = true then .inl target else .inr none

theorem hexLabels : HexLabel .state23 .state29 ∧ HexLabel .state29 .state33 ∧ HexLabel .state33 .state35 ∧
    HexLabel .state35 .state2 := by
  refine ⟨?_, ?_, ?_, ?_⟩ <;> exact forall_byte (by decide +kernel)

theorem HexLabel.step {target : LexState} (hlabel : HexLabel state target) (h : lexGoto state c.toNat = .inl state') :
    state' = target ∧ (hexDigit c).isSome = true := by
  rw [hlabel c] at h
  split_ifs at h with hhex
  exact ⟨(Sum.inl.inj h).symm, hhex⟩

theorem InUnicode.step {n : Nat} (h : InUnicode n s) (hc : (hexDigit c).isSome = true) : InUnicode (n + 1) (s ++ [c]) := by
  obtain ⟨items, ds, hitems, hlen, hds, rfl⟩ := h
  refine ⟨items, ds ++ [c], hitems, by simp [hlen], ?_, by simp⟩
  exact List.forall_mem_append.mpr ⟨hds, List.forall_mem_singleton.mpr hc⟩

theorem snoc_lexes {items : List Item} (h : ∀ i ∈ items, i.Lexes) (item : Item) (hitem : item.Lexes) :
    ∀ i ∈ items ++ [item], i.Lexes :=
  List.forall_mem_append.mpr ⟨h, List.forall_mem_singleton.mpr hitem⟩

/-- The fourth digit ends the escape. -/
theorem InUnicode.last (h : InUnicode 3 s) (hc : (hexDigit c).isSome = true) : LexState.state2.Text (s ++ [c]) := by
  obtain ⟨items, ds, hitems, hlen, hds, rfl⟩ := h
  obtain ⟨d₁, d₂, d₃, rfl⟩ := List.length_eq_three.mp hlen
  refine ⟨items ++ [.unicode d₁ d₂ d₃ c], snoc_lexes hitems _ ?_, by simp [itemsText, Item.text]⟩
  intro d hd
  simp only [List.mem_cons, List.not_mem_nil, or_false] at hd hds
  rcases hd with rfl | rfl | rfl | rfl
  · exact hds _ (by simp)
  · exact hds _ (by simp)
  · exact hds _ (by simp)
  · exact hc

theorem text_step_state2 (hs : LexState.state2.Text s) (hc : c ≠ 0) (h : lexGoto .state2 c.toNat = .inl state') :
    state'.Text (s ++ [c]) := by
  obtain ⟨items, hitems, rfl⟩ := hs
  rw [(lexGoto_string hc).1] at h
  split_ifs at h with hquote hback
  · obtain rfl := Sum.inl.inj h
    exact ⟨items, hitems, by rw [hquote]; rfl⟩
  · obtain rfl := Sum.inl.inj h
    exact ⟨items, hitems, by rw [hback]; rfl⟩
  · obtain rfl := Sum.inl.inj h
    exact ⟨items ++ [.raw c], snoc_lexes hitems (.raw c) ⟨hc, hquote, hback⟩, by simp [itemsText, Item.text]⟩

theorem text_step_state17 (hs : LexState.state17.Text s) (hc : c ≠ 0) (h : lexGoto .state17 c.toNat = .inl state') :
    state'.Text (s ++ [c]) := by
  obtain ⟨items, hitems, rfl⟩ := hs
  rw [(lexGoto_string hc).2] at h
  split_ifs at h with hu hesc
  · obtain rfl := Sum.inl.inj h
    exact ⟨items, [], hitems, rfl, by simp, by simp [hu]⟩
  · obtain rfl := Sum.inl.inj h
    exact ⟨items ++ [.esc c], snoc_lexes hitems (.esc c) hesc, by simp [itemsText, Item.text]⟩

/-! ### Inside a number -/

/-- Where a character leads from the labels of numbers. -/
theorem lexGoto_number (c : UInt8) :
    lexGoto .state5 c.toNat = (if c = 0x2e then .inl .state18
      else if c = 0x65 ∨ c = 0x45 then .inl .state19 else .inr (some 1)) ∧
    lexGoto .state6 c.toNat = (if c = 0x2e then .inl .state18
      else if c = 0x65 ∨ c = 0x45 then .inl .state19
      else if 0x30 ≤ c ∧ c ≤ 0x39 then .inl .state6 else .inr (some 1)) ∧
    lexGoto .state18 c.toNat = (if c = 0x65 ∨ c = 0x45 then .inl .state19
      else if 0x30 ≤ c ∧ c ≤ 0x39 then .inl .state18 else .inr (some 2)) ∧
    lexGoto .state19 c.toNat = (if c = 0x2d ∨ c = 0x2b then .inl .state24
      else if 0x30 ≤ c ∧ c ≤ 0x39 then .inl .state25 else .inr none) ∧
    lexGoto .state24 c.toNat = (if 0x30 ≤ c ∧ c ≤ 0x39 then .inl .state25 else .inr none) ∧
    lexGoto .state25 c.toNat = (if 0x30 ≤ c ∧ c ≤ 0x39 then .inl .state25 else .inr (some 2)) := by
  refine ⟨?_, ?_, ?_, ?_, ?_, ?_⟩ <;> revert c <;> exact forall_byte (by decide +kernel)

theorem digits_snoc {ds : StringT} (hds : ∀ c ∈ ds, 0x30 ≤ c ∧ c ≤ 0x39) (hc : 0x30 ≤ c ∧ c ≤ 0x39) :
    ∀ d ∈ ds ++ [c], 0x30 ≤ d ∧ d ≤ 0x39 :=
  List.forall_mem_append.mpr ⟨hds, List.forall_mem_singleton.mpr hc⟩

/-- The texts of the labels behind the integer part. -/
theorem laxNumber_int (h : LexState.state5.Text s ∨ LexState.state6.Text s) : LaxNumber [] [] s := by
  rcases h with ⟨minus, hminus, rfl⟩ | ⟨minus, d, ds, hminus, hd, hds, rfl⟩
  · exact ⟨minus, _, hminus, .zero, .none, .none, by simp⟩
  · exact ⟨minus, _, hminus, .digits hd hds, .none, .none, by simp⟩

theorem laxNumber_frac {m ds : StringT} (hm : LaxNumber [] [] m) (hds : ∀ c ∈ ds, 0x30 ≤ c ∧ c ≤ 0x39) :
    LaxNumber (0x2e :: ds) [] (m ++ 0x2e :: ds) := by
  obtain ⟨minus, int, hminus, hint, -, -, rfl⟩ := hm
  exact ⟨minus, int, hminus, hint, .digits hds, .none, by simp⟩

theorem laxNumber_exp {frac m exp : StringT} (hm : LaxNumber frac [] m) (hexp : RfcExp exp) :
    LaxNumber frac exp (m ++ exp) := by
  obtain ⟨minus, int, hminus, hint, hfrac, -, rfl⟩ := hm
  exact ⟨minus, int, hminus, hint, hfrac, hexp, by simp⟩

/-- Behind the integer part. -/
theorem text_step_int (hs : state = .state5 ∧ LexState.state5.Text s ∨ state = .state6 ∧ LexState.state6.Text s)
    (h : lexGoto state c.toNat = .inl state') : state'.Text (s ++ [c]) := by
  have hint : LaxNumber [] [] s := laxNumber_int (hs.imp And.right And.right)
  obtain ⟨h₅, h₆, -⟩ := lexGoto_number c
  rcases hs with ⟨rfl, hs⟩ | ⟨rfl, hs⟩
  · rw [h₅] at h
    split_ifs at h with hpoint hexp
    · obtain rfl := Sum.inl.inj h
      exact ⟨s, [], hint, by simp, by rw [hpoint]⟩
    · obtain rfl := Sum.inl.inj h
      exact ⟨[], s, c, hint, hexp, rfl⟩
  · rw [h₆] at h
    split_ifs at h with hpoint hexp hdigit
    · obtain rfl := Sum.inl.inj h
      exact ⟨s, [], hint, by simp, by rw [hpoint]⟩
    · obtain rfl := Sum.inl.inj h
      exact ⟨[], s, c, hint, hexp, rfl⟩
    · obtain rfl := Sum.inl.inj h
      obtain ⟨minus, d, ds, hminus, hd, hds, rfl⟩ := hs
      exact ⟨minus, d, ds ++ [c], hminus, hd, digits_snoc hds hdigit, by simp⟩

/-- Behind the decimal point. -/
theorem text_step_frac (hs : LexState.state18.Text s) (h : lexGoto .state18 c.toNat = .inl state') :
    state'.Text (s ++ [c]) := by
  obtain ⟨m, ds, hm, hds, rfl⟩ := hs
  rw [(lexGoto_number c).2.2.1] at h
  split_ifs at h with hexp hdigit
  · obtain rfl := Sum.inl.inj h
    exact ⟨0x2e :: ds, _, c, laxNumber_frac hm hds, hexp, rfl⟩
  · obtain rfl := Sum.inl.inj h
    exact ⟨m, ds ++ [c], hm, digits_snoc hds hdigit, by simp⟩

/-- Behind the letter of the exponent. -/
theorem text_step_exp (hs : state = .state19 ∧ LexState.state19.Text s ∨ state = .state24 ∧ LexState.state24.Text s ∨
      state = .state25 ∧ LexState.state25.Text s)
    (h : lexGoto state c.toNat = .inl state') : state'.Text (s ++ [c]) := by
  obtain ⟨-, -, -, h₁₉, h₂₄, h₂₅⟩ := lexGoto_number c
  rcases hs with ⟨rfl, frac, m, e, hm, he, rfl⟩ | ⟨rfl, frac, m, e, sign, hm, he, hsign, rfl⟩ |
    ⟨rfl, frac, m, e, sign, ds, hm, he, hsign, ⟨hne, hds⟩, rfl⟩
  · rw [h₁₉] at h
    split_ifs at h with hsign hdigit
    · obtain rfl := Sum.inl.inj h
      exact ⟨frac, m, e, c, hm, he, hsign, by simp⟩
    · obtain rfl := Sum.inl.inj h
      exact ⟨frac, m, e, [], [c], hm, he, Or.inl rfl, ⟨by simp, List.forall_mem_singleton.mpr hdigit⟩, by simp⟩
  · rw [h₂₄] at h
    split_ifs at h with hdigit
    obtain rfl := Sum.inl.inj h
    refine ⟨frac, m, e, [sign], [c], hm, he, Or.inr ?_, ⟨by simp, List.forall_mem_singleton.mpr hdigit⟩, by simp⟩
    exact hsign.imp (fun h => by rw [h]) (fun h => by rw [h])
  · rw [h₂₅] at h
    split_ifs at h with hdigit
    obtain rfl := Sum.inl.inj h
    exact ⟨frac, m, e, sign, ds ++ [c], hm, he, hsign, ⟨by simp, digits_snoc hds hdigit⟩, by simp⟩

/-! ### From the start -/

/-- **One more character.** -/
theorem text_step (hs : state.Text s) (hc : c ≠ 0) (h : lexGoto state c.toNat = .inl state') :
    state'.Text (s ++ [c]) := by
  cases state with
  | state2 => exact text_step_state2 hs hc h
  | state17 => exact text_step_state17 hs hc h
  | state23 =>
      obtain ⟨rfl, hhex⟩ := hexLabels.1.step h
      exact InUnicode.step hs hhex
  | state29 =>
      obtain ⟨rfl, hhex⟩ := hexLabels.2.1.step h
      exact InUnicode.step hs hhex
  | state33 =>
      obtain ⟨rfl, hhex⟩ := hexLabels.2.2.1.step h
      exact InUnicode.step hs hhex
  | state35 =>
      obtain ⟨rfl, hhex⟩ := hexLabels.2.2.2.step h
      exact InUnicode.last hs hhex
  | state5 => exact text_step_int (Or.inl ⟨rfl, hs⟩) h
  | state6 => exact text_step_int (Or.inr ⟨rfl, hs⟩) h
  | state18 => exact text_step_frac hs h
  | state19 => exact text_step_exp (Or.inl ⟨rfl, hs⟩) h
  | state24 => exact text_step_exp (Or.inr (Or.inl ⟨rfl, hs⟩)) h
  | state25 => exact text_step_exp (Or.inr (Or.inr ⟨rfl, hs⟩)) h
  | state15 =>
      cases hskip : isSkip c with
      | true =>
          rw [(lexGoto_skip hskip).2] at h
          obtain rfl := Sum.inl.inj h
          exact ⟨by simp, List.forall_mem_append.mpr ⟨hs.2, List.forall_mem_singleton.mpr hskip⟩⟩
      | false =>
          rw [(lexGoto_not_skip hskip).2] at h
          cases h
  | state16 | state1 => cases h
  | _ => exact text_step_word hs hc h

/-- **The texts that lead to a label.** -/
theorem scan_text (hscan : scan .state0 s = some state) (hnul : ∀ c ∈ s, c ≠ 0) : state.Text s := by
  induction s using List.reverseRecOn generalizing state with
  | nil =>
      obtain rfl := Option.some.inj hscan
      exact rfl
  | append_singleton s c ih =>
      obtain ⟨hs, hc⟩ := List.forall_mem_append.mp hnul
      rw [scan_append] at hscan
      obtain ⟨state₁, hstate₁, hlast⟩ := Option.bind_eq_some_iff.mp hscan
      simp only [scan] at hlast
      split at hlast
      · rename_i state₂ hgoto
        obtain rfl := Option.some.inj hlast
        exact text_step (ih hstate₁ hs) (hc c (by simp)) hgoto
      · cases hlast

end Labels

/-! ## The lexemes -/

/-- A character of a string: one of the RFC, or any byte that neither ends the string nor begins an escape. -/
def LaxChar (s : StringT) : Prop := RfcChar s ∨ ∃ b : UInt8, b ≠ 0 ∧ b ≠ 0x22 ∧ b ≠ 0x5c ∧ s = [b]

def LaxString (s : StringT) : Prop := ∃ cs : List StringT, (∀ c ∈ cs, LaxChar c) ∧ s = 0x22 :: (cs.flatten ++ [0x22])

/-- The lexemes of a terminal. -/
def LaxLexeme : Nat → StringT → Prop
  | 0, s => LaxString s
  | 1, s => LaxNumber [] [] s
  | 2, s => ∃ frac exp, LaxNumber frac exp s ∧ (frac ≠ [] ∨ exp ≠ [])
  | 3, s => s = trueText
  | 4, s => s = falseText
  | 5, s => s = nullText
  | 12, s => s ≠ [] ∧ ∀ c ∈ s, isSkip c = true
  | _, _ => False

/-- The bytes of the text from `i` up to below `j`. -/
def between (source : StringT) (i j : Nat) : StringT := (source.drop i).take (j - i)

section Lexemes

variable {source lexeme rest s frac exp : StringT} {i j t fuel : Nat} {state : LexState}

theorem laxChar_item {item : Item} (h : item.Lexes) : LaxChar item.text := by
  cases item with
  | raw c => exact Or.inr ⟨c, h.1, h.2.1, h.2.2, rfl⟩
  | esc c =>
      refine Or.inl ?_
      simp only [Item.Lexes, List.mem_cons, List.not_mem_nil, or_false] at h
      rcases h with rfl | rfl | rfl | rfl | rfl | rfl | rfl | rfl
      · exact .quote
      · exact .solidus
      · exact .backslash
      · exact .backspace
      · exact .formFeed
      · exact .lineFeed
      · exact .carriageReturn
      · exact .tab
  | unicode d₁ d₂ d₃ d₄ =>
      have hhex : ∀ d : UInt8, (hexDigit d).isSome = true → HexDigit d := by
        intro d hd
        unfold hexDigit at hd
        unfold HexDigit
        split_ifs at hd <;> simp_all
      exact Or.inl (.unicode (hhex _ (h _ (by simp))) (hhex _ (h _ (by simp))) (hhex _ (h _ (by simp)))
        (hhex _ (h _ (by simp))))

theorem laxString_literal {items : List Item} (h : ∀ item ∈ items, item.Lexes) : LaxString (literal items) := by
  refine ⟨items.map Item.text, ?_, ?_⟩
  · intro c hc
    obtain ⟨item, hitem, rfl⟩ := List.mem_map.mp hc
    exact laxChar_item (h item hitem)
  · rw [literal, itemsText, List.flatMap_def]

/-- Every number can be read. -/
theorem scan_number (h : LaxNumber frac exp s) : ∃ state, scan .state0 s = some state := by
  obtain ⟨minus, int, hminus, hint, hfrac, hexp, rfl⟩ := h
  obtain ⟨state, hstate, hlead⟩ := scan_signed hminus hint
  have hpoint : ∃ state', (state' = .state5 ∨ state' = .state6 ∨ state' = .state18) ∧ scan state frac = some state' := by
    cases hfrac with
    | none => exact ⟨state, by tauto, rfl⟩
    | digits hds => exact ⟨.state18, by tauto, scan_point hds hstate⟩
  obtain ⟨state', hstate', hfrac⟩ := hpoint
  obtain ⟨state'', -, -, -, hexp⟩ := scan_exp hexp hstate'
  exact ⟨state'', by rw [scan_append, scan_append, hlead, Option.bind_some, hfrac, Option.bind_some, hexp]⟩

theorem LexemeAt.between_eq (h : LexemeAt source i t j lexeme rest) : between source i j = lexeme := by
  rw [between, h.drop_eq, h.stop_eq, Nat.add_sub_cancel_left, List.take_left]

/-- The text of a terminal looks as its label says. -/
theorem LexemeAt.text (h : LexemeAt source i t j lexeme rest) :
    ∃ state : LexState, lexTerminal state = some t ∧ state.Text lexeme ∧
      lexGoto state (rest.headD 0).toNat = .inr (some t) := by
  obtain ⟨state, hscan, hterm, hout⟩ := h.stops
  exact ⟨state, hterm, scan_text hscan h.no_nul, hout⟩

/-- The end of the input has no lexeme. -/
theorem LexemeAt.ne_end (h : LexemeAt source i t j lexeme rest) : t ≠ 13 := by
  rintro rfl
  obtain ⟨state, hterm, htext, -⟩ := h.text
  obtain rfl := state1_of_lexTerminal hterm
  cases htext

/-- The characters of a lexeme, where they stand. -/
theorem LexemeAt.inChar_ne (h : LexemeAt source i t j lexeme rest) {k : Nat} (hik : i ≤ k) (hkj : k < j) :
    inChar source k ≠ 0 := by
  obtain ⟨d, rfl⟩ : ∃ d, k = i + d := ⟨k - i, by omega⟩
  have hd : d < lexeme.length := by
    have := h.stop_eq
    omega
  have hdrop : source.drop (i + d) = lexeme[d] :: (lexeme.drop (d + 1) ++ rest) := by
    rw [← List.drop_drop, h.drop_eq, List.drop_append_of_le_length (by omega), List.drop_eq_getElem_cons hd,
      List.cons_append]
  rw [inChar_of_drop hdrop]
  exact fun hnul => h.no_nul _ (List.getElem_mem hd) (UInt8.toNat_inj.mp hnul)

/-- Where a lexeme ends. -/
theorem LexemeAt.bounds (h : LexemeAt source i t j lexeme rest) : i < j ∧ j ≤ source.length := by
  have hdrop := congrArg List.length h.drop_eq
  have hpos := List.length_pos_of_ne_nil h.ne_nil
  have hj := h.stop_eq
  rw [List.length_drop, List.length_append] at hdrop
  omega

/-- The next terminal is read before the cursor wraps, too. -/
theorem Stops.next (hstop : Stops source i) (h : recognizeTerminal fuel source i = some (some t, j)) :
    Stops source j := by
  rcases recognized hstop h with ⟨-, rfl, -⟩ | ⟨lexeme, rest, hat⟩
  · exact hstop
  · obtain ⟨n, hin, hn, hnul⟩ := hstop (hat.inChar_ne (Nat.le_refl i) hat.bounds.1)
    intro hj
    refine ⟨n, ?_, hn, hnul⟩
    -- there is no NUL in the lexeme
    by_contra hnj
    by_cases heq : n = j
    · exact hj (heq ▸ hnul)
    · exact hat.inChar_ne (by omega) (by omega) hnul

/-- A string token is a literal. -/
theorem literal_of_text (hterm : lexTerminal state = some 0) (htext : state.Text s) :
    ∃ items, (∀ item ∈ items, item.Lexes) ∧ s = literal items := by
  cases state with
  | state16 => exact htext
  | _ => cases hterm

/-- An integer token is the integer part of a number. -/
theorem integer_of_text (hterm : lexTerminal state = some 1) (htext : state.Text s) : LaxNumber [] [] s := by
  cases state with
  | state5 => exact laxNumber_int (Or.inl htext)
  | state6 => exact laxNumber_int (Or.inr htext)
  | _ => cases hterm

theorem float_of_text (hterm : lexTerminal state = some 2) (htext : state.Text s) :
    ∃ frac exp, LaxNumber frac exp s ∧ (frac ≠ [] ∨ exp ≠ []) := by
  cases state with
  | state18 =>
      obtain ⟨m, ds, hm, hds, rfl⟩ := htext
      exact ⟨_, _, laxNumber_frac hm hds, Or.inl (by simp)⟩
  | state25 =>
      obtain ⟨frac, m, e, sign, ds, hm, he, hsign, hds, rfl⟩ := htext
      exact ⟨_, _, laxNumber_exp hm (.digits he hsign hds), Or.inr (by simp)⟩
  | _ => cases hterm

/-- The text of a lexeme looks as its label says. -/
theorem Lexeme.text (h : Lexeme t lexeme) : ∃ state : LexState, lexTerminal state = some t ∧ state.Text lexeme := by
  obtain ⟨state, hscan, hterm⟩ := h.scanned
  exact ⟨state, hterm, scan_text hscan h.no_nul⟩

/-- The other lexemes in question. -/
theorem LexemeAt.lax (h : LexemeAt source i t j lexeme rest) (ht : t ∈ [0, 1, 2, 3, 4, 5, 12]) :
    LaxLexeme t lexeme := by
  obtain ⟨state, hterm, htext, -⟩ := h.text
  simp only [List.mem_cons, List.not_mem_nil, or_false] at ht
  rcases ht with rfl | rfl | rfl | rfl | rfl | rfl | rfl
  · obtain ⟨items, hitems, rfl⟩ := literal_of_text hterm htext
    exact laxString_literal hitems
  · exact integer_of_text hterm htext
  · exact float_of_text hterm htext
  · cases state with
    | state32 => exact (Option.some.inj htext).symm
    | _ => cases hterm
  · cases state with
    | state34 => exact (Option.some.inj htext).symm
    | _ => cases hterm
  · cases state with
    | state31 => exact (Option.some.inj htext).symm
    | _ => cases hterm
  · cases state with
    | state15 => exact htext
    | _ => cases hterm

/-- No longer text can be read at the index of a lexeme. -/
theorem LexemeAt.longest (h : LexemeAt source i t j lexeme rest) {k : Nat} (hk : j < k) (hlen : k ≤ source.length) :
    scan .state0 (between source i k) = none := by
  obtain ⟨state, hscan, -, hout⟩ := h.stops
  have hdrop := congrArg List.length h.drop_eq
  rw [List.length_drop, List.length_append] at hdrop
  have hj := h.stop_eq
  have htake : between source i k = lexeme ++ rest.take (k - j) := by
    rw [between, h.drop_eq, List.take_append, List.take_of_length_le (by omega),
      show k - i - lexeme.length = k - j by omega]
  obtain ⟨c, rest, rfl⟩ : ∃ c cs, rest = c :: cs :=
    List.exists_cons_of_ne_nil (List.ne_nil_of_length_pos (by omega))
  obtain ⟨n, hn⟩ : ∃ n, k - j = n + 1 := ⟨k - j - 1, by omega⟩
  rw [htake, hn, scan_append, hscan, Option.bind_some, List.take_succ_cons, scan]
  rw [List.headD_cons] at hout
  rw [hout]

/-- **What the lexer accepts.** The consumed bytes are a lexeme of the terminal, and no longer text at that
    index is a number, or white space. -/
theorem recognized_lexeme (hlt : source.length < c_uint32_range)
    (h : recognizeTerminal fuel source i = some (some t, j)) (ht : t ∈ [0, 1, 2, 3, 4, 5, 12]) :
    (i ≤ j ∧ j ≤ source.length) ∧ LaxLexeme t (between source i j) ∧
      (t = 1 ∨ t = 2 → ∀ k, j < k → k ≤ source.length → ∀ frac exp, ¬ LaxNumber frac exp (between source i k)) ∧
      (t = 12 → ∀ k, j < k → k ≤ source.length → ¬ ∀ c ∈ between source i k, isSkip c = true) := by
  obtain ⟨lexeme, rest, hat⟩ : ∃ lexeme rest, LexemeAt source i t j lexeme rest := by
    rcases recognized (stops_of_length hlt i) h with ⟨rfl, -⟩ | hat
    · exact absurd ht (by decide)
    · exact hat
  obtain ⟨hij, hjlen⟩ := hat.bounds
  refine ⟨⟨by omega, hjlen⟩, ?_, ?_, ?_⟩
  · rw [hat.between_eq]
    exact hat.lax ht
  · intro _ k hk hlen frac exp hnumber
    obtain ⟨state, hscan⟩ := scan_number hnumber
    rw [hat.longest hk hlen] at hscan
    cases hscan
  · rintro rfl k hk hlen hskips
    have hne : between source i k ≠ [] := by
      rw [between, ← List.length_pos_iff, List.length_take, List.length_drop]
      omega
    have hscan := scan_skips hne hskips
    rw [hat.longest hk hlen] at hscan
    cases hscan

/-- A number of the RFC does not end with its decimal point. -/
theorem rfcNumber_last (h : RfcNumber s) : s.getLast? ≠ some 0x2e := by
  obtain ⟨-, hint, hfrac, hexp⟩ := h
  rename_i minus int frac exp
  have hdigits : ∀ {s front ds : StringT}, s = front ++ ds → Digits ds → s.getLast? ≠ some 0x2e := by
    rintro s front ds rfl hds hlast
    rw [List.getLast?_append_of_ne_nil _ hds.1] at hlast
    exact absurd (hds.2 _ (List.mem_of_getLast? hlast)) (by decide)
  cases hexp with
  | @digits e sign ds he hsign hds =>
      exact hdigits (show _ = (minus ++ int ++ frac ++ e :: sign) ++ ds by simp) hds
  | none =>
      rw [List.append_nil]
      cases hfrac with
      | @digits ds hds => exact hdigits (show _ = (minus ++ int ++ [0x2e]) ++ ds by simp) hds
      | none =>
          rw [List.append_nil]
          cases hint with
          | zero => simp
          | digits hd hds =>
              refine hdigits rfl ⟨by simp, List.forall_mem_cons.mpr ⟨⟨?_, hd.2⟩, hds⟩⟩
              exact UInt8.le_trans (by decide) hd.1

/-- A string of the RFC has no control characters. -/
theorem rfcString_chars (h : RfcString s) : ∀ b ∈ s, 0x20 ≤ b := by
  have hchar : ∀ {c : StringT}, RfcChar c → ∀ b ∈ c, 0x20 ≤ b := by
    intro c hc
    have hhex : ∀ d : UInt8, HexDigit d → 0x20 ≤ d := by
      rintro d (hd | hd | hd) <;> exact UInt8.le_trans (by decide) hd.1
    cases hc with
    | unescaped h =>
        cases h with
        | one ha _ _ => exact List.forall_mem_singleton.mpr ha.1
        | two ha hb =>
            simp only [List.forall_mem_cons, List.not_mem_nil, false_imp_iff, implies_true, and_true]
            exact ⟨UInt8.le_trans (by decide) ha.1, UInt8.le_trans (by decide) hb.1⟩
        | three ha hb hc _ _ =>
            simp only [List.forall_mem_cons, List.not_mem_nil, false_imp_iff, implies_true, and_true]
            exact ⟨UInt8.le_trans (by decide) ha.1, UInt8.le_trans (by decide) hb.1, UInt8.le_trans (by decide) hc.1⟩
        | four ha hb hc hd _ _ =>
            simp only [List.forall_mem_cons, List.not_mem_nil, false_imp_iff, implies_true, and_true]
            exact ⟨UInt8.le_trans (by decide) ha.1, UInt8.le_trans (by decide) hb.1,
              UInt8.le_trans (by decide) hc.1, UInt8.le_trans (by decide) hd.1⟩
    | unicode h₁ h₂ h₃ h₄ =>
        simp only [List.forall_mem_cons, List.not_mem_nil, false_imp_iff, implies_true, and_true]
        exact ⟨by decide, by decide, hhex _ h₁, hhex _ h₂, hhex _ h₃, hhex _ h₄⟩
    | _ => simp
  obtain ⟨hcs⟩ := h
  refine List.forall_mem_cons.mpr ⟨by decide, List.forall_mem_append.mpr ⟨?_, by simp⟩⟩
  intro b hb
  obtain ⟨c, hc, hb⟩ := List.mem_flatten.mp hb
  exact hchar (hcs c hc) b hb

/-- **The lexer accepts more than the RFC.** A number that ends with its decimal point, a control character
    in a string, and a backspace for white space. -/
theorem lexemes_not_rfc :
    (recognizeTerminal 2 [0x31, 0x2e] 0 = some (some 2, 2) ∧ ¬ RfcNumber [0x31, 0x2e]) ∧
      (recognizeTerminal 3 [0x22, 0x01, 0x22] 0 = some (some 0, 3) ∧ ¬ RfcString [0x22, 0x01, 0x22]) ∧
      recognizeTerminal 1 [0x08] 0 = some (some 12, 1) ∧ ¬ Ws [0x08] := by
  refine ⟨⟨rfl, fun h => rfcNumber_last h rfl⟩, ⟨rfl, fun h => ?_⟩, rfl, fun h => ?_⟩
  · exact absurd (rfcString_chars h 0x01 (by simp)) (by decide)
  · rcases h 0x08 (by simp) with h | h | h | h <;> cases h

/-- The theorem for an integer in front of a comma. -/
theorem recognized_lexeme_integer : LaxLexeme 1 (between [0x2d, 0x37, 0x2c] 0 2) :=
  (recognized_lexeme (by decide) (show recognizeTerminal 3 [0x2d, 0x37, 0x2c] 0 = some (some 1, 2) by rfl)
    (by decide)).2.1

end Lexemes

end Ccljson
end Cclib
