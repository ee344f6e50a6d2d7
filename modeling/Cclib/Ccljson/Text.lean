import Cclib.Ccljson.Stacks

/-!
# `Ccljson.Text` — text made of lexemes

A text is a list of pieces, each a lexeme with the white space in front of it. `supplies_pieces` lexes a
whole text at once: the parser retrieves exactly its terminals, at their positions, provided every number
is followed by a character that ends it and the cursor does not wrap.

The second half is about what stands inside a string literal: its characters and escapes (`Item`), which
of them the lexer lets through, and what `pa_json_string` makes of them.
-/

namespace Cclib
namespace Ccljson
open Cclvar

/-! ## Lexemes -/

/-- White space to the lexer. -/
def isSkip (c : UInt8) : Bool := (8 ≤ c && c < 14) || c == 32

/-- Characters no number goes on with: white space, the end of the text, and punctuation. -/
def isDelimiter (c : UInt8) : Bool := c == 0 || isSkip c || c == 44 || c == 58 || c == 93 || c == 125

/-- The lexer reads `lexeme` as the terminal `term`. -/
structure Lexeme (term : Nat) (lexeme : StringT) : Prop where
  scanned : ∃ state, scan .state0 lexeme = some state ∧ lexTerminal state = some term
  ne_nil : lexeme ≠ []
  no_nul : ∀ c ∈ lexeme, c ≠ 0
  not_skip : term ≠ 12

variable {term : Nat} {lexeme ws rest source : StringT} {i : Nat} {state : LexState} {c : UInt8}

/-- The state that white space leads to is left for itself only. -/
theorem scan_state15 {state' : LexState} (h : scan .state15 lexeme = some state') : state' = .state15 := by
  induction lexeme with
  | nil => exact (Option.some.inj h).symm
  | cons c cs ih =>
      simp only [scan] at h
      rcases lexGoto_cases .state15 c.toNat with ⟨arm, harm, hgoto, -⟩ | hgoto
      · have htarget : arm.2.2 = .state15 := by
          simp only [lexArms, List.mem_cons, List.not_mem_nil, or_false] at harm
          rcases harm with rfl | rfl <;> rfl
        rw [hgoto, htarget] at h
        exact ih h
      · rw [hgoto] at h
        cases h

theorem lexGoto_skip (h : isSkip c = true) : lexGoto .state0 c.toNat = .inl .state15 ∧
    lexGoto .state15 c.toNat = .inl .state15 :=
  forall_byte (p := fun c => isSkip c = true → lexGoto .state0 c.toNat = .inl .state15 ∧
    lexGoto .state15 c.toNat = .inl .state15) (by decide +kernel) c h

theorem lexGoto_not_skip (h : isSkip c = false) : lexGoto .state0 c.toNat ≠ .inl .state15 ∧
    lexGoto .state15 c.toNat = .inr (some 12) :=
  forall_byte (p := fun c => isSkip c = false → lexGoto .state0 c.toNat ≠ .inl .state15 ∧
    lexGoto .state15 c.toNat = .inr (some 12)) (by decide +kernel) c h

theorem ne_nul_of_skip (h : isSkip c = true) : c ≠ 0 := by
  rintro rfl
  cases h

/-- White space is one lexeme, however long. -/
theorem scan_skips (hne : ws ≠ []) (hws : ∀ c ∈ ws, isSkip c = true) : scan .state0 ws = some .state15 := by
  have hall : ∀ {cs : StringT}, (∀ c ∈ cs, isSkip c = true) → scan .state15 cs = some .state15 := by
    intro cs hcs
    induction cs with
    | nil => rfl
    | cons c cs ih =>
        rw [scan, (lexGoto_skip (hcs c List.mem_cons_self)).2]
        exact ih (fun d hd => hcs d (List.mem_cons_of_mem _ hd))
  obtain ⟨c, cs, rfl⟩ := List.exists_cons_of_ne_nil hne
  rw [scan, (lexGoto_skip (hws c List.mem_cons_self)).1]
  exact hall (fun d hd => hws d (List.mem_cons_of_mem _ hd))

/-- A lexeme does not begin with white space. -/
theorem Lexeme.head_not_skip (h : Lexeme term (c :: lexeme)) : isSkip c = false := by
  obtain ⟨state, hscan, hterm⟩ := h.scanned
  by_contra hc
  rw [Bool.not_eq_false] at hc
  rw [scan, (lexGoto_skip hc).1] at hscan
  rw [scan_state15 hscan] at hterm
  exact h.not_skip (Option.some.inj hterm).symm

/-- A delimiter ends every lexeme. -/
theorem lexGoto_delimiter (hterm : lexTerminal state = some term) (hskip : term ≠ 12)
    (hc : isDelimiter c = true) : lexGoto state c.toNat = .inr (some term) := by
  have hall : ∀ state, lexTerminal state ≠ none → lexTerminal state ≠ some 12 → ∀ c, isDelimiter c = true →
      lexGoto state c.toNat = .inr (lexTerminal state) := by
    intro state hnone hskip
    refine forall_byte ?_
    revert hnone hskip
    cases state <;> decide +kernel
  rw [hall state (by simp [hterm]) (by simpa [hterm] using hskip) c hc, hterm]

/-- The terminals that can be followed by anything. -/
theorem lexGoto_closed (hterm : lexTerminal state = some term)
    (hclosed : term ≠ 1 ∧ term ≠ 2 ∧ term ≠ 12) (in_char : Nat) :
    lexGoto state in_char = .inr (some term) := by
  have harms : lexArms state = [] := by
    cases state <;> simp_all [lexTerminal, lexArms]
  rw [lexGoto, harms, ← hterm]
  rfl

/-! ## Pieces -/

/-- A lexeme and the white space in front of it. -/
structure Piece where
  ws : StringT
  term : Nat
  lexeme : StringT

def Piece.text (p : Piece) : StringT := p.ws ++ p.lexeme

/-- The text of pieces. -/
def render (ps : List Piece) : StringT := ps.flatMap Piece.text

@[simp] theorem render_nil : render [] = [] := rfl
@[simp] theorem render_cons (p : Piece) (ps : List Piece) : render (p :: ps) = p.ws ++ p.lexeme ++ render ps :=
  rfl
@[simp] theorem render_append (ps qs : List Piece) : render (ps ++ qs) = render ps ++ render qs :=
  List.flatMap_append

/-- The tokens of pieces that stand from `i` on. -/
def tokensFrom : Nat → List Piece → List Token
  | _, [] => []
  | i, p :: ps =>
    ⟨p.term, i + p.ws.length, i + p.ws.length + p.lexeme.length⟩ ::
      tokensFrom (i + p.ws.length + p.lexeme.length) ps

theorem tokensFrom_append (i : Nat) (ps qs : List Piece) :
    tokensFrom i (ps ++ qs) = tokensFrom i ps ++ tokensFrom (i + (render ps).length) qs := by
  induction ps generalizing i with
  | nil => simp [tokensFrom]
  | cons p ps ih =>
      simp only [List.cons_append, tokensFrom, ih, render_cons, List.length_append]
      simp only [Nat.add_assoc]

theorem tokensFrom_term {ps : List Piece} {n : Nat} (h : ∀ p ∈ ps, p.term ≠ n) :
    ∀ t ∈ tokensFrom i ps, t.term ≠ n := by
  induction ps generalizing i with
  | nil => simp [tokensFrom]
  | cons p ps ih =>
      obtain ⟨hp, hps⟩ := List.forall_mem_cons.mp h
      exact List.forall_mem_cons.mpr ⟨hp, ih hps⟩

/-- White space and a lexeme. -/
structure Piece.Ok (p : Piece) : Prop where
  ws : ∀ c ∈ p.ws, isSkip c = true
  lexeme : Lexeme p.term p.lexeme

/-- A number ends where its piece ends; `rest` follows. -/
def Delimited : List Piece → StringT → Prop
  | [], _ => True
  | p :: ps, rest => (p.term = 1 ∨ p.term = 2 → isDelimiter ((render ps ++ rest).headD 0) = true) ∧
      Delimited ps rest

theorem delimited_append {ps qs : List Piece} : Delimited (ps ++ qs) rest ↔
    Delimited ps (render qs ++ rest) ∧ Delimited qs rest := by
  induction ps with
  | nil => simp [Delimited]
  | cons p ps ih =>
      simp only [List.cons_append, Delimited, ih, render_append, List.append_assoc]
      tauto

/-- Well-formed pieces that the lexer takes apart again. -/
structure Lexable (ps : List Piece) (rest : StringT) : Prop where
  ok : ∀ p ∈ ps, p.Ok
  delimited : Delimited ps rest

/-- The lexer takes the text of the pieces apart, when `rest` follows: no lexeme goes on with the character
    behind it. -/
def Parted : List Piece → StringT → Prop
  | [], _ => True
  | p :: ps, rest => p.Ok ∧ (∃ state, scan .state0 p.lexeme = some state ∧
      lexGoto state ((render ps ++ rest).headD 0).toNat = .inr (some p.term)) ∧ Parted ps rest

theorem Lexable.parted {ps : List Piece} (h : Lexable ps rest) : Parted ps rest := by
  induction ps with
  | nil => trivial
  | cons p ps ih =>
      obtain ⟨hok, hend, hdelimited⟩ := h
      obtain ⟨hp, hps⟩ := List.forall_mem_cons.mp hok
      obtain ⟨state, hscan, hterm⟩ := hp.lexeme.scanned
      refine ⟨hp, ⟨state, hscan, ?_⟩, ih ⟨hps, hdelimited⟩⟩
      by_cases hnum : p.term = 1 ∨ p.term = 2
      · exact lexGoto_delimiter hterm hp.lexeme.not_skip (hend hnum)
      · push Not at hnum
        exact lexGoto_closed hterm ⟨hnum.1, hnum.2, hp.lexeme.not_skip⟩ _

variable {fuel : Nat}

theorem next_of_recognize {t j : Nat} (h : recognizeTerminal fuel source i = some (some t, j)) :
    nextTerminal source fuel i = some (.ok (⟨t, i, j⟩, j)) := by
  simp only [nextTerminal, h]

/-- White space is skipped. -/
theorem supplies_ws {ts : List Token} {k : Nat} (hdrop : source.drop i = ws ++ rest)
    (hws : ∀ c ∈ ws, isSkip c = true) (hrest : isSkip (rest.headD 0) = false)
    (hlt : i + ws.length < c_uint32_range) (hfuel : ws.length ≤ fuel)
    (h : Supplies (nextTerminal source fuel) (i + ws.length) ts k) :
    Supplies (nextTerminal source fuel) i ts k := by
  by_cases hne : ws = []
  · subst hne
    exact h
  · have hrec := recognizeTerminal_of_scan hdrop hne
      (fun c hc => ne_nul_of_skip (hws c hc)) (scan_skips hne hws) (lexGoto_not_skip hrest).2 hlt hfuel
    exact .skip (next_of_recognize hrec) rfl h

/-- **Lexing a text.** The parser retrieves the terminals of the pieces. -/
theorem supplies_pieces {ps : List Piece} (hdrop : source.drop i = render ps ++ rest)
    (hps : Parted ps rest) (hlt : i + (render ps).length < c_uint32_range)
    (hfuel : (render ps).length ≤ fuel) :
    Supplies (nextTerminal source fuel) i (tokensFrom i ps) (i + (render ps).length) := by
  induction ps generalizing i with
  | nil => exact .nil
  | cons p ps ih =>
      obtain ⟨⟨hws, hlexeme⟩, ⟨state, hscan, hgoto⟩, hps⟩ := hps
      simp only [render_cons, List.length_append, List.append_assoc] at hdrop hlt hfuel ⊢
      obtain ⟨c, lexeme, hc⟩ := List.exists_cons_of_ne_nil hlexeme.ne_nil
      have hskip : isSkip ((p.lexeme ++ (render ps ++ rest)).headD 0) = false := by
        rw [hc] at hlexeme ⊢
        exact hlexeme.head_not_skip
      have hdrop₁ : source.drop (i + p.ws.length) = p.lexeme ++ (render ps ++ rest) := by
        rw [← List.drop_drop, hdrop, List.drop_left]
      have hdrop₂ : source.drop (i + p.ws.length + p.lexeme.length) = render ps ++ rest := by
        rw [← List.drop_drop, hdrop₁, List.drop_left]
      have hrec : recognizeTerminal fuel source (i + p.ws.length) =
          some (some p.term, i + p.ws.length + p.lexeme.length) :=
        recognizeTerminal_of_scan hdrop₁ hlexeme.ne_nil hlexeme.no_nul hscan hgoto (by omega) (by omega)
      have hrest := ih hdrop₂ hps (by omega) (by omega)
      refine supplies_ws hdrop hws hskip (by omega) (by omega) ?_
      rw [show i + (p.ws.length + (p.lexeme.length + (render ps).length)) =
        i + p.ws.length + p.lexeme.length + (render ps).length by omega]
      exact .cons (next_of_recognize hrec) hlexeme.not_skip hrest

/-- **A whole text.** Pieces and white space behind them supply their tokens, and the end of the input where
    the text ends or goes on with a NUL. -/
theorem supplies_text {ps : List Piece} (hsource : source = render ps ++ (ws ++ rest)) (hps : Parted ps (ws ++ rest))
    (hws : ∀ c ∈ ws, isSkip c = true) (hrest : rest.headD 0 = 0)
    (hlt : (render ps ++ ws).length < c_uint32_range) (hfuel : (render ps ++ ws).length < fuel) :
    Supplies (nextTerminal source fuel) 0
      (tokensFrom 0 ps ++ [⟨13, (render ps ++ ws).length, (render ps ++ ws).length⟩]) (render ps ++ ws).length := by
  have hdrop : source.drop (render ps ++ ws).length = rest := by
    rw [hsource, ← List.append_assoc, List.drop_left]
  have hend : recognizeTerminal fuel source (render ps ++ ws).length = some (some 13, (render ps ++ ws).length) := by
    refine recognizeTerminal_end ?_ (by omega)
    rw [inChar_eq, hdrop, hrest]
    rfl
  rw [List.length_append] at hlt hfuel hend ⊢
  have hpieces : Supplies (nextTerminal source fuel) 0 (tokensFrom 0 ps) (0 + (render ps).length) :=
    supplies_pieces (by rw [List.drop_zero, hsource]) hps (by omega) (by omega)
  refine hpieces.trans ?_
  rw [Nat.zero_add]
  have hskip : isSkip (rest.headD 0) = false := by
    rw [hrest]
    rfl
  refine supplies_ws (by rw [hsource, List.drop_left]) hws hskip (by omega) (by omega) ?_
  exact .cons (next_of_recognize hend) (by simp) .nil

/-! ## String literals -/

/-- A character or escape of a string literal. -/
inductive Item where
  | raw (c : UInt8)
  | esc (c : UInt8)
  | unicode (d₁ d₂ d₃ d₄ : UInt8)
deriving DecidableEq

def Item.text : Item → StringT
  | .raw c => [c]
  | .esc c => [92, c]
  | .unicode d₁ d₂ d₃ d₄ => [92, 117, d₁, d₂, d₃, d₄]

/-- What the lexer lets through. -/
def Item.Lexes : Item → Prop
  | .raw c => c ≠ 0 ∧ c ≠ 34 ∧ c ≠ 92
  | .esc c => c ∈ [34, 47, 92, 98, 102, 110, 114, 116]
  | .unicode d₁ d₂ d₃ d₄ => ∀ d ∈ [d₁, d₂, d₃, d₄], (hexDigit d).isSome = true

/-- What `pa_json_string` makes of it. -/
def Item.value : Item → Option StringT
  | .raw c => some [c]
  | .esc c => (unescape c).map (fun c => [c])
  | .unicode d₁ d₂ d₃ d₄ => (unicodeValue [d₁, d₂, d₃, d₄]).map utf8

def itemsText (items : List Item) : StringT := items.flatMap Item.text

/-- The string of a literal, `none` where an escape is refused. -/
def itemsValue : List Item → Option StringT
  | [] => some []
  | item :: items => item.value.bind (fun v => (itemsValue items).map (v ++ ·))

/-- A string literal, in its quotes. -/
def literal (items : List Item) : StringT := 34 :: (itemsText items ++ [34])

variable {item : Item} {items : List Item}

theorem scan_item (h : item.Lexes) : scan .state2 item.text = some .state2 := by
  cases item with
  | raw c =>
      have hall : ∀ c : UInt8, c ≠ 0 ∧ c ≠ 34 ∧ c ≠ 92 → scan .state2 [c] = some .state2 :=
        forall_byte (by decide +kernel)
      exact hall c h
  | esc c =>
      have hall : ∀ c ∈ ([34, 47, 92, 98, 102, 110, 114, 116] : StringT),
          scan .state2 [92, c] = some .state2 := by decide +kernel
      exact hall c h
  | unicode d₁ d₂ d₃ d₄ =>
      have hhex : ∀ d : UInt8, (hexDigit d).isSome = true →
          lexGoto .state23 d.toNat = .inl .state29 ∧ lexGoto .state29 d.toNat = .inl .state33 ∧
            lexGoto .state33 d.toNat = .inl .state35 ∧ lexGoto .state35 d.toNat = .inl .state2 :=
        forall_byte (by decide +kernel)
      have hstart : scan .state2 [92, 117] = some .state23 := by rfl
      have h₁ := (hhex d₁ (h d₁ (by simp))).1
      have h₂ := (hhex d₂ (h d₂ (by simp))).2.1
      have h₃ := (hhex d₃ (h d₃ (by simp))).2.2.1
      have h₄ := (hhex d₄ (h d₄ (by simp))).2.2.2
      rw [Item.text, show ([92, 117, d₁, d₂, d₃, d₄] : StringT) = [92, 117] ++ [d₁, d₂, d₃, d₄] from rfl,
        scan_append, hstart]
      simp only [Option.bind_some, scan, h₁, h₂, h₃, h₄]

theorem scan_items (h : ∀ item ∈ items, item.Lexes) : scan .state2 (itemsText items) = some .state2 := by
  induction items with
  | nil => rfl
  | cons item items ih =>
      rw [itemsText, List.flatMap_cons, scan_append, scan_item (h item List.mem_cons_self), Option.bind_some]
      exact ih (fun x hx => h x (List.mem_cons_of_mem _ hx))

theorem item_no_nul (h : item.Lexes) : ∀ c ∈ item.text, c ≠ 0 := by
  cases item with
  | raw c =>
      intro d hd
      rw [List.mem_singleton.mp hd]
      exact h.1
  | esc c =>
      have hc : c ≠ 0 := by
        rintro rfl
        exact absurd h (by simp [Item.Lexes])
      simpa [Item.text] using hc
  | unicode d₁ d₂ d₃ d₄ =>
      have hhex : ∀ d : UInt8, (hexDigit d).isSome = true → d ≠ 0 := by
        rintro d hd rfl
        exact absurd hd (by decide)
      intro c hc
      simp only [Item.text, List.mem_cons, List.not_mem_nil, or_false] at hc
      rcases hc with rfl | rfl | hc
      · decide
      · decide
      · exact hhex c (h c (by simpa using hc))

/-- A literal of such items is a string lexeme. -/
theorem lexeme_literal (h : ∀ item ∈ items, item.Lexes) : Lexeme 0 (literal items) where
  scanned := by
    refine ⟨.state16, ?_, rfl⟩
    have hquote : lexGoto .state0 (34 : UInt8).toNat = .inl .state2 := by rfl
    rw [literal, scan, hquote]
    simp only [scan_append, scan_items h, Option.bind_some]
    rfl
  ne_nil := by simp [literal]
  no_nul := by
    intro c hc
    simp only [literal, List.mem_cons, List.mem_append, List.not_mem_nil, or_false, itemsText,
      List.mem_flatMap] at hc
    rcases hc with rfl | ⟨item, hitem, hc⟩ | rfl
    · decide
    · exact item_no_nul (h item hitem) c hc
    · decide
  not_skip := by simp

/-- Decoding goes item by item. -/
theorem decodeString_item (h : item.Lexes) (tail : StringT) : decodeString (item.text ++ tail) =
    match item.value with
    | some v => (decodeString tail).map (v ++ ·)
    | none => .error .assertFailed := by
  cases item with
  | raw c =>
      simp only [Item.text, List.singleton_append, Item.value]
      rw [decodeString.eq_def]
      simp only [if_neg h.2.2]
  | esc c =>
      have hne : c ≠ 117 := by
        rintro rfl
        have hmem : (117 : UInt8) ∉ [34, 47, 92, 98, 102, 110, 114, 116] := by decide
        exact hmem h
      simp only [Item.text, List.cons_append, List.nil_append, Item.value]
      rw [decodeString.eq_def]
      simp only [if_true, if_neg hne]
      cases unescape c <;> rfl
  | unicode d₁ d₂ d₃ d₄ =>
      simp only [Item.text, List.cons_append, List.nil_append, Item.value]
      rw [decodeString.eq_def]
      simp only [if_true]
      cases unicodeValue [d₁, d₂, d₃, d₄] <;> rfl

theorem decodeString_items (h : ∀ item ∈ items, item.Lexes) : decodeString (itemsText items) =
    match itemsValue items with
    | some v => .ok v
    | none => .error .assertFailed := by
  induction items with
  | nil => rfl
  | cons item items ih =>
      rw [itemsText, List.flatMap_cons, decodeString_item (h item List.mem_cons_self), itemsValue]
      have htail := ih (fun x hx => h x (List.mem_cons_of_mem _ hx))
      rw [itemsText] at htail
      cases item.value with
      | none => rfl
      | some v =>
          simp only [htail, Option.bind_some]
          cases itemsValue items <;> rfl

/-- **A string literal of the text.** -/
theorem stringConst_literal (h : ∀ item ∈ items, item.Lexes) (hdrop : source.drop i = literal items ++ rest) :
    stringConst source i (i + (literal items).length) =
      match itemsValue items with
      | some v => .ok v
      | none => .error .assertFailed := by
  have hlen : (literal items).length = (itemsText items).length + 2 := by simp [literal]
  have hbody : stringBody source i (i + (literal items).length) = itemsText items := by
    rw [stringBody, ← List.drop_drop, hdrop, hlen]
    simp only [literal, List.cons_append, List.drop_succ_cons, List.drop_zero, List.append_assoc]
    rw [show i + ((itemsText items).length + 2) - i - 2 = (itemsText items).length by omega, List.take_left]
  rw [stringConst, if_neg (by omega), hbody, decodeString_items h]

end Ccljson
end Cclib
