import Cclib.Ccljson.Print

/-!
# `Ccljson.Rfc` — the texts of RFC 8259

The grammar of the RFC, byte by byte (`RfcValue` and what it is made of), against the parser. White space
stands around structural characters there and in front of lexemes here, so a text is read with the white
space left over from what came before (`Reads`).

- `rfc_parses_iff` — a text of the RFC whose value is an object is parsed unless it has the escape `\/`:
  the lexer lets that escape through and `pa_json_string` asserts on it.
-/

namespace Cclib
namespace Ccljson
open Cclvar

/-! ## The grammar of the RFC -/

/-- `ws = *( %x20 / %x09 / %x0A / %x0D )` -/
def Ws (s : StringT) : Prop := ∀ c ∈ s, c = 0x20 ∨ c = 0x09 ∨ c = 0x0a ∨ c = 0x0d

/-- `ws c ws`, a structural character. -/
def Structural (c : UInt8) (s : StringT) : Prop := ∃ w w', Ws w ∧ Ws w' ∧ s = w ++ c :: w'

/-- `1*DIGIT` -/
def Digits (ds : StringT) : Prop := ds ≠ [] ∧ ∀ c ∈ ds, 0x30 ≤ c ∧ c ≤ 0x39

/-- `int = zero / ( digit1-9 *DIGIT )` -/
inductive RfcInt : StringT → Prop
  | zero : RfcInt [0x30]
  | digits {d : UInt8} {ds : StringT} (hd : 0x31 ≤ d ∧ d ≤ 0x39) (hds : ∀ c ∈ ds, 0x30 ≤ c ∧ c ≤ 0x39) :
      RfcInt (d :: ds)

/-- `[ frac ]`, with `frac = decimal-point 1*DIGIT` -/
inductive RfcFrac : StringT → Prop
  | none : RfcFrac []
  | digits {ds : StringT} (hds : Digits ds) : RfcFrac (0x2e :: ds)

/-- `[ exp ]`, with `exp = e [ minus / plus ] 1*DIGIT` -/
inductive RfcExp : StringT → Prop
  | none : RfcExp []
  | digits {e : UInt8} {sign ds : StringT} (he : e = 0x65 ∨ e = 0x45)
      (hsign : sign = [] ∨ sign = [0x2d] ∨ sign = [0x2b]) (hds : Digits ds) : RfcExp (e :: (sign ++ ds))

/-- `number = [ minus ] int [ frac ] [ exp ]` -/
inductive RfcNumber : StringT → Prop
  | mk {minus int frac exp : StringT} (hminus : minus = [] ∨ minus = [0x2d]) (hint : RfcInt int)
      (hfrac : RfcFrac frac) (hexp : RfcExp exp) : RfcNumber (minus ++ int ++ frac ++ exp)

/-- `unescaped = %x20-21 / %x23-5B / %x5D-10FFFF`, in UTF-8. -/
inductive Unescaped : StringT → Prop
  | one {a : UInt8} (ha : 0x20 ≤ a ∧ a ≤ 0x7f) (hquote : a ≠ 0x22) (hescape : a ≠ 0x5c) : Unescaped [a]
  | two {a b : UInt8} (ha : 0xc2 ≤ a ∧ a ≤ 0xdf) (hb : 0x80 ≤ b ∧ b ≤ 0xbf) : Unescaped [a, b]
  | three {a b c : UInt8} (ha : 0xe0 ≤ a ∧ a ≤ 0xef) (hb : 0x80 ≤ b ∧ b ≤ 0xbf) (hc : 0x80 ≤ c ∧ c ≤ 0xbf)
      (hshort : a = 0xe0 → 0xa0 ≤ b) (hsurrogate : a = 0xed → b ≤ 0x9f) : Unescaped [a, b, c]
  | four {a b c d : UInt8} (ha : 0xf0 ≤ a ∧ a ≤ 0xf4) (hb : 0x80 ≤ b ∧ b ≤ 0xbf) (hc : 0x80 ≤ c ∧ c ≤ 0xbf)
      (hd : 0x80 ≤ d ∧ d ≤ 0xbf) (hshort : a = 0xf0 → 0x90 ≤ b) (hrange : a = 0xf4 → b ≤ 0x8f) :
      Unescaped [a, b, c, d]

/-- `HEXDIG`, in either case. -/
def HexDigit (c : UInt8) : Prop := (0x30 ≤ c ∧ c ≤ 0x39) ∨ (0x41 ≤ c ∧ c ≤ 0x46) ∨ (0x61 ≤ c ∧ c ≤ 0x66)

/-- `char` -/
inductive RfcChar : StringT → Prop
  | unescaped {s : StringT} (h : Unescaped s) : RfcChar s
  | quote : RfcChar [0x5c, 0x22]
  | backslash : RfcChar [0x5c, 0x5c]
  | solidus : RfcChar [0x5c, 0x2f]
  | backspace : RfcChar [0x5c, 0x62]
  | formFeed : RfcChar [0x5c, 0x66]
  | lineFeed : RfcChar [0x5c, 0x6e]
  | carriageReturn : RfcChar [0x5c, 0x72]
  | tab : RfcChar [0x5c, 0x74]
  | unicode {d₁ d₂ d₃ d₄ : UInt8} (h₁ : HexDigit d₁) (h₂ : HexDigit d₂) (h₃ : HexDigit d₃)
      (h₄ : HexDigit d₄) : RfcChar [0x5c, 0x75, d₁, d₂, d₃, d₄]

/-- `string = quotation-mark *char quotation-mark` -/
inductive RfcString : StringT → Prop
  | mk {cs : List StringT} (h : ∀ c ∈ cs, RfcChar c) : RfcString (0x22 :: (cs.flatten ++ [0x22]))

mutual
/-- `value = false / null / true / object / array / number / string` -/
inductive RfcValue : StringT → Prop
  | false_ : RfcValue [0x66, 0x61, 0x6c, 0x73, 0x65]
  | null : RfcValue [0x6e, 0x75, 0x6c, 0x6c]
  | true_ : RfcValue [0x74, 0x72, 0x75, 0x65]
  | object {s : StringT} (h : RfcObject s) : RfcValue s
  | array {s : StringT} (h : RfcArray s) : RfcValue s
  | number {s : StringT} (h : RfcNumber s) : RfcValue s
  | string {s : StringT} (h : RfcString s) : RfcValue s

/-- `object = begin-object [ member *( value-separator member ) ] end-object` -/
inductive RfcObject : StringT → Prop
  | empty {o c : StringT} (ho : Structural 0x7b o) (hc : Structural 0x7d c) : RfcObject (o ++ c)
  | members {o ms c : StringT} (ho : Structural 0x7b o) (h : RfcMembers ms) (hc : Structural 0x7d c) :
      RfcObject (o ++ ms ++ c)

inductive RfcMembers : StringT → Prop
  | one {m : StringT} (h : RfcMember m) : RfcMembers m
  | more {ms s m : StringT} (h : RfcMembers ms) (hs : Structural 0x2c s) (hm : RfcMember m) :
      RfcMembers (ms ++ s ++ m)

/-- `member = string name-separator value` -/
inductive RfcMember : StringT → Prop
  | mk {k s v : StringT} (hk : RfcString k) (hs : Structural 0x3a s) (hv : RfcValue v) :
      RfcMember (k ++ s ++ v)

/-- `array = begin-array [ value *( value-separator value ) ] end-array` -/
inductive RfcArray : StringT → Prop
  | empty {o c : StringT} (ho : Structural 0x5b o) (hc : Structural 0x5d c) : RfcArray (o ++ c)
  | values {o vs c : StringT} (ho : Structural 0x5b o) (h : RfcValues vs) (hc : Structural 0x5d c) :
      RfcArray (o ++ vs ++ c)

inductive RfcValues : StringT → Prop
  | one {v : StringT} (h : RfcValue v) : RfcValues v
  | more {vs s v : StringT} (h : RfcValues vs) (hs : Structural 0x2c s) (hv : RfcValue v) :
      RfcValues (vs ++ s ++ v)
end

/-- `JSON-text = ws value ws`, where the value is an object. -/
inductive RfcText : StringT → Prop
  | mk {w o w' : StringT} (hw : Ws w) (ho : RfcObject o) (hw' : Ws w') : RfcText (w ++ o ++ w')

/-- Somewhere in the text stands the escape `\/`. Escapes are taken two bytes at a time, so the second of
    `\\` begins no escape. -/
def hasSolidus : StringT → Bool
  | [] => false
  | [_] => false
  | a :: b :: rest => if a = 0x5c then decide (b = 0x2f) || hasSolidus rest else hasSolidus (b :: rest)

/-! ## Lexemes of the RFC -/

theorem isSkip_of_ws {w : StringT} (h : Ws w) : ∀ c ∈ w, isSkip c = true := by
  intro c hc
  rcases h c hc with rfl | rfl | rfl | rfl <;> decide

/-- Where digits lead. -/
theorem digit_step {c : UInt8} (h : 0x30 ≤ c ∧ c ≤ 0x39) :
    lexGoto .state6 c.toNat = .inl .state6 ∧ lexGoto .state18 c.toNat = .inl .state18 ∧
      lexGoto .state19 c.toNat = .inl .state25 ∧ lexGoto .state24 c.toNat = .inl .state25 ∧
      lexGoto .state25 c.toNat = .inl .state25 := by
  have h₆ : ∀ c : UInt8, 0x30 ≤ c ∧ c ≤ 0x39 →
      lexGoto .state6 c.toNat = .inl .state6 ∧ lexGoto .state18 c.toNat = .inl .state18 :=
    forall_byte (by decide +kernel)
  have h₁₉ : ∀ c : UInt8, 0x30 ≤ c ∧ c ≤ 0x39 →
      lexGoto .state19 c.toNat = .inl .state25 ∧ lexGoto .state24 c.toNat = .inl .state25 ∧
        lexGoto .state25 c.toNat = .inl .state25 := forall_byte (by decide +kernel)
  obtain ⟨hint, hfrac⟩ := h₆ c h
  exact ⟨hint, hfrac, h₁₉ c h⟩

/-- Labels that digits lead back to. -/
theorem scan_digits {state : LexState} {ds : StringT}
    (hstate : ∀ c : UInt8, 0x30 ≤ c ∧ c ≤ 0x39 → lexGoto state c.toNat = .inl state)
    (hds : ∀ c ∈ ds, 0x30 ≤ c ∧ c ≤ 0x39) : scan state ds = some state := by
  induction ds with
  | nil => rfl
  | cons c ds ih =>
      rw [scan, hstate c (hds c List.mem_cons_self)]
      exact ih fun d hd => hds d (List.mem_cons_of_mem _ hd)

/-- The integer part, from the start or behind a minus. -/
theorem scan_int {int : StringT} (h : RfcInt int) :
    ∃ state, (state = .state5 ∨ state = .state6) ∧ scan .state0 int = some state ∧
      scan .state4 int = some state := by
  cases h with
  | zero => exact ⟨.state5, Or.inl rfl, rfl, rfl⟩
  | @digits d ds hd hds =>
      have hfirst : ∀ d : UInt8, 0x31 ≤ d ∧ d ≤ 0x39 →
          lexGoto .state0 d.toNat = .inl .state6 ∧ lexGoto .state4 d.toNat = .inl .state6 :=
        forall_byte (by decide +kernel)
      have hrest : scan .state6 ds = some .state6 := scan_digits (fun c hc => (digit_step hc).1) hds
      obtain ⟨h₀, h₄⟩ := hfirst d hd
      refine ⟨.state6, Or.inr rfl, ?_, ?_⟩
      · rw [scan, h₀]
        exact hrest
      · rw [scan, h₄]
        exact hrest

theorem scan_signed {minus int : StringT} (hminus : minus = [] ∨ minus = [0x2d]) (h : RfcInt int) :
    ∃ state, (state = .state5 ∨ state = .state6) ∧ scan .state0 (minus ++ int) = some state := by
  obtain ⟨state, hstate, h₀, h₄⟩ := scan_int h
  refine ⟨state, hstate, ?_⟩
  rcases hminus with rfl | rfl
  · exact h₀
  · have hgoto : lexGoto .state0 (0x2d : UInt8).toNat = .inl .state4 := by rfl
    rw [List.singleton_append, scan, hgoto]
    exact h₄

/-- The decimal point and the digits behind it, if any. -/
theorem scan_point {ds : StringT} (hds : ∀ c ∈ ds, 0x30 ≤ c ∧ c ≤ 0x39) {state : LexState}
    (hstate : state = .state5 ∨ state = .state6) : scan state (0x2e :: ds) = some .state18 := by
  have hpoint : lexGoto state (0x2e : UInt8).toNat = .inl .state18 := by
    rcases hstate with rfl | rfl <;> rfl
  rw [scan, hpoint]
  exact scan_digits (fun c hc => (digit_step hc).2.1) hds

theorem scan_frac {frac : StringT} (h : RfcFrac frac) {state : LexState}
    (hstate : state = .state5 ∨ state = .state6) :
    ∃ state', (state' = .state5 ∨ state' = .state6 ∨ state' = .state18) ∧ scan state frac = some state' := by
  cases h with
  | none => exact ⟨state, by tauto, rfl⟩
  | digits hds => exact ⟨.state18, by tauto, scan_point hds.2 hstate⟩

theorem scan_exp {exp : StringT} (h : RfcExp exp) {state : LexState}
    (hstate : state = .state5 ∨ state = .state6 ∨ state = .state18) :
    ∃ state' term, lexTerminal state' = some term ∧ (term = 1 ∨ term = 2) ∧ scan state exp = some state' := by
  cases h with
  | none => rcases hstate with rfl | rfl | rfl <;> exact ⟨_, _, rfl, by decide, rfl⟩
  | @digits e sign ds he hsign hds =>
      have hexp : lexGoto state e.toNat = .inl .state19 := by
        rcases hstate with rfl | rfl | rfl <;> rcases he with rfl | rfl <;> rfl
      have hdigits : ∀ ds, (∀ c ∈ ds, 0x30 ≤ c ∧ c ≤ 0x39) → scan .state25 ds = some .state25 :=
        fun ds => scan_digits fun c hc => (digit_step hc).2.2.2.2
      obtain ⟨hne, hall⟩ := hds
      obtain ⟨d, ds, rfl⟩ := List.exists_cons_of_ne_nil hne
      obtain ⟨hd, hds⟩ := List.forall_mem_cons.mp hall
      obtain ⟨-, -, h₁₉, h₂₄, -⟩ := digit_step hd
      refine ⟨.state25, 2, rfl, Or.inr rfl, ?_⟩
      rw [scan, hexp]
      rcases hsign with rfl | rfl | rfl
      · simp only [List.nil_append, scan, h₁₉, hdigits ds hds]
      · have hminus : lexGoto .state19 (0x2d : UInt8).toNat = .inl .state24 := by rfl
        simp only [List.cons_append, List.nil_append, scan, hminus, h₂₄, hdigits ds hds]
      · have hplus : lexGoto .state19 (0x2b : UInt8).toNat = .inl .state24 := by rfl
        simp only [List.cons_append, List.nil_append, scan, hplus, h₂₄, hdigits ds hds]

/-- The characters of numbers. -/
theorem rfcNumber_chars {s : StringT} (h : RfcNumber s) :
    ∀ c ∈ s, (0x30 ≤ c ∧ c ≤ 0x39) ∨ c ∈ ([0x2d, 0x2b, 0x2e, 0x65, 0x45] : StringT) := by
  obtain ⟨hminus, hint, hfrac, hexp⟩ := h
  simp only [List.forall_mem_append]
  refine ⟨⟨⟨?_, ?_⟩, ?_⟩, ?_⟩
  · rcases hminus with rfl | rfl <;> simp
  · cases hint with
    | zero => simp
    | digits hd hds =>
        refine List.forall_mem_cons.mpr ⟨Or.inl ⟨?_, hd.2⟩, fun c hc => Or.inl (hds c hc)⟩
        exact UInt8.le_trans (by decide) hd.1
  · cases hfrac with
    | none => simp
    | digits hds => exact List.forall_mem_cons.mpr ⟨by simp, fun c hc => Or.inl (hds.2 c hc)⟩
  · cases hexp with
    | none => simp
    | digits he hsign hds =>
        refine List.forall_mem_cons.mpr ⟨by rcases he with rfl | rfl <;> simp, ?_⟩
        refine List.forall_mem_append.mpr ⟨?_, fun c hc => Or.inl (hds.2 c hc)⟩
        rcases hsign with rfl | rfl | rfl <;> simp

/-- A number is a lexeme. -/
theorem lexeme_number {s : StringT} (h : RfcNumber s) : (Lexeme 1 s ∨ Lexeme 2 s) ∧ 0x5c ∉ s := by
  have hchars := rfcNumber_chars h
  have hall : ∀ c : UInt8, (0x30 ≤ c ∧ c ≤ 0x39) ∨ c ∈ ([0x2d, 0x2b, 0x2e, 0x65, 0x45] : StringT) →
      c ≠ 0 ∧ c ≠ 0x5c := by
    intro c hc
    constructor <;> rintro rfl <;> exact absurd hc (by decide)
  refine ⟨?_, fun hmem => (hall _ (hchars _ hmem)).2 rfl⟩
  obtain ⟨hminus, hint, hfrac, hexp⟩ := h
  rename_i minus int frac exp
  obtain ⟨state, hstate, hlead⟩ := scan_signed hminus hint
  obtain ⟨state', hstate', hfrac⟩ := scan_frac hfrac hstate
  obtain ⟨state'', term, hterm, hnum, hexp⟩ := scan_exp hexp hstate'
  have hscan : scan .state0 (minus ++ int ++ frac ++ exp) = some state'' := by
    rw [scan_append, scan_append, hlead, Option.bind_some, hfrac, Option.bind_some, hexp]
  have hne : minus ++ int ++ frac ++ exp ≠ [] := by
    cases hint <;> simp
  have hnul : ∀ c ∈ minus ++ int ++ frac ++ exp, c ≠ 0 := fun c hc => (hall c (hchars c hc)).1
  rcases hnum with rfl | rfl
  · exact Or.inl ⟨⟨state'', hscan, hterm⟩, hne, hnul, by decide⟩
  · exact Or.inr ⟨⟨state'', hscan, hterm⟩, hne, hnul, by decide⟩

/-- A character of the RFC is an item of a literal, or a few; it is `\/` or has none. -/
theorem items_of_char {s : StringT} (h : RfcChar s) :
    ∃ items, itemsText items = s ∧ ∀ item ∈ items, item.Lexes := by
  have hraw : ∀ {cs : StringT}, (∀ c ∈ cs, c ≠ 0 ∧ c ≠ 34 ∧ c ≠ 92) →
      ∃ items, itemsText items = cs ∧ ∀ item ∈ items, item.Lexes := by
    intro cs hcs
    refine ⟨cs.map .raw, by simp [itemsText, List.flatMap_map, Item.text], fun item hitem => ?_⟩
    obtain ⟨c, hc, rfl⟩ := List.mem_map.mp hitem
    exact hcs c hc
  have hesc : ∀ c ∈ ([34, 47, 92, 98, 102, 110, 114, 116] : StringT),
      ∃ items, itemsText items = [92, c] ∧ ∀ item ∈ items, item.Lexes :=
    fun c hc => ⟨[.esc c], rfl, List.forall_mem_singleton.mpr hc⟩
  -- the bytes of a character above 0x7F are neither quotes nor backslashes
  have hhigh : ∀ c : UInt8, 0x80 ≤ c → c ≠ 0 ∧ c ≠ 34 ∧ c ≠ 92 := by
    intro c hc
    refine ⟨?_, ?_, ?_⟩ <;> rintro rfl <;> exact absurd hc (by decide)
  cases h with
  | unescaped h =>
      refine hraw ?_
      cases h with
      | one ha hquote hescape =>
          refine List.forall_mem_singleton.mpr ⟨?_, hquote, hescape⟩
          rintro rfl
          exact absurd ha.1 (by decide)
      | two ha hb =>
          simp only [List.forall_mem_cons, List.not_mem_nil, false_imp_iff, implies_true, and_true]
          exact ⟨hhigh _ (UInt8.le_trans (by decide) ha.1), hhigh _ hb.1⟩
      | three ha hb hc _ _ =>
          simp only [List.forall_mem_cons, List.not_mem_nil, false_imp_iff, implies_true, and_true]
          exact ⟨hhigh _ (UInt8.le_trans (by decide) ha.1), hhigh _ hb.1, hhigh _ hc.1⟩
      | four ha hb hc hd _ _ =>
          simp only [List.forall_mem_cons, List.not_mem_nil, false_imp_iff, implies_true, and_true]
          exact ⟨hhigh _ (UInt8.le_trans (by decide) ha.1), hhigh _ hb.1, hhigh _ hc.1, hhigh _ hd.1⟩
  | unicode h₁ h₂ h₃ h₄ =>
      have hhex : ∀ d : UInt8, HexDigit d → (hexDigit d).isSome = true := by
        intro d hd
        unfold hexDigit
        split_ifs with hdecimal hlower hupper
        · rfl
        · rfl
        · rfl
        · rcases hd with hd | hd | hd
          · exact absurd hd hdecimal
          · exact absurd hd hupper
          · exact absurd hd hlower
      refine ⟨[.unicode _ _ _ _], rfl, List.forall_mem_singleton.mpr ?_⟩
      simp only [Item.Lexes, List.forall_mem_cons, List.not_mem_nil, false_imp_iff, implies_true, and_true]
      exact ⟨hhex _ h₁, hhex _ h₂, hhex _ h₃, hhex _ h₄⟩
  | _ => exact hesc _ (by decide)

/-- A string of the RFC is a literal. -/
theorem literal_of_string {s : StringT} (h : RfcString s) :
    ∃ items, (∀ item ∈ items, item.Lexes) ∧ s = literal items := by
  obtain ⟨h⟩ := h
  rename_i cs
  have hitems : ∃ items, itemsText items = cs.flatten ∧ ∀ item ∈ items, item.Lexes := by
    induction cs with
    | nil => exact ⟨[], rfl, by simp⟩
    | cons c cs ih =>
        obtain ⟨hc, hcs⟩ := List.forall_mem_cons.mp h
        obtain ⟨items, htext, hlexes⟩ := items_of_char hc
        obtain ⟨items', htext', hlexes'⟩ := ih hcs
        refine ⟨items ++ items', ?_, List.forall_mem_append.mpr ⟨hlexes, hlexes'⟩⟩
        rw [itemsText, List.flatMap_append, List.flatten_cons, ← htext, ← htext']
        rfl
  obtain ⟨items, htext, hlexes⟩ := hitems
  exact ⟨items, hlexes, by rw [literal, htext]⟩

/-! ## Solidus escapes -/

theorem hasSolidus_append {a : StringT} (h : 0x5c ∉ a) (b : StringT) : hasSolidus (a ++ b) = hasSolidus b := by
  induction a with
  | nil => rfl
  | cons c a ih =>
      have hc : c ≠ 0x5c := fun heq => h (by simp [heq])
      have htail := ih fun hmem => h (by simp [hmem])
      rw [List.cons_append, ← htail]
      cases hl : a ++ b with
      | nil => rfl
      | cons d l => rw [hasSolidus, if_neg hc]

theorem hasSolidus_item {item : Item} (h : item.Lexes) (b : StringT) :
    hasSolidus (item.text ++ b) = (decide (item = .esc 47) || hasSolidus b) := by
  cases item with
  | raw c => rw [Item.text, hasSolidus_append (by simpa using h.2.2.symm)]; simp
  | esc c => simp [Item.text, hasSolidus]
  | unicode d₁ d₂ d₃ d₄ =>
      have hhex : ∀ d : UInt8, (hexDigit d).isSome = true → d ≠ 0x5c := by
        rintro d hd rfl
        exact absurd hd (by decide)
      have hdigits : 0x5c ∉ [d₁, d₂, d₃, d₄] := fun hmem => hhex _ (h _ hmem) rfl
      rw [Item.text, show ([92, 117, d₁, d₂, d₃, d₄] : StringT) ++ b = 92 :: 117 :: ([d₁, d₂, d₃, d₄] ++ b) from rfl,
        hasSolidus, if_pos rfl, hasSolidus_append hdigits]
      simp

theorem hasSolidus_literal {items : List Item} (h : ∀ item ∈ items, item.Lexes) (b : StringT) :
    hasSolidus (literal items ++ b) = (decide (Item.esc 47 ∈ items) || hasSolidus b) := by
  have hitems : ∀ b, hasSolidus (itemsText items ++ b) = (decide (Item.esc 47 ∈ items) || hasSolidus b) := by
    intro b
    induction items with
    | nil => simp [itemsText]
    | cons item items ih =>
        obtain ⟨hitem, hitems⟩ := List.forall_mem_cons.mp h
        have htail := ih hitems
        rw [itemsText] at htail ⊢
        rw [List.flatMap_cons, List.append_assoc, hasSolidus_item hitem, htail]
        by_cases heq : item = .esc 47 <;> simp [heq, eq_comm]
  rw [literal, List.cons_append, List.append_assoc,
    show ∀ l : StringT, (34 : UInt8) :: l = [34] ++ l from fun _ => rfl, hasSolidus_append (by decide), hitems,
    hasSolidus_append (by decide)]

theorem unicodeValue_isSome {d₁ d₂ d₃ d₄ : UInt8} (h : (Item.unicode d₁ d₂ d₃ d₄).Lexes) :
    (unicodeValue [d₁, d₂, d₃, d₄]).isSome = true := by
  obtain ⟨n₁, h₁⟩ := Option.isSome_iff_exists.mp (h d₁ (by simp))
  obtain ⟨n₂, h₂⟩ := Option.isSome_iff_exists.mp (h d₂ (by simp))
  obtain ⟨n₃, h₃⟩ := Option.isSome_iff_exists.mp (h d₃ (by simp))
  obtain ⟨n₄, h₄⟩ := Option.isSome_iff_exists.mp (h d₄ (by simp))
  simp [unicodeValue, List.foldlM_cons, h₁, h₂, h₃, h₄]

/-- The strings that the action can decode are those without a solidus escape. -/
theorem itemsValue_isSome {items : List Item} (h : ∀ item ∈ items, item.Lexes) :
    (itemsValue items).isSome = true ↔ Item.esc 47 ∉ items := by
  induction items with
  | nil => simp [itemsValue]
  | cons item items ih =>
      obtain ⟨hitem, hitems⟩ := List.forall_mem_cons.mp h
      have hvalue : item.value.isSome = true ↔ item ≠ .esc 47 := by
        cases item with
        | raw c => simp [Item.value]
        | esc c =>
            have hall : ∀ c ∈ ([34, 47, 92, 98, 102, 110, 114, 116] : StringT),
                (unescape c).isSome = true ↔ c ≠ 47 := by simp [unescape]
            simpa [Item.value] using hall c hitem
        | unicode d₁ d₂ d₃ d₄ =>
            have hsome : (unicodeValue [d₁, d₂, d₃, d₄]).isSome = true := unicodeValue_isSome hitem
            simpa [Item.value] using hsome
      have hne : ¬ Item.esc 47 = item ↔ item.value.isSome = true := by
        rw [hvalue]
        exact ne_comm
      rw [List.mem_cons, not_or, ← ih hitems, hne, itemsValue]
      cases item.value <;> cases itemsValue items <;> simp

/-! ## Texts of the RFC in pieces -/

/-- A piece as the RFC has it: a string literal, or another lexeme without a backslash. -/
structure RfcPiece (p : Piece) : Prop where
  ok : p.Ok
  literal : p.term = 0 → ∃ items, (∀ item ∈ items, item.Lexes) ∧ p.lexeme = literal items
  plain : p.term ≠ 0 → 0x5c ∉ p.lexeme

/-- Behind white space, `s` is pieces that spell nodes as in `k`, and white space that is left over. When
    `number`, the last piece may be a number, and then what follows it must end it. -/
def Reads (s : StringT) (number : Bool) (k : List Node → Prop) : Prop :=
  ∀ pre, (∀ c ∈ pre, isSkip c = true) → ∃ ps post, pre ++ s = render ps ++ post ∧
    (∀ c ∈ post, isSkip c = true) ∧ (∀ p ∈ ps, RfcPiece p) ∧
    (∀ rest, (number = true → isDelimiter ((post ++ rest).headD 0) = true) → Delimited ps (post ++ rest)) ∧
    ∀ i, ∃ ns, k ns ∧ Spelled ns (tokensFrom i ps)

variable {s s' : StringT} {number number' : Bool} {k k' : List Node → Prop}

/-- What is read reduces. -/
theorem Reads.imp (h : Reads s number k) (hk : ∀ ns w, k ns → Spelled ns w → ∃ ns', k' ns' ∧ Spelled ns' w) :
    Reads s number k' := by
  intro pre hpre
  obtain ⟨ps, post, heq, hpost, hps, hdelimited, hspelled⟩ := h pre hpre
  refine ⟨ps, post, heq, hpost, hps, hdelimited, fun i => ?_⟩
  obtain ⟨ns, hns, hs⟩ := hspelled i
  exact hk ns _ hns hs

theorem isDelimiter_of_skip {c : UInt8} (h : isSkip c = true) : isDelimiter c = true := by
  simp [isDelimiter, h]

/-- White space in front of a delimiter is a delimiter. -/
theorem delimiter_of_skips {w rest : StringT} (hw : ∀ c ∈ w, isSkip c = true)
    (hrest : isDelimiter (rest.headD 0) = true) : isDelimiter ((w ++ rest).headD 0) = true := by
  cases w with
  | nil => exact hrest
  | cons c w => exact isDelimiter_of_skip (hw c List.mem_cons_self)

/-- One text after the other. -/
theorem Reads.append (h : Reads s number k) (h' : Reads s' number' k')
    (hs' : number = true → ∀ rest, isDelimiter ((s' ++ rest).headD 0) = true) :
    Reads (s ++ s') number' (fun ns => ∃ a b, ns = b ++ a ∧ k a ∧ k' b) := by
  intro pre hpre
  obtain ⟨ps, post, heq, hpost, hps, hdelimited, hspelled⟩ := h pre hpre
  obtain ⟨qs, post', heq', hpost', hqs, hdelimited', hspelled'⟩ := h' post hpost
  refine ⟨ps ++ qs, post', ?_, hpost', List.forall_mem_append.mpr ⟨hps, hqs⟩, ?_, ?_⟩
  · rw [← List.append_assoc, heq, List.append_assoc, heq', render_append, List.append_assoc]
  · intro rest hrest
    refine delimited_append.mpr ⟨?_, hdelimited' rest hrest⟩
    rw [← List.append_assoc, ← heq', List.append_assoc]
    exact hdelimited _ fun hnumber => delimiter_of_skips hpost (hs' hnumber rest)
  · intro i
    obtain ⟨a, ha, hsa⟩ := hspelled i
    obtain ⟨b, hb, hsb⟩ := hspelled' (i + (render ps).length)
    refine ⟨b ++ a, ⟨a, b, rfl, ha, hb⟩, ?_⟩
    rw [tokensFrom_append]
    exact hsa.append hsb

/-- One lexeme. -/
theorem reads_lexeme {term : Nat} (hlexeme : Lexeme term s)
    (hliteral : term = 0 → ∃ items, (∀ item ∈ items, item.Lexes) ∧ s = literal items)
    (hplain : term ≠ 0 → 0x5c ∉ s) :
    Reads s (decide (term = 1 ∨ term = 2)) (fun ns => ∃ t : Token, t.term = term ∧ ns = [.term t]) := by
  intro pre hpre
  refine ⟨[⟨pre, term, s⟩], [], by simp, by simp, List.forall_mem_singleton.mpr ⟨⟨hpre, hlexeme⟩, hliteral, hplain⟩,
    ?_, fun i => ⟨_, ⟨_, rfl, rfl⟩, spelled_token _⟩⟩
  intro rest hrest
  exact delimited_singleton fun hterm => hrest (decide_eq_true hterm)

/-- White space behind is left over. -/
theorem Reads.trail (h : Reads s false k) {w : StringT} (hw : ∀ c ∈ w, isSkip c = true) :
    Reads (s ++ w) false k := by
  intro pre hpre
  obtain ⟨ps, post, heq, hpost, hps, hdelimited, hspelled⟩ := h pre hpre
  refine ⟨ps, post ++ w, ?_, List.forall_mem_append.mpr ⟨hpost, hw⟩, hps, fun rest _ => ?_, hspelled⟩
  · rw [← List.append_assoc, heq, List.append_assoc]
  · rw [List.append_assoc]
    exact hdelimited _ (by simp)

/-- White space in front joins what is left over. -/
theorem Reads.lead (h : Reads s number k) {w : StringT} (hw : ∀ c ∈ w, isSkip c = true) :
    Reads (w ++ s) number k := by
  intro pre hpre
  obtain ⟨ps, post, heq, hrest⟩ := h (pre ++ w) (List.forall_mem_append.mpr ⟨hpre, hw⟩)
  exact ⟨ps, post, by rw [← heq, List.append_assoc], hrest⟩

/-- The structural characters with their terminals. -/
theorem reads_structural {c : UInt8} (term : Nat)
    (hterm : (c, term) ∈ ([(0x7b, 6), (0x7d, 7), (0x5b, 8), (0x5d, 9), (0x2c, 10), (0x3a, 11)] : List (UInt8 × Nat)))
    (h : Structural c s) : Reads s false (fun ns => ∃ t : Token, t.term = term ∧ ns = [.term t]) := by
  obtain ⟨w, w', hw, hw', rfl⟩ := h
  have hall : ∀ p ∈ ([(0x7b, 6), (0x7d, 7), (0x5b, 8), (0x5d, 9), (0x2c, 10), (0x3a, 11)] : List (UInt8 × Nat)),
      (scan .state0 [p.1]).bind lexTerminal = some p.2 ∧ p.1 ≠ 0 ∧ p.1 ≠ 0x5c ∧ 3 ≤ p.2 ∧ p.2 ≠ 12 := by
    decide
  obtain ⟨hscan, hnul, hback, hlarge, hskip⟩ := hall _ hterm
  have hlexeme : Lexeme term [c] :=
    ⟨Option.bind_eq_some_iff.mp hscan, by simp, by simpa using hnul, hskip⟩
  have hreads := reads_lexeme hlexeme (by omega) (fun _ => by simpa using hback.symm)
  rw [show decide (term = 1 ∨ term = 2) = false from decide_eq_false (by omega)] at hreads
  rw [← List.singleton_append]
  exact (hreads.trail (isSkip_of_ws hw')).lead (isSkip_of_ws hw)

theorem Reads.weaken (h : Reads s number k) : Reads s true k := by
  intro pre hpre
  obtain ⟨ps, post, heq, hpost, hps, hdelimited, hspelled⟩ := h pre hpre
  exact ⟨ps, post, heq, hpost, hps, fun rest hrest => hdelimited rest fun _ => hrest rfl, hspelled⟩

/-- Commas, colons and closing brackets end numbers. -/
theorem structural_delimiter {c : UInt8} (hc : isDelimiter c = true) (h : Structural c s) (rest : StringT) :
    isDelimiter ((s ++ rest).headD 0) = true := by
  obtain ⟨w, w', hw, -, rfl⟩ := h
  rw [List.append_assoc]
  exact delimiter_of_skips (isSkip_of_ws hw) hc

theorem reads_string (h : RfcString s) : Reads s false (fun ns => ∃ t, ns = [.string t]) := by
  obtain ⟨items, hlexes, rfl⟩ := literal_of_string h
  refine (reads_lexeme (lexeme_literal hlexes) (fun _ => ⟨items, hlexes, rfl⟩) (by simp)).imp ?_
  rintro ns w ⟨t, ht, rfl⟩ hs
  exact ⟨_, ⟨t, rfl⟩, Spelled.reduceAll (.string ht) hs⟩

theorem reads_number (h : RfcNumber s) : Reads s true (fun ns => ∃ t, ns = [.value t]) := by
  obtain ⟨hlexeme, hback⟩ := lexeme_number h
  rcases hlexeme with hlexeme | hlexeme
  · refine (reads_lexeme hlexeme (by simp) (fun _ => hback)).imp ?_
    rintro ns w ⟨t, ht, rfl⟩ hs
    exact ⟨_, ⟨_, rfl⟩, Spelled.reduceAll (.valueInteger ht) hs⟩
  · refine (reads_lexeme hlexeme (by simp) (fun _ => hback)).imp ?_
    rintro ns w ⟨t, ht, rfl⟩ hs
    exact ⟨_, ⟨_, rfl⟩, Spelled.reduceAll (.valueFloat ht) hs⟩

/-- `null`, `true` and `false`. -/
theorem reads_word {term : Nat} {v : JTree} (hs : (scan .state0 s).bind lexTerminal = some term)
    (hchars : s ≠ [] ∧ ∀ c ∈ s, c ≠ 0 ∧ c ≠ 0x5c) (hterm : 3 ≤ term ∧ term ≠ 12)
    (hr : ∀ t : Token, t.term = term → ∃ r, Produces r [.term t] (.value v)) :
    Reads s true (fun ns => ∃ t, ns = [.value t]) := by
  have hlexeme : Lexeme term s :=
    ⟨Option.bind_eq_some_iff.mp hs, hchars.1, fun c hc => (hchars.2 c hc).1, hterm.2⟩
  refine ((reads_lexeme hlexeme (by omega) fun _ hmem => (hchars.2 _ hmem).2 rfl).imp ?_).weaken
  rintro ns w ⟨t, ht, rfl⟩ hs
  obtain ⟨r, hr⟩ := hr t ht
  exact ⟨_, ⟨v, rfl⟩, Spelled.reduceAll hr hs⟩

mutual
theorem reads_value {s : StringT} : RfcValue s → Reads s true (fun ns => ∃ t, ns = [.value t])
  | .false_ => reads_word (by decide +kernel) (by decide +kernel) (by decide) fun _ ht => ⟨_, .valueFalse ht⟩
  | .null => reads_word (by decide +kernel) (by decide +kernel) (by decide) fun _ ht => ⟨_, .valueNull ht⟩
  | .true_ => reads_word (by decide +kernel) (by decide +kernel) (by decide) fun _ ht => ⟨_, .valueTrue ht⟩
  | .object h => by
      refine ((reads_object h).imp ?_).weaken
      rintro ns w ⟨ps, rfl⟩ hs
      exact ⟨_, ⟨_, rfl⟩, Spelled.reduceAll .valueObject hs⟩
  | .array h => by
      refine ((reads_array h).imp ?_).weaken
      rintro ns w ⟨vs, rfl⟩ hs
      exact ⟨_, ⟨_, rfl⟩, Spelled.reduceAll .valueArray hs⟩
  | .number h => reads_number h
  | .string h => by
      refine ((reads_string h).imp ?_).weaken
      rintro ns w ⟨t, rfl⟩ hs
      exact ⟨_, ⟨_, rfl⟩, Spelled.reduceAll .valueString hs⟩

theorem reads_object {s : StringT} : RfcObject s → Reads s false (fun ns => ∃ ps, ns = [.object ps])
  | .empty ho hc => by
      have hreads := (reads_structural 6 (by decide) ho).append
        (reads_structural 7 (by decide) hc) (by simp)
      refine hreads.imp ?_
      rintro ns w ⟨_, _, rfl, ⟨o, ho, rfl⟩, c, hc, rfl⟩ hs
      have hbegin := Spelled.reduceBelow [.term c] [] (.dictBegin ho) hs
      have hdict := Spelled.reduceBelow [.term c] [] .dictEmpty hbegin
      exact ⟨_, ⟨_, rfl⟩, Spelled.reduceAll (.object hc) hdict⟩
  | .members ho h hc => by
      have hreads := ((reads_structural 6 (by decide) ho).append (reads_members h) (by simp)).append
        (reads_structural 7 (by decide) hc) (fun _ => structural_delimiter (by decide) hc)
      refine hreads.imp ?_
      rintro ns w ⟨_, _, rfl, ⟨_, _, rfl, ⟨o, ho, rfl⟩, ps, rfl⟩, c, hc, rfl⟩ hs
      have hbegin := Spelled.reduceBelow [.term c, .pairs ps] [] (.dictBegin ho) hs
      have hdict := Spelled.reduceBelow [.term c] [] .dictPairs hbegin
      exact ⟨_, ⟨_, rfl⟩, Spelled.reduceAll (.object hc) hdict⟩

theorem reads_members {s : StringT} : RfcMembers s → Reads s true (fun ns => ∃ ps, ns = [.pairs ps])
  | .one h => by
      refine (reads_member h).imp ?_
      rintro ns w ⟨p, rfl⟩ hs
      exact ⟨_, ⟨_, rfl⟩, Spelled.reduceAll .pairsOne hs⟩
  | .more h hs hm => by
      have hreads := ((reads_members h).append (reads_structural 10 (by decide) hs)
        (fun _ => structural_delimiter (by decide) hs)).append (reads_member hm) (by simp)
      refine hreads.imp ?_
      rintro ns w ⟨_, _, rfl, ⟨_, _, rfl, ⟨ps, rfl⟩, c, hc, rfl⟩, p, rfl⟩ hs
      exact ⟨_, ⟨_, rfl⟩, Spelled.reduceAll (.pairsMore hc) hs⟩

theorem reads_member {s : StringT} : RfcMember s → Reads s true (fun ns => ∃ p, ns = [.pair p])
  | .mk hk hs hv => by
      have hreads := ((reads_string hk).append (reads_structural 11 (by decide) hs) (by simp)).append
        (reads_value hv) (by simp)
      refine hreads.imp ?_
      rintro ns w ⟨_, _, rfl, ⟨_, _, rfl, ⟨k, rfl⟩, c, hc, rfl⟩, v, rfl⟩ hs
      exact ⟨_, ⟨_, rfl⟩, Spelled.reduceAll (.pair hc) hs⟩

theorem reads_array {s : StringT} : RfcArray s → Reads s false (fun ns => ∃ vs, ns = [.array vs])
  | .empty ho hc => by
      have hreads := (reads_structural 8 (by decide) ho).append
        (reads_structural 9 (by decide) hc) (by simp)
      refine hreads.imp ?_
      rintro ns w ⟨_, _, rfl, ⟨o, ho, rfl⟩, c, hc, rfl⟩ hs
      have hbegin := Spelled.reduceBelow [.term c] [] (.arrayBegin ho) hs
      have hopen := Spelled.reduceBelow [.term c] [] .arrayEmpty hbegin
      exact ⟨_, ⟨_, rfl⟩, Spelled.reduceAll (.array hc) hopen⟩
  | .values ho h hc => by
      have hreads := ((reads_structural 8 (by decide) ho).append (reads_values h) (by simp)).append
        (reads_structural 9 (by decide) hc) (fun _ => structural_delimiter (by decide) hc)
      refine hreads.imp ?_
      rintro ns w ⟨_, _, rfl, ⟨_, _, rfl, ⟨o, ho, rfl⟩, vs, rfl⟩, c, hc, rfl⟩ hs
      have hbegin := Spelled.reduceBelow [.term c, .values vs] [] (.arrayBegin ho) hs
      have hopen := Spelled.reduceBelow [.term c] [] .arrayValues hbegin
      exact ⟨_, ⟨_, rfl⟩, Spelled.reduceAll (.array hc) hopen⟩

theorem reads_values {s : StringT} : RfcValues s → Reads s true (fun ns => ∃ vs, ns = [.values vs])
  | .one h => by
      refine (reads_value h).imp ?_
      rintro ns w ⟨v, rfl⟩ hs
      exact ⟨_, ⟨_, rfl⟩, Spelled.reduceAll .valuesOne hs⟩
  | .more h hs hv => by
      have hreads := ((reads_values h).append (reads_structural 10 (by decide) hs)
        (fun _ => structural_delimiter (by decide) hs)).append (reads_value hv) (by simp)
      refine hreads.imp ?_
      rintro ns w ⟨_, _, rfl, ⟨_, _, rfl, ⟨vs, rfl⟩, c, hc, rfl⟩, v, rfl⟩ hs
      exact ⟨_, ⟨_, rfl⟩, Spelled.reduceAll (.valuesMore hc) hs⟩
end

/-! ## Completeness -/

variable {F : Type} [LT F] [DecidableLT F]

/-- Whether the strings of pieces can be decoded shows in the text. -/
theorem decodes_iff_hasSolidus {source rest : StringT} {ps : List Piece} {i : Nat} (hps : ∀ p ∈ ps, RfcPiece p)
    (hdrop : source.drop i = render ps ++ rest) (hrest : hasSolidus rest = false) :
    (∀ t ∈ tokensFrom i ps, t.term = 0 → Decodes source t) ↔ hasSolidus (render ps ++ rest) = false := by
  induction ps generalizing i with
  | nil => simp [tokensFrom, hrest]
  | cons p ps ih =>
      obtain ⟨⟨⟨hws, -⟩, hliteral, hplain⟩, hps⟩ := List.forall_mem_cons.mp hps
      have hback : 0x5c ∉ p.ws := fun hmem => absurd (hws _ hmem) (by decide)
      simp only [render_cons, List.append_assoc] at hdrop ⊢
      have hdrop₁ := drop_append hdrop
      have hdrop₂ := drop_append hdrop₁
      rw [tokensFrom, List.forall_mem_cons, ih hps hdrop₂, hasSolidus_append hback]
      by_cases hterm : p.term = 0
      · obtain ⟨items, hlexes, heq⟩ := hliteral hterm
        have hdecodes : Decodes source ⟨p.term, i + p.ws.length, i + p.ws.length + p.lexeme.length⟩ ↔
            Item.esc 47 ∉ items := by
          rw [← itemsValue_isSome hlexes, Decodes]
          simp only [heq]
          rw [stringConst_literal hlexes (by rw [hdrop₁, heq])]
          cases itemsValue items <;> simp
        rw [heq, hasSolidus_literal hlexes, ← heq, hdecodes]
        simp [hterm]
      · rw [hasSolidus_append (hplain hterm)]
        simp [hterm]

/-- **The texts of the RFC that are parsed.** A text of RFC 8259 whose value is an object, shorter than
    2³² bytes, is parsed to a value exactly when no string in it has the escape `\/`. -/
theorem rfc_parses_iff (strtod : StringT → F) {text : StringT} (h : RfcText text)
    (hlt : text.length < c_uint32_range) : (∃ v, Parses text strtod v) ↔ hasSolidus text = false := by
  obtain ⟨hw, ho, hw'⟩ := h
  rename_i w o w'
  obtain ⟨ps, post, heq, hpost, hps, hdelimited, hspelled⟩ := reads_object ho w (isSkip_of_ws hw)
  obtain ⟨ns, ⟨ts, rfl⟩, hspelled⟩ := hspelled 0
  have hskips : ∀ c ∈ post ++ w', isSkip c = true := List.forall_mem_append.mpr ⟨hpost, isSkip_of_ws hw'⟩
  have htext : w ++ o ++ w' = render ps ++ (post ++ w') := by rw [heq, List.append_assoc]
  have hlexable : Lexable ps (post ++ w') := ⟨fun p hp => (hps p hp).ok, hdelimited w' (by simp)⟩
  have hderives := derives_text htext hlexable hskips hlt hspelled
  have hrest : hasSolidus (post ++ w') = false := by
    have hback : 0x5c ∉ post ++ w' := fun hmem => absurd (hskips _ hmem) (by decide)
    rw [← List.append_nil (post ++ w'), hasSolidus_append hback]
    rfl
  rw [hderives.parses_iff strtod, decodes_iff_hasSolidus hps (by rw [List.drop_zero, htext]) hrest, ← htext]

theorem structural_one (c : UInt8) : Structural c [c] := ⟨[], [], by simp [Ws], by simp [Ws], rfl⟩

/-- `{"a":[-1.5e+2,"\n\u0041"]}` -/
def numberText : StringT := [0x7b, 0x22, 0x61, 0x22, 0x3a, 0x5b, 0x2d, 0x31, 0x2e, 0x35, 0x65, 0x2b, 0x32, 0x2c,
  0x22, 0x5c, 0x6e, 0x5c, 0x75, 0x30, 0x30, 0x34, 0x31, 0x22, 0x5d, 0x7d]

theorem rfcText_number : RfcText numberText := by
  have hkey : RfcString (0x22 :: ([[0x61]].flatten ++ [0x22])) := by
    refine .mk (List.forall_mem_singleton.mpr (.unescaped (.one ⟨?_, ?_⟩ ?_ ?_))) <;> decide
  have hfrac : RfcFrac [0x2e, 0x35] := .digits ⟨List.cons_ne_nil _ _, List.forall_mem_singleton.mpr (by decide)⟩
  have hexp : RfcExp (0x65 :: ([0x2b] ++ [0x32])) :=
    .digits (Or.inl rfl) (Or.inr (Or.inr rfl)) ⟨List.cons_ne_nil _ _, List.forall_mem_singleton.mpr (by decide)⟩
  have hnumber : RfcNumber ([0x2d] ++ [0x31] ++ [0x2e, 0x35] ++ 0x65 :: ([0x2b] ++ [0x32])) :=
    .mk (Or.inr rfl) (.digits (by decide) (by simp)) hfrac hexp
  have hunicode : RfcChar [0x5c, 0x75, 0x30, 0x30, 0x34, 0x31] := by
    refine .unicode ?_ ?_ ?_ ?_ <;> exact Or.inl (by decide)
  have hstring : RfcString (0x22 :: ([[0x5c, 0x6e], [0x5c, 0x75, 0x30, 0x30, 0x34, 0x31]].flatten ++ [0x22])) :=
    .mk (List.forall_mem_cons.mpr ⟨.lineFeed, List.forall_mem_singleton.mpr hunicode⟩)
  have harray := RfcArray.values (structural_one 0x5b)
    (.more (.one (.number hnumber)) (structural_one 0x2c) (.string hstring)) (structural_one 0x5d)
  have hobject := RfcObject.members (structural_one 0x7b) (.one (.mk hkey (structural_one 0x3a) (.array harray)))
    (structural_one 0x7d)
  have hws : Ws [] := by simp [Ws]
  have htext : RfcText ([] ++ _ ++ []) := .mk hws hobject hws
  exact htext

/-- The theorem for a text with a number that has a fraction and an exponent, and with escapes. -/
theorem rfc_parses_iff_number : ∃ v, Parses numberText (fun _ => (-150 : Int)) v :=
  (rfc_parses_iff (fun _ => (-150 : Int)) rfcText_number (by decide)).mpr (by decide)

/-- The text of an object that gives `a` the string of an escaped solidus. -/
def solidusText : StringT := [0x7b, 0x22, 0x61, 0x22, 0x3a, 0x22, 0x5c, 0x2f, 0x22, 0x7d]

/-- **An escaped solidus is not parsed.** It runs into the assertion of `pa_json_string`. -/
theorem rfc_solidus : RfcText solidusText ∧ solidusText.length < c_uint32_range ∧
    (∃ fuel, parseFuel solidusText (fun _ => (0 : Int)) fuel = some (.error .assertFailed)) ∧
    ¬ ∃ v, Parses solidusText (fun _ => (0 : Int)) v := by
  have hkey : RfcString (0x22 :: ([[0x61]].flatten ++ [0x22])) := by
    refine .mk (List.forall_mem_singleton.mpr (.unescaped (.one ⟨?_, ?_⟩ ?_ ?_))) <;> decide
  have hvalue : RfcString (0x22 :: ([[0x5c, 0x2f]].flatten ++ [0x22])) :=
    .mk (List.forall_mem_singleton.mpr .solidus)
  have htext : RfcText ([] ++ ([0x7b] ++ (0x22 :: ([[0x61]].flatten ++ [0x22]) ++ [0x3a] ++
      0x22 :: ([[0x5c, 0x2f]].flatten ++ [0x22])) ++ [0x7d]) ++ []) :=
    .mk (by simp [Ws]) (.members (structural_one _) (.one (.mk hkey (structural_one _) (.string hvalue)))
      (structural_one _)) (by simp [Ws])
  have hassert : parseFuel solidusText (fun _ => (0 : Int)) 40 = some (.error .assertFailed) := rfl
  refine ⟨htext, by decide, ⟨40, hassert⟩, ?_⟩
  rintro ⟨v, fuel, hv⟩
  have hv' := parseFuel_mono (Nat.le_max_left fuel 40) hv
  have hassert' := parseFuel_mono (Nat.le_max_right fuel 40) hassert
  rw [hv'] at hassert'
  cases hassert'

end Ccljson
end Cclib
