import Cclib.Ccljson.Numbers

/-!
# `Ccljson.Respaced` — white space between tokens

`Respaced source source'` says that `source'` is `source` with skip characters inserted, before, between and
behind its tokens. The tokens move, and keep their lexemes: `source'` is the text of pieces that `Moved`, and
they are still apart (`parted_of_moved`).

The actions read the source at a token. A string is read up to its closing quote, and `strtoll` and `strtod` stop
at the comma or closing bracket behind a number, or at the white space in front of that, so what they read of
both sources is the same (`alike_of_moved`).
-/

namespace Cclib
namespace Ccljson
open Cclvar

/-- The source is the tokens `w`, up to the end of the input. -/
def LexesAs (source : StringT) (w : List Token) : Prop :=
  ∃ fuel tok n, Supplies (nextTerminal source fuel) 0 (w ++ [tok]) n ∧ tok.term = 13 ∧ ∀ t ∈ w, t.term ≠ 13

/-- `s'` is the text `s`, which stands at `i`, with skip characters inserted, none of them inside a token
    of `w`. -/
inductive Inserts (w : List Token) : Nat → StringT → StringT → Prop
  | nil {i : Nat} : Inserts w i [] []
  | keep {i : Nat} {c : UInt8} {s s' : StringT} (h : Inserts w (i + 1) s s') : Inserts w i (c :: s) (c :: s')
  | insert {i : Nat} {c : UInt8} {s s' : StringT} (hc : isSkip c = true)
      (hout : ∀ t ∈ w, ¬ (t.start < i ∧ i < t.stop)) (h : Inserts w i s s') : Inserts w i s (c :: s')

/-- `source'` is `source` with white space inserted before, between or behind its tokens. -/
def Respaced (source source' : StringT) : Prop := ∃ w, LexesAs source w ∧ Inserts w 0 source source'

/-! ## What is inserted where -/

section Inserted

variable {w : List Token} {s s' ws rest : StringT} {ps : List Piece} {i : Nat} {c : UInt8} {t : Token}

/-- What is inserted in front of a character. -/
theorem Inserts.lead (h : Inserts w i (c :: s) s') :
    ∃ u v, s' = u ++ c :: v ∧ (∀ d ∈ u, isSkip d = true) ∧ Inserts w (i + 1) s v := by
  generalize hl : c :: s = l at h
  induction h with
  | nil => cases hl
  | keep h =>
      cases hl
      exact ⟨[], _, rfl, by simp, h⟩
  | @insert i d _ _ hd _ _ ih =>
      obtain ⟨u, v, rfl, hu, hv⟩ := ih hl
      exact ⟨d :: u, v, rfl, List.forall_mem_cons.mpr ⟨hd, hu⟩, hv⟩

/-- What is inserted at the end of a text. -/
theorem Inserts.last (h : Inserts w i [] s') : ∀ d ∈ s', isSkip d = true := by
  generalize hl : ([] : StringT) = l at h
  induction h with
  | nil => simp
  | keep _ => cases hl
  | insert hd _ _ ih => exact List.forall_mem_cons.mpr ⟨hd, ih hl⟩

/-- White space stays white space. -/
theorem Inserts.skips (hws : ∀ d ∈ ws, isSkip d = true) (h : Inserts w i (ws ++ s) s') :
    ∃ ws' v, s' = ws' ++ v ∧ (∀ d ∈ ws', isSkip d = true) ∧ (ws' = [] → ws = []) ∧
      Inserts w (i + ws.length) s v := by
  induction ws generalizing i s' with
  | nil => exact ⟨[], s', rfl, by simp, fun _ => rfl, h⟩
  | cons d ws ih =>
      obtain ⟨hd, hws⟩ := List.forall_mem_cons.mp hws
      obtain ⟨u, v, rfl, hu, hv⟩ := h.lead
      obtain ⟨ws', v', rfl, hws', -, hv'⟩ := ih hws hv
      refine ⟨u ++ d :: ws', v', by simp, ?_, by simp, ?_⟩
      · exact List.forall_mem_append.mpr ⟨hu, List.forall_mem_cons.mpr ⟨hd, hws'⟩⟩
      · rw [List.length_cons, show i + (ws.length + 1) = i + 1 + ws.length by omega]
        exact hv'

/-- Nothing is inserted inside a token. -/
theorem Inserts.inside {a : StringT} (ht : t ∈ w) (hstart : t.start < i) (hstop : i + a.length ≤ t.stop)
    (h : Inserts w i (a ++ s) s') : ∃ v, s' = a ++ v ∧ Inserts w (i + a.length) s v := by
  induction a generalizing i s' with
  | nil => exact ⟨s', rfl, h⟩
  | cons d a ih =>
      rw [List.length_cons] at hstop ⊢
      cases h with
      | keep h =>
          obtain ⟨v, rfl, hv⟩ := ih (by omega) (by omega) h
          refine ⟨v, rfl, ?_⟩
          rwa [show i + (a.length + 1) = i + 1 + a.length by omega]
      | insert _ hout _ => exact absurd ⟨hstart, by omega⟩ (hout t ht)

/-- The end of the input stays where white space ends. -/
theorem Inserts.stays (hrest : rest.headD 0 = 0) (h : Inserts w i rest s') :
    ∃ u rest', s' = u ++ rest' ∧ (∀ d ∈ u, isSkip d = true) ∧ rest'.headD 0 = 0 := by
  cases rest with
  | nil => exact ⟨s', [], by simp, h.last, rfl⟩
  | cons d rest =>
      obtain rfl : d = 0 := hrest
      obtain ⟨u, v, rfl, hu, -⟩ := h.lead
      exact ⟨u, 0 :: v, rfl, hu, rfl⟩

/-! ## Pieces that moved -/

/-- The piece has the same lexeme, and white space in front of it if it had some. -/
structure Piece.Moved (p p' : Piece) : Prop where
  term_eq : p'.term = p.term
  lexeme_eq : p'.lexeme = p.lexeme
  ws : ∀ c ∈ p'.ws, isSkip c = true
  spaced : p'.ws = [] → p.ws = []

/-- **The pieces of a respaced text.** -/
theorem Inserts.moved (hps : Parted ps (ws ++ rest)) (hws : ∀ d ∈ ws, isSkip d = true) (hrest : rest.headD 0 = 0)
    (htoks : ∀ t ∈ tokensFrom i ps, t ∈ w) (h : Inserts w i (render ps ++ (ws ++ rest)) s') :
    ∃ ps' ws' rest', s' = render ps' ++ (ws' ++ rest') ∧ List.Forall₂ Piece.Moved ps ps' ∧
      (∀ d ∈ ws', isSkip d = true) ∧ (ws' = [] → ws = []) ∧ rest'.headD 0 = 0 := by
  induction ps generalizing i s' with
  | nil =>
      obtain ⟨ws', v, rfl, hws', hspaced, hv⟩ := h.skips hws
      obtain ⟨u, rest', rfl, hu, hrest'⟩ := hv.stays hrest
      refine ⟨[], ws' ++ u, rest', by simp, .nil, List.forall_mem_append.mpr ⟨hws', hu⟩, ?_, hrest'⟩
      intro hnil
      exact hspaced (List.append_eq_nil_iff.mp hnil).1
  | cons p ps ih =>
      obtain ⟨⟨hpws, hlexeme⟩, -, hps⟩ := hps
      obtain ⟨hmem, htoks⟩ := List.forall_mem_cons.mp htoks
      rw [render_cons, List.append_assoc, List.append_assoc] at h
      obtain ⟨pws', v, rfl, hpws', hspaced, hv⟩ := h.skips hpws
      obtain ⟨c, lexeme, hc⟩ := List.exists_cons_of_ne_nil hlexeme.ne_nil
      rw [hc, List.cons_append] at hv
      -- white space can go in front of the lexeme, but not into it
      obtain ⟨u, v', rfl, hu, hv'⟩ := hv.lead
      have hstop : i + p.ws.length + 1 + lexeme.length = i + p.ws.length + p.lexeme.length := by
        rw [hc, List.length_cons]
        omega
      obtain ⟨v'', rfl, hv''⟩ := hv'.inside hmem (Nat.lt_succ_self _) (by dsimp only; omega)
      rw [hstop] at hv''
      obtain ⟨ps', ws', rest', rfl, hmoved, hws', hspaced', hrest'⟩ := ih hps htoks hv''
      refine ⟨⟨pws' ++ u, p.term, p.lexeme⟩ :: ps', ws', rest', ?_, .cons ⟨rfl, rfl, ?_, ?_⟩ hmoved, hws', hspaced', hrest'⟩
      · rw [render_cons, hc]
        simp
      · exact List.forall_mem_append.mpr ⟨hpws', hu⟩
      · intro hnil
        exact hspaced (List.append_eq_nil_iff.mp hnil).1

end Inserted

section Moved

variable {source source' ws ws' rest rest' lexeme : StringT} {ps ps' : List Piece} {p p' : Piece} {term i i' : Nat}

/-- White space ends every lexeme but white space. -/
theorem lexGoto_space {state : LexState} {c : UInt8} (hterm : lexTerminal state = some term) (hskip : term ≠ 12)
    (hc : isSkip c = true) : lexGoto state c.toNat = .inr (some term) := by
  apply lexGoto_delimiter hterm hskip
  simp [isDelimiter, hc]

/-- In front of the pieces stands the character that stood there before, or white space. -/
theorem head_of_moved (hmoved : List.Forall₂ Piece.Moved ps ps') (hps : ∀ p ∈ ps, p.lexeme ≠ [])
    (hws' : ∀ d ∈ ws', isSkip d = true) (hspaced : ws' = [] → ws = [])
    (hrest : rest.headD 0 = 0) (hrest' : rest'.headD 0 = 0) :
    isSkip ((render ps' ++ (ws' ++ rest')).headD 0) = true ∨
      (render ps' ++ (ws' ++ rest')).headD 0 = (render ps ++ (ws ++ rest)).headD 0 := by
  cases hmoved with
  | nil =>
      by_cases hnil : ws' = []
      · right
        simp [hnil, hspaced hnil, hrest, hrest', -List.headD_eq_head?_getD]
      · obtain ⟨c, cs, rfl⟩ := List.exists_cons_of_ne_nil hnil
        exact Or.inl (hws' c List.mem_cons_self)
  | @cons p p' ps ps' hp _ =>
      by_cases hnil : p'.ws = []
      · obtain ⟨c, cs, hc⟩ := List.exists_cons_of_ne_nil (hps p List.mem_cons_self)
        right
        simp [hnil, hp.spaced hnil, hp.lexeme_eq, hc]
      · obtain ⟨c, cs, hc⟩ := List.exists_cons_of_ne_nil hnil
        left
        have hskip := hp.ws c (hc ▸ List.mem_cons_self)
        simpa [hc] using hskip

theorem Parted.lexemes (h : Parted ps rest) : ∀ p ∈ ps, p.lexeme ≠ [] := by
  induction ps with
  | nil => simp
  | cons p ps ih =>
      obtain ⟨hp, -, hps⟩ := h
      exact List.forall_mem_cons.mpr ⟨hp.lexeme.ne_nil, ih hps⟩

/-- **Pieces that moved are still apart.** -/
theorem parted_of_moved (hmoved : List.Forall₂ Piece.Moved ps ps') (hps : Parted ps (ws ++ rest))
    (hws' : ∀ d ∈ ws', isSkip d = true) (hspaced : ws' = [] → ws = [])
    (hrest : rest.headD 0 = 0) (hrest' : rest'.headD 0 = 0) : Parted ps' (ws' ++ rest') := by
  induction hmoved with
  | nil => trivial
  | @cons p p' ps ps' hp hmoved ih =>
      obtain ⟨⟨-, hlexeme⟩, ⟨state, hscan, hout⟩, hps⟩ := hps
      refine ⟨⟨hp.ws, ?_⟩, ⟨state, ?_, ?_⟩, ih hps⟩
      · rw [hp.term_eq, hp.lexeme_eq]
        exact hlexeme
      · rw [hp.lexeme_eq]
        exact hscan
      · rw [hp.term_eq]
        rcases head_of_moved hmoved hps.lexemes hws' hspaced hrest hrest' with hskip | heq
        · exact lexGoto_space (lexTerminal_of_out hout) hlexeme.not_skip hskip
        · rw [heq]
          exact hout

end Moved

/-! ## What the actions read -/

section Alike

variable {F : Type} (strtod : StringT → F) (source source' : StringT)

/-- `strtod` reads a literal of a floating point number and stops at the delimiter behind it. -/
def ReadsLiterals : Prop := ∀ {frac exp lexeme rest : StringT}, LaxNumber frac exp lexeme →
  isDelimiter (rest.headD 0) = true → strtod (lexeme ++ rest) = strtod lexeme

/-- The actions read the same at the tokens of two sources: the strings, and the numbers in front of a comma or
    a closing bracket. -/
inductive Alike : List Token → List Token → Prop
  | nil : Alike [] []
  | cons {t t' : Token} {ts ts' : List Token} (hterm : t'.term = t.term)
      (hstring : t.term = 0 → stringConst source t.start t.stop = stringConst source' t'.start t'.stop)
      (hnumber : ∀ next, ts.head? = some next → next.term ∈ [7, 9, 10] →
        (t.term = 1 → strtoll (source.drop t.start) = strtoll (source'.drop t'.start)) ∧
        (t.term = 2 → strtod (source.drop t.start) = strtod (source'.drop t'.start)))
      (h : Alike ts ts') : Alike (t :: ts) (t' :: ts')

variable {strtod source source'} {ws ws' rest rest' lexeme : StringT} {ps ps' : List Piece} {p p' : Piece}
  {term i i' : Nat} {e e' : Token}

/-- A string reads the same wherever it stands. -/
theorem stringConst_of_lexeme {j : Nat} {tail tail' : StringT} (hlexeme : Lexeme 0 lexeme)
    (hdrop : source.drop i = lexeme ++ tail) (hdrop' : source'.drop j = lexeme ++ tail') :
    stringConst source i (i + lexeme.length) = stringConst source' j (j + lexeme.length) := by
  obtain ⟨state, hterm, htext⟩ := hlexeme.text
  obtain ⟨items, hitems, rfl⟩ := literal_of_text hterm htext
  rw [stringConst_literal hitems hdrop, stringConst_literal hitems hdrop']

/-- A number reads the same in front of any delimiter. -/
theorem number_of_lexeme {tail tail' : StringT} (hstrtod : ReadsLiterals strtod) (hlexeme : Lexeme term lexeme)
    (htail : isDelimiter (tail.headD 0) = true) (htail' : isDelimiter (tail'.headD 0) = true) :
    (term = 1 → strtoll (lexeme ++ tail) = strtoll (lexeme ++ tail')) ∧
      (term = 2 → strtod (lexeme ++ tail) = strtod (lexeme ++ tail')) := by
  obtain ⟨state, hterm, htext⟩ := hlexeme.text
  constructor
  · rintro rfl
    have hnumber := integer_of_text hterm htext
    rw [strtoll_literal hnumber htail, strtoll_literal hnumber htail']
  · rintro rfl
    obtain ⟨frac, exp, hnumber, -⟩ := float_of_text hterm htext
    rw [hstrtod hnumber htail, hstrtod hnumber htail']

/-- A comma or a closing bracket, with white space in front of it. -/
theorem delimiter_of_piece (hp : p.Ok) (hterm : p.term ∈ [7, 9, 10]) (rest : StringT) :
    isDelimiter ((render (p :: ps) ++ rest).headD 0) = true := by
  rw [render_cons, List.append_assoc, List.append_assoc]
  exact delimiter_of_skips hp.ws (hp.lexeme.delimiter hterm _)

/-- **The actions read the same of pieces that moved.** -/
theorem alike_of_moved (hstrtod : ReadsLiterals strtod) (hmoved : List.Forall₂ Piece.Moved ps ps')
    (hps : Parted ps rest) (hps' : Parted ps' rest') (hdrop : source.drop i = render ps ++ rest)
    (hdrop' : source'.drop i' = render ps' ++ rest') (he : e.term = 13) (he' : e'.term = 13) :
    Alike strtod source source' (tokensFrom i ps ++ [e]) (tokensFrom i' ps' ++ [e']) := by
  induction hmoved generalizing i i' with
  | nil => exact .cons (by rw [he, he']) (by simp [he]) (by simp) .nil
  | @cons p p' ps ps' hp hmoved ih =>
      obtain ⟨⟨-, hlexeme⟩, -, hps⟩ := hps
      obtain ⟨-, -, hps'⟩ := hps'
      have hstart : source.drop (i + p.ws.length) = p.lexeme ++ (render ps ++ rest) := by
        rw [← List.drop_drop, hdrop, render_cons, List.append_assoc, List.append_assoc, List.drop_left]
      have hstart' : source'.drop (i' + p'.ws.length) = p.lexeme ++ (render ps' ++ rest') := by
        rw [← List.drop_drop, hdrop', render_cons, List.append_assoc, List.append_assoc, List.drop_left, hp.lexeme_eq]
      have hstop : source.drop (i + p.ws.length + p.lexeme.length) = render ps ++ rest := by
        rw [← List.drop_drop, hstart, List.drop_left]
      have hstop' : source'.drop (i' + p'.ws.length + p'.lexeme.length) = render ps' ++ rest' := by
        rw [hp.lexeme_eq, ← List.drop_drop, hstart', List.drop_left]
      refine .cons hp.term_eq ?_ ?_ (ih hps hps' hstop hstop')
      · intro hzero
        rw [show p.term = 0 from hzero] at hlexeme
        have hsame := stringConst_of_lexeme hlexeme hstart hstart'
        rwa [← hp.lexeme_eq] at hsame ⊢
      · intro next hnext hclose
        dsimp only
        rw [hstart, hstart']
        cases hmoved with
        | nil =>
            -- the end of the input closes nothing
            obtain rfl := Option.some.inj hnext
            rw [he] at hclose
            exact absurd hclose (by decide)
        | @cons q q' qs qs' hq _ =>
            obtain rfl := Option.some.inj hnext
            refine number_of_lexeme hstrtod hlexeme (delimiter_of_piece hps.1 hclose rest) ?_
            exact delimiter_of_piece hps'.1 (hq.term_eq ▸ hclose) rest'

end Alike

end Ccljson
end Cclib
