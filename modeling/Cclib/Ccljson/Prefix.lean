import Cclib.Ccljson.Lockstep
import Mathlib.Data.List.Infix

/-!
# `Ccljson.Prefix` — a part of a document is no document

A source that is cut off before its end is parsed only when nothing but white space is missing. The brackets of an
object are all closed at its last token and not before, the lexer reads the same tokens of the beginning as of the
whole, and so the tokens of a parsed beginning are all the tokens there are.

## Contents
- `depth`: brackets opened and not closed; `Spelled.depth_eq`, `Spelled.prefix_depth`: of the tokens of a parse
  stack and of any beginning of them.
- `object_prefix`: no object is a beginning of another one.
- `Derives.beginning`: the tokens of a beginning; `prefix_parses_iff`.
-/

namespace Cclib
namespace Ccljson
open Cclvar

/-! ## Brackets -/

/-- An opening bracket goes one level down, a closing one up. -/
def Token.level (t : Token) : Int :=
  if t.term = 6 ∨ t.term = 8 then 1 else if t.term = 7 ∨ t.term = 9 then -1 else 0

/-- The brackets that `w` opens and does not close. -/
def depth (w : List Token) : Int := w.foldr (fun t n => t.level + n) 0

/-- The brackets a node has open. -/
def Node.level : Node → Int
  | .term t => t.level
  | .dictBegin => 1
  | .dict _ => 1
  | .arrayBegin => 1
  | .arrayOpen _ => 1
  | _ => 0

def stackLevel (ns : List Node) : Int := ns.foldr (fun n m => n.level + m) 0

section Brackets

variable {w u v : List Token} {t : Token} {ns body : List Node} {n head : Node} {r : Nat}

@[simp] theorem depth_nil : depth [] = 0 := rfl

@[simp] theorem depth_cons : depth (t :: w) = t.level + depth w := rfl

@[simp] theorem depth_append : depth (w ++ v) = depth w + depth v := by
  induction w with
  | nil => simp
  | cons t w ih =>
      rw [List.cons_append, depth_cons, depth_cons, ih]
      omega

@[simp] theorem stackLevel_nil : stackLevel [] = 0 := rfl

@[simp] theorem stackLevel_cons : stackLevel (n :: ns) = n.level + stackLevel ns := rfl

/-- A rule opens and closes no brackets beyond those of its body. -/
theorem Produces.level (hr : Produces r body head) : stackLevel body = head.level := by
  cases hr <;> simp_all [Node.level, Token.level]

/-- Within a body the brackets are opened before they are closed. -/
theorem Produces.suffix_level (hr : Produces r body head) (h : ns <:+ body) (hne : ns ≠ []) :
    head.level ≤ stackLevel ns := by
  have hall : ∀ ms ∈ body.tails, ms ≠ [] → head.level ≤ stackLevel ms := by
    cases hr <;> simp_all [List.tails, Node.level, Token.level]
  exact hall ns ((List.mem_tails ns body).mpr h) hne

/-- The nodes of a stack and their tokens have the same brackets open. -/
theorem Spelled.depth_eq (h : Spelled ns w) : depth w = stackLevel ns := by
  induction h with
  | nil => rfl
  | term _ ih =>
      rw [depth_append, ih, stackLevel_cons, depth_cons, depth_nil, Node.level]
      omega
  | rule hr _ _ ihbody ih =>
      rw [depth_append, ih, ihbody, stackLevel_cons, hr.level]
      omega

/-- Splitting a beginning of a concatenation. -/
theorem prefix_append_cases {α : Type} {w v u : List α} (h : u <+: w ++ v) :
    u <+: w ∨ ∃ u', u' ≠ [] ∧ u' <+: v ∧ u = w ++ u' := by
  rcases List.prefix_or_prefix_of_prefix h (List.prefix_append w v) with hu | ⟨u', rfl⟩
  · exact .inl hu
  · by_cases hu' : u' = []
    · rw [hu', List.append_nil]
      exact .inl (List.prefix_refl w)
    · exact .inr ⟨u', hu', (List.prefix_append_right_inj w).mp h, rfl⟩

/-- **Beginnings.** A beginning of the tokens has as many brackets open as some beginning of the nodes, or more. -/
theorem Spelled.prefix_depth (h : Spelled ns w) (hu : u <+: w) (hne : u ≠ []) :
    ∃ ms, ms <:+ ns ∧ ms ≠ [] ∧ stackLevel ms ≤ depth u := by
  induction h generalizing u with
  | nil => exact absurd (List.prefix_nil.mp hu) hne
  | @term t ns w h ih =>
      rcases prefix_append_cases hu with hu | ⟨u', hu', hprefix, rfl⟩
      · obtain ⟨ms, hms, hmne, hle⟩ := ih hu hne
        exact ⟨ms, hms.trans (List.suffix_cons _ _), hmne, hle⟩
      · -- all the tokens
        have hall : u' = [t] := by
          rcases List.prefix_cons_iff.mp hprefix with rfl | ⟨u'', rfl, hnil⟩
          · exact absurd rfl hu'
          · rw [List.prefix_nil.mp hnil]
        refine ⟨.term t :: ns, List.suffix_refl _, List.cons_ne_nil _ _, ?_⟩
        rw [hall, (Spelled.term h).depth_eq]
  | @rule r body head ns v w hr hbody h ihbody ih =>
      rcases prefix_append_cases hu with hu | ⟨u', hu', hprefix, rfl⟩
      · obtain ⟨ms, hms, hmne, hle⟩ := ih hu hne
        exact ⟨ms, hms.trans (List.suffix_cons _ _), hmne, hle⟩
      · -- all of `ns` and a beginning of the body
        obtain ⟨ms, hms, hmne, hle⟩ := ihbody hprefix hu'
        have hhead := hr.suffix_level hms hmne
        refine ⟨head :: ns, List.suffix_refl _, List.cons_ne_nil _ _, ?_⟩
        rw [depth_append, h.depth_eq, stackLevel_cons]
        omega

/-- The last token of an object closes it, and the tokens before leave its brackets open. -/
theorem object_cases {ps : List (Token × JTree)} (h : Spelled [.object ps] w) :
    ∃ v c, w = v ++ [c] ∧ c.term = 7 ∧ Spelled [.dict ps] v := by
  cases h with
  | rule hr hbody hnil =>
      cases hnil
      cases hr with
      | object hc =>
          cases hbody with
          | term hdict => exact ⟨_, _, List.nil_append _, hc, hdict⟩
          | rule hterm _ _ => cases hterm

/-- **No object is a beginning of another one.** -/
theorem object_prefix {ps qs : List (Token × JTree)} (h : Spelled [.object ps] w)
    (h' : Spelled [.object qs] (w ++ u)) : u = [] := by
  by_contra hne
  obtain ⟨v, c, hv, -, hdict⟩ := object_cases h'
  obtain ⟨u', c', rfl⟩ : ∃ u' c', u = u' ++ [c'] := by
    rcases List.eq_nil_or_concat u with rfl | ⟨u', c', rfl⟩
    · exact absurd rfl hne
    · exact ⟨u', c', List.concat_eq_append⟩
  rw [← List.append_assoc] at hv
  obtain ⟨rfl, -⟩ := List.append_inj' hv rfl
  -- the tokens of the first object are a beginning of an open one
  obtain ⟨ms, hms, hmne, hle⟩ := hdict.prefix_depth (List.prefix_append w u') (h.ne_nil (List.cons_ne_nil _ _))
  have hall : ms = [.dict qs] := by
    rcases List.suffix_cons_iff.mp hms with rfl | hnil
    · rfl
    · exact absurd (List.suffix_nil.mp hnil) hmne
  rw [hall, h.depth_eq] at hle
  simp [Node.level] at hle

end Brackets

/-! ## The text of an object -/

section Text

variable {source p q ws rest rest' : StringT} {ps : List Piece} {w w' : List Token} {ts ts' : List (Token × JTree)}

/-- The lexeme of a closing brace. -/
theorem closing_lexeme {lexeme : StringT} (h : Lexeme 7 lexeme) : lexeme = [125] := by
  obtain ⟨state, hterm, htext⟩ := h.text
  cases state <;> simp only [lexTerminal, reduceCtorEq, Option.some.injEq, Nat.reduceEqDiff] at hterm
  exact (Option.some.inj htext).symm

/-- The pieces of an object end with its closing brace. -/
theorem closing_piece (hspelled : Spelled [.object ts] (tokensFrom 0 ps)) (hps : ∀ p ∈ ps, p.Ok) :
    ∃ front b, ps = front ++ [b] ∧ b.term = 7 ∧ b.lexeme = [125] := by
  obtain ⟨v, c, htokens, hc, -⟩ := object_cases hspelled
  rcases List.eq_nil_or_concat ps with rfl | ⟨front, b, rfl⟩
  · exact absurd htokens (by simp [tokensFrom])
  · rw [List.concat_eq_append, tokensFrom_append] at htokens
    obtain ⟨-, hb⟩ := List.append_inj' htokens rfl
    have hterm : b.term = 7 := by
      rw [← hc, ← (List.cons.inj hb).1]
    have hok := hps b (by simp)
    refine ⟨front, b, List.concat_eq_append, hterm, closing_lexeme ?_⟩
    rw [← hterm]
    exact hok.lexeme

/-- Behind its closing brace an object can be followed by anything. -/
theorem Parted.followed {front : List Piece} {b : Piece} (hb : b.term = 7) (h : Parted (front ++ [b]) rest) :
    Parted (front ++ [b]) rest' := by
  induction front with
  | nil =>
      obtain ⟨hok, -, -⟩ := h
      obtain ⟨state, hscan, hterm⟩ := hok.lexeme.scanned
      rw [hb] at hterm
      refine ⟨hok, ⟨state, hscan, ?_⟩, trivial⟩
      rw [hb]
      exact lexGoto_closed hterm (by decide) _
  | cons p front ih =>
      obtain ⟨hok, ⟨state, hscan, hgoto⟩, hrest⟩ := h
      refine ⟨hok, ⟨state, hscan, ?_⟩, ih hrest⟩
      -- a further piece follows, so the next character stays the same
      have hne : render (front ++ [b]) ≠ [] := by
        have hlexeme : b.lexeme ≠ [] := hrest.lexemes b (by simp)
        simp [hlexeme]
      obtain ⟨c, cs, hc⟩ := List.exists_cons_of_ne_nil hne
      rw [List.append_eq, hc] at hgoto ⊢
      exact hgoto

/-- A text without a NUL that the end of the input begins is empty. -/
theorem nil_of_head (hrest : rest.headD 0 = 0) (hnul : 0 ∉ rest) : rest = [] := by
  cases rest with
  | nil => rfl
  | cons c rest =>
      have hc : c = 0 := hrest
      exact absurd (by rw [hc]; exact List.mem_cons_self) hnul

/-- A source without a NUL is the text of an object and white space. -/
theorem Derives.text (h : Derives source w ts) (hnul : 0 ∉ source) :
    ∃ front b ws, source = render (front ++ [b]) ++ ws ∧ (∀ c ∈ ws, isSkip c = true) ∧ w = tokensFrom 0 (front ++ [b])
      ∧ b.term = 7 ∧ b.lexeme = [125] ∧ Lexable (front ++ [b]) ws := by
  obtain ⟨ps, ws, rest, htext, hws, hrest, rfl, hps⟩ := text_of_derives h
  obtain ⟨-, -, -, -, -, hspelled⟩ := h
  obtain ⟨front, b, rfl, hb, hlexeme⟩ := closing_piece hspelled hps.ok
  have hnil : rest = [] := nil_of_head hrest (fun h => hnul (by rw [htext]; simp [h]))
  rw [hnil, List.append_nil] at htext hps
  exact ⟨front, b, ws, htext, hws, rfl, hb, hlexeme, hps⟩

/-- **The tokens of a beginning.** When a beginning of a source derives an object, the source does so only with
    the same tokens, and white space behind them. -/
theorem Derives.beginning (hp : Derives p w ts) (hs : Derives (p ++ q) w' ts') (hnul : 0 ∉ p ++ q)
    (hlt : (p ++ q).length < c_uint32_range) : w' = w ∧ ∀ c ∈ q, isSkip c = true := by
  obtain ⟨front, b, ws, htext, -, hw, hb, -, hlexable⟩ := hp.text (fun h => hnul (List.mem_append_left q h))
  obtain ⟨-, -, -, -, -, hspelled⟩ := hp
  obtain ⟨n, tok, i, hsup', hend, hspelled'⟩ := hs
  -- the lexer reads the same tokens of the whole
  have hdrop : (p ++ q).drop 0 = render (front ++ [b]) ++ (ws ++ q) := by
    rw [List.drop_zero, htext, List.append_assoc]
  have hlen : (render (front ++ [b])).length ≤ (p ++ q).length := by
    rw [htext]
    simp only [List.length_append]
    omega
  have hsup := supplies_pieces hdrop (hlexable.parted.followed hb) (by omega) (Nat.le_max_right n _)
  rw [← hw, Nat.zero_add] at hsup
  have hlt13 : ∀ t ∈ w, t.term < 13 := hspelled.terms_lt (by simp)
  rcases hsup.compare (hsup'.imp (fun i r => next_mono (Nat.le_max_left n _))) with
    ⟨rest, heq⟩ | ⟨t, rest, heq, hmore⟩
  · -- the end of the whole is no token of the beginning
    have hmem := hlt13 tok (by rw [heq]; simp)
    omega
  · obtain ⟨u, e, hu⟩ : ∃ u e, t :: rest = u ++ [e] := ⟨_, _, (List.dropLast_append_getLast (List.cons_ne_nil t rest)).symm⟩
    rw [hu, ← List.append_assoc] at heq
    obtain ⟨rfl, he⟩ := List.append_inj' heq rfl
    -- both are objects
    obtain rfl := object_prefix hspelled hspelled'
    rw [hu, ← he] at hmore
    obtain ⟨ws', rest', hdrop', hws', hrest', -⟩ := end_of_supplies (stops_of_length hlt _) hmore hend
    rw [List.drop_zero] at hdrop
    have hbehind : ws ++ q = ws' ++ rest' := by
      rw [← hdrop', hdrop, List.drop_left]
    have hnil : rest' = [] := by
      refine nil_of_head hrest' (fun h => hnul ?_)
      rw [hdrop, hbehind]
      simp [h]
    rw [hnil, List.append_nil] at hbehind
    refine ⟨List.append_nil w, fun c hc => hws' c ?_⟩
    rw [← hbehind]
    exact List.mem_append_right ws hc


/-- Only white space can be cut off that leaves the closing brace. -/
theorem nil_of_skips {front : List Piece} {b : Piece} {a : StringT} (hb : b.lexeme = [125])
    (h : render (front ++ [b]) = p ++ a) (ha : ∀ c ∈ a, isSkip c = true) : a = [] := by
  rcases List.eq_nil_or_concat a with rfl | ⟨a, c, rfl⟩
  · rfl
  · have hend : render (front ++ [b]) = (render front ++ b.ws) ++ [125] := by simp [hb]
    rw [List.concat_eq_append, ← List.append_assoc, hend] at h
    obtain ⟨-, hc⟩ := List.append_inj' h rfl
    have hskip := ha c (by simp)
    rw [← (List.cons.inj hc).1] at hskip
    exact absurd hskip (by decide)

/-- **The beginning up to white space.** A source that derives an object does so without white space at its end. -/
theorem Derives.shorten (h : Derives (p ++ q) w ts) (hnul : 0 ∉ p ++ q) (hlt : (p ++ q).length < c_uint32_range)
    (hq : ∀ c ∈ q, isSkip c = true) : Derives p w ts := by
  obtain ⟨front, b, ws, htext, hws, rfl, hb, hlexeme, hlexable⟩ := h.text hnul
  obtain ⟨-, -, -, -, -, hspelled⟩ := h
  obtain ⟨c, rfl, hc⟩ : ∃ c, p = render (front ++ [b]) ++ c ∧ ws = c ++ q := by
    rcases List.append_eq_append_iff.mp htext with ⟨a, ha, hws'⟩ | ⟨c, hc, hws'⟩
    · obtain rfl := nil_of_skips hlexeme ha (fun d hd => hq d (by rw [hws']; exact List.mem_append_left ws hd))
      exact ⟨[], by rw [ha]; simp, by rw [hws']; rfl⟩
    · exact ⟨c, hc, hws'⟩
  have hsource : render (front ++ [b]) ++ c = render (front ++ [b]) ++ (c ++ []) := by rw [List.append_nil]
  refine derives_parted hsource (hlexable.parted.followed hb) (fun d hd => hws d ?_) rfl ?_ hspelled
  · rw [hc]
    exact List.mem_append_left q hd
  · simp only [List.length_append] at hlt ⊢
    omega

/-- White space behind the last token. -/
theorem inserts_behind {s : StringT} {i : Nat} (hq : ∀ c ∈ q, isSkip c = true) (hw : ∀ t ∈ w, t.stop ≤ i + s.length) :
    Inserts w i s (s ++ q) := by
  induction s generalizing i with
  | nil =>
      rw [List.nil_append]
      induction q with
      | nil => exact .nil
      | cons c q ih =>
          obtain ⟨hc, hq⟩ := List.forall_mem_cons.mp hq
          refine .insert hc (fun t ht hin => ?_) (ih hq)
          have hstop : t.stop ≤ i + 0 := hw t ht
          omega
  | cons c s ih =>
      refine .keep (ih (fun t ht => ?_))
      have hstop := hw t ht
      rw [List.length_cons] at hstop
      omega

/-- The tokens of a text end within it. -/
theorem stop_le {i : Nat} {t : Token} (h : t ∈ tokensFrom i ps) : t.stop ≤ i + (render ps).length := by
  obtain ⟨front, p, back, rfl, rfl⟩ := mem_tokensFrom h
  simp only [render_append, render_cons, List.length_append]
  omega

theorem Derives.respaced (h : Derives p w ts) (hnul : 0 ∉ p) (hq : ∀ c ∈ q, isSkip c = true) : Respaced p (p ++ q) := by
  obtain ⟨front, b, ws, htext, -, hw, -⟩ := h.text hnul
  obtain ⟨n, tok, i, hsup, hend, hspelled⟩ := h
  refine ⟨w, ⟨n, tok, i, hsup, hend, fun t ht => (hspelled.terms_lt (by simp) t ht).ne⟩, inserts_behind hq (fun t ht => ?_)⟩
  rw [hw] at ht
  have hstop := stop_le ht
  rw [htext, List.length_append]
  omega

variable {F : Type} [LT F] [DecidableLT F] {strtod : StringT → F} {v v' : VarC F}

/-- The value of a source is what a run of the parser returns. -/
theorem parses_iff_of_run {source : StringT} {r : Except JsonError (VarC F)} {n : Nat}
    (h : parseFuel source strtod n = some r) : Parses source strtod v ↔ r = .ok v := by
  constructor
  · rintro ⟨m, hm⟩
    have hn' := parseFuel_mono (Nat.le_max_left n m) h
    have hm' := parseFuel_mono (Nat.le_max_right n m) hm
    exact Option.some.inj (hn'.symm.trans hm')
  · rintro rfl
    exact ⟨n, h⟩

/-- White space behind an object changes nothing. -/
theorem Derives.parses_behind (h : Derives p w ts) (hstrtod : ReadsLiterals strtod) (hnul : 0 ∉ p)
    (hq : ∀ c ∈ q, isSkip c = true) (hlt : (p ++ q).length < c_uint32_range) :
    Parses p strtod v ↔ Parses (p ++ q) strtod v := by
  obtain ⟨r, n, n', hn, hn'⟩ := same_result hstrtod (h.respaced hnul hq) hlt
  rw [parses_iff_of_run hn, parses_iff_of_run hn']

/-- **A beginning of a document is no document.** Of a source that is parsed, shorter than 2³² bytes and without
    NUL bytes, a beginning is parsed only when nothing but white space is missing, and then to the same value. -/
theorem prefix_parses_iff (hstrtod : ReadsLiterals strtod) (hs : Parses (p ++ q) strtod v') (hnul : 0 ∉ p ++ q)
    (hlt : (p ++ q).length < c_uint32_range) : Parses p strtod v ↔ v = v' ∧ ∀ c ∈ q, isSkip c = true := by
  have hnul' : 0 ∉ p := fun h => hnul (List.mem_append_left q h)
  obtain ⟨w', ts', c', hderives', -⟩ := hs.derives
  constructor
  · intro hp
    obtain ⟨w, ts, c, hderives, -⟩ := hp.derives
    have hq := (hderives.beginning hderives' hnul hlt).2
    have hp' := (hderives.parses_behind hstrtod hnul' hq hlt).mp hp
    exact ⟨hp'.unique hs, hq⟩
  · rintro ⟨rfl, hq⟩
    exact ((hderives'.shorten hnul hlt hq).parses_behind hstrtod hnul' hq hlt).mpr hs

/-- `{"a":[1.5,"x"]}` -/
def pairText : StringT := [0x7b, 0x22, 0x61, 0x22, 0x3a, 0x5b, 0x31, 0x2e, 0x35, 0x2c, 0x22, 0x78, 0x22, 0x5d, 0x7d]

set_option maxRecDepth 4000 in
/-- The theorem for a document with a number and a string, of one with a line feed and a space behind it. -/
theorem prefix_parses_iff_pair : ∃ v, Parses (pairText ++ [0x0a, 0x20]) strtodPoint v ∧ Parses pairText strtodPoint v := by
  obtain ⟨v, hv⟩ : ∃ v, Parses (pairText ++ [0x0a, 0x20]) strtodPoint v := ⟨_, 60, rfl⟩
  exact ⟨v, hv, (prefix_parses_iff strtodPoint_reads hv (by decide) (by decide)).mpr ⟨rfl, by decide⟩⟩

end Text

end Ccljson
end Cclib
