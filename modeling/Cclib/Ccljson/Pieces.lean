import Mathlib.Data.List.Chain
import Cclib.Ccljson.Lexemes

/-!
# `Ccljson.Pieces` — a source is made of pieces

The converse of lexing a text of pieces. A source whose terminals are retrieved up to the end of the input
is the text of pieces, white space, and then nothing or a NUL (`text_of_supplies`).

In a source that derives an object a number is followed by a comma or a closing bracket
(`Spelled.follows`), so it ends where a delimiter stands (`text_of_derives`).
-/

namespace Cclib
namespace Ccljson
open Cclvar

/-! ## The pieces of a source -/

section Pieces

variable {source lexeme rest ws : StringT} {ps : List Piece} {toks w : List Token} {tok : Token} {i j n fuel : Nat}

theorem recognizes_of_next (h : nextTerminal source fuel i = some (.ok (tok, j))) :
    recognizeTerminal fuel source i = some (some tok.term, j) ∧ tok = ⟨tok.term, i, j⟩ := by
  simp only [nextTerminal] at h
  split at h
  · cases h
  · cases h
  · rename_i term idx hrec
    cases h
    exact ⟨hrec, rfl⟩

theorem LexemeAt.drop_stop {t : Nat} (h : LexemeAt source i t j lexeme rest) : source.drop j = rest := by
  rw [h.stop_eq, ← List.drop_drop, h.drop_eq, List.drop_left]

/-- The lexeme of white space. -/
theorem LexemeAt.skips (h : LexemeAt source i 12 j lexeme rest) : ∀ c ∈ lexeme, isSkip c = true :=
  (h.lax (by decide)).2

theorem LexemeAt.isLexeme {t : Nat} (h : LexemeAt source i t j lexeme rest) (ht : t ≠ 12) : Lexeme t lexeme := by
  obtain ⟨state, hscan, hterm, -⟩ := h.stops
  exact ⟨⟨state, hscan, hterm⟩, h.ne_nil, h.no_nul, ht⟩

/-- White space in front goes to the first piece, or stays behind the last. -/
theorem parted_skip (hlexeme : ∀ c ∈ lexeme, isSkip c = true) (hws : ∀ c ∈ ws, isSkip c = true)
    (hps : Parted ps (ws ++ rest)) : ∃ qs us, lexeme ++ (render ps ++ (ws ++ rest)) = render qs ++ (us ++ rest) ∧
      (∀ c ∈ us, isSkip c = true) ∧ tokensFrom (i + lexeme.length) ps = tokensFrom i qs ∧
      lexeme.length + (render ps).length + ws.length = (render qs).length + us.length ∧ Parted qs (us ++ rest) := by
  cases ps with
  | nil => exact ⟨[], lexeme ++ ws, by simp, List.forall_mem_append.mpr ⟨hlexeme, hws⟩, rfl, by simp, trivial⟩
  | cons p ps =>
      obtain ⟨⟨hpws, hp⟩, hstop, hrest⟩ := hps
      refine ⟨⟨lexeme ++ p.ws, p.term, p.lexeme⟩ :: ps, ws, by simp, hws, ?_, by simp,
        ⟨List.forall_mem_append.mpr ⟨hlexeme, hpws⟩, hp⟩, hstop, hrest⟩
      simp only [tokensFrom, List.length_append, Nat.add_assoc]

/-- **The pieces of retrieved terminals.** -/
theorem parted_of_supplies (hstop : Stops source i) (h : Supplies (nextTerminal source fuel) i toks n)
    (hterms : ∀ t ∈ toks, t.term ≠ 13) :
    ∃ ps ws rest, source.drop i = render ps ++ (ws ++ rest) ∧ (∀ c ∈ ws, isSkip c = true) ∧ toks = tokensFrom i ps ∧
      n = i + (render ps).length + ws.length ∧ Parted ps (ws ++ rest) := by
  induction h with
  | @nil i => exact ⟨[], [], source.drop i, by simp, by simp, rfl, by simp, trivial⟩
  | @skip i j n tok toks hnext hs _ ih =>
      obtain ⟨hrec, -⟩ := recognizes_of_next hnext
      obtain ⟨lexeme, rest₀, hat⟩ : ∃ lexeme rest, LexemeAt source i 12 j lexeme rest := by
        -- a skip is not the end of the input
        rcases recognized hstop hrec with ⟨hend, -⟩ | hat
        · omega
        · rwa [hs] at hat
      obtain ⟨ps, ws, rest, hdrop, hws, htoks, hn, hps⟩ := ih (hstop.next hrec) hterms
      obtain ⟨qs, us, heq, hus, htoks', hlen, hqs⟩ := parted_skip (i := i) hat.skips hws hps
      rw [hat.drop_stop] at hdrop
      refine ⟨qs, us, rest, by rw [hat.drop_eq, hdrop, heq], hus, ?_, ?_, hqs⟩
      · rw [htoks, hat.stop_eq, htoks']
      · have := hat.stop_eq
        omega
  | @cons i j n tok toks hnext hs _ ih =>
      obtain ⟨hrec, htok⟩ := recognizes_of_next hnext
      obtain ⟨htok13, htoks13⟩ := List.forall_mem_cons.mp hterms
      obtain ⟨lexeme, rest₀, hat⟩ : ∃ lexeme rest, LexemeAt source i tok.term j lexeme rest := by
        rcases recognized hstop hrec with ⟨hend, -⟩ | hat
        · exact absurd hend htok13
        · exact hat
      obtain ⟨ps, ws, rest, hdrop, hws, htoks, hn, hps⟩ := ih (hstop.next hrec) htoks13
      rw [hat.drop_stop] at hdrop
      obtain ⟨state, hscan, -, hout⟩ := hat.stops
      have hj := hat.stop_eq
      refine ⟨⟨[], tok.term, lexeme⟩ :: ps, ws, rest, ?_, hws, ?_, ?_, ⟨by simp, hat.isLexeme hs⟩, ⟨state, hscan, ?_⟩, hps⟩
      · rw [hat.drop_eq, hdrop]
        simp
      · rw [htok, htoks, hj]
        rfl
      · simp only [render_cons, List.length_append, List.length_nil]
        omega
      · rwa [← hdrop]

/-! ## The end of the input -/

/-- At a NUL there is no white space to skip. -/
theorem stays_of_nul (hstop : Stops source i) (hnul : inChar source i = 0)
    (h : Supplies (nextTerminal source fuel) i [] n) : n = i := by
  cases h with
  | nil => rfl
  | skip hnext hs _ =>
      rcases recognized hstop (recognizes_of_next hnext).1 with ⟨hend, -⟩ | ⟨lexeme, rest, hat⟩
      · omega
      · exact absurd hnul (hat.inChar_ne (Nat.le_refl i) hat.bounds.1)

/-- The end of the input is retrieved at a NUL, or at the end of the source, behind white space. -/
theorem end_of_supplies (hstop : Stops source i) (h : Supplies (nextTerminal source fuel) i [tok] n)
    (hend : tok.term = 13) : ∃ ws rest, source.drop i = ws ++ rest ∧ (∀ c ∈ ws, isSkip c = true) ∧
      rest.headD 0 = 0 ∧ n = i + ws.length := by
  generalize hl : [tok] = l at h
  induction h with
  | nil => cases hl
  | @skip i j n t toks hnext hs _ ih =>
      obtain ⟨hrec, -⟩ := recognizes_of_next hnext
      obtain ⟨lexeme, rest₀, hat⟩ : ∃ lexeme rest, LexemeAt source i 12 j lexeme rest := by
        rcases recognized hstop hrec with ⟨hend, -⟩ | hat
        · omega
        · rwa [hs] at hat
      obtain ⟨ws, rest, hdrop, hws, hrest, hn⟩ := ih (hstop.next hrec) hl
      rw [hat.drop_stop] at hdrop
      have hj := hat.stop_eq
      refine ⟨lexeme ++ ws, rest, ?_, List.forall_mem_append.mpr ⟨hat.skips, hws⟩, hrest, ?_⟩
      · rw [hat.drop_eq, hdrop, List.append_assoc]
      · rw [List.length_append]
        omega
  | @cons i j n t toks hnext _ hrest =>
      cases hl
      rcases recognized hstop (recognizes_of_next hnext).1 with ⟨-, rfl, hnul⟩ | ⟨lexeme, rest, hat⟩
      · refine ⟨[], source.drop j, rfl, by simp, ?_, stays_of_nul hstop hnul hrest⟩
        rw [inChar_eq] at hnul
        exact UInt8.toNat_inj.mp hnul
      · exact absurd hend hat.ne_end

/-- The cursor does not wrap in a source whose terminals come to an end. -/
theorem stops_of_supplies (h : Supplies (nextTerminal source fuel) 0 (w ++ [tok]) n) (hend : tok.term = 13) :
    Stops source 0 := by
  obtain ⟨hlt, hnul, -⟩ := supplies_end h hend
  intro hc
  refine ⟨tok.stop, Nat.pos_of_ne_zero fun hzero => ?_, hlt, hnul⟩
  rw [hzero] at hnul
  exact hc hnul

theorem Stops.supplied (hstop : Stops source i) (h : Supplies (nextTerminal source fuel) i toks n) :
    Stops source n := by
  induction h with
  | nil => exact hstop
  | skip hnext _ _ ih => exact ih (hstop.next (recognizes_of_next hnext).1)
  | cons hnext _ _ ih => exact ih (hstop.next (recognizes_of_next hnext).1)

/-- **A source is the text of its pieces**, with white space behind them, up to its end or a NUL. -/
theorem text_of_supplies (h : Supplies (nextTerminal source fuel) 0 (w ++ [tok]) n) (hend : tok.term = 13)
    (hterms : ∀ t ∈ w, t.term ≠ 13) :
    ∃ ps ws rest, source = render ps ++ (ws ++ rest) ∧ (∀ c ∈ ws, isSkip c = true) ∧ rest.headD 0 = 0 ∧
      w = tokensFrom 0 ps ∧ n = (render ps ++ ws).length ∧ Parted ps (ws ++ rest) := by
  have hstop := stops_of_supplies h hend
  obtain ⟨m, hfront, hback⟩ := h.split
  obtain ⟨ps, us, rest₀, hdrop, hus, hw, hm, hps⟩ := parted_of_supplies hstop hfront hterms
  obtain ⟨vs, rest, hdrop', hvs, hrest, hn⟩ := end_of_supplies (hstop.supplied hfront) hback hend
  have htext : source = render ps ++ (us ++ rest₀) := by rw [← hdrop, List.drop_zero]
  have hrest₀ : rest₀ = vs ++ rest := by
    rw [← hdrop', hm, htext, Nat.zero_add, ← List.length_append, ← List.append_assoc, List.drop_left]
  subst hrest₀
  refine ⟨ps, us ++ vs, rest, ?_, List.forall_mem_append.mpr ⟨hus, hvs⟩, hrest, hw, ?_, ?_⟩
  · rw [htext, List.append_assoc]
  · simp only [List.length_append]
    omega
  · rwa [List.append_assoc]

end Pieces

/-! ## What follows a number -/

/-- A comma or a closing bracket follows a number. -/
def Follows (a b : Token) : Prop := a.term = 1 ∨ a.term = 2 → b.term ∈ [7, 9, 10]

/-- What a node derives may end with a number. -/
def Node.OpenEnd : Node → Prop
  | .term t => t.term = 1 ∨ t.term = 2
  | .dict _ | .pairs _ | .pair _ | .arrayOpen _ | .value _ | .values _ => True
  | .object _ | .dictBegin | .array _ | .arrayBegin | .string _ => False

/-- What may stand behind such a node. -/
def Node.Closes : Node → Prop
  | .term t => t.term ∈ [7, 9, 10]
  | _ => False

section Follows

variable {ns body : List Node} {head n : Node} {w : List Token} {r : Nat}

/-- The rules put nothing else behind such a node. -/
theorem Produces.seams (hr : Produces r body head) : body.IsChain (fun n' n => n.OpenEnd → n'.Closes) := by
  cases hr <;> simp_all [Node.OpenEnd, Node.Closes]

/-- The last node of a rule ends openly when its head does. -/
theorem Produces.openEnd (hr : Produces r body head) (hn : body.head? = some n) (hopen : n.OpenEnd) : head.OpenEnd := by
  cases hr <;> simp only [List.head?_cons, Option.some.injEq] at hn <;> subst hn <;> simp_all [Node.OpenEnd]

theorem Produces.not_closes (hr : Produces r body head) : ¬ head.Closes := by
  cases hr <;> simp [Node.Closes]

/-- **What follows a number** in a derivation. -/
theorem Spelled.follows (h : Spelled ns w) (hns : ns.IsChain (fun n' n => n.OpenEnd → n'.Closes)) :
    w.IsChain Follows ∧
      ∀ t, w.getLast? = some t → t.term = 1 ∨ t.term = 2 → ∃ n, ns.head? = some n ∧ n.OpenEnd := by
  induction h with
  | nil => simp
  | @term t ns w _ ih =>
      obtain ⟨hseam, hns⟩ := List.isChain_cons.mp hns
      obtain ⟨hchain, hlast⟩ := ih hns
      constructor
      · refine List.isChain_append.mpr ⟨hchain, List.isChain_singleton t, ?_⟩
        -- the seam: before a token the nodes end with a number only where the token closes
        intro x hx y hy hnum
        obtain rfl := Option.some.inj hy
        obtain ⟨n, hn, hopen⟩ := hlast x hx hnum
        exact hseam n hn hopen
      · intro t' ht' hnum
        rw [List.getLast?_append_of_ne_nil _ (by simp)] at ht'
        obtain rfl := Option.some.inj ht'
        exact ⟨.term t, rfl, hnum⟩
  | @rule r body head ns v w hr hbody _ ihbody ih =>
      obtain ⟨hseam, hns⟩ := List.isChain_cons.mp hns
      obtain ⟨hchain, hlast⟩ := ih hns
      obtain ⟨hchain', hlast'⟩ := ihbody hr.seams
      constructor
      · refine List.isChain_append.mpr ⟨hchain, hchain', ?_⟩
        -- no head of a rule closes, so a number in front of one cannot end the nodes before it
        intro x hx y _ hnum
        obtain ⟨n, hn, hopen⟩ := hlast x hx hnum
        exact absurd (hseam n hn hopen) hr.not_closes
      · intro t ht hnum
        have hne : v ≠ [] := hbody.ne_nil (by cases hr <;> simp)
        rw [List.getLast?_append_of_ne_nil _ hne] at ht
        obtain ⟨n, hn, hopen⟩ := hlast' t ht hnum
        exact ⟨head, rfl, hr.openEnd hn hopen⟩

end Follows

section Derived

variable {source rest lexeme : StringT} {ps : List Piece} {w : List Token} {ts : List (Token × JTree)} {i : Nat}

/-- Commas and closing brackets are delimiters. -/
theorem Lexeme.delimiter {term : Nat} (h : Lexeme term lexeme) (hterm : term ∈ [7, 9, 10]) (rest : StringT) :
    isDelimiter ((lexeme ++ rest).headD 0) = true := by
  obtain ⟨state, hstate, htext⟩ := h.text
  have hword : ∀ state : LexState, lexTerminal state = some 7 ∨ lexTerminal state = some 9 ∨
      lexTerminal state = some 10 → state = .state14 ∨ state = .state9 ∨ state = .state3 := by
    intro state
    cases state <;> simp [lexTerminal]
  simp only [List.mem_cons, List.not_mem_nil, or_false] at hterm
  rcases hword state (by rcases hterm with rfl | rfl | rfl <;> simp [hstate]) with rfl | rfl | rfl
  · obtain rfl := Option.some.inj htext
    rfl
  · obtain rfl := Option.some.inj htext
    rfl
  · obtain rfl := Option.some.inj htext
    rfl

/-- The piece of a token. -/
theorem mem_tokensFrom {t : Token} (h : t ∈ tokensFrom i ps) : ∃ front p back, ps = front ++ p :: back ∧
    t = ⟨p.term, i + (render front).length + p.ws.length, i + (render front).length + p.ws.length + p.lexeme.length⟩ := by
  induction ps generalizing i with
  | nil => cases h
  | cons q ps ih =>
      rcases List.mem_cons.mp h with rfl | h
      · exact ⟨[], q, ps, rfl, by simp⟩
      · obtain ⟨front, p, back, rfl, rfl⟩ := ih h
        refine ⟨q :: front, p, back, rfl, ?_⟩
        simp only [render_cons, List.length_append, Token.mk.injEq, true_and]
        omega

/-- The lexeme of a token, and what stands behind it. -/
theorem lexeme_of_token (hsource : source = render ps ++ rest) (hps : Lexable ps rest) {t : Token}
    (ht : t ∈ tokensFrom 0 ps) : ∃ lexeme tail, Lexeme t.term lexeme ∧ source.drop t.start = lexeme ++ tail ∧
      between source t.start t.stop = lexeme ∧ t.stop = t.start + lexeme.length ∧
      (t.term = 1 ∨ t.term = 2 → isDelimiter (tail.headD 0) = true) := by
  obtain ⟨front, p, back, rfl, rfl⟩ := mem_tokensFrom ht
  have hp := hps.ok p (by simp)
  have hdrop : source.drop (0 + (render front).length + p.ws.length) = p.lexeme ++ (render back ++ rest) := by
    rw [hsource, Nat.zero_add, ← List.length_append]
    simp only [render_append, render_cons, List.append_assoc]
    rw [← List.append_assoc, List.drop_left]
  refine ⟨p.lexeme, render back ++ rest, hp.lexeme, hdrop, ?_, rfl, (delimited_append.mp hps.delimited).2.1⟩
  rw [between, hdrop, Nat.add_sub_cancel_left, List.take_left]

/-- When commas and closing brackets follow the numbers, delimiters do. -/
theorem lexable_of_parted (hps : Parted ps rest) (hfollows : (tokensFrom i ps).IsChain Follows)
    (hlast : ∀ t, (tokensFrom i ps).getLast? = some t → ¬ (t.term = 1 ∨ t.term = 2)) : Lexable ps rest := by
  induction ps generalizing i with
  | nil => exact ⟨by simp, trivial⟩
  | cons p ps ih =>
      obtain ⟨hp, -, hrest⟩ := hps
      obtain ⟨hseam, hchain⟩ := List.isChain_cons.mp hfollows
      cases ps with
      | nil => exact ⟨List.forall_mem_singleton.mpr hp, fun hnum => absurd hnum (hlast _ rfl), trivial⟩
      | cons q ps =>
          have hq := hrest.1
          have hlex := ih hrest hchain (fun t ht => hlast t (by rw [tokensFrom, List.getLast?_cons, ht]; rfl))
          refine ⟨List.forall_mem_cons.mpr ⟨hp, hlex.ok⟩, fun hnum => ?_, hlex.delimited⟩
          have hterm : q.term ∈ [7, 9, 10] := hseam _ rfl hnum
          rw [render_cons, List.append_assoc, List.append_assoc]
          exact delimiter_of_skips hq.ws (hq.lexeme.delimiter hterm _)

/-- **The text of a source that derives an object.** Its numbers end at delimiters. -/
theorem text_of_derives (h : Derives source w ts) :
    ∃ ps ws rest, source = render ps ++ (ws ++ rest) ∧ (∀ c ∈ ws, isSkip c = true) ∧ rest.headD 0 = 0 ∧
      w = tokensFrom 0 ps ∧ Lexable ps (ws ++ rest) := by
  obtain ⟨fuel, tok, n, hsup, hend, hspelled⟩ := h
  have hterms : ∀ t ∈ w, t.term ≠ 13 := fun t ht => (hspelled.terms_lt (by simp) t ht).ne
  obtain ⟨ps, ws, rest, htext, hws, hrest, rfl, -, hps⟩ := text_of_supplies hsup hend hterms
  obtain ⟨hchain, hlast⟩ := hspelled.follows (List.isChain_singleton _)
  refine ⟨ps, ws, rest, htext, hws, hrest, rfl, lexable_of_parted hps hchain ?_⟩
  intro t ht hnum
  obtain ⟨n, hn, hopen⟩ := hlast t ht hnum
  obtain rfl := Option.some.inj hn
  exact hopen

end Derived

end Ccljson
end Cclib
