import Cclib.Ccljson.Beginnings
import Cclib.Ccljson.Decoder
import Cclib.Ccljson.Pieces

/-!
# `Ccljson.Aborts` — when an assertion of the parser fails

The `switch` of `pa_json_string` does not know the escape `\/`, which the lexer takes, and asserts. The action of a
string runs when the terminal behind the string has been retrieved and may stand there, so the assertion fails on the
sources that come to such a string: the tokens in front of it begin an object with it, none of their own strings has
stopped the parser, and a bracket, a brace, a comma or a colon comes behind it.

- `asserts_iff`: the strings that are not decoded for an assertion.
- `StopsAt`, `Aborts`: the sources that come to one.
- `aborts_iff`: on these, and on no others, `parse` fails without an exception.
-/

namespace Cclib
namespace Ccljson
open Cclvar

/-- The parser comes to the string `k` behind the tokens `toks`, with `t` behind it, and finds the escape `\/` in it. -/
structure StopsAt (source : StringT) (fuel : Nat) (toks : List Token) (k t : Token) : Prop where
  supplied : ∃ j, Supplies (nextTerminal source fuel) 0 (toks ++ [k, t]) j
  decodes : ∀ x ∈ toks, x.term = 0 → Decodes source x
  is_string : k.term = 0
  solidus : hasSolidus (between source k.start k.stop) = true
  behind : t.term ∈ [7, 9, 10, 11]
  begins : ∃ rest ts, Spelled [.object ts] (toks ++ k :: rest)

/-- The parser comes to a string that has the escape `\/`. -/
def Aborts (source : StringT) : Prop := ∃ fuel toks k t, StopsAt source fuel toks k t

section Aborts

variable {F : Type} [LT F] [DecidableLT F] {source : StringT} {strtod : StringT → F} {fuel i j : Nat}
  {ns : List Node} {w toks : List Token} {k t : Token}

/-! ## Strings -/

omit [LT F] [DecidableLT F] in
/-- A string token that the cursor wraps behind does not assert: `reserve` throws. -/
theorem wrapped_asserts_not {n : Nat} {items : List Item} (hi : i < c_uint32_range)
    (hat : LiteralAt source i n j items) (hge : c_uint32_range ≤ i + n) :
    (∀ e, stringConst source i j = .error e → e.what ≠ none) ∧ hasSolidus (between source i j) = false := by
  obtain ⟨hstop, -⟩ := hat.decodeToken_wrapped hi hge false 0
  constructor
  · intro e herror
    rw [stringConst, if_pos hstop] at herror
    cases herror
    exact Option.some_ne_none _
  · refine hasSolidus_of_length ?_
    rw [between, List.length_take]
    omega

omit [LT F] [DecidableLT F] in
/-- **A string token asserts** where it has the escape `\/`. -/
theorem asserts_iff (hi : i < c_uint32_range) (h : recognizeTerminal fuel source i = some (some 0, j)) :
    (∃ e, stringConst source i j = .error e ∧ e.what = none) ↔ hasSolidus (between source i j) = true := by
  obtain ⟨n, items, hat⟩ := literalAt_of_recognize hi h
  rcases Nat.lt_or_ge (i + n) c_uint32_range with hlt | hge
  · obtain ⟨-, hbetween, -⟩ := hat.decodeToken hlt false
    obtain ⟨rfl, hlen, hdrop⟩ := hat.walks.text hlt
    rw [hat.text_eq] at hlen hdrop
    have hconst := stringConst_literal hat.lexes hdrop
    rw [hlen] at hconst
    have hsolidus := itemsAppended_isSome hat.lexes false
    rw [itemsAppended_false, or_iff_right Bool.false_ne_true] at hsolidus
    rw [hbetween, hconst]
    cases hvalue : itemsValue items with
    | none =>
        rw [hvalue] at hsolidus
        refine ⟨fun _ => ?_, fun _ => ⟨.assertFailed, rfl, rfl⟩⟩
        by_contra hnone
        exact absurd (hsolidus.mpr (Bool.eq_false_of_not_eq_true hnone)) Bool.false_ne_true
    | some v =>
        rw [hvalue] at hsolidus
        rw [hsolidus.mp rfl]
        constructor
        · rintro ⟨e, herror, -⟩
          cases herror
        · exact fun hfalse => absurd hfalse Bool.false_ne_true
  · obtain ⟨hnot, hnone⟩ := wrapped_asserts_not hi hat hge
    rw [hnone]
    constructor
    · rintro ⟨e, herror, hwhat⟩
      exact absurd hwhat (hnot e herror)
    · exact fun hfalse => absurd hfalse Bool.false_ne_true

/-- The tokens of a source are where the lexer found them. -/
theorem supplies_recognized (h : Supplies (nextTerminal source fuel) i toks j) (hi : i < c_uint32_range) :
    ∀ t ∈ toks, t.start < c_uint32_range ∧ recognizeTerminal fuel source t.start = some (some t.term, t.stop) := by
  induction h with
  | nil => simp
  | skip hnext _ _ ih =>
      obtain ⟨-, -, n, hwalks, -⟩ := next_walks hi hnext
      exact ih hwalks.lt
  | cons hnext _ _ ih =>
      obtain ⟨hstart, hstop, n, hwalks, -⟩ := next_walks hi hnext
      refine List.forall_mem_cons.mpr ⟨?_, ih hwalks.lt⟩
      rw [hstart, hstop]
      exact ⟨hi, (recognizes_of_next hnext).1⟩

theorem supplies_term_lt (h : Supplies (nextTerminal source fuel) 0 toks j) : ∀ t ∈ toks, t.term < 14 := fun t ht =>
  recognizeTerminal_lt (supplies_recognized h (by decide) t ht).2

/-! ## Runs that abort -/

/-- The one state that is entered with a string reduces it, with what may stand behind it. -/
theorem string_state {q q' : Nat} (h : lalrEdge q 0 = some q') : q' = 11 := by
  have hall : ∀ q < jsonLalrStateCnt, ∀ q', lalrEdge q 0 = some q' → q' = 11 := by decide +kernel
  exact hall q (lalrEdge_eq_some.mp h).1 q' h

theorem string_reduced_iff {q n : Nat} (hq : q < jsonLalrStateCnt) (hn : n < 14) :
    lalrAction q n = .reduce 23 ↔ q = 11 ∧ n ∈ [7, 9, 10, 11] := by
  have hall : ∀ q < jsonLalrStateCnt, ∀ n < 14, lalrAction q n = .reduce 23 ↔ q = 11 ∧ n ∈ [7, 9, 10, 11] := by
    decide +kernel
  exact hall q hq n hn

/-- **The parser comes to the string**: it is on the top of the stack, and what stands behind it has been retrieved. -/
theorem StopsAt.reaches (strtod : StringT → F) (h : StopsAt source fuel toks k t) : ∃ j stack sem,
    Loop.Reaches (parseRound (parserEnv source strtod fuel)) (lalrInit 0 Sem.init)
      ⟨j, some t, ⟨11, k.start, k.stop⟩ :: stack, sem⟩ := by
  obtain ⟨⟨j, hsup⟩, hdec, hk, -, -, rest, ts, hobject⟩ := h
  -- the tokens in front of the string are held in nodes
  have hwalk : Lr.walk jsonLr 0 [16] = some 2 := by rfl
  obtain ⟨ns, q, q', hns, hq, hedge⟩ := hobject.before rfl hwalk
  have hlt : ∀ x ∈ toks, x.term < 13 := fun x hx => hobject.terms_lt (by simp) x (List.mem_append_left _ hx)
  rw [hk] at hedge
  have hplace := takesString_of_walk hq (by rw [hedge]; rfl)
    (fun x hx => Nat.lt_succ_of_lt (hlt x (hns.term_mem hx)))
  have hdefined : nodesSem source strtod (ns ++ []) ≠ none := by
    rw [List.append_nil]
    refine hplace.defined ?_ Sem.init
    rw [hns.tokens (Nat.zero_le 2)]
    intro x hx
    obtain ⟨hx, hzero⟩ := List.mem_filter.mp hx
    exact hdec x hx (of_decide_eq_true hzero)
  have hshift : lalrAction q k.term = .shift q' := by
    rw [hk]
    exact lalrAction_of_edge hedge
  have hgo : lalrAction q k.term ≠ .error := by
    rw [hshift]
    exact LalrAction.noConfusion
  -- the first terminal is retrieved, the nodes are built
  obtain ⟨x, xs, hhead⟩ : ∃ x xs, toks ++ [k, t] = x :: xs :=
    List.exists_cons_of_ne_nil (List.append_ne_nil_of_right_ne_nil _ (List.cons_ne_nil _ _))
  rw [hhead] at hsup
  have hnext : Supplies (parserEnv source strtod fuel).next 0 (x :: xs) j := hsup
  obtain ⟨i, hone, hmore, hreach⟩ := hnext.reaches [.ofState 0] Sem.init
  have hhold : Supplies (parserEnv source strtod fuel).next i xs j := hmore
  obtain ⟨j', top, stack, sem, hj', -, hstate, -, hreach'⟩ := hns.runs (means_nodesSem source strtod fuel) hlt .bottom
    rfl hdefined hq (by rw [hk]; decide) hgo hhead hhold
  rw [← hstate] at hshift
  -- the string is shifted, and what comes behind it is retrieved
  obtain ⟨j'', -, -, hlast⟩ := hj'.reaches (⟨q', k.start, k.stop⟩ :: top :: stack) sem
  have hall := ((hreach.trans hreach').tail (next_shift hshift (by rw [hk]; decide))).trans hlast
  rw [string_state hedge] at hall
  exact ⟨j'', top :: stack, sem, hall⟩

/-- The action of the string asserts. -/
theorem StopsAt.returns (strtod : StringT → F) (h : StopsAt source fuel toks k t) : ∃ e, e.what = none ∧
    Loop.Returns (parseRound (parserEnv source strtod fuel)) (lalrInit 0 Sem.init) (.error e) := by
  obtain ⟨j, stack, sem, hreach⟩ := h.reaches strtod
  obtain ⟨⟨j', hsup⟩, -, hk, hsolidus, hbehind, -⟩ := h
  obtain ⟨hstart, hrec⟩ := supplies_recognized hsup (by decide) k (by simp)
  rw [hk] at hrec
  obtain ⟨e, herror, hwhat⟩ := (asserts_iff hstart hrec).mpr hsolidus
  refine ⟨e, hwhat, (Loop.Reaches.returns_iff hreach).mpr (Loop.returns_of_done ?_)⟩
  have hreduce : lalrAction 11 t.term = .reduce 23 :=
    (string_reduced_iff (by decide) (supplies_term_lt hsup t (by simp))).mpr ⟨rfl, hbehind⟩
  have hact : (parserEnv source strtod fuel).act 23 ⟨11, k.start, k.stop⟩ sem = .error e := by
    change paJsonString source ⟨11, k.start, k.stop⟩ sem = .error e
    simp only [paJsonString, leafString, herror]
  simp only [parseRound, actOn, reduceBy, hreduce, hact]

omit [LT F] [DecidableLT F] in
/-- A retrieval that fails throws. -/
theorem what_of_nextTerminal {e : JsonError} (h : nextTerminal source fuel i = some (.error e)) : e.what ≠ none := by
  unfold nextTerminal at h
  split at h
  · cases h
  · cases h
    exact Option.some_ne_none _
  · cases h

omit [LT F] [DecidableLT F] in
theorem leafString_error {caches : Caches F} {e : JsonError} (h : leafString source caches i j = .error e) :
    stringConst source i j = .error e := by
  unfold leafString at h
  split at h
  · rename_i hconst
    cases h
    exact hconst
  · cases h

/-- **A string action that asserts** is that of such a string. -/
theorem Holds.stopsAt {s : LalrState Nat (Sem F)} {top : StackElemC} {stack : List StackElemC} {e : JsonError}
    (hs : Holds (parserEnv source strtod fuel) (nodesSem source strtod) 0 ns w s) (htok : s.ret_term = some t)
    (hstack : s.m_lalr_stack = top :: stack) (hact : lalrAction top.m_state t.term = .reduce 23)
    (hleaf : leafString source s.sem.caches top.m_term_start top.m_term_end = .error e) (hwhat : e.what = none) :
    ∃ toks k, StopsAt source fuel toks k t := by
  obtain ⟨body, head, ns, p, below, q, rfl, hr, -, htag, -, -, -⟩ := hs.reduction htok hstack hact
  cases hr with
  | @string k hk =>
      obtain ⟨-, hstart, hstop⟩ := htag _ _ rfl _ rfl
      obtain ⟨toks, rfl, hns⟩ : ∃ toks, w = toks ++ [k] ∧ Spelled ns toks := by
        cases hs.spelled with
        | term hns => exact ⟨_, rfl, hns⟩
        | rule hr => cases hr
      have hsup : Supplies (nextTerminal source fuel) 0 (toks ++ [k, t]) s.input := by
        have hsupplied := hs.supplied
        rw [htok, List.append_assoc] at hsupplied
        exact hsupplied
      have hlt := supplies_term_lt hsup
      obtain ⟨hpos, hrec⟩ := supplies_recognized hsup (by decide) k (by simp)
      rw [hk] at hrec
      rw [hstart, hstop] at hleaf
      have hpath := hs.path
      rw [hstack] at hpath
      -- the walk over the nodes enters the state of the string from one that takes a string
      have hwalk := Lr.Path.walk hpath
      rw [List.singleton_append, List.reverse_cons, List.map_append] at hwalk
      obtain ⟨q', hq', hedge⟩ := Lr.walk_snoc hwalk
      have hedge : lalrEdge q' k.term = some top.m_state := hedge
      rw [hk] at hedge
      have hplace := takesString_of_walk hq' (by rw [hedge]; rfl)
        (fun x hx => hlt x (List.mem_append_left _ (hns.term_mem hx)))
      exact ⟨toks, k, ⟨s.input, hsup⟩, hs.decodes rfl, hk, (asserts_iff hpos hrec).mp ⟨e, leafString_error hleaf, hwhat⟩,
        ((string_reduced_iff hpath.state_lt (hlt t (by simp))).mp hact).2, hplace.complete hns hk⟩

/-- **Where the parser fails without an exception** it has come to such a string. -/
theorem aborts_of_returns {e : JsonError} (hwhat : e.what = none)
    (h : Loop.Returns (parseRound (parserEnv source strtod fuel)) (lalrInit 0 Sem.init) (.error e)) : Aborts source := by
  obtain ⟨s, hreach, hdone⟩ := h.exit
  obtain ⟨ns, w, hs⟩ := holds_of_reaches (means_nodesSem source strtod fuel) rfl hreach
  cases failedRound_of_done hdone with
  | retrieve hnext => exact absurd hwhat (what_of_nextTerminal hnext)
  | bottom hstack =>
      have hpath := hs.path
      rw [hstack] at hpath
      cases hpath
  | blank => cases hwhat
  | drop htok hstack hact hdrop =>
      obtain ⟨-, -, -, p, below, -, -, -, -, -, hdrop', -, -⟩ := hs.reduction htok hstack hact
      rw [hdrop] at hdrop'
      cases hdrop'
  | @act tok top stack rule e htok hstack hact herror =>
      have hready := (semantic_stacks source strtod fuel).1 s hreach tok top rule htok (by rw [hstack]; rfl) hact
      obtain ⟨rfl, hleaf⟩ := error_of_action hready herror
      obtain ⟨toks, k, hstops⟩ := hs.stopsAt htok hstack hact hleaf hwhat
      exact ⟨fuel, toks, k, tok, hstops⟩

/-- **`parse` fails without an exception** on the sources that come to such a string, and on no others. -/
theorem aborts_iff (source : StringT) (strtod : StringT → F) :
    (∃ fuel e, parseFuel source strtod fuel = some (.error e) ∧ e.what = none) ↔ Aborts source := by
  constructor
  · rintro ⟨fuel, e, hparse, hwhat⟩
    unfold parseFuel at hparse
    split at hparse
    · cases hparse
    · rename_i hrun
      cases hparse
      exact aborts_of_returns hwhat ⟨fuel, hrun⟩
    · rename_i idx s hrun
      -- an object is left
      obtain ⟨-, -, -, v, -, -, -, hobjects, -⟩ := (semantic_stacks source strtod fuel).2 idx s ⟨fuel, hrun⟩
      rw [hobjects] at hparse
      cases hparse
  · rintro ⟨fuel, toks, k, t, hstops⟩
    obtain ⟨e, hwhat, n, hrun⟩ := hstops.returns strtod
    have hrun' := Loop.run_mono (Nat.le_max_right fuel n)
      (Loop.run_refines (parserEnv_refines (Nat.le_max_left fuel n)) hrun)
    exact ⟨max fuel n, e, by rw [parseFuel, hrun'], hwhat⟩

/-- `{"\/":0}` -/
example : Aborts [0x7b, 0x22, 0x5c, 0x2f, 0x22, 0x3a, 0x30, 0x7d] :=
  (aborts_iff _ (fun _ => (0 : Int))).mp ⟨16, .assertFailed, rfl, rfl⟩

end Aborts

end Ccljson
end Cclib
