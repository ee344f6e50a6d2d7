import Cclib.Ccljson.Aborts
import Cclib.Ccljson.Laps

/-!
# `Ccljson.Endless` — when `ccljson::parse` ends

`parse` ends on every source whose cursor comes to an end (`Ccljson.Laps`). On the others it fails, if it ends at all.
It does not end where the first lexeme is endless, and where the lap ends inside of an object at a place where the
object that the lap begins with can come again: the parser then nests it in itself once a lap (`Nested`). Where it ends
it returns or throws, unless an assertion fails (`Ccljson.Aborts`).

- **Progress.** `progress`: the parser returns, its lexer does not, or it takes any number of tokens.
  `Taken.endless` and `Taken.nested` say what the lap then is.
- **Ends.** `Endless.not_halts`, and `Begins.around` with `Nested.not_halts`: on these laps it does not end
  (`halts_iff`, `parse_ends_iff`).
-/

namespace Cclib
namespace Ccljson
open Cclvar

/-! ## Progress -/

section Progress

variable {F : Type} [LT F] [DecidableLT F] {source : StringT} {strtod : StringT → F} {fuel : Nat} {ns : List Node}
  {w : List Token} {s : LalrState Nat (Sem F)}

omit [LT F] [DecidableLT F] in
variable (source) in
/-- What is retrieved before the next shift: nothing, one terminal, or white space and one terminal. -/
def pending (s : LalrState Nat (Sem F)) : Nat :=
  match s.ret_term with
  | some _ => 0
  | none => if isSkip (UInt8.ofNat (inChar source s.input)) = true then 2 else 1

/-- The tokens that are left of `T`, what is pending, and the weight of the stack. -/
def remaining (source : StringT) (T : Nat) (w : List Token) (s : LalrState Nat (Sem F)) : Nat × Nat × Nat :=
  (T - w.length, pending source s, weight s.m_lalr_stack)

/-- Less is left. -/
def Less : Nat × Nat × Nat → Nat × Nat × Nat → Prop := Prod.Lex (· < ·) (Prod.Lex (· < ·) (· < ·))

theorem wellFounded_less : WellFounded Less :=
  WellFounded.prod_lex Nat.lt_wfRel.wf (WellFounded.prod_lex Nat.lt_wfRel.wf Nat.lt_wfRel.wf)

/-- The parser holds the nodes `ns` and has taken the tokens `w`, none of which is the end of the input. -/
structure Taken (source : StringT) (strtod : StringT → F) (fuel : Nat) (ns : List Node) (w : List Token)
    (s : LalrState Nat (Sem F)) : Prop where
  reached : Loop.Reaches (parseRound (parserEnv source strtod fuel)) (lalrInit 0 Sem.init) s
  holds : Holds (parserEnv source strtod fuel) (nodesSem source strtod) 0 ns w s
  not_end : ∀ t ∈ w, t.term ≠ 13

theorem Taken.input_lt (h : Taken source strtod fuel ns w s) : s.input < c_uint32_range :=
  supplies_lt h.holds.supplied c_uint32_range_pos

/-- **A round** takes a token, retrieves what is pending, or makes the stack lighter. -/
theorem Taken.round (h : Taken source strtod fuel ns w s) {s' : LalrState Nat (Sem F)} {T : Nat} (hlt : w.length < T)
    (hnext : Loop.Next (parseRound (parserEnv source strtod fuel)) s s') :
    ∃ ns' w', Taken source strtod fuel ns' w' s' ∧ w'.length ≤ T ∧
      Less (remaining source T w' s') (remaining source T w s) := by
  have hmeans := means_nodesSem source strtod fuel
  have hreached := h.reached.tail hnext
  cases round_of_next hnext with
  | @retrieve tok input htok hretrieve =>
      have hholds := h.holds.retrieve hmeans htok hretrieve
      refine ⟨ns, w, ⟨hreached, hholds, h.not_end⟩, Nat.le_of_lt hlt, .right _ (.left _ _ ?_)⟩
      by_cases hskip : tok.term = 12
      · obtain ⟨hfrom, hto⟩ := skip_retrieved h.input_lt hretrieve hskip
        simp [pending, htok, hskip, hfrom, hto]
      · simp only [pending, htok, if_neg hskip]
        split <;> omega
  | @shift tok top stack state htok hstack hact hend =>
      refine ⟨_, _, ⟨hreached, h.holds.shift hmeans htok hstack hact, ?_⟩, ?_, .left _ _ ?_⟩
      · exact List.forall_mem_append.mpr ⟨h.not_end, List.forall_mem_singleton.mpr hend⟩
      · rw [List.length_append, List.length_singleton]
        exact hlt
      · rw [List.length_append, List.length_singleton]
        omega
  | reduce htok hstack hact hsem hdrop =>
      have hweight := h.holds.weight_lt htok hstack hact hdrop
      obtain ⟨body, head, rest, p, below, q, rfl, hr, hfits, htag, hdrop', hrest, hedge⟩ :=
        h.holds.reduction htok hstack hact
      obtain ⟨rfl, rfl⟩ := List.cons.inj (hdrop.symm.trans hdrop')
      have hholds := h.holds.reduce hmeans hr hfits htag hrest hedge hsem
      refine ⟨_, w, ⟨hreached, hholds, h.not_end⟩, Nat.le_of_lt hlt, .right _ ?_⟩
      -- what was retrieved stays
      simp only [pending, htok]
      exact .right _ hweight

/-- **Progress.** The parser returns, or a retrieval does not, or it takes as many tokens as one likes. -/
theorem progress (source : StringT) (strtod : StringT → F) (fuel T : Nat) :
    (∃ r, Loop.Returns (parseRound (parserEnv source strtod fuel)) (lalrInit 0 Sem.init) r) ∨
    (∃ ns w s, Taken source strtod fuel ns w s ∧ parseRound (parserEnv source strtod fuel) s = none) ∨
    ∃ ns w s, Taken source strtod fuel ns w s ∧ w.length = T := by
  have hall : ∀ m : Nat × Nat × Nat, ∀ ns w s, Taken source strtod fuel ns w s → w.length ≤ T →
      remaining source T w s = m →
      (∃ r, Loop.Returns (parseRound (parserEnv source strtod fuel)) (lalrInit 0 Sem.init) r) ∨
      (∃ ns w s, Taken source strtod fuel ns w s ∧ parseRound (parserEnv source strtod fuel) s = none) ∨
      ∃ ns w s, Taken source strtod fuel ns w s ∧ w.length = T := by
    intro m
    induction m using wellFounded_less.induction with
    | _ m ih =>
        rintro ns w s htaken hle rfl
        rcases Nat.eq_or_lt_of_le hle with hlen | hlt
        · exact Or.inr (Or.inr ⟨ns, w, s, htaken, hlen⟩)
        · cases hround : parseRound (parserEnv source strtod fuel) s with
          | none => exact Or.inr (Or.inl ⟨ns, w, s, htaken, hround⟩)
          | some out =>
              cases out with
              | inl s' =>
                  obtain ⟨ns', w', htaken', hle', hless⟩ := htaken.round hlt hround
                  exact ih _ hless ns' w' s' htaken' hle' rfl
              | inr r =>
                  exact Or.inl ⟨r, (Loop.Reaches.returns_iff htaken.reached).mpr (Loop.returns_of_done hround)⟩
  exact hall _ [] [] _ ⟨Relation.ReflTransGen.refl, holds_init rfl, by simp⟩ (Nat.zero_le T) rfl

/-! ## Parsers that do not end -/

/-- The lap is lexemes whose tokens begin an object, up to a place where the opening brace that comes with the next lap
belongs into it, and white space; its strings can be decoded. -/
def Nested (source : StringT) : Prop :=
  ∃ toks j, Tiled (lap source) 0 toks j ∧ (∀ c ∈ (lap source).drop j, isSkip c = true) ∧ Prefix toks ∧
    ∀ t ∈ toks, t.term = 0 → Decodes source t

theorem Taken.supplies (h : Taken source strtod fuel ns w s) : ∃ k, Supplies (nextTerminal source fuel) 0 w k := by
  obtain ⟨k, hfront, -⟩ := Supplies.split h.holds.supplied
  exact ⟨k, hfront⟩

/-- The nodes lead to the state on top of the stack. -/
theorem Taken.walk (h : Taken source strtod fuel ns w s) :
    ∃ q, Lr.walk jsonLr 0 (ns.reverse.map Node.sym) = some q := by
  have hpath := h.holds.path
  generalize s.m_lalr_stack = stack at hpath
  cases hpath with
  | bottom => exact ⟨0, rfl⟩
  | push hbelow hedge htag => exact ⟨_, Lr.Path.walk (hbelow.push hedge htag)⟩

/-- The first token is an opening brace. -/
theorem Taken.first {t : Token} (h : Taken source strtod fuel ns (t :: w) s) : t.term = 6 := by
  obtain ⟨q, hwalk⟩ := h.walk
  obtain ⟨k, hsup⟩ := h.supplies
  exact brace_first _ (supplies_term_lt hsup t List.mem_cons_self) (h.holds.spelled.first hwalk rfl)

/-- Once something has been retrieved the lap begins as an object does. -/
theorem Taken.opens (h : Taken source strtod fuel ns w s) (hc : Cyclic source) {k : Nat}
    (hsup : Supplies (nextTerminal source fuel) 0 w k) : (w = [] ∧ k = 0) ∨ Opens (lap source) := by
  cases hsup with
  | nil => exact Or.inl ⟨rfl, rfl⟩
  | skip hnext hs _ => exact Or.inr (hc.opens hnext (Or.inl hs))
  | cons hnext _ _ => exact Or.inr (hc.opens hnext (Or.inr h.first))

/-- **A retrieval that does not return** is the first one, of an endless lexeme. -/
theorem Taken.endless (h : Taken source strtod fuel ns w s) (hfuel : 2 * c_uint32_range ≤ fuel)
    (hround : parseRound (parserEnv source strtod fuel) s = none) : Cyclic source ∧ Endless (lap source) := by
  have hpos := c_uint32_range_pos
  obtain ⟨htok, hnext⟩ : s.ret_term = none ∧ nextTerminal source fuel s.input = none := by
    unfold parseRound at hround
    split at hround
    · rename_i htok
      split at hround
      · rename_i hnext
        exact ⟨htok, hnext⟩
      · cases hround
      · cases hround
    · cases hround
  have hrec : recognizeTerminal fuel source s.input = none := by
    simp only [nextTerminal] at hnext
    split at hnext
    · assumption
    · cases hnext
    · cases hnext
  obtain ⟨hwalks, -⟩ := recognize_none h.input_lt hrec
  have hc : Cyclic source := hwalks.cyclic h.input_lt (by omega)
  refine ⟨hc, ?_⟩
  have hsup := h.holds.supplied
  rw [htok, Option.toList_none, List.append_nil] at hsup
  rcases h.opens hc hsup with ⟨-, hzero⟩ | hopens
  · rw [hzero] at hrec
    exact (endless_iff hc hfuel).mp hrec
  · have hprev : 0 < s.input → inChar source ((s.input + (c_uint32_range - 1)) % c_uint32_range) ≠ 92 := by
      intro hlt
      exact (hc.behind hsup c_uint32_range_pos).resolve_left (Nat.ne_of_gt hlt)
    exact absurd hrec (hopens.returns hc h.input_lt hprev (by omega))

/-- Two supplies from one place begin alike. -/
theorem supplies_head {i k k' : Nat} {t t' : Token} {u u' : List Token}
    (h : Supplies (nextTerminal source fuel) i (t :: u) k) (h' : Supplies (nextTerminal source fuel) i (t' :: u') k') :
    t = t' := by
  rcases h.compare h' with ⟨rest, heq⟩ | ⟨x, rest, heq, -⟩
  · exact (List.cons.inj heq).1
  · exact (List.cons.inj heq).1.symm

/-- What is laid out in the lap ends there. -/
theorem Tiled.le {i j : Nat} {toks : List Token} (h : Tiled (lap source) i toks j) (hc : Cyclic source)
    (hi : i ≤ c_uint32_range) : j ≤ c_uint32_range := by
  induction h with
  | nil => exact hi
  | cons hdrop hne _ _ _ ih => exact ih (hc.lexeme_at hdrop hne).2.1

/-- Where lexemes end, the last of them does not end with a backslash. -/
theorem Tiled.behind {j : Nat} {toks : List Token} (h : Tiled (lap source) 0 toks j) (hc : Cyclic source)
    (hlt : j < c_uint32_range) (hpos : 0 < j) : inChar source ((j + (c_uint32_range - 1)) % c_uint32_range) ≠ 92 := by
  have hreach := h.supplies hc (Nat.le_refl c_uint32_range)
  rw [Nat.mod_eq_of_lt hlt] at hreach
  rcases hc.behind hreach (Nat.mod_lt _ c_uint32_range_pos) with heq | hne
  · rw [Nat.zero_mod] at heq
    omega
  · exact hne

/-- **A lexeme over the end of the lap** is white space, where two more tokens have been decoded: the token of a string
could not be. -/
theorem Crosses.skips {j l : Nat} {tok : Token} {back : List Token} (h : Crosses source fuel j tok l)
    (hc : Cyclic source) (hopens : Opens (lap source)) (hlt : j < c_uint32_range)
    (hprev : 0 < j → inChar source ((j + (c_uint32_range - 1)) % c_uint32_range) ≠ 92) {k : Nat}
    (hback : Supplies (nextTerminal source fuel) j back k) (hlong : 2 ≤ back.length)
    (hdec : ∀ t ∈ back.dropLast, t.term = 0 → Decodes source t) : ∀ c ∈ (lap source).drop j, isSkip c = true := by
  rcases h.cases hc hopens hlt hprev with ⟨-, hskips⟩ | ⟨hzero, hshort⟩
  · exact hskips
  · exfalso
    have hne : back ≠ [] := List.ne_nil_of_length_pos (by omega)
    obtain ⟨rest, rfl⟩ := supplies_next h.next (by omega) hne hback
    rw [List.length_cons] at hlong
    obtain ⟨x, rest, rfl⟩ : ∃ x xs, rest = x :: xs := List.exists_cons_of_length_pos (by omega)
    rw [List.dropLast_cons_cons] at hdec
    obtain ⟨str, hstr⟩ := hdec tok List.mem_cons_self hzero
    rw [stringConst, if_pos hshort] at hstr
    cases hstr

/-- **A parser that takes more tokens than a lap has** holds a lap of tokens, and the next lap behind it. -/
theorem Taken.nested (h : Taken source strtod fuel ns w s) (hfuel : 2 * c_uint32_range ≤ fuel)
    (hlen : w.length = c_uint32_range + 3) : Cyclic source ∧ Nested source := by
  obtain ⟨k, hsup⟩ := h.supplies
  obtain ⟨n, hn, hwalks⟩ := supplies_far hsup c_uint32_range_pos h.not_end
  have hc : Cyclic source := hwalks.cyclic c_uint32_range_pos (by omega)
  refine ⟨hc, ?_⟩
  have hopens : Opens (lap source) := by
    rcases h.opens hc hsup with ⟨rfl, -⟩ | hopens
    · cases hlen
    · exact hopens
  obtain ⟨front, back, j, hw, htiled, hj, hback, hend⟩ := hc.taken_apart hsup c_uint32_range_pos
  have hfront := htiled.length_le
  have hlong : 3 ≤ back.length := by
    rw [hw, List.length_append] at hlen
    omega
  have hne : back ≠ [] := List.ne_nil_of_length_pos (by omega)
  have hwhole : w = (front ++ back.dropLast) ++ [back.getLast hne] := by
    rw [List.append_assoc, List.dropLast_append_getLast, hw]
  have hdecodes : ∀ t ∈ back.dropLast, t.term = 0 → Decodes source t := by
    intro t ht
    exact h.holds.decodes hwhole t (List.mem_append_right _ ht)
  -- the lap ends with white space, and the next one begins behind it
  obtain ⟨hskips, hnext⟩ : (∀ c ∈ (lap source).drop j, isSkip c = true) ∧
      Supplies (nextTerminal source fuel) 0 back k := by
    rcases hend with hnil | rfl | ⟨tok, l, hcross, hlt⟩
    · exact absurd hnil hne
    · rw [Nat.mod_self] at hback
      refine ⟨?_, hback⟩
      rw [List.drop_eq_nil_of_le (Nat.le_of_eq hc.length_lap)]
      simp
    · rw [Nat.mod_eq_of_lt hlt] at hback
      have hskips := hcross.skips hc hopens hlt (htiled.behind hc hlt) hback (by omega) hdecodes
      exact ⟨hskips, (hopens.supplies_over hc hlt hskips hfuel hne).mp hback⟩
  have hfrontDecodes : ∀ t ∈ front, t.term = 0 → Decodes source t := by
    intro t ht
    exact h.holds.decodes hwhole t (List.mem_append_left _ ht)
  obtain ⟨t, rest, rfl⟩ := List.exists_cons_of_ne_nil hne
  obtain ⟨t₀, w₀, hw₀⟩ : ∃ t₀ w₀, w = t₀ :: w₀ := List.exists_cons_of_ne_nil (List.ne_nil_of_length_pos (by omega))
  have hbrace : t.term = 6 := by
    rw [hw₀] at h hsup
    rw [← supplies_head hsup hnext]
    exact h.first
  obtain ⟨q, hwalk⟩ := h.walk
  have hterm : ∀ t ∈ front, t.term < 14 := by
    intro x hx
    exact supplies_term_lt hsup x (by rw [hw]; exact List.mem_append_left _ hx)
  obtain ⟨ns₁, q₁, hwithin, hspelled, -, -⟩ := h.holds.spelled.within hw hbrace hwalk hterm
  exact ⟨front, j, htiled, hskips, hwithin.isPrefix hspelled, hfrontDecodes⟩

end Progress

/-! ## Ends -/

section Ends

variable {F : Type} [LT F] [DecidableLT F] {source : StringT} {strtod : StringT → F}
  {fuel i j : Nat} {toks : List Token}

/-- `ccljson::parse` comes to an end: it returns, throws, or an assertion fails. -/
def Halts (source : StringT) (strtod : StringT → F) : Prop := ∃ fuel r, parseFuel source strtod fuel = some r

/-- `ccljson::parse` returns or throws. An assertion that fails does neither. -/
def Terminates (source : StringT) (strtod : StringT → F) : Prop :=
  ∃ fuel r, parseFuel source strtod fuel = some r ∧ ∀ e, r = .error e → e.what ≠ none

/-- `parse` ends where its loop does. -/
theorem halts_of_returns {r : Except JsonError (Nat × Sem F)}
    (h : Loop.Returns (parseRound (parserEnv source strtod fuel)) (lalrInit 0 Sem.init) r) :
    Halts source strtod := by
  obtain ⟨n, hrun⟩ := h
  have hrun' := Loop.run_mono (Nat.le_max_right fuel n)
    (Loop.run_refines (parserEnv_refines (Nat.le_max_left fuel n)) hrun)
  refine ⟨max fuel n, ?_⟩
  rw [parseFuel, hrun']
  cases r with
  | error e => exact ⟨_, rfl⟩
  | ok r =>
      dsimp only
      cases r.2.m_objects with
      | nil => exact ⟨_, rfl⟩
      | cons v vs => exact ⟨_, rfl⟩

/-- Where `parse` ends, its loop does, with any amount of fuel for the lexer from some on. -/
theorem Halts.returns (h : Halts source strtod) (n : Nat) :
    ∃ fuel r, n ≤ fuel ∧ Loop.Returns (parseRound (parserEnv source strtod fuel)) (lalrInit 0 Sem.init) r := by
  obtain ⟨m, r, hr⟩ := h
  have hparse := parseFuel_mono (Nat.le_max_left m n) hr
  unfold parseFuel at hparse
  cases hrun : Loop.run (parseRound (parserEnv source strtod (max m n))) (max m n) (lalrInit 0 Sem.init) with
  | none => simp [hrun] at hparse
  | some out => exact ⟨max m n, out, Nat.le_max_right m n, max m n, hrun⟩

/-- **On an endless lexeme** `parse` does not end: its first retrieval does not. -/
theorem Endless.not_halts (h : Endless (lap source)) (hc : Cyclic source) : ¬ Halts source strtod := by
  intro hhalts
  obtain ⟨fuel, r, -, n, hrun⟩ := hhalts.returns 0
  obtain ⟨state, hscan⟩ := h.alive hc (fuel + 1)
  have hrec : recognizeTerminal fuel source 0 = none := recognize_alive c_uint32_range_pos (hc.walks 0 fuel) hscan
  have hround : parseRound (parserEnv source strtod fuel) (lalrInit 0 Sem.init) = none := by
    simp only [parseRound, lalrInit, parserEnv, nextTerminal, hrec]
  cases n with
  | zero => cases hrun
  | succ n =>
      rw [Loop.run, hround] at hrun
      cases hrun

/-- Where only white space has been laid out in front of white space, everything is. -/
theorem Tiled.skips {u : StringT} {i j : Nat} (h : Tiled u i [] j) (hnul : ∀ c ∈ u, c ≠ 0)
    (hskips : ∀ c ∈ u.drop j, isSkip c = true) : ∀ c ∈ u.drop i, isSkip c = true := by
  generalize htoks : ([] : List Token) = toks at h
  induction h with
  | nil => exact hskips
  | @cons i j t lexeme rest state toks hdrop hne hscan hout _ ih =>
      obtain ⟨hterm, rfl⟩ := List.append_eq_nil_iff.mp htoks.symm
      have ht : t = 12 := by
        by_contra hne
        rw [if_neg hne] at hterm
        cases hterm
      have hlabel : state = .state15 := by
        have hlexTerminal := lexTerminal_of_out hout
        rw [ht] at hlexTerminal
        cases state <;> first | rfl | cases hlexTerminal
      subst hlabel
      have hlexeme : ∀ c ∈ lexeme, c ≠ 0 := by
        intro c hc
        exact hnul c (List.mem_of_mem_drop (i := i) (by rw [hdrop]; exact List.mem_append_left _ hc))
      have hrest : u.drop (i + lexeme.length) = rest := by rw [← List.drop_drop, hdrop, List.drop_left]
      have hbehind := ih hskips rfl
      rw [hrest] at hbehind
      rw [hdrop]
      exact List.forall_mem_append.mpr ⟨(scan_text hscan hlexeme).2, hbehind⟩

/-- The tokens of a lap come again. -/
theorem Tiled.again (h : Tiled (lap source) 0 toks j) (hc : Cyclic source) (hopens : Opens (lap source))
    (hne : toks ≠ []) (hskips : ∀ c ∈ (lap source).drop j, isSkip c = true) (hfuel : 2 * c_uint32_range ≤ fuel) :
    Supplies (nextTerminal source fuel) (j % c_uint32_range) toks (j % c_uint32_range) := by
  have hfirst := h.supplies hc (show c_uint32_range ≤ fuel by omega)
  rw [Nat.zero_mod] at hfirst
  rcases Nat.lt_or_eq_of_le (h.le hc (Nat.zero_le _)) with hlt | rfl
  · rw [Nat.mod_eq_of_lt hlt] at hfirst ⊢
    exact (hopens.supplies_over hc hlt hskips hfuel hne).mpr hfirst
  · rwa [Nat.mod_self] at hfirst ⊢

theorem Prefix.first {t : Token} (h : Prefix (t :: toks)) : t.term = 6 := by
  obtain ⟨brace, rest, ts, -, hspelled⟩ := h
  have hwalk : Lr.walk jsonLr 0 [16] = some 2 := by rfl
  have hlt := hspelled.terms_lt (by simp) t (List.mem_append_left _ List.mem_cons_self)
  exact brace_first _ (Nat.lt_succ_of_lt hlt) (hspelled.first hwalk rfl)

/-- The parser has retrieved the first token of a lap and shifts it. -/
structure Begins (source : StringT) (strtod : StringT → F) (fuel : Nat) (t : Token) (toks : List Token) (back : Nat)
    (s : LalrState Nat (Sem F)) : Prop where
  ret_term : s.ret_term = some t
  supplied : Supplies (nextTerminal source fuel) s.input toks back
  stack : ∃ e stack ns, s.m_lalr_stack = e :: stack ∧ Path [.ofState 0] s.m_lalr_stack ns ∧
    nodesSem source strtod ns = some s.sem ∧ (lalrEdge e.m_state 6).isSome = true

/-- **Once around.** The parser comes to the beginning of the next lap, deeper inside of the object. -/
theorem Begins.around {t : Token} {back : Nat} {s : LalrState Nat (Sem F)}
    (h : Begins source strtod fuel t toks back s) (hopen : Prefix (t :: toks))
    (hdec : ∀ k ∈ t :: toks, k.term = 0 → Decodes source k)
    (hagain : Supplies (nextTerminal source fuel) back (t :: toks) back) :
    ∃ s', Relation.TransGen (Loop.Next (parseRound (parserEnv source strtod fuel))) s s' ∧
      Begins source strtod fuel t toks back s' := by
  obtain ⟨input, ret, stack, sem⟩ := s
  obtain ⟨rfl, hsup, e, stack, ns₀, rfl, hpath, hsem, hbrace⟩ := h
  have ht : t.term = 6 := hopen.first
  obtain ⟨ns, q, hwithin, hspelled, hwalk, hq⟩ := hopen.within
  have hne : ns ≠ [] := by
    rintro rfl
    cases hspelled
  have hterms : ∀ k ∈ t :: toks, k.term < 13 := by
    obtain ⟨brace, rest, ts, -, hobject⟩ := hopen
    intro k hk
    exact hobject.terms_lt (by simp) k (List.mem_append_left _ hk)
  have hdef : nodesSem source strtod (ns ++ ns₀) ≠ none := by
    rw [nodesSem, pushNodes_append, show pushNodes source strtod ns₀ .init = some sem from hsem, Option.bind_some]
    refine hwithin.defined ?_ sem
    rw [hspelled.tokens (Nat.zero_le 2)]
    intro k hk
    obtain ⟨hk, hzero⟩ := List.mem_filter.mp hk
    exact hdec k hk (of_decide_eq_true hzero)
  have hgo : lalrAction q t.term ≠ .error := by
    obtain ⟨q', hq'⟩ := Option.isSome_iff_exists.mp hq
    rw [ht, lalrAction_of_edge hq']
    exact LalrAction.noConfusion
  have hw : (t :: toks) ++ t :: toks = t :: (toks ++ t :: toks) := List.cons_append
  obtain ⟨j, e', stack', sem', hj, hpath', hstate, hsem', hreach⟩ :=
    hspelled.runs (means_nodesSem source strtod fuel) hterms hpath hsem hdef ((hwithin.walk hne hbrace).trans hwalk)
      (Nat.lt_succ_of_lt (hterms t List.mem_cons_self)) hgo hw (hsup.trans hagain)
  rw [← hstate] at hq
  refine ⟨⟨j, some t, e' :: stack', sem'⟩, ?_, rfl, hj, e', stack', ns ++ ns₀, rfl, hpath.trans hpath', hsem', hq⟩
  -- the stack has grown, so that the parser has taken a round at least
  rcases Relation.reflTransGen_iff_eq_or_transGen.mp hreach with heq | hrounds
  · have hlen := congrArg List.length hpath'.drop
    rw [List.length_drop, ← congrArg (fun s => s.m_lalr_stack.length) heq] at hlen
    have hpos := List.length_pos_of_ne_nil hne
    simp only [List.length_cons] at hlen
    omega
  · exact hrounds

/-- **A lap that nests** does not end. -/
theorem Nested.not_halts (h : Nested source) (hc : Cyclic source) : ¬ Halts source strtod := by
  obtain ⟨toks, j, htiled, hskips, hopen, hdec⟩ := h
  cases toks with
  | nil => exact Endless.not_halts (.skips (htiled.skips hc.no_nul hskips)) hc
  | cons t toks =>
      intro hhalts
      obtain ⟨fuel, r, hfuel, hreturns⟩ := hhalts.returns (2 * c_uint32_range)
      have hsup := htiled.supplies hc (show c_uint32_range ≤ fuel by omega)
      rw [Nat.zero_mod] at hsup
      have hopens : Opens (lap source) := by
        cases hsup with
        | skip hnext hs _ => exact hc.opens hnext (Or.inl hs)
        | cons hnext _ _ => exact hc.opens hnext (Or.inr hopen.first)
      have hagain := htiled.again hc hopens (List.cons_ne_nil t toks) hskips hfuel
      have hnext : Supplies (parserEnv source strtod fuel).next 0 (t :: toks) (j % c_uint32_range) := hsup
      obtain ⟨i, -, hrest, hreach⟩ := hnext.reaches [.ofState 0] Sem.init
      have hbegins : Begins source strtod fuel t toks (j % c_uint32_range) ⟨i, some t, [.ofState 0], Sem.init⟩ :=
        ⟨rfl, hrest, _, _, [], rfl, .bottom, rfl, by rfl⟩
      refine Loop.not_returns _ (fun s hs => ?_) hbegins ((Loop.Reaches.returns_iff hreach).mp hreturns)
      exact hs.around hopen hdec hagain

/-- `parse` runs for ever on the sources whose lap is an endless lexeme or nests, and on no others. -/
theorem halts_iff (source : StringT) (strtod : StringT → F) :
    Halts source strtod ↔ ¬ (Cyclic source ∧ (Endless (lap source) ∨ Nested source)) := by
  constructor
  · rintro hhalts ⟨hc, hendless | hnested⟩
    · exact hendless.not_halts hc hhalts
    · exact hnested.not_halts hc hhalts
  · intro h
    rcases progress source strtod (2 * c_uint32_range) (c_uint32_range + 3) with
      ⟨r, hreturns⟩ | ⟨ns, w, s, htaken, hround⟩ | ⟨ns, w, s, htaken, hlen⟩
    · exact halts_of_returns hreturns
    · obtain ⟨hc, hendless⟩ := htaken.endless (Nat.le_refl _) hround
      exact absurd ⟨hc, Or.inl hendless⟩ h
    · obtain ⟨hc, hnested⟩ := htaken.nested (Nat.le_refl _) hlen
      exact absurd ⟨hc, Or.inr hnested⟩ h

/-- **When `parse` returns or throws.** It runs for ever on the sources whose lap is an endless lexeme or nests, an
    assertion fails on those that come to a string with the escape `\/`, and on the others it returns or throws. -/
theorem parse_ends_iff (source : StringT) (strtod : StringT → F) :
    Terminates source strtod ↔
      ¬ (Cyclic source ∧ (Endless (lap source) ∨ Nested source)) ∧ ¬ Aborts source := by
  rw [← halts_iff source strtod, ← aborts_iff source strtod]
  constructor
  · rintro ⟨fuel, r, hparse, hwhat⟩
    refine ⟨⟨fuel, r, hparse⟩, ?_⟩
    rintro ⟨fuel', e, hparse', hnone⟩
    have hsame := (parseFuel_mono (Nat.le_max_left fuel fuel') hparse).symm.trans
      (parseFuel_mono (Nat.le_max_right fuel fuel') hparse')
    exact hwhat e (Option.some.inj hsame) hnone
  · rintro ⟨⟨fuel, r, hparse⟩, hnot⟩
    refine ⟨fuel, r, hparse, ?_⟩
    rintro e rfl hnone
    exact hnot ⟨fuel, e, hparse, hnone⟩

/-- White space that fills the cursor's range: the label of white space reads it again and again. -/
theorem white_space_never_ends : ¬ Terminates (List.replicate (2 ^ 32) 0x20) (fun _ => (0 : Nat)) := by
  rintro ⟨fuel, r, hparse, -⟩
  have hlen : (List.replicate (2 ^ 32) (0x20 : UInt8)).length = c_uint32_range := List.length_replicate
  have hspace : ∀ c ∈ lap (List.replicate (2 ^ 32) (0x20 : UInt8)), c = 0x20 := fun c hmem =>
    List.eq_of_mem_replicate (List.mem_of_mem_take hmem)
  refine Endless.not_halts (.skips ?_) ⟨Nat.le_of_eq hlen.symm, ?_⟩ ⟨fuel, r, hparse⟩
  · intro c hmem
    rw [hspace c hmem]
    rfl
  · intro c hmem
    rw [hspace c hmem]
    decide

end Ends

end Ccljson
end Cclib
