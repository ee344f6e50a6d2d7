import Cclib.Ccljson.Respaced

/-!
# `Ccljson.Lockstep` — two sources, the same parse

Two runs of the parser, over sources whose tokens are `Alike`, side by side. Between two retrievals the one takes
the same rounds as the other (`Paired.settle`), with the same states on the LALR stack and the same semantic
stacks, so both throw the same or return the same value (`Paired.returns`).

- `parseAction_alike` — the actions.
- `same_result` — a source and the source with white space inserted.
- `layout_irrelevant` — how a source is laid out does not matter.
-/

namespace Cclib
namespace Ccljson
open Cclvar

/-! ## Alike tokens -/

section Tokens

variable {F : Type} {strtod : StringT → F} {source source' : StringT} {ts ts' us us' : List Token} {t t' : Token}

theorem Alike.drop (h : Alike strtod source source' (us ++ ts) (us' ++ ts')) (hlen : us'.length = us.length) :
    Alike strtod source source' ts ts' := by
  induction us generalizing us' with
  | nil =>
      obtain rfl := List.length_eq_zero_iff.mp hlen
      exact h
  | cons u us ih =>
      cases us' with
      | nil => cases hlen
      | cons u' us' =>
          cases h with
          | cons _ _ _ h => exact ih h (Nat.succ.inj hlen)

theorem Alike.length_eq (h : Alike strtod source source' ts ts') : ts'.length = ts.length := by
  induction h with
  | nil => rfl
  | cons _ _ _ _ ih => rw [List.length_cons, List.length_cons, ih]

end Tokens

section Rounds

variable {ι σ : Type} {env : LalrEnv ι σ} {S : List Node → Option σ} {i i₀ j : ι} {ns : List Node} {w : List Token}
  {tok : Token} {top : StackElemC} {stack : List StackElemC} {sem : σ}

/-- The terminal on top of the stack is the last one consumed. -/
theorem last_of_term {s : LalrState ι σ} (h : Holds env S i₀ (.term tok :: ns) w s) : ∃ u, w = u ++ [tok] := by
  have hspelled := h.spelled
  cases hspelled with
  | term _ => exact ⟨_, rfl⟩
  | rule hr => cases hr

theorem Means.supplied_lt {toks : List Token} (hS : Means env S) (h : Supplies env.next i toks j) :
    ∀ t ∈ toks, t.term < 14 := by
  induction h with
  | nil => simp
  | skip _ _ _ ih => exact ih
  | cons hnext _ _ ih => exact List.forall_mem_cons.mpr ⟨hS.next_term hnext, ih⟩

/-- Retrieving a terminal, with the white space in front of it. -/
theorem Holds.supply (hS : Means env S) (h : Holds env S i₀ ns w ⟨i, none, stack, sem⟩)
    (hone : Supplies env.next i [tok] j) : Holds env S i₀ ns w ⟨j, some tok, stack, sem⟩ where
  path := h.path
  spelled := h.spelled
  supplied := by
    have hsupplied := h.supplied
    rw [Option.toList_none, List.append_nil] at hsupplied
    exact hsupplied.trans hone
  term_lt t ht := by
    obtain rfl := Option.some.inj ht
    exact hS.supplied_lt hone tok List.mem_cons_self
  sem := h.sem

theorem ends_error (hact : lalrAction top.m_state tok.term = .error) :
    parseRound env ⟨i, some tok, top :: stack, sem⟩ = some (.inr (.error .invalidSyntax)) := by
  simp [parseRound, actOn, hact]

theorem ends_accept {q : Nat} (hact : lalrAction top.m_state tok.term = .shift q) (hend : tok.term = 13) :
    parseRound env ⟨i, some tok, top :: stack, sem⟩ = some (.inr (.ok (i, sem))) := by
  rw [hend] at hact
  simp [parseRound, actOn, hend, hact]

theorem ends_throw {rule : Nat} {e : JsonError} (hact : lalrAction top.m_state tok.term = .reduce rule)
    (hsem : env.act rule top sem = .error e) :
    parseRound env ⟨i, some tok, top :: stack, sem⟩ = some (.inr (.error e)) := by
  simp [parseRound, actOn, reduceBy, hact, hsem]

end Rounds

/-! ## Two runs -/

section Runs

variable {F : Type} [LT F] [DecidableLT F] {strtod : StringT → F} {source source' : StringT} {fuel fuel' : Nat}
  {w w' toks toks' : List Token} {s s' : LalrState Nat (Sem F)} {tok tok' : Token}

variable (strtod source source' fuel fuel') in
/-- Two runs that have consumed the tokens `w` and `w'`, with `toks` and `toks'` to come. -/
structure Paired (w w' toks toks' : List Token) (s s' : LalrState Nat (Sem F)) : Prop where
  holds : ∃ ns, Holds (parserEnv source strtod fuel) (nodesSem source strtod) 0 ns w s
  holds' : ∃ ns, Holds (parserEnv source' strtod fuel') (nodesSem source' strtod) 0 ns w' s'
  states : s'.m_lalr_stack.map StackElemC.m_state = s.m_lalr_stack.map StackElemC.m_state
  sem : s'.sem = s.sem
  alike : Alike strtod source source' (w ++ (s.ret_term.toList ++ toks)) (w' ++ (s'.ret_term.toList ++ toks'))
  length : w'.length = w.length

/-- A number is reduced in front of a comma or a closing bracket only. -/
theorem closes_of_reduce {state term rule : Nat} (hs : state < jsonLalrStateCnt) (ht : term < 14)
    (h : lalrAction state term = .reduce rule) (hrule : rule = 16 ∨ rule = 17) : term ∈ [7, 9, 10] := by
  have hall : tableAll (fun _ sym cell => match decodeAction cell with
      | .reduce rule => decide (rule = 16 ∨ rule = 17 → sym ∈ [7, 9, 10])
      | _ => true) = true := by
    decide +kernel
  have hcell := of_tableAll hall hs (show term < 27 by omega)
  rw [show decodeAction (lalrCell state term) = .reduce rule from h] at hcell
  exact of_decide_eq_true hcell hrule

/-- **The actions do the same.** The one of a string reads the token on top, and the one of a number what stands
    behind it, too; the others read only the semantic stacks. -/
theorem parseAction_alike {top top' : StackElemC} {stack stack' : List StackElemC} {rule : Nat}
    (h : Paired strtod source source' fuel fuel' w w' toks toks' s s') (htok : s.ret_term = some tok)
    (htok' : s'.ret_term = some tok') (hstack : s.m_lalr_stack = top :: stack)
    (hstack' : s'.m_lalr_stack = top' :: stack') (hact : lalrAction top.m_state tok.term = .reduce rule)
    (hact' : lalrAction top'.m_state tok'.term = .reduce rule) (sem : Sem F) :
    parseAction source' strtod rule top' sem = parseAction source strtod rule top sem := by
  obtain ⟨ns, hns⟩ := h.holds
  obtain ⟨ns', hns'⟩ := h.holds'
  obtain ⟨body, head, rest, -, -, -, rfl, hr, -, htag, -, -, -⟩ := hns.reduction htok hstack hact
  obtain ⟨body', head', rest', -, -, -, rfl, hr', -, htag', -, -, -⟩ := hns'.reduction htok' hstack' hact'
  have hstate : top.m_state < jsonLalrStateCnt := by
    have hpath := hns.path
    rw [hstack] at hpath
    exact hpath.state_lt
  -- the tokens that the body of the rule was read from
  have hlast : ∀ {t t' : Token}, body = [.term t] → body' = [.term t'] → Alike strtod source source' (t :: tok :: toks)
      (t' :: tok' :: toks') ∧ (top.m_term_start = t.start ∧ top.m_term_end = t.stop) ∧
      top'.m_term_start = t'.start ∧ top'.m_term_end = t'.stop := by
    rintro t t' rfl rfl
    obtain ⟨u, rfl⟩ := last_of_term hns
    obtain ⟨u', rfl⟩ := last_of_term hns'
    have halike := h.alike
    have hlen := h.length
    rw [htok, htok', List.append_assoc, List.append_assoc] at halike
    rw [List.length_append, List.length_append] at hlen
    exact ⟨halike.drop (Nat.add_right_cancel hlen), (htag _ _ rfl t rfl).2, (htag' _ _ rfl t' rfl).2⟩
  cases hr with
  | @string t ht =>
      cases hr' with
      | @string t' ht' =>
          obtain ⟨halike, ⟨hstart, hstop⟩, hstart', hstop'⟩ := hlast rfl rfl
          cases halike with
          | cons _ hstring _ _ =>
              have hsame := hstring ht
              rw [← hstart, ← hstop, ← hstart', ← hstop'] at hsame
              show paJsonString source' top' sem = paJsonString source top sem
              simp only [paJsonString, leafString, hsame]
  | @valueInteger t ht =>
      cases hr' with
      | @valueInteger t' ht' =>
          obtain ⟨halike, ⟨hstart, -⟩, hstart', -⟩ := hlast rfl rfl
          cases halike with
          | cons _ _ hnumber _ =>
              have hclose := closes_of_reduce hstate (hns.term_lt tok htok) hact (Or.inl rfl)
              have hsame := (hnumber tok rfl hclose).1 ht
              rw [← hstart, ← hstart'] at hsame
              show paJsonValInteger source' top' sem = paJsonValInteger source top sem
              simp only [paJsonValInteger, leafInteger, hsame]
  | @valueFloat t ht =>
      cases hr' with
      | @valueFloat t' ht' =>
          obtain ⟨halike, ⟨hstart, -⟩, hstart', -⟩ := hlast rfl rfl
          cases halike with
          | cons _ _ hnumber _ =>
              have hclose := closes_of_reduce hstate (hns.term_lt tok htok) hact (Or.inr rfl)
              have hsame := (hnumber tok rfl hclose).2 ht
              rw [← hstart, ← hstart'] at hsame
              show paJsonValFloat source' strtod top' sem = paJsonValFloat source strtod top sem
              simp only [paJsonValFloat, leafFloat, hsame]
  | _ => rfl

/-- The terminals at hand are the same. -/
theorem Paired.term_eq (h : Paired strtod source source' fuel fuel' w w' toks toks' s s') (htok : s.ret_term = some tok)
    (htok' : s'.ret_term = some tok') : tok'.term = tok.term := by
  have halike := h.alike
  rw [htok, htok'] at halike
  cases halike.drop h.length with
  | cons hterm _ _ _ => exact hterm

/-- Both shift. -/
theorem Paired.shift {i i' q : Nat} {top top' : StackElemC} {stack stack' : List StackElemC} {sem sem' : Sem F}
    (h : Paired strtod source source' fuel fuel' w w' toks toks' ⟨i, some tok, top :: stack, sem⟩
      ⟨i', some tok', top' :: stack', sem'⟩)
    (hact : lalrAction top.m_state tok.term = .shift q) (hact' : lalrAction top'.m_state tok'.term = .shift q) :
    Paired strtod source source' fuel fuel' (w ++ [tok]) (w' ++ [tok']) toks toks'
      ⟨i, none, ⟨q, tok.start, tok.stop⟩ :: top :: stack, sem⟩
      ⟨i', none, ⟨q, tok'.start, tok'.stop⟩ :: top' :: stack', sem'⟩ where
  holds := by
    obtain ⟨ns, hns⟩ := h.holds
    exact ⟨_, hns.shift (means_nodesSem source strtod fuel) rfl rfl hact⟩
  holds' := by
    obtain ⟨ns, hns⟩ := h.holds'
    exact ⟨_, hns.shift (means_nodesSem source' strtod fuel') rfl rfl hact'⟩
  states := by
    have hstates := h.states
    simp only [List.map_cons] at hstates ⊢
    rw [hstates]
  sem := h.sem
  alike := by
    have halike := h.alike
    rw [List.append_assoc, List.append_assoc]
    exact halike
  length := by rw [List.length_append, List.length_append, h.length]; rfl

/-- Both reduce, by the same rule and with the same semantic stacks, and the stack gets lighter. -/
theorem Paired.reduce {i i' rule : Nat} {top top' : StackElemC} {stack stack' : List StackElemC} {sem sem' sem₁ : Sem F}
    (h : Paired strtod source source' fuel fuel' w w' toks toks' ⟨i, some tok, top :: stack, sem⟩
      ⟨i', some tok', top' :: stack', sem'⟩)
    (hact : lalrAction top.m_state tok.term = .reduce rule) (hact' : lalrAction top'.m_state tok'.term = .reduce rule)
    (hsem : parseAction source strtod rule top sem = .ok sem₁)
    (hsem' : parseAction source' strtod rule top' sem' = .ok sem₁) :
    ∃ below below', weight below < weight (top :: stack) ∧
      Loop.Next (parseRound (parserEnv source strtod fuel)) ⟨i, some tok, top :: stack, sem⟩
        ⟨i, some tok, below, sem₁⟩ ∧
      Loop.Next (parseRound (parserEnv source' strtod fuel')) ⟨i', some tok', top' :: stack', sem'⟩
        ⟨i', some tok', below', sem₁⟩ ∧
      Paired strtod source source' fuel fuel' w w' toks toks' ⟨i, some tok, below, sem₁⟩
        ⟨i', some tok', below', sem₁⟩ := by
  obtain ⟨ns, hns⟩ := h.holds
  obtain ⟨ns', hns'⟩ := h.holds'
  obtain ⟨body, head, rest, p, below, q, rfl, hr, hfits, htag, hdrop, hrest, hedge⟩ := hns.reduction rfl rfl hact
  obtain ⟨body', head', rest', p', below', q', rfl, hr', hfits', htag', hdrop', hrest', hedge'⟩ :=
    hns'.reduction rfl rfl hact'
  have hweight := hns.weight_lt rfl rfl hact hdrop
  have hheld := hns.reduce (means_nodesSem source strtod fuel) hr hfits htag hrest hedge hsem
  have hheld' := hns'.reduce (means_nodesSem source' strtod fuel') hr' hfits' htag' hrest' hedge' hsem'
  have hcell : lalrCell p.m_state (ruleHead rule) = q := (lalrEdge_eq_some.mp hedge).2.2.1
  have hcell' : lalrCell p'.m_state (ruleHead rule) = q' := (lalrEdge_eq_some.mp hedge').2.2.1
  -- what is uncovered is the same, too
  have hunder : p'.m_state = p.m_state ∧ below'.map StackElemC.m_state = below.map StackElemC.m_state := by
    have hstates := congrArg (List.drop (ruleLength rule)) h.states
    rw [← List.map_drop, ← List.map_drop, hdrop, hdrop', List.map_cons, List.map_cons] at hstates
    exact List.cons.inj hstates
  rw [hcell] at hweight hheld
  rw [hcell'] at hheld'
  obtain rfl : q' = q := by rw [← hcell, ← hcell', hunder.1]
  refine ⟨_, _, hweight, next_reduce hact hsem hdrop hedge, next_reduce hact' hsem' hdrop' hedge',
    ⟨_, hheld⟩, ⟨_, hheld'⟩, ?_, rfl, h.alike, h.length⟩
  simp only [List.map_cons, hunder.1, hunder.2]

variable (strtod source source' fuel fuel' s s') in
/-- Both runs leave the loop, with the same exception or the same semantic stacks. -/
def SameEnd : Prop :=
  ∃ r r', Loop.Returns (parseRound (parserEnv source strtod fuel)) s r ∧
    Loop.Returns (parseRound (parserEnv source' strtod fuel')) s' r' ∧ r'.map Prod.snd = r.map Prod.snd

theorem SameEnd.of_reaches {s₁ s₁' : LalrState Nat (Sem F)} (h : SameEnd strtod source source' fuel fuel' s₁ s₁')
    (hreach : Loop.Reaches (parseRound (parserEnv source strtod fuel)) s s₁)
    (hreach' : Loop.Reaches (parseRound (parserEnv source' strtod fuel')) s' s₁') :
    SameEnd strtod source source' fuel fuel' s s' := by
  obtain ⟨r, r', hr, hr', hsame⟩ := h
  exact ⟨r, r', hreach.returns_iff.mpr hr, hreach'.returns_iff.mpr hr', hsame⟩

theorem SameEnd.of_done {r r' : Except JsonError (Nat × Sem F)}
    (h : parseRound (parserEnv source strtod fuel) s = some (.inr r))
    (h' : parseRound (parserEnv source' strtod fuel') s' = some (.inr r')) (hsame : r'.map Prod.snd = r.map Prod.snd) :
    SameEnd strtod source source' fuel fuel' s s' :=
  ⟨r, r', Loop.returns_of_done h, Loop.returns_of_done h', hsame⟩

/-- **Up to the next retrieval.** With a terminal at hand, both runs end, or both consume it. -/
theorem Paired.settle (h : Paired strtod source source' fuel fuel' w w' toks toks' s s') (htok : s.ret_term = some tok)
    (htok' : s'.ret_term = some tok') : SameEnd strtod source source' fuel fuel' s s' ∨
      tok.term ≠ 13 ∧ ∃ stack stack' sem,
        Loop.Reaches (parseRound (parserEnv source strtod fuel)) s ⟨s.input, none, stack, sem⟩ ∧
        Loop.Reaches (parseRound (parserEnv source' strtod fuel')) s' ⟨s'.input, none, stack', sem⟩ ∧
        Paired strtod source source' fuel fuel' (w ++ [tok]) (w' ++ [tok']) toks toks' ⟨s.input, none, stack, sem⟩
          ⟨s'.input, none, stack', sem⟩ := by
  -- every reduction lowers the weight of the stack
  induction hn : weight s.m_lalr_stack using Nat.strong_induction_on generalizing s s' with
  | _ n ih =>
      subst hn
      have hterm := h.term_eq htok htok'
      have hstates := h.states
      obtain ⟨i, ret, stack, sem⟩ := s
      obtain ⟨i', ret', stack', sem'⟩ := s'
      obtain rfl : ret = some tok := htok
      obtain rfl : ret' = some tok' := htok'
      obtain rfl : sem' = sem := h.sem
      cases stack with
      | nil =>
          obtain rfl : stack' = [] := List.map_eq_nil_iff.mp hstates
          exact Or.inl (.of_done rfl rfl rfl)
      | cons top stack =>
          obtain ⟨top', stack', rfl, htop, -⟩ := List.map_eq_cons_iff.mp hstates
          cases hact : lalrAction top.m_state tok.term with
          | error =>
              have hact' : lalrAction top'.m_state tok'.term = .error := by rw [htop, hterm, hact]
              exact Or.inl (.of_done (ends_error hact) (ends_error hact') rfl)
          | shift q =>
              have hact' : lalrAction top'.m_state tok'.term = .shift q := by rw [htop, hterm, hact]
              by_cases hend : tok.term = 13
              · exact Or.inl (.of_done (ends_accept hact hend) (ends_accept hact' (hterm.trans hend)) rfl)
              · have hend' : tok'.term ≠ 13 := fun heq => hend (hterm.symm.trans heq)
                exact Or.inr ⟨hend, _, _, _, .single (next_shift hact hend), .single (next_shift hact' hend'),
                  h.shift hact hact'⟩
          | reduce rule =>
              have hact' : lalrAction top'.m_state tok'.term = .reduce rule := by rw [htop, hterm, hact]
              have hsame := parseAction_alike h rfl rfl rfl rfl hact hact' sem'
              cases hsem : parseAction source strtod rule top sem' with
              | error e =>
                  rw [hsem] at hsame
                  exact Or.inl (.of_done (ends_throw hact hsem) (ends_throw hact' hsame) rfl)
              | ok sem₁ =>
                  rw [hsem] at hsame
                  obtain ⟨below, below', hlt, hnext, hnext', hpaired⟩ := h.reduce hact hact' hsem hsame
                  rcases ih _ hlt hpaired rfl rfl rfl with hdone | ⟨hend, stack₁, stack₁', sem₂, hreach, hreach', hpaired'⟩
                  · exact Or.inl (hdone.of_reaches (.single hnext) (.single hnext'))
                  · exact Or.inr ⟨hend, stack₁, stack₁', sem₂, .head hnext hreach, .head hnext' hreach', hpaired'⟩

/-- **Two runs over alike tokens end the same.** The first of the terminals to come is retrieved, and the runs get
    to the next retrieval or end. -/
theorem Paired.returns {i i' n n' : Nat} {stack stack' : List StackElemC} {sem sem' : Sem F}
    (h : Paired strtod source source' fuel fuel' w w' toks toks' ⟨i, none, stack, sem⟩ ⟨i', none, stack', sem'⟩)
    (hsup : Supplies (nextTerminal source fuel) i toks n) (hsup' : Supplies (nextTerminal source' fuel') i' toks' n')
    (hend : ∃ u e, toks = u ++ [e] ∧ e.term = 13) :
    SameEnd strtod source source' fuel fuel' ⟨i, none, stack, sem⟩ ⟨i', none, stack', sem'⟩ := by
  induction toks generalizing w w' toks' i i' stack stack' sem sem' with
  | nil =>
      obtain ⟨u, e, hnil, -⟩ := hend
      exact absurd hnil.symm (List.append_ne_nil_of_right_ne_nil _ (List.cons_ne_nil _ _))
  | cons tok toks ih =>
      have halike := h.alike
      obtain ⟨tok', toks', rfl⟩ : ∃ tok' ts, toks' = tok' :: ts := by
        have hlen := (halike.drop h.length).length_eq
        exact List.exists_cons_of_length_eq_add_one hlen
      obtain rfl : sem' = sem := h.sem
      have hsupplied : Supplies (parserEnv source strtod fuel).next i (tok :: toks) n := hsup
      have hsupplied' : Supplies (parserEnv source' strtod fuel').next i' (tok' :: toks') n' := hsup'
      obtain ⟨j, hone, hrest, hreach⟩ := hsupplied.reaches stack sem'
      obtain ⟨j', hone', hrest', hreach'⟩ := hsupplied'.reaches stack' sem'
      have hpaired : Paired strtod source source' fuel fuel' w w' toks toks' ⟨j, some tok, stack, sem'⟩
          ⟨j', some tok', stack', sem'⟩ := by
        obtain ⟨ns, hns⟩ := h.holds
        obtain ⟨ns', hns'⟩ := h.holds'
        exact ⟨⟨ns, hns.supply (means_nodesSem source strtod fuel) hone⟩,
          ⟨ns', hns'.supply (means_nodesSem source' strtod fuel') hone'⟩, h.states, rfl, halike, h.length⟩
      rcases hpaired.settle rfl rfl with hdone | ⟨hne, stack₁, stack₁', sem₁, hsettle, hsettle', hpaired₁⟩
      · exact hdone.of_reaches hreach hreach'
      · -- more is to come, for the end of the input is not consumed
        have hmore : ∃ u e, toks = u ++ [e] ∧ e.term = 13 := by
          obtain ⟨u, e, heq, he⟩ := hend
          cases u with
          | nil =>
              cases heq
              exact absurd he hne
          | cons t u =>
              cases heq
              exact ⟨u, e, rfl, he⟩
        exact (ih hpaired₁ hrest hrest' hmore).of_reaches (hreach.trans hsettle) (hreach'.trans hsettle')

end Runs

/-! ## Results -/

section Results

variable {F : Type} [LT F] [DecidableLT F] {strtod : StringT → F} {source source' : StringT} {fuel : Nat} {v : VarC F}
  {e : JsonError}

/-- `ccljson::parse` fails with `e`. -/
def Fails (source : StringT) (strtod : StringT → F) (e : JsonError) : Prop :=
  ∃ fuel, parseFuel source strtod fuel = some (.error e)

/-- What `parse` makes of the end of its loop. -/
theorem parse_of_returns {r : Except JsonError (Nat × Sem F)}
    (h : Loop.Returns (parseRound (parserEnv source strtod fuel)) (lalrInit 0 Sem.init) r) :
    ∃ n, parseFuel source strtod n = some (match r.map Prod.snd with
      | .error e => .error e
      | .ok s => match s.m_objects with
        | v :: _ => .ok v
        | [] => .error .emptyStack) := by
  obtain ⟨n, hrun⟩ := h
  have hrun' := Loop.run_mono (Nat.le_max_right fuel n)
    (Loop.run_refines (parserEnv_refines (Nat.le_max_left fuel n)) hrun)
  refine ⟨max fuel n, ?_⟩
  rw [parseFuel, hrun']
  cases r with
  | error e => rfl
  | ok r =>
      simp only [Except.map]
      cases r.2.m_objects <;> rfl

/-- **White space between tokens does not change the result.** -/
theorem same_result (hstrtod : ReadsLiterals strtod) (h : Respaced source source')
    (hlt : source'.length < c_uint32_range) :
    ∃ r n n', parseFuel source strtod n = some r ∧ parseFuel source' strtod n' = some r := by
  obtain ⟨w, ⟨fuel, tok, k, hsup, hend, hterms⟩, hinserts⟩ := h
  obtain ⟨ps, ws, rest, htext, hws, hrest, rfl, -, hps⟩ := text_of_supplies hsup hend hterms
  have hinserts' : Inserts (tokensFrom 0 ps) 0 (render ps ++ (ws ++ rest)) source' := htext ▸ hinserts
  obtain ⟨ps', ws', rest', htext', hmoved, hws', hspaced, hrest'⟩ :=
    hinserts'.moved hps hws hrest (fun _ ht => ht)
  have hps' := parted_of_moved hmoved hps hws' hspaced hrest hrest'
  have hlt' : (render ps' ++ ws').length < c_uint32_range := by
    rw [htext'] at hlt
    simp only [List.length_append] at hlt ⊢
    omega
  have hsup' := supplies_text htext' hps' hws' hrest' hlt' (Nat.lt_succ_self _)
  have hend' : (Token.mk 13 (render ps' ++ ws').length (render ps' ++ ws').length).term = 13 := rfl
  have halike := alike_of_moved hstrtod hmoved hps hps' (show source.drop 0 = _ from htext)
    (show source'.drop 0 = _ from htext') hend hend'
  have hpaired : Paired strtod source source' fuel ((render ps' ++ ws').length + 1) [] [] _ _
      (lalrInit 0 Sem.init) (lalrInit 0 Sem.init) :=
    ⟨⟨[], holds_init rfl⟩, ⟨[], holds_init rfl⟩, rfl, rfl, halike, rfl⟩
  obtain ⟨r, r', hr, hr', hsame⟩ := hpaired.returns hsup hsup' ⟨_, tok, rfl, hend⟩
  obtain ⟨n, hn⟩ := parse_of_returns hr
  obtain ⟨n', hn'⟩ := parse_of_returns hr'
  rw [hsame] at hn'
  exact ⟨_, n, n', hn, hn'⟩

theorem Fails.unique {r : Except JsonError (VarC F)} {n : Nat} (h : parseFuel source strtod n = some r) :
    Fails source strtod e ↔ r = .error e := by
  constructor
  · rintro ⟨m, hm⟩
    have hn' := parseFuel_mono (Nat.le_max_left n m) h
    have hm' := parseFuel_mono (Nat.le_max_right n m) hm
    exact Option.some.inj (hn'.symm.trans hm')
  · rintro rfl
    exact ⟨n, h⟩

/-- **Layout does not matter.** A source that is tokens up to the end of the input, and the source with white space
    inserted before, between or behind them, fail with the same error or are parsed to values that compare
    equal. -/
theorem layout_irrelevant [Std.Irrefl (fun a b : F => a < b)] (hstrtod : ReadsLiterals strtod)
    (h : Respaced source source') (hlt : source'.length < c_uint32_range) :
    (∀ e, Fails source strtod e ↔ Fails source' strtod e) ∧
      ((∀ e, ¬ Fails source strtod e) →
        ∃ v v', Parses source strtod v ∧ Parses source' strtod v' ∧ VarC.compare v v' = 0) := by
  obtain ⟨r, n, n', hn, hn'⟩ := same_result hstrtod h hlt
  constructor
  · intro e
    rw [Fails.unique hn, Fails.unique hn']
  · intro hnone
    cases r with
    | error e => exact absurd ⟨n, hn⟩ (hnone e)
    | ok v => exact ⟨v, v, ⟨n, hn⟩, ⟨n', hn'⟩, VarC.compare_self v⟩

end Results

/-! ## A document -/

/-- A character of a decimal literal. -/
def isNumberChar (c : UInt8) : Bool := isDigit c || c == 43 || c == 45 || c == 46 || c == 69 || c == 101

/-- `strtod` for literals without a sign or an exponent. -/
def strtodPoint (s : StringT) : Rat :=
  let literal := s.takeWhile isNumberChar
  let int := literal.takeWhile (· != 46)
  let frac := literal.drop (int.length + 1)
  mkRat (digitsValue (int ++ frac)) (10 ^ frac.length)

theorem laxNumber_chars {frac exp s : StringT} (h : LaxNumber frac exp s) : ∀ c ∈ s, isNumberChar c = true := by
  have hdigits : ∀ {ds : StringT}, (∀ c ∈ ds, 0x30 ≤ c ∧ c ≤ 0x39) → ∀ c ∈ ds, isNumberChar c = true := by
    intro ds hds c hc
    simp [isNumberChar, (isDigit_iff c).mpr (hds c hc)]
  obtain ⟨minus, int, hminus, hint, hfrac, hexp, rfl⟩ := h
  simp only [List.forall_mem_append]
  refine ⟨⟨⟨?_, ?_⟩, ?_⟩, ?_⟩
  · rcases hminus with rfl | rfl
    · simp
    · exact List.forall_mem_singleton.mpr rfl
  · intro c hc
    simp [isNumberChar, (rfcInt_digits hint).2 c hc]
  · cases hfrac with
    | none => simp
    | digits hds => exact List.forall_mem_cons.mpr ⟨rfl, hdigits hds⟩
  · cases hexp with
    | none => simp
    | @digits e sign ds he hsign hds =>
        refine List.forall_mem_cons.mpr ⟨?_, List.forall_mem_append.mpr ⟨?_, hdigits hds.2⟩⟩
        · rcases he with rfl | rfl <;> rfl
        · rcases hsign with rfl | rfl | rfl
          · simp
          · exact List.forall_mem_singleton.mpr rfl
          · exact List.forall_mem_singleton.mpr rfl

theorem strtodPoint_reads : ReadsLiterals strtodPoint := by
  intro frac exp lexeme rest hnumber hrest
  have hchars := laxNumber_chars hnumber
  have hstop : rest.takeWhile isNumberChar = [] := by
    cases rest with
    | nil => rfl
    | cons c rest =>
        have hall : ∀ c : UInt8, isDelimiter c = true → isNumberChar c = false := forall_byte (by decide +kernel)
        rw [List.takeWhile_cons_of_neg]
        rw [hall c hrest]
        exact Bool.false_ne_true
  have htake : ∀ rest : StringT, rest.takeWhile isNumberChar = [] → (lexeme ++ rest).takeWhile isNumberChar = lexeme := by
    intro rest hrest
    rw [List.takeWhile_append_of_pos hchars, hrest, List.append_nil]
  have hself := htake [] rfl
  rw [List.append_nil] at hself
  rw [strtodPoint, strtodPoint, htake rest hstop, hself]

set_option maxRecDepth 4000 in
/-- The theorem for `{"a":1.5}` and the same with a space, a tab and a line feed in it. -/
theorem layout_irrelevant_spaced :
    ∃ v v', Parses [0x7b, 0x22, 0x61, 0x22, 0x3a, 0x31, 0x2e, 0x35, 0x7d] strtodPoint v ∧
      Parses [0x20, 0x7b, 0x22, 0x61, 0x22, 0x3a, 0x09, 0x31, 0x2e, 0x35, 0x20, 0x7d, 0x0a] strtodPoint v' ∧
      VarC.compare v v' = 0 := by
  have hirrefl : Std.Irrefl (fun a b : Rat => a < b) := ⟨fun _ => Rat.lt_irrefl⟩
  have hlexes : LexesAs [0x7b, 0x22, 0x61, 0x22, 0x3a, 0x31, 0x2e, 0x35, 0x7d]
      [⟨6, 0, 1⟩, ⟨0, 1, 4⟩, ⟨11, 4, 5⟩, ⟨2, 5, 8⟩, ⟨7, 8, 9⟩] := by
    refine ⟨10, ⟨13, 9, 9⟩, 9, ?_, rfl, by decide⟩
    refine .cons (j := 1) rfl (by decide) (.cons (j := 4) rfl (by decide) (.cons (j := 5) rfl (by decide) ?_))
    exact .cons (j := 8) rfl (by decide) (.cons (j := 9) rfl (by decide) (.cons (j := 9) rfl (by decide) .nil))
  have hinserts : Inserts [⟨6, 0, 1⟩, ⟨0, 1, 4⟩, ⟨11, 4, 5⟩, ⟨2, 5, 8⟩, ⟨7, 8, 9⟩] 0
      [0x7b, 0x22, 0x61, 0x22, 0x3a, 0x31, 0x2e, 0x35, 0x7d]
      [0x20, 0x7b, 0x22, 0x61, 0x22, 0x3a, 0x09, 0x31, 0x2e, 0x35, 0x20, 0x7d, 0x0a] := by
    refine .insert rfl (by decide) (.keep (.keep (.keep (.keep (.keep ?_)))))
    refine .insert rfl (by decide) (.keep (.keep (.keep ?_)))
    exact .insert rfl (by decide) (.keep (.insert rfl (by decide) .nil))
  obtain ⟨v, hv⟩ : ∃ v, parseFuel [0x7b, 0x22, 0x61, 0x22, 0x3a, 0x31, 0x2e, 0x35, 0x7d] strtodPoint 40 = some (.ok v) :=
    ⟨_, rfl⟩
  refine (layout_irrelevant strtodPoint_reads ⟨_, hlexes, hinserts⟩ (by decide)).2 ?_
  intro e he
  cases (Fails.unique hv).mp he

end Ccljson
end Cclib
