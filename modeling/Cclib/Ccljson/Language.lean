import Cclib.Ccljson.Recognise

/-!
# `Ccljson.Language` — the tables implement the grammar

The loop of `parse_source` on a list of terminals, without parse actions. `lalr_recognises`: it stops, it
accepts exactly the words of `jsonGrammar`, and no reduction on the way underflows the stack or finds a
blank goto.
-/

namespace Cclib
namespace Ccljson

variable {ι σ : Type} {env : LalrEnv ι σ} {S : List Node → Option σ} {i₀ : ι} {s : LalrState ι σ}
  {ns : List Node} {w : List Token}

/-! ## Lists of terminals -/

/-- A terminal with no text. -/
def Token.ofTerm (t : Fin 14) : Token := ⟨t.val, 0, 0⟩

@[simp] theorem Token.ofTerm_term (t : Fin 14) : (Token.ofTerm t).term = t.val := rfl

/-- A list of terminals, and no parse actions. -/
def tableEnv : LalrEnv (List (Fin 14)) Unit where
  next
    | [] => none
    | t :: ts => some (.ok (.ofTerm t, ts))
  act _ _ _ := .ok ()

theorem means_tableEnv : Means tableEnv (fun _ => some ()) where
  next_term {i j tok} h := by
    cases i with
    | nil => cases h
    | cons t ts =>
        cases h
        exact t.isLt
  term _ _ := rfl
  act _ _ _ _ := rfl
  below _ := by simp
  parts _ _ := by simp

/-- The terminals a list supplies are its own. -/
theorem supplies_tableEnv {ts us : List (Fin 14)} (h : Supplies tableEnv.next ts w us) :
    ∃ vs, ts = vs ++ us ∧ w.map Token.term = (vs.filter (· ≠ 12)).map Fin.val := by
  induction h with
  | nil => exact ⟨[], rfl, rfl⟩
  | @skip i j k tok toks hnext hskip _ ih =>
      cases i with
      | nil => cases hnext
      | cons t ts =>
          cases hnext
          obtain ⟨vs, rfl, hvs⟩ := ih
          have ht : t = 12 := Fin.ext hskip
          exact ⟨t :: vs, rfl, by simp [ht, hvs]⟩
  | @cons i j k tok toks hnext hskip _ ih =>
      cases i with
      | nil => cases hnext
      | cons t ts =>
          cases hnext
          obtain ⟨vs, rfl, hvs⟩ := ih
          have ht : t ≠ 12 := fun heq => hskip (congrArg Fin.val heq)
          exact ⟨t :: vs, rfl, by simp [ht, hvs]⟩

theorem tableEnv_supplies {ts : List (Fin 14)} (hts : ∀ t ∈ ts, t ≠ 12) :
    Supplies tableEnv.next ts (ts.map Token.ofTerm) [] := by
  induction ts with
  | nil => exact .nil
  | cons t ts ih =>
      refine .cons rfl (fun heq => hts t List.mem_cons_self (Fin.ext heq)) (ih fun u hu => ?_)
      exact hts u (List.mem_cons_of_mem _ hu)

/-- A terminal 13 is still to come. -/
def Pending (s : LalrState (List (Fin 14)) Unit) : Prop :=
  ∃ us, s.ret_term.toList.map Token.term ++ s.input.map Fin.val = us ++ [13]

/-- The retrievals left and, between two of them, the weight of the stack. -/
def tableVariant (s : LalrState (List (Fin 14)) Unit) : Nat × Nat :=
  (2 * s.input.length + s.ret_term.toList.length, weight s.m_lalr_stack)

/-! ## Termination -/

/-- While a terminal 13 is to come, every round returns. -/
theorem Pending.body {s : LalrState (List (Fin 14)) Unit} (h : Pending s) :
    ∃ out, parseRound tableEnv s = some out := by
  unfold parseRound
  split
  · rename_i htok
    obtain ⟨us, hus⟩ := h
    cases hinput : s.input with
    | nil => simp [htok, hinput] at hus
    | cons t ts => exact ⟨_, rfl⟩
  · exact ⟨_, rfl⟩

/-- A list that ends with 13 still does without its first element, if that is another terminal. -/
theorem pending_tail {t : Nat} {ts us : List Nat} (h : t :: ts = us ++ [13]) (ht : t ≠ 13) :
    ∃ us', ts = us' ++ [13] := by
  cases us with
  | nil =>
      cases h
      exact absurd rfl ht
  | cons u us =>
      cases h
      exact ⟨us, rfl⟩

/-- **A round keeps a terminal 13 to come, and gets closer to it.** -/
theorem Pending.next {s s' : LalrState (List (Fin 14)) Unit} {i₀ : List (Fin 14)} (h : Pending s)
    (hs : Holds tableEnv (fun _ => some ()) i₀ ns w s) (hnext : Loop.Next (parseRound tableEnv) s s') :
    Pending s' ∧ Prod.Lex (· < ·) (· < ·) (tableVariant s') (tableVariant s) := by
  obtain ⟨us, hus⟩ := h
  cases round_of_next hnext with
  | @retrieve tok input htok hretrieve =>
      cases hinput : s.input with
      | nil =>
          rw [hinput] at hretrieve
          cases hretrieve
      | cons t ts =>
          rw [hinput] at hretrieve
          cases hretrieve
          -- a terminal is read, and 12 is dropped
          simp only [htok, hinput, Option.toList_none, List.map_nil, List.nil_append, List.map_cons] at hus
          refine ⟨?_, .left _ _ ?_⟩
          · by_cases hskip : t.val = 12
            · obtain ⟨us', hus'⟩ := pending_tail hus (by omega)
              exact ⟨us', by simp [hskip, hus']⟩
            · exact ⟨us, by simp [hskip, hus]⟩
          · by_cases hskip : t.val = 12 <;> simp [htok, hinput, hskip]
            omega
  | shift htok _ _ hend =>
      simp only [htok, Option.toList_some, List.map_cons, List.map_nil, List.cons_append,
        List.nil_append] at hus
      obtain ⟨us', hus'⟩ := pending_tail hus hend
      refine ⟨⟨us', by simpa using hus'⟩, .left _ _ ?_⟩
      simp [htok]
  | reduce htok hstack hact _ hdrop =>
      -- nothing is read, and the stack gets lighter
      exact ⟨⟨us, hus⟩, .right _ (hs.weight_lt htok hstack hact hdrop)⟩

/-- The loop stops on every list of terminals with a 13 in it. -/
theorem table_returns (ts : List (Fin 14)) :
    ∃ r, Loop.Returns (parseRound tableEnv) (lalrInit (ts ++ [13]) ()) r := by
  have hwf : WellFounded (Prod.Lex (· < ·) (· < ·) : Nat × Nat → Nat × Nat → Prop) :=
    WellFounded.prod_lex Nat.lt_wfRel.wf Nat.lt_wfRel.wf
  refine Loop.returns_of_variant hwf tableVariant
    (fun s => Pending s ∧ ∃ ns w, Holds tableEnv (fun _ => some ()) (ts ++ [13]) ns w s)
    (fun s hs => hs.1.body) ?_ ⟨⟨ts.map Fin.val, by simp [lalrInit]⟩, [], [], holds_init rfl⟩
  rintro s s' ⟨hpending, ns, w, hs⟩ hnext
  obtain ⟨hpending', hlt⟩ := hpending.next hs hnext
  exact ⟨⟨hpending', hs.next means_tableEnv hnext⟩, hlt⟩

/-! ## The language -/

/-- Where the loop reduces, the body of the rule lies on the stack above the bottom element, and the
    state uncovered has a goto. -/
def SafeReduction (s : LalrState ι σ) : Prop :=
  ∀ tok top rule, s.ret_term = some tok → s.m_lalr_stack.head? = some top →
    lalrAction top.m_state tok.term = .reduce rule →
    ∃ back below, s.m_lalr_stack.drop (ruleLength rule) = back :: below ∧
      lalrCell back.m_state (ruleHead rule) ≠ cIdxNotExist

theorem Holds.safe (h : Holds env S i₀ ns w s) : SafeReduction s := by
  intro tok top rule htok htop hact
  obtain ⟨stack, hstack⟩ := List.head?_eq_some_iff.mp htop
  obtain ⟨-, -, -, back, below, q, -, -, -, -, hdrop, -, hedge⟩ := h.reduction htok hstack hact
  obtain ⟨-, -, hcell, hlt⟩ := lalrEdge_eq_some.mp hedge
  refine ⟨back, below, hdrop, fun heq => ?_⟩
  rw [← hcell, heq] at hlt
  exact absurd hlt (by decide)

/-- **The tables implement the grammar.** On every list of terminals that ends with terminal 13 the loop
    stops; it accepts the list if and only if the grammar derives it; and no reduction on the way removes
    the bottom of the stack or finds a blank goto. -/
theorem lalr_recognises (ts : List (Fin 14)) (hts : ∀ t ∈ ts, t ≠ 12) :
    (Loop.Returns (parseRound tableEnv) (lalrInit (ts ++ [13]) ()) (.ok ([], ())) ↔
      (ts ++ [13]).map Fin.val ∈ jsonGrammar.language) ∧
    (∃ r, Loop.Returns (parseRound tableEnv) (lalrInit (ts ++ [13]) ()) r) ∧
    ∀ s, Loop.Reaches (parseRound tableEnv) (lalrInit (ts ++ [13]) ()) s → SafeReduction s := by
  have hskip : ∀ t ∈ ts ++ [13], t ≠ 12 := by
    intro t ht
    rcases List.mem_append.mp ht with ht | ht
    · exact hts t ht
    · rw [List.mem_singleton.mp ht]
      decide
  have hfilter : (ts ++ [13]).filter (· ≠ 12) = ts ++ [13] :=
    List.filter_eq_self.mpr (fun t ht => by simpa using hskip t ht)
  refine ⟨⟨fun h => ?_, fun h => ?_⟩, table_returns ts, fun s hs => ?_⟩
  -- what has been accepted is spelled by the tokens before the last
  · obtain ⟨w, tok, ps, hsup, hend, hspelled, -⟩ := accepted_spelled means_tableEnv rfl h
    obtain ⟨vs, hvs, hterms⟩ := supplies_tableEnv hsup
    rw [List.append_nil] at hvs
    subst hvs
    rw [hfilter] at hterms
    rw [← hterms]
    exact mem_language_iff_spelled.mpr ⟨w, tok, ps, rfl, hend, hspelled⟩
  · have hterms : ((ts ++ [13]).map Token.ofTerm).map Token.term = (ts ++ [13]).map Fin.val := by
      rw [List.map_map]
      rfl
    rw [← hterms] at h
    obtain ⟨v, e, ps, heq, hend, hspelled⟩ := mem_language_iff_spelled.mp h
    obtain ⟨k, hk, hreturns⟩ := accepts_spelled means_tableEnv rfl hspelled
      (heq ▸ tableEnv_supplies hskip) hend rfl
    -- what is left over would be skips, and the list has none
    have hnil : k = [] := by
      obtain ⟨w, tok, ps, hsup, -⟩ := accepted_spelled means_tableEnv rfl hreturns
      obtain ⟨vs, hvs, -⟩ := supplies_tableEnv hsup
      obtain ⟨us, hus, hnone⟩ := supplies_tableEnv hk
      rw [List.append_nil] at hus
      subst hus
      refine List.eq_nil_iff_forall_not_mem.mpr (fun t ht => ?_)
      have hmem : t ∈ k.filter (· ≠ 12) := by
        refine List.mem_filter.mpr ⟨ht, ?_⟩
        simpa using hskip t (hvs ▸ List.mem_append_right _ ht)
      rw [List.map_nil, eq_comm, List.map_eq_nil_iff] at hnone
      exact List.not_mem_nil (hnone ▸ hmem)
    exact hnil ▸ hreturns
  · obtain ⟨ns, w, hs⟩ := holds_of_reaches means_tableEnv rfl hs
    exact hs.safe

/-- An object with one pair. -/
theorem lalr_recognises_pair :
    (Loop.Returns (parseRound tableEnv) (lalrInit [6, 0, 11, 1, 7, 13] ()) (.ok ([], ())) ↔
      [6, 0, 11, 1, 7, 13] ∈ jsonGrammar.language) ∧
    (∃ r, Loop.Returns (parseRound tableEnv) (lalrInit [6, 0, 11, 1, 7, 13] ()) r) ∧
    ∀ s, Loop.Reaches (parseRound tableEnv) (lalrInit [6, 0, 11, 1, 7, 13] ()) s → SafeReduction s :=
  lalr_recognises [6, 0, 11, 1, 7] (by decide)

end Ccljson
end Cclib
