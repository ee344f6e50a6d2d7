import Cclib.Ccljson.Automaton

/-!
# `Ccljson.Recognise` — the shift/reduce loop recognises the grammar

The correctness of `parseRound` for any source of terminals and any parse actions. `Means` says what is
asked of the two: terminals are in range, and the semantic state is a function `S` of the nodes on the
parse stack, `none` where an action fails.

- **Soundness.** `Holds` is the invariant of the loop: the stack is a path of nodes that derive the
  terminals consumed so far, and the semantic state is the meaning of these nodes. `Holds.reduction` is
  what it says of a reduction, `Holds.next` that a round keeps it, `Holds.accept` what it says at the end.
- **Completeness.** `Spelled.runs`: what nodes derive, the loop turns into these nodes.
- **Termination.** `Holds.weight_lt`: between two retrievals every round lowers the weight of the stack.
-/

namespace Cclib
namespace Ccljson

/-! ## Nodes below a pair or a value of an array -/

/-- Below are the pairs of an object that has been begun. -/
def HasDict : List Node → Prop
  | .dictBegin :: _ => True
  | .pairs _ :: ns | .term _ :: ns => HasDict ns
  | _ => False

/-- Below are the values of an array that has been begun. -/
def HasArray : List Node → Prop
  | .arrayBegin :: _ => True
  | .values _ :: ns | .term _ :: ns => HasArray ns
  | _ => False

/-- Where a node may stand. -/
def Fits : Node → List Node → Prop
  | .pair _, ns | .pairs _, ns => HasDict ns
  | .values _, ns => HasArray ns
  | _, _ => True

/-- In the states of an object's pairs an object has been begun, in those of an array's values an array. -/
def Inside (state : Nat) (ns : List Node) : Prop :=
  (state ∈ [4, 8, 12] → HasDict ns) ∧ (state ∈ [25, 28, 30] → HasArray ns)

variable {stack : List StackElemC} {ns : List Node} {n : Node} {e p : StackElemC}

theorem Inside.push {q q' : Nat} (h : Inside q ns) (hedge : lalrEdge q n.sym = some q')
    (htag : n.Tag e) : Inside q' (n :: ns) := by
  obtain ⟨-, hsym, hmem⟩ := jsonLr.edge_enters hedge
  have his := htag.is
  rw [← (show access q' = n.sym from hsym)] at his
  change q ∈ before q' at hmem
  constructor
  · intro hq'
    simp only [List.mem_cons, List.not_mem_nil, or_false] at hq'
    rcases hq' with rfl | rfl | rfl <;> simp [access, before, Node.Is] at his hmem
    · rw [his]
      trivial
    · obtain ⟨ps, rfl⟩ := his
      exact h.1 (by simp [hmem])
    · obtain ⟨t, rfl, -⟩ := his
      exact h.1 (by simp [hmem])
  · intro hq'
    simp only [List.mem_cons, List.not_mem_nil, or_false] at hq'
    rcases hq' with rfl | rfl | rfl <;> simp [access, before, Node.Is] at his hmem
    · rw [his]
      trivial
    · obtain ⟨vs, rfl⟩ := his
      exact h.2 (by simp [hmem])
    · obtain ⟨t, rfl, -⟩ := his
      exact h.2 (by simp [hmem])

theorem Path.inside (h : Path [.ofState 0] (e :: stack) ns) : Inside e.m_state ns := by
  refine Lr.Path.invariant Inside ⟨?_, ?_⟩ ?_ h
  · simp [reading, StackElemC.ofState]
  · simp [reading, StackElemC.ofState]
  · intro q n e ns hedge htag hq
    exact hq.push hedge htag

/-- A node stands where its symbol leads. -/
theorem Path.fits {q : Nat} (h : Path [.ofState 0] (p :: stack) ns)
    (hedge : lalrEdge p.m_state n.sym = some q) : Fits n ns := by
  have hinside := h.inside
  obtain ⟨-, hsym, hmem⟩ := jsonLr.edge_enters hedge
  have hq := lalrEdge_lt hedge
  change access q = n.sym at hsym
  change p.m_state ∈ before q at hmem
  have hpairs : ∀ q < jsonLalrStateCnt, access q = 20 ∨ access q = 19 →
      ∀ p ∈ before q, p ∈ [4, 8, 12] := by decide
  have hvalues : ∀ q < jsonLalrStateCnt, access q = 24 → ∀ p ∈ before q, p ∈ [25, 28, 30] := by decide
  cases n with
  | pair _ => exact hinside.1 (hpairs q hq (Or.inl hsym) _ hmem)
  | pairs _ => exact hinside.1 (hpairs q hq (Or.inr hsym) _ hmem)
  | values _ => exact hinside.2 (hvalues q hq hsym _ hmem)
  | _ => trivial

/-! ## What the loop is run with -/

variable {ι σ : Type}

/-- Terminals are in range, and the semantic state is the meaning `S` of the nodes on the stack. -/
structure Means (env : LalrEnv ι σ) (S : List Node → Option σ) : Prop where
  next_term {i j : ι} {tok : Token} : env.next i = some (.ok (tok, j)) → tok.term < 14
  term (t : Token) (ns : List Node) : S (.term t :: ns) = S ns
  act {rule : Nat} {body rest : List Node} {head : Node} {top : StackElemC} {sem : σ}
      (hr : Produces rule body head) (hfits : Fits head rest)
      (htag : ∀ n tail, body = n :: tail → n.Tag top) (hsem : S (body ++ rest) = some sem) :
      (env.act rule top sem).toOption = S (head :: rest)
  below {n : Node} {ns : List Node} : S (n :: ns) ≠ none → S ns ≠ none
  parts {rule : Nat} {body rest : List Node} {head : Node} (hr : Produces rule body head) :
      S (head :: rest) ≠ none → S (body ++ rest) ≠ none

variable {env : LalrEnv ι σ} {S : List Node → Option σ} {i₀ : ι} {s s' : LalrState ι σ} {w : List Token}

/-! ## Soundness -/

/-- The loop holds the nodes `ns`, which derive the terminals `w` consumed so far. -/
structure Holds (env : LalrEnv ι σ) (S : List Node → Option σ) (i₀ : ι) (ns : List Node) (w : List Token)
    (s : LalrState ι σ) : Prop where
  path : Path [.ofState 0] s.m_lalr_stack ns
  spelled : Spelled ns w
  supplied : Supplies env.next i₀ (w ++ s.ret_term.toList) s.input
  term_lt : ∀ tok, s.ret_term = some tok → tok.term < 14
  sem : S ns = some s.sem

theorem holds_init {sem : σ} (hS : S [] = some sem) : Holds env S i₀ [] [] (lalrInit i₀ sem) where
  path := .bottom
  spelled := .nil
  supplied := .nil
  term_lt _ h := by cases h
  sem := hS

/-- The states of a path are states of the automaton. -/
theorem Path.state_lt (h : Path [.ofState 0] (e :: stack) ns) : e.m_state < jsonLalrStateCnt := by
  cases h with
  | bottom => decide
  | push _ hedge _ => exact lalrEdge_lt hedge

/-- **A reduction.** Where the loop reduces, the nodes on top are the body of the rule, the body's
    elements are on the stack above at least one more, and the head has a goto there. -/
theorem Holds.reduction (h : Holds env S i₀ ns w s) {tok : Token} {top : StackElemC} {rule : Nat}
    (htok : s.ret_term = some tok) (hstack : s.m_lalr_stack = top :: stack)
    (hact : lalrAction top.m_state tok.term = .reduce rule) :
    ∃ body head rest p below q, ns = body ++ rest ∧ Produces rule body head ∧ Fits head rest ∧
      (∀ n tail, body = n :: tail → n.Tag top) ∧
      s.m_lalr_stack.drop (ruleLength rule) = p :: below ∧ Path [.ofState 0] (p :: below) rest ∧
      lalrEdge p.m_state (ruleHead rule) = some q := by
  have hpath := h.path
  rw [hstack] at hpath ⊢
  have hmem := lalr_reductions hpath.state_lt (h.term_lt tok htok) hact
  obtain ⟨body, rest, popped, p, below, rfl, hpopped, hsyms, htags, hrest, hgood⟩ :=
    hpath.pop rfl (reductions_read hmem)
  obtain ⟨q, hq⟩ := Option.isSome_iff_exists.mp hgood
  have his : List.Forall₂ Node.Is (ruleBody rule).reverse body := hsyms ▸ is_of_tags htags
  obtain ⟨head, hr⟩ := produces_of_syms hmem his
  have hlen : ruleLength rule = popped.length := by
    have hbody : body.length = (body.map Node.sym).length := (List.length_map _).symm
    rw [(ruleLength_eq hmem).1, ← htags.length_eq, hbody, (Produces.syms hr).1, List.length_reverse]
  refine ⟨body, head, rest, p, below, q, rfl, hr, ?_, ?_, ?_, hrest, hq⟩
  · exact Path.fits hrest (by rw [(Produces.syms hr).2.1]; exact hq)
  · rintro n tail rfl
    cases htags with
    | cons htag _ =>
        cases hpopped
        exact htag
  · rw [hpopped, hlen, List.drop_left]

/-- Retrieving a terminal keeps the invariant. -/
theorem Holds.retrieve (hS : Means env S) (h : Holds env S i₀ ns w s) (htok : s.ret_term = none)
    {tok : Token} {input : ι} (hnext : env.next s.input = some (.ok (tok, input))) :
    Holds env S i₀ ns w
      { s with input := input, ret_term := if tok.term = 12 then none else some tok } where
  path := h.path
  spelled := h.spelled
  supplied := by
    have hsupplied := h.supplied
    simp only [htok, Option.toList_none, List.append_nil] at hsupplied
    have := hsupplied.snoc hnext
    split at this <;> simp_all
  term_lt tok' htok' := by
    split at htok'
    · cases htok'
    · cases htok'
      exact hS.next_term hnext
  sem := h.sem

/-- A shift keeps the invariant. -/
theorem Holds.shift (hS : Means env S) (h : Holds env S i₀ ns w s) {tok : Token} {top : StackElemC}
    {state : Nat} (htok : s.ret_term = some tok) (hstack : s.m_lalr_stack = top :: stack)
    (hact : lalrAction top.m_state tok.term = .shift state) :
    Holds env S i₀ (.term tok :: ns) (w ++ [tok]) { s with
      ret_term := none, m_lalr_stack := ⟨state, tok.start, tok.stop⟩ :: top :: stack } where
  path := by
    have hpath := h.path
    rw [hstack] at hpath
    have hterm := h.term_lt tok htok
    obtain ⟨hcell, hlt⟩ := lalrCell_of_shift hact
    refine .push hpath ?_ ?_
    · have hterm : tok.term < cJsonTerminalPlusNonterminalCnt := Nat.lt_trans hterm (by decide)
      exact lalrEdge_eq_some.mpr ⟨hpath.state_lt, hterm, hcell, hlt⟩
    · rintro t ⟨rfl⟩
      exact ⟨hterm, rfl, rfl⟩
  spelled := h.spelled.term
  supplied := by
    have hsupplied := h.supplied
    simpa [htok] using hsupplied
  term_lt _ htok' := by cases htok'
  sem := by rw [hS.term, h.sem]

/-- A reduction whose action succeeds keeps the invariant. -/
theorem Holds.reduce (hS : Means env S) {body rest : List Node} {head : Node} {rule q : Nat}
    {top : StackElemC} {below : List StackElemC} {sem : σ} (h : Holds env S i₀ (body ++ rest) w s)
    (hr : Produces rule body head) (hfits : Fits head rest)
    (htag : ∀ n tail, body = n :: tail → n.Tag top) (hrest : Path [.ofState 0] (p :: below) rest)
    (hedge : lalrEdge p.m_state (ruleHead rule) = some q) (hact : env.act rule top s.sem = .ok sem) :
    Holds env S i₀ (head :: rest) w { s with
      m_lalr_stack := .ofState (lalrCell p.m_state (ruleHead rule)) :: p :: below, sem := sem } where
  path := by
    obtain ⟨-, hsym, -⟩ := hr.syms
    obtain ⟨-, -, hcell, -⟩ := lalrEdge_eq_some.mp hedge
    refine .push hrest ?_ ?_
    · change lalrEdge p.m_state head.sym = some (lalrCell p.m_state (ruleHead rule))
      rw [hsym, hcell]
      exact hedge
    · rintro t rfl
      cases hr
  spelled := h.spelled.reduce hr
  supplied := h.supplied
  term_lt := h.term_lt
  sem := by rw [← hS.act hr hfits htag h.sem, hact, Except.toOption]

/-- **A round keeps the invariant.** -/
theorem Holds.next (hS : Means env S) (h : Holds env S i₀ ns w s)
    (hnext : Loop.Next (parseRound env) s s') : ∃ ns' w', Holds env S i₀ ns' w' s' := by
  cases round_of_next hnext with
  | retrieve htok hretrieve => exact ⟨ns, w, h.retrieve hS htok hretrieve⟩
  | shift htok hstack hact _ => exact ⟨_, _, h.shift hS htok hstack hact⟩
  | reduce htok hstack hact hsem hdrop =>
      obtain ⟨body, head, rest, p, below, q, rfl, hr, hfits, htag, hdrop', hrest, hedge⟩ :=
        h.reduction htok hstack hact
      obtain ⟨rfl, rfl⟩ := List.cons.inj (hdrop.symm.trans hdrop')
      exact ⟨_, _, h.reduce hS hr hfits htag hrest hedge hsem⟩

/-- **Every state the loop reaches satisfies the invariant.** -/
theorem holds_of_reaches {sem : σ} (hS : Means env S) (hinit : S [] = some sem)
    (h : Loop.Reaches (parseRound env) (lalrInit i₀ sem) s) : ∃ ns w, Holds env S i₀ ns w s :=
  h.invariant (fun s => ∃ ns w, Holds env S i₀ ns w s)
    (fun _ _ ⟨_, _, hs⟩ hnext => hs.next hS hnext) ⟨[], [], holds_init hinit⟩

/-- **The end of the loop.** The loop breaks holding one object. -/
theorem Holds.accept (h : Holds env S i₀ ns w s) {i : ι} {sem : σ}
    (hdone : parseRound env s = some (.inr (.ok (i, sem)))) :
    ∃ tok ps, s.ret_term = some tok ∧ tok.term = 13 ∧ ns = [.object ps] ∧ i = s.input ∧ sem = s.sem := by
  obtain ⟨tok, top, stack, state, htok, hstack, hact, hend, hr⟩ := accept_of_done hdone
  obtain ⟨rfl, rfl⟩ := Prod.mk.inj hr
  have hpath := h.path
  rw [hstack] at hpath
  rw [hend] at hact
  -- one state alone shifts the end of the input, and it lies right above the bottom
  have htop := state_of_accept hpath.state_lt hact
  cases hpath with
  | bottom => cases htop
  | @push _ p n below ns hbelow hedge htag =>
      obtain ⟨-, hsym, hmem⟩ := jsonLr.edge_enters hedge
      change access top.m_state = n.sym at hsym
      change p.m_state ∈ before top.m_state at hmem
      rw [htop] at hsym hmem
      obtain rfl := hbelow.eq_nil (List.mem_singleton.mp hmem)
      have his := Node.Tag.is htag
      rw [← (show 16 = n.sym from hsym)] at his
      obtain ⟨ps, rfl⟩ := his
      exact ⟨tok, ps, htok, hend, rfl, rfl, rfl⟩

/-- **Soundness.** What the loop accepts is an object followed by the end of the input, and the semantic
    state it leaves is the meaning of the object. -/
theorem accepted_spelled {sem sem' : σ} {i : ι} (hS : Means env S) (hinit : S [] = some sem)
    (h : Loop.Returns (parseRound env) (lalrInit i₀ sem) (.ok (i, sem'))) :
    ∃ w tok ps, Supplies env.next i₀ (w ++ [tok]) i ∧ tok.term = 13 ∧ Spelled [.object ps] w ∧
      S [.object ps] = some sem' := by
  obtain ⟨s, hreach, hdone⟩ := h.exit
  obtain ⟨ns, w, hs⟩ := holds_of_reaches hS hinit hreach
  obtain ⟨tok, ps, htok, hend, rfl, rfl, rfl⟩ := hs.accept hdone
  have hsupplied := hs.supplied
  rw [htok] at hsupplied
  exact ⟨w, tok, ps, hsupplied, hend, hs.spelled, hs.sem⟩

/-! ## Completeness -/

/-- The end of the input stays outside of what nodes derive. -/
theorem Spelled.terms_lt (h : Spelled ns w) (hns : ∀ t, .term t ∈ ns → t.term < 13) :
    ∀ t ∈ w, t.term < 13 := by
  induction h with
  | nil => simp
  | term _ ih =>
      simp only [List.mem_append, List.mem_singleton]
      rintro t (ht | rfl)
      · exact ih (fun t ht => hns t (List.mem_cons_of_mem _ ht)) t ht
      · exact hns t List.mem_cons_self
  | rule hr _ _ ihbody ih =>
      simp only [List.mem_append]
      rintro t (ht | ht)
      · exact ih (fun t ht => hns t (List.mem_cons_of_mem _ ht)) t ht
      · refine ihbody (fun t ht => ?_) t ht
        cases hr <;> simp_all

/-- What nodes derive starts with a terminal that may come where they may. -/
theorem Spelled.first (h : Spelled ns w) {q q' : Nat}
    (hwalk : Lr.walk jsonLr q (ns.reverse.map Node.sym) = some q') {t : Token} {w' : List Token}
    (hw : w = t :: w') : lalrAction q t.term ≠ .error := by
  induction h generalizing q q' w' with
  | nil => cases hw
  | @term t' ns w hns ih =>
      rw [List.reverse_cons, List.map_append] at hwalk
      obtain ⟨p, hp, hedge⟩ := Lr.walk_snoc hwalk
      cases ns with
      | nil =>
          cases hns
          cases hw
          cases hp
          rw [show lalrAction q t.term = .shift q' from lalrAction_of_edge hedge]
          simp
      | cons n ns =>
          obtain ⟨t₁, w₁, rfl⟩ := List.exists_cons_of_ne_nil (hns.ne_nil (by simp))
          cases hw
          exact ih hp rfl
  | @rule r body head ns v w hr hbody hns ihbody ih =>
      rw [List.reverse_cons, List.map_append] at hwalk
      obtain ⟨p, hp, hedge⟩ := Lr.walk_snoc hwalk
      cases ns with
      | nil =>
          cases hns
          cases hp
          -- where the head may come so may its body, by `expand`
          obtain ⟨hsyms, hhead, hlt⟩ := hr.syms
          rw [hhead] at hedge
          obtain ⟨p', hp', -⟩ := expand (by cases hr <;> decide) hlt hedge
          have hbody' : Lr.walk jsonLr q (body.reverse.map Node.sym) = some p' := by
            rw [List.map_reverse, hsyms, List.reverse_reverse]
            exact hp'
          exact ihbody hbody' hw
      | cons n ns =>
          obtain ⟨t₁, w₁, rfl⟩ := List.exists_cons_of_ne_nil (hns.ne_nil (by simp))
          cases hw
          exact ih hp rfl

/-- One round that shifts. -/
theorem next_shift {tok : Token} {top : StackElemC} {state : Nat} {input : ι} {sem : σ}
    (hact : lalrAction top.m_state tok.term = .shift state) (htok : tok.term ≠ 13) :
    Loop.Next (parseRound env) ⟨input, some tok, top :: stack, sem⟩
      ⟨input, none, ⟨state, tok.start, tok.stop⟩ :: top :: stack, sem⟩ := by
  simp [Loop.Next, parseRound, actOn, hact, htok]

/-- One round that reduces. -/
theorem next_reduce {tok : Token} {top : StackElemC} {below : List StackElemC} {rule q : Nat} {input : ι}
    {sem sem' : σ} (hact : lalrAction top.m_state tok.term = .reduce rule)
    (hsem : env.act rule top sem = .ok sem') (hdrop : (top :: stack).drop (ruleLength rule) = p :: below)
    (hedge : lalrEdge p.m_state (ruleHead rule) = some q) :
    Loop.Next (parseRound env) ⟨input, some tok, top :: stack, sem⟩
      ⟨input, some tok, .ofState q :: p :: below, sem'⟩ := by
  obtain ⟨-, -, hcell, -⟩ := lalrEdge_eq_some.mp hedge
  simp [Loop.Next, parseRound, actOn, reduceBy, hact, hsem, hdrop, hcell]

/-- **What nodes derive, the loop turns into the nodes.** Started where the nodes `ns` lead to `q`, with
    what they derive in front of it, the loop arrives in `q` at the first terminal after them, provided
    `q` goes on with that terminal. -/
theorem Spelled.runs (hS : Means env S) (h : Spelled ns w) (hterms : ∀ t ∈ w, t.term < 13)
    {ns₀ : List Node} {sem : σ} (hbase : Path [.ofState 0] (e :: stack) ns₀) (hsem : S ns₀ = some sem)
    (hdef : S (ns ++ ns₀) ≠ none) {q : Nat}
    (hwalk : Lr.walk jsonLr e.m_state (ns.reverse.map Node.sym) = some q) {la t : Token}
    (hla : la.term < 14) (hgo : lalrAction q la.term ≠ .error) {rest toks : List Token} {i k : ι}
    (hw : w ++ la :: rest = t :: toks) (hsup : Supplies env.next i toks k) :
    ∃ j e' stack' sem', Supplies env.next j rest k ∧ Path (e :: stack) (e' :: stack') ns ∧
      e'.m_state = q ∧ S (ns ++ ns₀) = some sem' ∧
      Loop.Reaches (parseRound env) ⟨i, some t, e :: stack, sem⟩ ⟨j, some la, e' :: stack', sem'⟩ := by
  induction h generalizing e stack ns₀ sem q la t rest toks i with
  | nil =>
      cases hw
      cases hwalk
      exact ⟨i, e, stack, sem, hsup, .bottom, rfl, hsem, Relation.ReflTransGen.refl⟩
  | @term t' ns w hns ih =>
      rw [List.reverse_cons, List.map_append] at hwalk
      obtain ⟨q₁, hq₁, hedge⟩ := Lr.walk_snoc hwalk
      have hshift : lalrAction q₁ t'.term = .shift q := lalrAction_of_edge hedge
      have ht' : t'.term < 13 := hterms t' (by simp)
      obtain ⟨j, e₁, stack₁, sem₁, hj, hpath, rfl, hsem₁, hreach⟩ :=
        ih (fun t ht => hterms t (List.mem_append_left _ ht)) hbase hsem (hS.below hdef) hq₁
          (Nat.lt_succ_of_lt ht') (by simp [hshift]) (by simpa using hw) hsup
      obtain ⟨j', -, hj', hretrieve⟩ := hj.reaches (⟨q, t'.start, t'.stop⟩ :: e₁ :: stack₁) sem₁
      refine ⟨j', ⟨q, t'.start, t'.stop⟩, _, sem₁, hj', hpath.push hedge ?_, rfl, ?_, ?_⟩
      · rintro _ ⟨rfl⟩
        exact ⟨Nat.lt_succ_of_lt ht', rfl, rfl⟩
      · rw [List.cons_append, hS.term, hsem₁]
      · exact (hreach.tail (next_shift hshift (Nat.ne_of_lt ht'))).trans hretrieve
  | @rule r body head ns v w hr hbody hns ihbody ih =>
      rw [List.reverse_cons, List.map_append] at hwalk
      obtain ⟨q₁, hq₁, hedge⟩ := Lr.walk_snoc hwalk
      obtain ⟨hsyms, hhead, hlt⟩ := hr.syms
      have hgoto : lalrEdge q₁ (ruleHead r) = some q := hhead ▸ hedge
      obtain ⟨q₂, hq₂, hreduce⟩ := expand (by cases hr <;> decide) hlt hgoto
      have hwalk₂ : Lr.walk jsonLr q₁ (body.reverse.map Node.sym) = some q₂ := by
        rw [List.map_reverse, hsyms, List.reverse_reverse, hq₂]
      have hact := hreduce la.term hla hgo
      obtain ⟨t₁, v, rfl⟩ := List.exists_cons_of_ne_nil (hbody.ne_nil hr.body_ne_nil)
      -- the nodes before the head, up to the first terminal of the body
      obtain ⟨j, e₁, stack₁, sem₁, hj, hpath₁, rfl, hsem₁, hreach₁⟩ :=
        ih (fun t ht => hterms t (List.mem_append_left _ ht)) hbase hsem (hS.below hdef) hq₁
          (Nat.lt_succ_of_lt (hterms t₁ (by simp))) (hbody.first hwalk₂ rfl)
          (show w ++ t₁ :: (v ++ la :: rest) = t :: toks by simpa using hw) hsup
      have hwhole : Path [.ofState 0] (e₁ :: stack₁) (ns ++ ns₀) := hbase.trans hpath₁
      -- the body
      obtain ⟨j', e₂, stack₂, sem₂, hj', hpath₂, rfl, hsem₂, hreach₂⟩ :=
        ihbody (fun t ht => hterms t (List.mem_append_right _ ht)) hwhole hsem₁ (hS.parts hr hdef) hwalk₂
          hla (by simp [hact]) rfl hj
      -- the reduction
      have htag : ∀ n tail, body = n :: tail → n.Tag e₂ := by
        rintro n tail rfl
        cases hpath₂ with
        | push _ _ htag => exact htag
      have hmeans := hS.act hr (hwhole.fits hedge) htag hsem₂
      obtain ⟨sem₃, hsem₃⟩ := Option.ne_none_iff_exists'.mp hdef
      have hok : env.act r e₂ sem₂ = .ok sem₃ := by
        rw [List.cons_append] at hsem₃
        rw [hsem₃] at hmeans
        cases hcase : env.act r e₂ sem₂ with
        | error _ => simp [hcase, Except.toOption] at hmeans
        | ok x =>
            rw [hcase] at hmeans
            rw [Option.some.inj hmeans]
      have hdrop : (e₂ :: stack₂).drop (ruleLength r) = e₁ :: stack₁ := by
        rw [hr.length, hpath₂.drop]
      refine ⟨j', .ofState q, _, sem₃, hj', hpath₁.push hedge ?_, rfl, hsem₃, ?_⟩
      · rintro t rfl
        cases hr
      · exact (hreach₁.trans hreach₂).tail (next_reduce hact hok hdrop hgoto)

/-- **Completeness.** An object followed by the end of the input is accepted, where its actions do not
    fail. -/
theorem accepts_spelled {sem sem' : σ} {k : ι} {tok : Token} {ps : List (Token × JTree)}
    (hS : Means env S) (hinit : S [] = some sem) (h : Spelled [.object ps] w)
    (hsup : Supplies env.next i₀ (w ++ [tok]) k) (hend : tok.term = 13)
    (hsem : S [.object ps] = some sem') :
    ∃ k', Supplies env.next k' [] k ∧
      Loop.Returns (parseRound env) (lalrInit i₀ sem) (.ok (k', sem')) := by
  obtain ⟨t, w, rfl⟩ := List.exists_cons_of_ne_nil (h.ne_nil (by simp))
  obtain ⟨i, -, hi, hstart⟩ := hsup.reaches [.ofState 0] sem
  have hwalk : Lr.walk jsonLr 0 [16] = some 2 := by decide +kernel
  have hshift : lalrAction 2 13 = .shift 6 := by decide +kernel
  obtain ⟨j, e, stack, sem'', hj, -, he, hsem'', hreach⟩ :=
    h.runs hS (h.terms_lt (by simp)) .bottom hinit (by simp [hsem]) hwalk (by omega)
      (by simp [hend, hshift]) (show t :: w ++ tok :: [] = t :: (w ++ [tok]) from rfl) hi
  rw [List.append_nil, hsem] at hsem''
  cases hsem''
  have hdone : parseRound env ⟨j, some tok, e :: stack, sem'⟩ = some (.inr (.ok (j, sem'))) := by
    simp [parseRound, actOn, he, hshift, hend]
  exact ⟨j, hj, (Loop.Reaches.returns_iff (hstart.trans hreach)).mpr (Loop.returns_of_done hdone)⟩

/-! ## Termination -/

/-- The rank of the symbol on top of the stack, and the height of the stack. -/
def weight (stack : List StackElemC) : Nat :=
  6 * stack.length + (stack.head?.elim 0 (fun e => rank (access e.m_state)))

/-- **Reductions end.** Every round that reduces lowers the weight of the stack. -/
theorem Holds.weight_lt (h : Holds env S i₀ ns w s) {tok : Token} {top back : StackElemC} {rule : Nat}
    {below : List StackElemC} (htok : s.ret_term = some tok) (hstack : s.m_lalr_stack = top :: stack)
    (hact : lalrAction top.m_state tok.term = .reduce rule)
    (hdrop : s.m_lalr_stack.drop (ruleLength rule) = back :: below) :
    weight (.ofState (lalrCell back.m_state (ruleHead rule)) :: back :: below) <
      weight s.m_lalr_stack := by
  obtain ⟨body, head, rest, p, below', q, rfl, hr, -, -, hdrop', -, hedge⟩ :=
    h.reduction htok hstack hact
  rw [hdrop] at hdrop'
  cases hdrop'
  obtain ⟨n, tail, rfl⟩ := List.exists_cons_of_ne_nil hr.body_ne_nil
  have hrank := ranking hr rfl
  obtain ⟨-, hhead, -⟩ := hr.syms
  have htop : access top.m_state = n.sym := by
    have hpath := h.path
    rw [hstack] at hpath
    cases hpath with
    | push _ hedge _ => exact (jsonLr.edge_enters hedge).2.1
  have hgoto : access (lalrCell back.m_state (ruleHead rule)) = head.sym := by
    obtain ⟨-, -, hcell, -⟩ := lalrEdge_eq_some.mp hedge
    rw [hhead, hcell]
    exact (jsonLr.edge_enters hedge).2.1
  have hlen := congrArg List.length hdrop
  rw [List.length_drop, hr.length] at hlen
  rw [hstack] at hlen ⊢
  simp only [weight, List.length_cons, List.head?_cons, Option.elim_some, StackElemC.ofState, hgoto,
    htop] at hlen ⊢
  omega

end Ccljson
end Cclib
