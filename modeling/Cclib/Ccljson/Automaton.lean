import Cclib.Lib.Lr
import Cclib.Ccljson.Grammar

/-!
# `Ccljson.Automaton` — the tables agree with the rules

The two generated tables and the lists of rule heads and lengths, read as an LR automaton
(`Lib.Lr`). Everything the proofs about the parser use of the tables is stated here, and checked by
running over the tables:

- `reductions_read`: a state that reduces is only entered by paths that end with the body of its rule,
  and the state uncovered has a goto on the head (soundness: no underflow, no blank goto).
- `expand`: where a nonterminal is expected, so is the body of each of its rules, and where the parser
  goes on after the nonterminal it reduces after the body (completeness).
- `ranking`: reductions do not go in circles.
-/

namespace Cclib
namespace Ccljson

/-- The edges of the automaton: the shifts and gotos of the table. -/
def lalrEdge (state sym : Nat) : Option Nat :=
  if state < jsonLalrStateCnt ∧ sym < cJsonTerminalPlusNonterminalCnt ∧
      lalrCell state sym < cJsonLalrTableReduceBase then
    some (lalrCell state sym)
  else none

theorem lalrEdge_eq_some {p x q : Nat} : lalrEdge p x = some q ↔
    p < jsonLalrStateCnt ∧ x < cJsonTerminalPlusNonterminalCnt ∧ lalrCell p x = q ∧
      q < cJsonLalrTableReduceBase := by
  unfold lalrEdge
  split
  · rename_i h
    constructor
    · intro heq
      cases heq
      exact ⟨h.1, h.2.1, rfl, h.2.2⟩
    · rintro ⟨-, -, rfl, -⟩
      rfl
  · rename_i h
    constructor
    · intro heq
      cases heq
    · rintro ⟨hp, hx, rfl, hq⟩
      exact absurd ⟨hp, hx, hq⟩ h

/-- **The automaton of the tables.** -/
def jsonLr : Lr.Automaton where
  edge := lalrEdge
  access := access
  before := before
  edge_enters h := by
    obtain ⟨hp, hx, rfl, hq⟩ := lalrEdge_eq_some.mp h
    exact (lalr_edges hp hx hq).2

/-- An edge of a terminal is a shift. -/
theorem lalrAction_of_edge {p x q : Nat} (h : lalrEdge p x = some q) : lalrAction p x = .shift q := by
  obtain ⟨-, -, hcell, hlt⟩ := lalrEdge_eq_some.mp h
  have hblank : q ≠ cIdxNotExist := fun heq => absurd (heq ▸ hlt) (by decide)
  rw [lalrAction, decodeAction, hcell, if_neg hblank, if_pos hlt]

theorem lalrEdge_lt {p x q : Nat} (h : lalrEdge p x = some q) : q < jsonLalrStateCnt := by
  obtain ⟨hp, hx, rfl, hq⟩ := lalrEdge_eq_some.mp h
  exact (lalr_edges hp hx hq).1

/-- What a stack element says of the symbol it was pushed for: a terminal is in range and its
    positions are the element's. -/
def Node.Tag (n : Node) (e : StackElemC) : Prop :=
  ∀ t, n = .term t → t.term < 14 ∧ e.m_term_start = t.start ∧ e.m_term_end = t.stop

/-- How `m_lalr_stack` is read. -/
def reading : Lr.Reading StackElemC Node where
  state := StackElemC.m_state
  sym := Node.sym
  tag := Node.Tag

/-- The nodes of a parse stack. -/
abbrev Path := Lr.Path jsonLr reading

/-! ## The rules, as symbols -/

/-- The body of a rule. -/
def ruleBody (rule : Nat) : List Nat :=
  [[15], [16, 13], [17, 7], [18], [18, 19], [6], [19, 10, 20], [20], [26, 11, 25], [22, 9], [23],
    [23, 24], [8], [24, 10, 25], [25], [26], [1], [2], [16], [21], [3], [4], [5], [0]].getD rule []

variable {r : Nat} {body : List Node} {head : Node}

/-- The rules reduce the symbols the tables say. -/
theorem Produces.syms (h : Produces r body head) :
    body.map Node.sym = (ruleBody r).reverse ∧ head.sym = ruleHead r ∧ r < 24 := by
  cases h <;> simp_all [Node.sym, ruleBody, ruleHead, jsonRuleHeadIdxs]

theorem Produces.length (h : Produces r body head) : ruleLength r = body.length := by
  cases h <;> rfl

theorem Produces.body_ne_nil (h : Produces r body head) : body ≠ [] := by
  cases h <;> simp

/-- The nodes of a symbol. -/
def Node.Is : Nat → Node → Prop
  | 16, n => ∃ ps, n = .object ps
  | 17, n => ∃ ps, n = .dict ps
  | 18, n => n = .dictBegin
  | 19, n => ∃ ps, n = .pairs ps
  | 20, n => ∃ p, n = .pair p
  | 21, n => ∃ vs, n = .array vs
  | 22, n => ∃ vs, n = .arrayOpen vs
  | 23, n => n = .arrayBegin
  | 24, n => ∃ vs, n = .values vs
  | 25, n => ∃ v, n = .value v
  | 26, n => ∃ t, n = .string t
  | x, n => ∃ t : Token, n = .term t ∧ t.term = x

theorem Node.Tag.is {n : Node} {e : StackElemC} (h : n.Tag e) : n.Is n.sym := by
  cases n with
  | term t =>
      have ht := (h t rfl).1
      simp only [Node.sym]
      unfold Node.Is
      -- a token is none of the nonterminals, whose numbers start at 16
      split <;> first | omega | exact ⟨t, rfl, rfl⟩
  | _ => simp [Node.sym, Node.Is]

theorem is_of_tags {popped : List StackElemC} (h : List.Forall₂ Node.Tag body popped) :
    List.Forall₂ Node.Is (body.map Node.sym) body := by
  induction h with
  | nil => exact .nil
  | cons htag _ ih => exact .cons htag.is ih

/-- Nodes of the symbols of a body can be reduced. -/
theorem produces_of_syms {state rule : Nat} (h : (state, rule) ∈ reductions)
    (hbody : List.Forall₂ Node.Is (ruleBody rule).reverse body) : ∃ head, Produces rule body head := by
  simp only [reductions, List.mem_cons, Prod.mk.injEq, List.not_mem_nil, or_false] at h
  -- a case for each reduction of the tables: the symbols of the body say which nodes they are
  rcases h with ⟨-, rfl⟩ | ⟨-, rfl⟩ | ⟨-, rfl⟩ | ⟨-, rfl⟩ | ⟨-, rfl⟩ | ⟨-, rfl⟩ | ⟨-, rfl⟩ | ⟨-, rfl⟩ |
    ⟨-, rfl⟩ | ⟨-, rfl⟩ | ⟨-, rfl⟩ | ⟨-, rfl⟩ | ⟨-, rfl⟩ | ⟨-, rfl⟩ | ⟨-, rfl⟩ | ⟨-, rfl⟩ | ⟨-, rfl⟩ |
    ⟨-, rfl⟩ | ⟨-, rfl⟩ | ⟨-, rfl⟩ | ⟨-, rfl⟩ | ⟨-, rfl⟩ <;>
    simp only [ruleBody, List.getD_cons_succ, List.getD_cons_zero, List.reverse_cons, List.reverse_nil,
      List.nil_append, List.cons_append, List.forall₂_cons_left_iff, List.forall₂_nil_left_iff,
      Node.Is] at hbody
  · obtain ⟨_, _, rfl, rfl, rfl⟩ := hbody
    exact ⟨_, .dictEmpty⟩
  · obtain ⟨_, _, ⟨_, rfl, ho⟩, rfl, rfl⟩ := hbody
    exact ⟨_, .dictBegin ho⟩
  · obtain ⟨_, _, ⟨_, rfl, hc⟩, ⟨_, _, ⟨_, rfl⟩, rfl, rfl⟩, rfl⟩ := hbody
    exact ⟨_, .object hc⟩
  · obtain ⟨_, _, ⟨_, rfl⟩, ⟨_, _, rfl, rfl, rfl⟩, rfl⟩ := hbody
    exact ⟨_, .dictPairs⟩
  · obtain ⟨_, _, ⟨_, rfl⟩, rfl, rfl⟩ := hbody
    exact ⟨_, .pairsOne⟩
  · obtain ⟨_, _, ⟨_, rfl, ht⟩, rfl, rfl⟩ := hbody
    exact ⟨_, .string ht⟩
  · obtain ⟨_, _, ⟨_, rfl⟩, ⟨_, _, ⟨_, rfl, hc⟩, ⟨_, _, ⟨_, rfl⟩, rfl, rfl⟩, rfl⟩, rfl⟩ := hbody
    exact ⟨_, .pairsMore hc⟩
  · obtain ⟨_, _, ⟨_, rfl⟩, ⟨_, _, ⟨_, rfl, hc⟩, ⟨_, _, ⟨_, rfl⟩, rfl, rfl⟩, rfl⟩, rfl⟩ := hbody
    exact ⟨_, .pair hc⟩
  · obtain ⟨_, _, ⟨_, rfl⟩, rfl, rfl⟩ := hbody
    exact ⟨_, .valueString⟩
  · obtain ⟨_, _, ⟨_, rfl, ht⟩, rfl, rfl⟩ := hbody
    exact ⟨_, .valueInteger ht⟩
  · obtain ⟨_, _, ⟨_, rfl, ht⟩, rfl, rfl⟩ := hbody
    exact ⟨_, .valueFloat ht⟩
  · obtain ⟨_, _, ⟨_, rfl⟩, rfl, rfl⟩ := hbody
    exact ⟨_, .valueObject⟩
  · obtain ⟨_, _, ⟨_, rfl⟩, rfl, rfl⟩ := hbody
    exact ⟨_, .valueArray⟩
  · obtain ⟨_, _, ⟨_, rfl, ht⟩, rfl, rfl⟩ := hbody
    exact ⟨_, .valueTrue ht⟩
  · obtain ⟨_, _, ⟨_, rfl, ht⟩, rfl, rfl⟩ := hbody
    exact ⟨_, .valueFalse ht⟩
  · obtain ⟨_, _, ⟨_, rfl, ht⟩, rfl, rfl⟩ := hbody
    exact ⟨_, .valueNull ht⟩
  · obtain ⟨_, _, rfl, rfl, rfl⟩ := hbody
    exact ⟨_, .arrayEmpty⟩
  · obtain ⟨_, _, ⟨_, rfl, ho⟩, rfl, rfl⟩ := hbody
    exact ⟨_, .arrayBegin ho⟩
  · obtain ⟨_, _, ⟨_, rfl, hc⟩, ⟨_, _, ⟨_, rfl⟩, rfl, rfl⟩, rfl⟩ := hbody
    exact ⟨_, .array hc⟩
  · obtain ⟨_, _, ⟨_, rfl⟩, ⟨_, _, rfl, rfl, rfl⟩, rfl⟩ := hbody
    exact ⟨_, .arrayValues⟩
  · obtain ⟨_, _, ⟨_, rfl⟩, rfl, rfl⟩ := hbody
    exact ⟨_, .valuesOne⟩
  · obtain ⟨_, _, ⟨_, rfl⟩, ⟨_, _, ⟨_, rfl, hc⟩, ⟨_, _, ⟨_, rfl⟩, rfl, rfl⟩, rfl⟩, rfl⟩ := hbody
    exact ⟨_, .valuesMore hc⟩

/-! ## The tables -/

theorem ruleLength_eq {state rule : Nat} (h : (state, rule) ∈ reductions) :
    ruleLength rule = (ruleBody rule).length ∧ 2 ≤ rule ∧ rule < 24 := by
  have hall : ∀ sr ∈ reductions, ruleLength sr.2 = (ruleBody sr.2).length ∧ 2 ≤ sr.2 ∧ sr.2 < 24 := by
    decide
  exact hall _ h

/-- **Reductions pop what they say.** Every path into a reducing state ends with the body of its rule, and
    starts it where there is a goto on the head. -/
theorem reductions_read {state rule : Nat} (h : (state, rule) ∈ reductions) :
    Lr.reads jsonLr (fun p => (lalrEdge p (ruleHead rule)).isSome) (ruleBody rule).reverse state = true := by
  have hall : reductions.all (fun sr => Lr.reads jsonLr
      (fun p => (lalrEdge p (ruleHead sr.2)).isSome) (ruleBody sr.2).reverse sr.1) = true := by
    decide +kernel
  exact List.all_eq_true.mp hall _ h

/-- The cells of a state for the terminals. -/
def lalrRow (state : Nat) : List Nat :=
  (jsonLalrTable.drop (state * cJsonTerminalPlusNonterminalCnt)).take 14

theorem lalrRow_get {state t : Nat} (hs : state < jsonLalrStateCnt) (ht : t < 14) :
    (lalrRow state)[t]? = some (lalrCell state t) := by
  have hlen := length_jsonLalrTable
  simp only [jsonLalrStateCnt, cJsonTerminalPlusNonterminalCnt] at hs hlen
  have hi : state * 27 + t < jsonLalrTable.length := by omega
  rw [lalrRow, List.getElem?_take_of_lt ht, List.getElem?_drop, lalrCell, List.getD_eq_getElem?_getD,
    cJsonTerminalPlusNonterminalCnt, List.getElem?_eq_getElem hi, Option.getD_some]

/-- **Expansion.** Where the head of a rule is expected so is its body; and if the parser goes on with the
    terminal `t` after the head, it reduces by the rule on `t` after the body. -/
theorem expand {p q rule : Nat} (hrule : 2 ≤ rule) (hlt : rule < 24)
    (hedge : lalrEdge p (ruleHead rule) = some q) :
    ∃ q', Lr.walk jsonLr p (ruleBody rule) = some q' ∧
      ∀ t < 14, lalrAction q t ≠ .error → lalrAction q' t = .reduce rule := by
  have hall : ∀ rule < 24, 2 ≤ rule → ∀ q < jsonLalrStateCnt, access q = ruleHead rule →
      ∀ p ∈ before q, (Lr.walk jsonLr p (ruleBody rule)).any (fun q' =>
        decide (q' < jsonLalrStateCnt) && ((lalrRow q).zip (lalrRow q')).all (fun c =>
          decide (decodeAction c.1 ≠ .error → decodeAction c.2 = .reduce rule))) = true := by
    decide +kernel
  obtain ⟨-, haccess, hbefore⟩ := jsonLr.edge_enters hedge
  have hq := lalrEdge_lt hedge
  obtain ⟨q', hwalk, hq'⟩ := (Option.any_eq_true _ _).mp (hall rule hlt hrule q hq haccess p hbefore)
  simp only [Bool.and_eq_true, decide_eq_true_eq, List.all_eq_true] at hq'
  refine ⟨q', hwalk, fun t ht => ?_⟩
  have hzip : ((lalrRow q).zip (lalrRow q'))[t]? = some (lalrCell q t, lalrCell q' t) :=
    List.getElem?_zip_eq_some.mpr ⟨lalrRow_get hq ht, lalrRow_get hq'.1 ht⟩
  exact hq'.2 _ (List.mem_of_getElem? hzip)

/-- How far a symbol is from being the value it is part of. -/
def rank (sym : Nat) : Nat :=
  if sym < 14 then 5
  else [0, 0, 4, 2, 3, 1, 2, 4, 2, 3, 1, 3, 4].getD (sym - 14) 0

/-- **Ranking.** A reduction shortens the stack or lowers the rank of the symbol on top. -/
theorem ranking (h : Produces r body head) {n : Node} {tail : List Node} (hbody : body = n :: tail) :
    rank head.sym < 6 * tail.length + rank n.sym := by
  subst hbody
  cases h <;> simp [rank, Node.sym, *]

end Ccljson
end Cclib
