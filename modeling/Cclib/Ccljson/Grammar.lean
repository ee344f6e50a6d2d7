import Cclib.Lib.ContextFree
import Cclib.Ccljson.Lalr

/-!
# `Ccljson.Grammar` — the language of the parser

The grammar in two forms.

- `Produces` has one constructor for every rule of the tables that `parse_source` can reduce by, and says
  which piece of the tree a reduction builds from which. `Spelled ns w` derives the tokens `w` from the
  nodes `ns` of a parse stack with these rules; it is what the proofs about the parser induct on.
- `jsonGrammar` is the grammar of the format, a context-free grammar over the numbers of the terminals,
  without the tables' helper symbols.

`mem_language_iff_spelled` says that they agree.
-/

namespace Cclib
namespace Ccljson
open ContextFree

/-! ## Trees -/

/-- The tree of a derivation; leaves keep the token they were read from. -/
inductive JTree where
  | string (t : Token)
  | integer (t : Token)
  | float (t : Token)
  | true_
  | false_
  | null
  | object (ps : List (Token × JTree))
  | array (vs : List JTree)

/-- A symbol of the grammar with what has been parsed of it. -/
inductive Node where
  | term (t : Token)
  | object (ps : List (Token × JTree))
  | dict (ps : List (Token × JTree))
  | dictBegin
  | pairs (ps : List (Token × JTree))
  | pair (p : Token × JTree)
  | array (vs : List JTree)
  | arrayOpen (vs : List JTree)
  | arrayBegin
  | values (vs : List JTree)
  | value (v : JTree)
  | string (t : Token)

/-- The column of the table. -/
def Node.sym : Node → Nat
  | .term t => t.term
  | .object _ => 16
  | .dict _ => 17
  | .dictBegin => 18
  | .pairs _ => 19
  | .pair _ => 20
  | .array _ => 21
  | .arrayOpen _ => 22
  | .arrayBegin => 23
  | .values _ => 24
  | .value _ => 25
  | .string _ => 26

/-- The rules of the tables: reducing by `rule` replaces the nodes `body`, last first, by `head`. -/
inductive Produces : Nat → List Node → Node → Prop
  | object {ps : List (Token × JTree)} {c : Token} (hc : c.term = 7) :
      Produces 2 [.term c, .dict ps] (.object ps)
  | dictEmpty : Produces 3 [.dictBegin] (.dict [])
  | dictPairs {ps : List (Token × JTree)} : Produces 4 [.pairs ps, .dictBegin] (.dict ps)
  | dictBegin {o : Token} (ho : o.term = 6) : Produces 5 [.term o] .dictBegin
  | pairsMore {ps : List (Token × JTree)} {p : Token × JTree} {c : Token} (hc : c.term = 10) :
      Produces 6 [.pair p, .term c, .pairs ps] (.pairs (ps ++ [p]))
  | pairsOne {p : Token × JTree} : Produces 7 [.pair p] (.pairs [p])
  | pair {k c : Token} {v : JTree} (hc : c.term = 11) :
      Produces 8 [.value v, .term c, .string k] (.pair (k, v))
  | array {vs : List JTree} {c : Token} (hc : c.term = 9) :
      Produces 9 [.term c, .arrayOpen vs] (.array vs)
  | arrayEmpty : Produces 10 [.arrayBegin] (.arrayOpen [])
  | arrayValues {vs : List JTree} : Produces 11 [.values vs, .arrayBegin] (.arrayOpen vs)
  | arrayBegin {o : Token} (ho : o.term = 8) : Produces 12 [.term o] .arrayBegin
  | valuesMore {vs : List JTree} {v : JTree} {c : Token} (hc : c.term = 10) :
      Produces 13 [.value v, .term c, .values vs] (.values (vs ++ [v]))
  | valuesOne {v : JTree} : Produces 14 [.value v] (.values [v])
  | valueString {t : Token} : Produces 15 [.string t] (.value (.string t))
  | valueInteger {t : Token} (ht : t.term = 1) : Produces 16 [.term t] (.value (.integer t))
  | valueFloat {t : Token} (ht : t.term = 2) : Produces 17 [.term t] (.value (.float t))
  | valueObject {ps : List (Token × JTree)} : Produces 18 [.object ps] (.value (.object ps))
  | valueArray {vs : List JTree} : Produces 19 [.array vs] (.value (.array vs))
  | valueTrue {t : Token} (ht : t.term = 3) : Produces 20 [.term t] (.value .true_)
  | valueFalse {t : Token} (ht : t.term = 4) : Produces 21 [.term t] (.value .false_)
  | valueNull {t : Token} (ht : t.term = 5) : Produces 22 [.term t] (.value .null)
  | string {t : Token} (ht : t.term = 0) : Produces 23 [.term t] (.string t)

/-- The nodes `ns`, last first, derive the tokens `w`. -/
inductive Spelled : List Node → List Token → Prop
  | nil : Spelled [] []
  | term {t : Token} {ns : List Node} {w : List Token} (h : Spelled ns w) :
      Spelled (.term t :: ns) (w ++ [t])
  | rule {r : Nat} {body : List Node} {head : Node} {ns : List Node} {v w : List Token}
      (hr : Produces r body head) (hbody : Spelled body v) (h : Spelled ns w) :
      Spelled (head :: ns) (w ++ v)

variable {r : Nat} {body ns ns' : List Node} {head : Node} {v w : List Token}

theorem Spelled.append (h : Spelled ns w) (h' : Spelled ns' v) : Spelled (ns' ++ ns) (w ++ v) := by
  induction h' with
  | nil => simpa using h
  | term _ ih =>
      rw [← List.append_assoc]
      exact .term ih
  | rule hr hbody _ _ ih =>
      rw [← List.append_assoc]
      exact .rule hr hbody ih

theorem Spelled.split (h : Spelled (ns' ++ ns) w) :
    ∃ u v, w = u ++ v ∧ Spelled ns u ∧ Spelled ns' v := by
  induction ns' generalizing w with
  | nil => exact ⟨w, [], (List.append_nil w).symm, h, .nil⟩
  | cons n ns' ih =>
      rw [List.cons_append] at h
      cases h with
      | term h =>
          obtain ⟨u, v, rfl, hu, hv⟩ := ih h
          exact ⟨u, v ++ [_], List.append_assoc .., hu, .term hv⟩
      | rule hr hbody h =>
          obtain ⟨u, v, rfl, hu, hv⟩ := ih h
          exact ⟨u, v ++ _, List.append_assoc .., hu, .rule hr hbody hv⟩

/-- A reduction does not change what the stack derives. -/
theorem Spelled.reduce (hr : Produces r body head) (h : Spelled (body ++ ns) w) :
    Spelled (head :: ns) w := by
  obtain ⟨u, v, rfl, hu, hv⟩ := h.split
  exact .rule hr hv hu

/-- A reduction of the whole stack. -/
theorem Spelled.reduceAll (hr : Produces r body head) (h : Spelled body w) : Spelled [head] w :=
  Spelled.reduce hr (by rwa [List.append_nil])

/-- A reduction below the top. -/
theorem Spelled.reduceBelow (ns' ns : List Node) (hr : Produces r body head)
    (h : Spelled (ns' ++ (body ++ ns)) w) : Spelled (ns' ++ head :: ns) w := by
  obtain ⟨u, v, rfl, hu, hv⟩ := h.split
  exact hu.reduce hr |>.append hv

/-- No node derives nothing. -/
theorem Spelled.ne_nil (h : Spelled ns w) (hns : ns ≠ []) : w ≠ [] := by
  induction h with
  | nil => exact absurd rfl hns
  | term _ => simp
  | rule hr _ _ ihbody _ =>
      have hbody := ihbody (by cases hr <;> simp)
      simp [hbody]

/-! ## The context-free grammar -/

/-- The nonterminals of the format. -/
inductive Nonterminal where
  | start
  | object
  | pairs
  | pair
  | array
  | values
  | value
deriving DecidableEq, Repr

section

private abbrev tm (t : Nat) : Symbol Nat Nonterminal := .terminal t
private abbrev nt (n : Nonterminal) : Symbol Nat Nonterminal := .nonterminal n

/-- The productions of the format. -/
def jsonRules : List (ContextFreeRule Nat Nonterminal) :=
  [ ⟨.start, [nt .object, tm 13]⟩,
    ⟨.object, [tm 6, tm 7]⟩,
    ⟨.object, [tm 6, nt .pairs, tm 7]⟩,
    ⟨.pairs, [nt .pair]⟩,
    ⟨.pairs, [nt .pairs, tm 10, nt .pair]⟩,
    ⟨.pair, [tm 0, tm 11, nt .value]⟩,
    ⟨.array, [tm 8, tm 9]⟩,
    ⟨.array, [tm 8, nt .values, tm 9]⟩,
    ⟨.values, [nt .value]⟩,
    ⟨.values, [nt .values, tm 10, nt .value]⟩,
    ⟨.value, [tm 0]⟩,
    ⟨.value, [tm 1]⟩,
    ⟨.value, [tm 2]⟩,
    ⟨.value, [nt .object]⟩,
    ⟨.value, [nt .array]⟩,
    ⟨.value, [tm 3]⟩,
    ⟨.value, [tm 4]⟩,
    ⟨.value, [tm 5]⟩ ]

/-- **The grammar of the format**, over the numbers of the terminals. -/
def jsonGrammar : ContextFreeGrammar Nat where
  NT := Nonterminal
  initial := .start
  rules := jsonRules.toFinset

/-! ## Agreement -/

variable {u : List (Symbol Nat Nonterminal)} {x y : List Nat}

/-- A rule of the grammar derives what its body derives. -/
theorem yields_rule {a : Nonterminal} (h : ⟨a, u⟩ ∈ jsonRules) (hu : Yields jsonGrammar u x) :
    Yields jsonGrammar [nt a] x := by
  have hr : (⟨a, u⟩ : ContextFreeRule Nat Nonterminal) ∈ jsonGrammar.rules := List.mem_toFinset.mpr h
  have := Yields.nonterminal hr hu .nil
  rwa [List.append_nil] at this

/-- A terminal in front of a derived word. -/
theorem yields_cons (t : Nat) (h : Yields jsonGrammar u x) : Yields jsonGrammar (tm t :: u) (t :: x) :=
  .terminal h

/-- What the tokens of a node are in the grammar of the format. -/
def Node.Word : Node → List Nat → Prop
  | .term t, x => x = [t.term]
  | .object _, x => Yields jsonGrammar [nt .object] x
  | .dict ps, x => (ps = [] ∧ x = [6]) ∨ ∃ y, x = 6 :: y ∧ Yields jsonGrammar [nt .pairs] y
  | .dictBegin, x => x = [6]
  | .pairs _, x => Yields jsonGrammar [nt .pairs] x
  | .pair _, x => Yields jsonGrammar [nt .pair] x
  | .array _, x => Yields jsonGrammar [nt .array] x
  | .arrayOpen vs, x => (vs = [] ∧ x = [8]) ∨ ∃ y, x = 8 :: y ∧ Yields jsonGrammar [nt .values] y
  | .arrayBegin, x => x = [8]
  | .values _, x => Yields jsonGrammar [nt .values] x
  | .value _, x => Yields jsonGrammar [nt .value] x
  | .string _, x => x = [0]

/-- The words of the nodes of a stack, one after the other. -/
def StackWord : List Node → List Nat → Prop
  | [], x => x = []
  | n :: ns, x => ∃ y z, x = y ++ z ∧ StackWord ns y ∧ n.Word z

/-- Reducing keeps the word. -/
theorem Produces.word (hr : Produces r body head) (h : StackWord body x) : head.Word x := by
  cases hr with
  | object hc =>
      obtain ⟨_, _, rfl, ⟨_, _, rfl, rfl, hdict⟩, rfl⟩ := h
      simp only [hc, List.nil_append]
      -- the opening brace alone, or pairs behind it
      rcases hdict with ⟨-, rfl⟩ | ⟨y, rfl, hy⟩
      · exact yields_rule (by decide) (yields_terminals [6, 7])
      · exact yields_rule (u := [tm 6, nt .pairs, tm 7]) (by decide)
          (yields_cons 6 (hy.append (yields_terminals [7])))
  | dictEmpty =>
      obtain ⟨_, _, rfl, rfl, rfl⟩ := h
      exact Or.inl ⟨rfl, rfl⟩
  | dictPairs =>
      obtain ⟨_, z, rfl, ⟨_, _, rfl, rfl, rfl⟩, hz⟩ := h
      exact Or.inr ⟨z, rfl, hz⟩
  | dictBegin ho =>
      obtain ⟨_, _, rfl, rfl, rfl⟩ := h
      simp [Node.Word, ho]
  | pairsMore hc =>
      obtain ⟨_, z, rfl, ⟨_, _, rfl, ⟨_, y, rfl, rfl, hy⟩, rfl⟩, hz⟩ := h
      simp only [hc, List.nil_append, List.append_assoc]
      exact yields_rule (u := [nt .pairs, tm 10, nt .pair]) (by decide) (hy.append (yields_cons 10 hz))
  | pairsOne =>
      obtain ⟨_, z, rfl, rfl, hz⟩ := h
      exact yields_rule (by decide) hz
  | pair hc =>
      obtain ⟨_, z, rfl, ⟨_, _, rfl, ⟨_, _, rfl, rfl, rfl⟩, rfl⟩, hz⟩ := h
      simp only [hc, List.nil_append, List.append_assoc]
      exact yields_rule (u := [tm 0, tm 11, nt .value]) (by decide) (yields_cons 0 (yields_cons 11 hz))
  | array hc =>
      obtain ⟨_, _, rfl, ⟨_, _, rfl, rfl, hopen⟩, rfl⟩ := h
      simp only [hc, List.nil_append]
      -- the opening bracket alone, or values behind it
      rcases hopen with ⟨-, rfl⟩ | ⟨y, rfl, hy⟩
      · exact yields_rule (by decide) (yields_terminals [8, 9])
      · exact yields_rule (u := [tm 8, nt .values, tm 9]) (by decide)
          (yields_cons 8 (hy.append (yields_terminals [9])))
  | arrayEmpty =>
      obtain ⟨_, _, rfl, rfl, rfl⟩ := h
      exact Or.inl ⟨rfl, rfl⟩
  | arrayValues =>
      obtain ⟨_, z, rfl, ⟨_, _, rfl, rfl, rfl⟩, hz⟩ := h
      exact Or.inr ⟨z, rfl, hz⟩
  | arrayBegin ho =>
      obtain ⟨_, _, rfl, rfl, rfl⟩ := h
      simp [Node.Word, ho]
  | valuesMore hc =>
      obtain ⟨_, z, rfl, ⟨_, _, rfl, ⟨_, y, rfl, rfl, hy⟩, rfl⟩, hz⟩ := h
      simp only [hc, List.nil_append, List.append_assoc]
      exact yields_rule (u := [nt .values, tm 10, nt .value]) (by decide)
        (hy.append (yields_cons 10 hz))
  | valuesOne =>
      obtain ⟨_, z, rfl, rfl, hz⟩ := h
      exact yields_rule (by decide) hz
  | valueString =>
      obtain ⟨_, _, rfl, rfl, rfl⟩ := h
      exact yields_rule (by decide) (yields_terminals [0])
  | valueObject | valueArray =>
      obtain ⟨_, z, rfl, rfl, hz⟩ := h
      exact yields_rule (by decide) hz
  | valueInteger ht | valueFloat ht | valueTrue ht | valueFalse ht | valueNull ht =>
      obtain ⟨_, _, rfl, rfl, rfl⟩ := h
      simp only [ht, List.nil_append]
      exact yields_rule (by decide) (yields_terminals [_])
  | string ht =>
      obtain ⟨_, _, rfl, rfl, rfl⟩ := h
      simp [Node.Word, ht]

/-- The tokens of a stack, in the grammar of the format. -/
theorem Spelled.word (h : Spelled ns w) : StackWord ns (w.map Token.term) := by
  induction h with
  | nil => rfl
  | term _ ih => exact ⟨_, _, List.map_append, ih, rfl⟩
  | rule hr _ _ ihbody ih => exact ⟨_, _, List.map_append, ih, hr.word ihbody⟩

/-- The node is one of the symbol. -/
def Node.Matches : Symbol Nat Nonterminal → Node → Prop
  | .terminal t, n => ∃ tok : Token, n = .term tok ∧ tok.term = t
  | .nonterminal .start, _ => False
  | .nonterminal .object, n => ∃ ps, n = .object ps
  | .nonterminal .pairs, n => ∃ ps, n = .pairs ps
  | .nonterminal .pair, n => ∃ p, n = .pair p
  | .nonterminal .array, n => ∃ vs, n = .array vs
  | .nonterminal .values, n => ∃ vs, n = .values vs
  | .nonterminal .value, n => ∃ v, n = .value v

/-- A rule of the grammar is a reduction, or a few, of the tables. -/
theorem spelled_of_rule {a : Nonterminal} {ms : List Node} (h : ⟨a, u⟩ ∈ jsonRules) (ha : a ≠ .start)
    (hm : List.Forall₂ Node.Matches u ms) (hs : Spelled ms.reverse v) :
    ∃ n, Node.Matches (nt a) n ∧ Spelled [n] v := by
  simp only [jsonRules, List.mem_cons, List.not_mem_nil, or_false, ContextFreeRule.mk.injEq] at h
  -- a case for each rule, in the order of `jsonRules`; the tables reduce an opening bracket of its own
  rcases h with ⟨rfl, rfl⟩ | ⟨rfl, rfl⟩ | ⟨rfl, rfl⟩ | ⟨rfl, rfl⟩ | ⟨rfl, rfl⟩ | ⟨rfl, rfl⟩ | ⟨rfl, rfl⟩ |
    ⟨rfl, rfl⟩ | ⟨rfl, rfl⟩ | ⟨rfl, rfl⟩ | ⟨rfl, rfl⟩ | ⟨rfl, rfl⟩ | ⟨rfl, rfl⟩ | ⟨rfl, rfl⟩ | ⟨rfl, rfl⟩ |
    ⟨rfl, rfl⟩ | ⟨rfl, rfl⟩ | ⟨rfl, rfl⟩ <;>
    simp only [List.forall₂_cons_left_iff, List.forall₂_nil_left_iff, Node.Matches] at hm
  · exact absurd rfl ha
  · obtain ⟨_, _, ⟨o, rfl, ho⟩, ⟨_, _, ⟨c, rfl, hc⟩, rfl, rfl⟩, rfl⟩ := hm
    have hbegin := Spelled.reduceBelow [.term c] [] (.dictBegin ho) hs
    have hdict := Spelled.reduceBelow [.term c] [] .dictEmpty hbegin
    exact ⟨_, ⟨[], rfl⟩, Spelled.reduce (.object hc) hdict⟩
  · obtain ⟨_, _, ⟨o, rfl, ho⟩, ⟨_, _, ⟨ps, rfl⟩, ⟨_, _, ⟨c, rfl, hc⟩, rfl, rfl⟩, rfl⟩, rfl⟩ := hm
    have hbegin := Spelled.reduceBelow [.term c, .pairs ps] [] (.dictBegin ho) hs
    have hdict := Spelled.reduceBelow [.term c] [] .dictPairs hbegin
    exact ⟨_, ⟨ps, rfl⟩, Spelled.reduce (.object hc) hdict⟩
  · obtain ⟨_, _, ⟨p, rfl⟩, rfl, rfl⟩ := hm
    exact ⟨_, ⟨[p], rfl⟩, Spelled.reduce .pairsOne hs⟩
  · obtain ⟨_, _, ⟨ps, rfl⟩, ⟨_, _, ⟨c, rfl, hc⟩, ⟨_, _, ⟨p, rfl⟩, rfl, rfl⟩, rfl⟩, rfl⟩ := hm
    exact ⟨_, ⟨_, rfl⟩, Spelled.reduce (.pairsMore hc) hs⟩
  · obtain ⟨_, _, ⟨k, rfl, hk⟩, ⟨_, _, ⟨c, rfl, hc⟩, ⟨_, _, ⟨x, rfl⟩, rfl, rfl⟩, rfl⟩, rfl⟩ := hm
    have hstring := Spelled.reduceBelow [.value x, .term c] [] (.string hk) hs
    exact ⟨_, ⟨_, rfl⟩, Spelled.reduce (.pair hc) hstring⟩
  · obtain ⟨_, _, ⟨o, rfl, ho⟩, ⟨_, _, ⟨c, rfl, hc⟩, rfl, rfl⟩, rfl⟩ := hm
    have hbegin := Spelled.reduceBelow [.term c] [] (.arrayBegin ho) hs
    have hopen := Spelled.reduceBelow [.term c] [] .arrayEmpty hbegin
    exact ⟨_, ⟨[], rfl⟩, Spelled.reduce (.array hc) hopen⟩
  · obtain ⟨_, _, ⟨o, rfl, ho⟩, ⟨_, _, ⟨vs, rfl⟩, ⟨_, _, ⟨c, rfl, hc⟩, rfl, rfl⟩, rfl⟩, rfl⟩ := hm
    have hbegin := Spelled.reduceBelow [.term c, .values vs] [] (.arrayBegin ho) hs
    have hopen := Spelled.reduceBelow [.term c] [] .arrayValues hbegin
    exact ⟨_, ⟨vs, rfl⟩, Spelled.reduce (.array hc) hopen⟩
  · obtain ⟨_, _, ⟨x, rfl⟩, rfl, rfl⟩ := hm
    exact ⟨_, ⟨[x], rfl⟩, Spelled.reduce .valuesOne hs⟩
  · obtain ⟨_, _, ⟨vs, rfl⟩, ⟨_, _, ⟨c, rfl, hc⟩, ⟨_, _, ⟨x, rfl⟩, rfl, rfl⟩, rfl⟩, rfl⟩ := hm
    exact ⟨_, ⟨_, rfl⟩, Spelled.reduce (.valuesMore hc) hs⟩
  · obtain ⟨_, _, ⟨t, rfl, ht⟩, rfl, rfl⟩ := hm
    have hstring := Spelled.reduceAll (.string ht) hs
    exact ⟨_, ⟨_, rfl⟩, Spelled.reduce .valueString hstring⟩
  · obtain ⟨_, _, ⟨t, rfl, ht⟩, rfl, rfl⟩ := hm
    exact ⟨_, ⟨_, rfl⟩, Spelled.reduce (.valueInteger ht) hs⟩
  · obtain ⟨_, _, ⟨t, rfl, ht⟩, rfl, rfl⟩ := hm
    exact ⟨_, ⟨_, rfl⟩, Spelled.reduce (.valueFloat ht) hs⟩
  · obtain ⟨_, _, ⟨ps, rfl⟩, rfl, rfl⟩ := hm
    exact ⟨_, ⟨_, rfl⟩, Spelled.reduce .valueObject hs⟩
  · obtain ⟨_, _, ⟨vs, rfl⟩, rfl, rfl⟩ := hm
    exact ⟨_, ⟨_, rfl⟩, Spelled.reduce .valueArray hs⟩
  · obtain ⟨_, _, ⟨t, rfl, ht⟩, rfl, rfl⟩ := hm
    exact ⟨_, ⟨_, rfl⟩, Spelled.reduce (.valueTrue ht) hs⟩
  · obtain ⟨_, _, ⟨t, rfl, ht⟩, rfl, rfl⟩ := hm
    exact ⟨_, ⟨_, rfl⟩, Spelled.reduce (.valueFalse ht) hs⟩
  · obtain ⟨_, _, ⟨t, rfl, ht⟩, rfl, rfl⟩ := hm
    exact ⟨_, ⟨_, rfl⟩, Spelled.reduce (.valueNull ht) hs⟩

/-- No body of a rule mentions the start symbol. -/
theorem start_not_mem {a : Nonterminal} (h : ⟨a, u⟩ ∈ jsonRules) : nt .start ∉ u := by
  have hall : ∀ r ∈ jsonRules, nt .start ∉ r.output := by decide
  exact hall _ h

/-- What the grammar derives from symbols, the tables' rules derive from nodes of these symbols. -/
theorem spelled_of_yields {u : List (Symbol Nat jsonGrammar.NT)} (h : Yields jsonGrammar u x) (hu : nt .start ∉ u)
    (hw : w.map Token.term = x) : ∃ ms, List.Forall₂ Node.Matches u ms ∧ Spelled ms.reverse w := by
  induction h generalizing w with
  | nil =>
      obtain rfl : w = [] := List.map_eq_nil_iff.mp hw
      exact ⟨[], .nil, .nil⟩
  | terminal _ ih =>
      obtain ⟨t, w, rfl, rfl, hw'⟩ := List.map_eq_cons_iff.mp hw
      obtain ⟨ms, hm, hs⟩ := ih (fun hmem => hu (List.mem_cons_of_mem _ hmem)) hw'
      refine ⟨.term t :: ms, .cons ⟨t, rfl, rfl⟩ hm, ?_⟩
      rw [List.reverse_cons]
      exact (Spelled.term (t := t) .nil).append hs
  | @nonterminal r u _ _ hr _ _ ihbody ih =>
      obtain ⟨v, w, rfl, hv, hw⟩ := List.map_eq_append_iff.mp hw
      have hr : (⟨r.input, r.output⟩ : ContextFreeRule Nat Nonterminal) ∈ jsonRules :=
        List.mem_toFinset.mp hr
      obtain ⟨body, hbody, hsbody⟩ := ihbody (start_not_mem hr) hv
      obtain ⟨ms, hm, hs⟩ := ih (fun hmem => hu (List.mem_cons_of_mem _ hmem)) hw
      have hstart : r.input ≠ .start := fun heq => hu (by rw [heq]; exact List.mem_cons_self)
      obtain ⟨n, hn, hsn⟩ := spelled_of_rule hr hstart hbody hsbody
      refine ⟨n :: ms, .cons hn hm, ?_⟩
      rw [List.reverse_cons]
      exact hsn.append hs

/-- **The two forms of the grammar agree.** -/
theorem mem_language_iff_spelled : w.map Token.term ∈ jsonGrammar.language ↔
    ∃ v e ps, w = v ++ [e] ∧ e.term = 13 ∧ Spelled [.object ps] v := by
  rw [mem_language_iff_yields]
  constructor
  · intro h
    obtain ⟨r, hr, hinput, hbody⟩ := h.inv
    have hr : (⟨r.input, r.output⟩ : ContextFreeRule Nat Nonterminal) ∈ jsonRules :=
      List.mem_toFinset.mp hr
    -- the one rule of the start symbol: an object, then the end of the file
    have hout : r.output = [nt .object, tm 13] := by
      have hall : ∀ r ∈ jsonRules, r.input = .start → r.output = [nt .object, tm 13] := by decide
      exact hall _ hr hinput
    rw [hout] at hbody
    obtain ⟨y, z, hyz, hy, hz⟩ := Yields.split (g := jsonGrammar) [nt .object] [tm 13] hbody
    obtain ⟨_, rfl, hnil⟩ := hz.inv_terminal
    cases hnil
    obtain ⟨v, es, rfl, hv, hes⟩ := List.map_eq_append_iff.mp hyz
    have hstart : nt .start ∉ [nt .object] := by decide
    obtain ⟨ms, hm, hs⟩ := spelled_of_yields hy hstart hv
    obtain ⟨_, _, ⟨ps, rfl⟩, hnil, rfl⟩ := List.forall₂_cons_left_iff.mp hm
    cases hnil
    obtain ⟨e, _, rfl, he, hnil⟩ := List.map_eq_cons_iff.mp hes
    obtain rfl := List.map_eq_nil_iff.mp hnil
    exact ⟨v, e, ps, rfl, he, hs⟩
  · rintro ⟨v, e, ps, rfl, he, hs⟩
    obtain ⟨_, z, hz, rfl, hword⟩ := hs.word
    rw [List.map_append, hz]
    simp only [List.nil_append, List.map_cons, List.map_nil, he]
    exact yields_rule (u := [nt .object, tm 13]) (by decide) (Yields.append hword (yields_terminals [13]))

end

end Ccljson
end Cclib
