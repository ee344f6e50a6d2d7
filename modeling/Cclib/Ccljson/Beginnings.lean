import Cclib.Ccljson.Tree

/-!
# `Ccljson.Beginnings` — objects that are not complete

What the parser holds in front of a token that it shifts is the beginning of an object. In front of an opening brace it
is nodes as `Within` says, and in front of a string such nodes or those in front of a key (`TakesString`). They can be
completed, and they have their values when the strings among them can be decoded.

- `Spelled.before`: in front of a token of what is spelled lie nodes that lead to a state which shifts it.
- `within_of_walk`, `takesString_of_walk`: what these nodes are.
- `Within.complete`, `TakesString.complete`: the rest of an object.
- `Within.defined`, `TakesString.defined`, `Holds.decodes`: the actions run where the strings can be decoded, and only
  there.
-/

namespace Cclib
namespace Ccljson
open Cclvar

/-! ## Prefixes of objects -/

section Prefixes

variable {ns : List Node} {u v w : List Token} {t : Token} {q q' : Nat}

/-- **In front of a token** of what nodes derive lie nodes that lead to a state which shifts it. -/
theorem Spelled.before (h : Spelled ns w) (hw : w = u ++ t :: v)
    (hwalk : Lr.walk jsonLr q (ns.reverse.map Node.sym) = some q') :
    ∃ ns₁ q₁ q₂, Spelled ns₁ u ∧ Lr.walk jsonLr q (ns₁.reverse.map Node.sym) = some q₁ ∧
      lalrEdge q₁ t.term = some q₂ := by
  induction h generalizing u v q q' with
  | nil => simp at hw
  | @term t' ns w hns ih =>
      rw [List.reverse_cons, List.map_append] at hwalk
      obtain ⟨p, hp, hedge⟩ := Lr.walk_snoc hwalk
      rcases List.eq_nil_or_concat v with rfl | ⟨v, x, rfl⟩
      · obtain ⟨rfl, htok⟩ := List.append_inj' hw rfl
        obtain rfl := (List.cons.inj htok).1
        exact ⟨ns, p, q', hns, hp, hedge⟩
      · rw [List.concat_eq_append, ← List.cons_append, ← List.append_assoc] at hw
        exact ih (List.append_inj' hw rfl).1 hp
  | @rule r body head ns v₀ w hr hbody hns ihbody ih =>
      rw [List.reverse_cons, List.map_append] at hwalk
      obtain ⟨p, hp, hedge⟩ := Lr.walk_snoc hwalk
      have hside : (∃ a, u = w ++ a ∧ v₀ = a ++ t :: v) ∨ ∃ c, w = u ++ t :: c := by
        rcases List.append_eq_append_iff.mp hw with hbody | ⟨c, rfl, hc⟩
        · exact Or.inl hbody
        · cases c with
          | nil => exact Or.inl ⟨[], by simp, hc.symm⟩
          | cons x c =>
              obtain ⟨rfl, -⟩ := List.cons.inj hc
              exact Or.inr ⟨c, rfl⟩
      rcases hside with ⟨a, rfl, hv₀⟩ | ⟨c, rfl⟩
      · -- the token is one of the body
        obtain ⟨hsyms, hhead, hlt⟩ := hr.syms
        rw [hhead] at hedge
        obtain ⟨p', hp', -⟩ := expand (by cases hr <;> decide) hlt hedge
        have hbody' : Lr.walk jsonLr p (body.reverse.map Node.sym) = some p' := by
          rw [List.map_reverse, hsyms, List.reverse_reverse]
          exact hp'
        obtain ⟨ns₁, q₁, q₂, hns₁, hq₁, hq₂⟩ := ihbody hv₀ hbody'
        refine ⟨ns₁ ++ ns, q₁, q₂, hns.append hns₁, ?_, hq₂⟩
        rw [List.reverse_append, List.map_append, Lr.walk_append, hp]
        exact hq₁
      · exact ih rfl hp

/-- A node that was shifted is one of the tokens. -/
theorem Spelled.term_mem (h : Spelled ns w) (hmem : .term t ∈ ns) : t ∈ w := by
  induction h with
  | nil => cases hmem
  | term _ ih =>
      rcases List.mem_cons.mp hmem with heq | hmem
      · cases heq
        exact List.mem_append_right _ List.mem_cons_self
      · exact List.mem_append_left _ (ih hmem)
  | rule hr _ _ _ ih =>
      rcases List.mem_cons.mp hmem with rfl | hmem
      · cases hr
      · exact List.mem_append_left _ (ih hmem)

/-- At the start only an opening brace is shifted. -/
theorem brace_first : ∀ t < 14, lalrAction 0 t ≠ .error → t = 6 := by decide

/-- Nodes in front of an opening brace: at the start, or where the value of a pair or of an array is to come. -/
inductive Within : List Node → Prop
  | top : Within []
  | first {ns : List Node} {k c : Token} (hc : c.term = 11) (h : Within ns) :
      Within (.term c :: .string k :: .dictBegin :: ns)
  | next {ns : List Node} {ps : List (Token × JTree)} {k c d : Token} (hc : c.term = 11) (hd : d.term = 10)
      (h : Within ns) : Within (.term c :: .string k :: .term d :: .pairs ps :: .dictBegin :: ns)
  | begin {ns : List Node} (hne : ns ≠ []) (h : Within ns) : Within (.arrayBegin :: ns)
  | more {ns : List Node} {vs : List JTree} {d : Token} (hd : d.term = 10) (hne : ns ≠ []) (h : Within ns) :
      Within (.term d :: .values vs :: .arrayBegin :: ns)

/-- The last node of a walk. -/
theorem walk_top (h : Lr.walk jsonLr 0 (ns.reverse.map Node.sym) = some q) (hq : q ≠ 0)
    (hterm : ∀ t, .term t ∈ ns → t.term < 14) : ∃ n rest p, ns = n :: rest ∧ n.Is (access q) ∧ p ∈ before q ∧
      Lr.walk jsonLr 0 (rest.reverse.map Node.sym) = some p ∧ ∀ t, .term t ∈ rest → t.term < 14 := by
  cases ns with
  | nil =>
      cases h
      exact absurd rfl hq
  | cons n rest =>
      rw [List.reverse_cons, List.map_append] at h
      obtain ⟨p, hp, hedge⟩ := Lr.walk_snoc h
      obtain ⟨-, hsym, hmem⟩ := jsonLr.edge_enters hedge
      have his : n.Is n.sym := by
        cases n with
        | term t =>
            refine Node.Tag.is (e := ⟨0, t.start, t.stop⟩) ?_
            rintro _ ⟨rfl⟩
            exact ⟨hterm t List.mem_cons_self, rfl, rfl⟩
        | _ => simp [Node.sym, Node.Is]
      rw [← (show access q = n.sym from hsym)] at his
      exact ⟨n, rest, p, rfl, his, hmem, hp, fun t ht => hterm t (List.mem_cons_of_mem _ ht)⟩

theorem eq_nil_of_walk (h : Lr.walk jsonLr 0 (ns.reverse.map Node.sym) = some 0) : ns = [] := by
  cases ns with
  | nil => rfl
  | cons n rest =>
      rw [List.reverse_cons, List.map_append] at h
      obtain ⟨p, -, hedge⟩ := Lr.walk_snoc h
      exact absurd rfl (jsonLr.edge_enters hedge).1

/-- **The states that shift an opening brace.** -/
theorem within_of_walk (h : Lr.walk jsonLr 0 (ns.reverse.map Node.sym) = some q) (hq : q ∈ [0, 13, 25, 30])
    (hterm : ∀ t, .term t ∈ ns → t.term < 14) : Within ns := by
  induction hn : ns.length using Nat.strong_induction_on generalizing ns q with
  | _ n ih =>
      subst hn
      simp only [List.mem_cons, List.not_mem_nil, or_false] at hq
      -- below the brackets of an array or an object its states are the same again
      have hbelow : ∀ {rest : List Node} {p : Nat}, rest.length < ns.length → p ∈ [0, 13, 25, 30] →
          Lr.walk jsonLr 0 (rest.reverse.map Node.sym) = some p → (∀ t, .term t ∈ rest → t.term < 14) → Within rest :=
        fun hlt hp hwalk hterm => ih _ hlt hwalk hp hterm rfl
      have hfilled : ∀ {rest : List Node} {p : Nat}, p ∈ [13, 25, 30] →
          Lr.walk jsonLr 0 (rest.reverse.map Node.sym) = some p → rest ≠ [] := by
        rintro rest p hp hwalk rfl
        obtain rfl := Option.some.inj hwalk
        exact absurd hp (by decide)
      rcases hq with rfl | rfl | rfl | rfl
      · rw [eq_nil_of_walk h]
        exact .top
      · obtain ⟨_, _, p, rfl, ⟨c, rfl, hc⟩, hp, h, hterm⟩ := walk_top h (by decide) hterm
        obtain rfl : p = 10 := by simpa [before] using hp
        obtain ⟨_, _, p, rfl, ⟨k, rfl⟩, hp, h, hterm⟩ := walk_top h (by decide) hterm
        have hp : p = 4 ∨ p = 12 := by simpa [before] using hp
        rcases hp with rfl | rfl
        · obtain ⟨_, _, p, rfl, rfl, hp, h, hterm⟩ := walk_top h (by decide) hterm
          exact .first hc (hbelow (by simp only [List.length_cons]; omega) hp h hterm)
        · obtain ⟨_, _, p, rfl, ⟨d, rfl, hd⟩, hp, h, hterm⟩ := walk_top h (by decide) hterm
          obtain rfl : p = 8 := by simpa [before] using hp
          obtain ⟨_, _, p, rfl, ⟨ps, rfl⟩, hp, h, hterm⟩ := walk_top h (by decide) hterm
          obtain rfl : p = 4 := by simpa [before] using hp
          obtain ⟨_, _, p, rfl, rfl, hp, h, hterm⟩ := walk_top h (by decide) hterm
          exact .next hc hd (hbelow (by simp only [List.length_cons]; omega) hp h hterm)
      · obtain ⟨_, _, p, rfl, rfl, hp, h, hterm⟩ := walk_top h (by decide) hterm
        exact .begin (hfilled hp h) (hbelow (by simp) (List.mem_cons_of_mem _ hp) h hterm)
      · obtain ⟨_, _, p, rfl, ⟨d, rfl, hd⟩, hp, h, hterm⟩ := walk_top h (by decide) hterm
        obtain rfl : p = 28 := by simpa [before] using hp
        obtain ⟨_, _, p, rfl, ⟨vs, rfl⟩, hp, h, hterm⟩ := walk_top h (by decide) hterm
        obtain rfl : p = 25 := by simpa [before] using hp
        obtain ⟨_, _, p, rfl, rfl, hp, h, hterm⟩ := walk_top h (by decide) hterm
        have hp' := List.mem_cons_of_mem 0 hp
        exact .more hd (hfilled hp h) (hbelow (by simp only [List.length_cons]; omega) hp' h hterm)

/-- An object is the whole, or the value that is to come. -/
theorem close_object {ps : List (Token × JTree)} (h : Spelled (.object ps :: ns) w)
    (hclose : ns ≠ [] → ∀ v : JTree, Spelled (.value v :: ns) w → ∃ x ts, Spelled [.object ts] (w ++ x)) :
    ∃ x ts, Spelled [.object ts] (w ++ x) := by
  cases ns with
  | nil => exact ⟨[], ps, by rwa [List.append_nil]⟩
  | cons n ns => exact hclose (List.cons_ne_nil _ _) _ (Spelled.reduce .valueObject h)

/-- One more token, and the rest. -/
theorem close_after (h : ∃ x ts, Spelled [.object ts] ((w ++ [t]) ++ x)) : ∃ x ts, Spelled [.object ts] (w ++ x) := by
  obtain ⟨x, ts, hspelled⟩ := h
  exact ⟨t :: x, ts, by rwa [List.append_assoc] at hspelled⟩

/-- **Closing brackets** complete an object. -/
theorem Within.complete (h : Within ns) (hne : ns ≠ []) {v : JTree} (hs : Spelled (.value v :: ns) w) :
    ∃ x ts, Spelled [.object ts] (w ++ x) := by
  induction h generalizing v w with
  | top => exact absurd rfl hne
  | @first ns k c hc _ ih =>
      have hpairs : Spelled (.pairs [(k, v)] :: .dictBegin :: ns) w :=
        Spelled.reduce .pairsOne (Spelled.reduce (.pair hc) hs)
      have hobject : Spelled (.object [(k, v)] :: ns) (w ++ [⟨7, 0, 0⟩]) :=
        Spelled.reduce (.object rfl) (Spelled.term (Spelled.reduce .dictPairs hpairs))
      exact close_after (close_object hobject (fun hne v hv => ih hne hv))
  | @next ns ps k c d hc hd _ ih =>
      have hpairs : Spelled (.pairs (ps ++ [(k, v)]) :: .dictBegin :: ns) w :=
        Spelled.reduce (.pairsMore hd) (Spelled.reduce (.pair hc) hs)
      have hobject : Spelled (.object (ps ++ [(k, v)]) :: ns) (w ++ [⟨7, 0, 0⟩]) :=
        Spelled.reduce (.object rfl) (Spelled.term (Spelled.reduce .dictPairs hpairs))
      exact close_after (close_object hobject (fun hne v hv => ih hne hv))
  | @begin ns hns _ ih =>
      have harray : Spelled (.array [v] :: ns) (w ++ [⟨9, 0, 0⟩]) :=
        Spelled.reduce (.array rfl) (Spelled.term (Spelled.reduce .arrayValues (Spelled.reduce .valuesOne hs)))
      exact close_after (ih hns (Spelled.reduce .valueArray harray))
  | @more ns vs d hd hns _ ih =>
      have harray : Spelled (.array (vs ++ [v]) :: ns) (w ++ [⟨9, 0, 0⟩]) :=
        Spelled.reduce (.array rfl) (Spelled.term (Spelled.reduce .arrayValues (Spelled.reduce (.valuesMore hd) hs)))
      exact close_after (ih hns (Spelled.reduce .valueArray harray))

/-- The tokens begin an object, in which an opening brace comes next. -/
def Prefix (w : List Token) : Prop :=
  ∃ brace rest ts, brace.term = 6 ∧ Spelled [.object ts] (w ++ brace :: rest)

theorem Within.isPrefix (h : Within ns) (hs : Spelled ns w) : Prefix w := by
  have hbegin : Spelled (.dictBegin :: ns) (w ++ [⟨6, 0, 0⟩]) := Spelled.reduce (.dictBegin rfl) hs.term
  have hempty : Spelled (.object [] :: ns) (w ++ [⟨6, 0, 0⟩] ++ [⟨7, 0, 0⟩]) :=
    Spelled.reduce (.object rfl) (Spelled.term (Spelled.reduce .dictEmpty hbegin))
  obtain ⟨x, ts, hts⟩ := close_object hempty (fun hne v hv => h.complete hne hv)
  refine ⟨⟨6, 0, 0⟩, ⟨7, 0, 0⟩ :: x, ts, rfl, ?_⟩
  rw [List.append_assoc, List.append_assoc] at hts
  exact hts

/-- **A prefix is held in nodes** in front of an opening brace. -/
theorem Spelled.within (h : Spelled ns w) (hw : w = u ++ t :: v) (ht : t.term = 6)
    (hwalk : Lr.walk jsonLr 0 (ns.reverse.map Node.sym) = some q) (hterm : ∀ t ∈ u, t.term < 14) :
    ∃ ns₁ q₁, Within ns₁ ∧ Spelled ns₁ u ∧ Lr.walk jsonLr 0 (ns₁.reverse.map Node.sym) = some q₁ ∧
      (lalrEdge q₁ 6).isSome = true := by
  obtain ⟨ns₁, q₁, q₂, hns₁, hq₁, hedge⟩ := h.before hw hwalk
  rw [ht] at hedge
  have hstates : ∀ q < jsonLalrStateCnt, (lalrEdge q 6).isSome = true → q ∈ [0, 13, 25, 30] := by decide +kernel
  obtain ⟨hlt, -⟩ := lalrEdge_eq_some.mp hedge
  have hsome : (lalrEdge q₁ 6).isSome = true := by simp [hedge]
  have hwithin := within_of_walk hq₁ (hstates q₁ hlt hsome) (fun t ht => hterm t (hns₁.term_mem ht))
  exact ⟨ns₁, q₁, hwithin, hns₁, hq₁, hsome⟩

theorem Prefix.within (h : Prefix w) : ∃ ns q, Within ns ∧ Spelled ns w ∧
    Lr.walk jsonLr 0 (ns.reverse.map Node.sym) = some q ∧ (lalrEdge q 6).isSome = true := by
  obtain ⟨brace, rest, ts, hbrace, hspelled⟩ := h
  have hwalk : Lr.walk jsonLr 0 [16] = some 2 := by rfl
  refine hspelled.within rfl hbrace hwalk ?_
  intro t ht
  exact Nat.lt_succ_of_lt (hspelled.terms_lt (by simp) t (List.mem_append_left _ ht))

/-- The states that shift an opening brace lead the same way with the nodes of an object. -/
theorem Within.walk (h : Within ns) (hne : ns ≠ []) {p : Nat} (hp : (lalrEdge p 6).isSome = true) :
    Lr.walk jsonLr p (ns.reverse.map Node.sym) = Lr.walk jsonLr 0 (ns.reverse.map Node.sym) := by
  have hbottom : ∃ xs, ns.reverse.map Node.sym = 18 :: xs := by
    have hextend : ∀ {ns : List Node} (below : List Node), (∃ xs, ns.reverse.map Node.sym = 18 :: xs) →
        ∃ xs, (below ++ ns).reverse.map Node.sym = 18 :: xs := by
      rintro ns below ⟨xs, hxs⟩
      rw [List.reverse_append, List.map_append, hxs]
      exact ⟨_, rfl⟩
    induction h with
    | top => exact absurd rfl hne
    | @first ns k c _ _ ih =>
        by_cases hns : ns = []
        · subst hns
          exact ⟨_, rfl⟩
        · exact hextend [.term c, .string k, .dictBegin] (ih hns)
    | @next ns ps k c d _ _ _ ih =>
        by_cases hns : ns = []
        · subst hns
          exact ⟨_, rfl⟩
        · exact hextend [.term c, .string k, .term d, .pairs ps, .dictBegin] (ih hns)
    | begin hns _ ih => exact hextend [.arrayBegin] (ih hns)
    | @more ns vs d _ hns _ ih => exact hextend [.term d, .values vs, .arrayBegin] (ih hns)
  obtain ⟨xs, hxs⟩ := hbottom
  have hedges : ∀ q < jsonLalrStateCnt, (lalrEdge q 6).isSome = true → lalrEdge q 18 = lalrEdge 0 18 := by
    decide +kernel
  obtain ⟨q, hq⟩ := Option.isSome_iff_exists.mp hp
  have hedge : jsonLr.edge p 18 = jsonLr.edge 0 18 := hedges p (lalrEdge_eq_some.mp hq).1 hp
  rw [hxs, Lr.walk, Lr.walk, hedge]

/-! ## In front of a string -/

/-- Nodes in front of a string: a value is to come, or a key. -/
inductive TakesString (ns : List Node) : Prop
  | value (hne : ns ≠ []) (h : Within ns)
  | key (h : ∀ k c : Token, c.term = 11 → Within (.term c :: .string k :: ns))

/-- **The states that shift a string.** -/
theorem takesString_of_walk (h : Lr.walk jsonLr 0 (ns.reverse.map Node.sym) = some q)
    (hq : (lalrEdge q 0).isSome = true) (hterm : ∀ t, .term t ∈ ns → t.term < 14) : TakesString ns := by
  have hstates : ∀ q < jsonLalrStateCnt, (lalrEdge q 0).isSome = true → q ∈ [13, 25, 30] ∨ q ∈ [4, 12] := by
    decide +kernel
  obtain ⟨q', hq'⟩ := Option.isSome_iff_exists.mp hq
  rcases hstates q (lalrEdge_eq_some.mp hq').1 hq with hvalue | hkey
  · refine .value ?_ (within_of_walk h (List.mem_cons_of_mem 0 hvalue) hterm)
    rintro rfl
    obtain rfl := Option.some.inj h
    exact absurd hvalue (by decide)
  · refine .key fun k c hc => ?_
    have hcolon : ∀ q ∈ [4, 12], Lr.walk jsonLr q [26, 11] = some 13 := by decide +kernel
    refine within_of_walk (q := 13) ?_ (by decide) ?_
    · rw [show (Node.term c :: .string k :: ns).reverse = ns.reverse ++ [.string k, .term c] by simp, List.map_append,
        Lr.walk_append, h, Option.bind_some]
      change Lr.walk jsonLr q [26, c.term] = some 13
      rw [hc]
      exact hcolon q hkey
    · intro t ht
      simp only [List.mem_cons, Node.term.injEq, reduceCtorEq, false_or] at ht
      rcases ht with rfl | ht
      · omega
      · exact hterm t ht

/-- **The rest of an object** behind a string. -/
theorem TakesString.complete (h : TakesString ns) (hs : Spelled ns w) {k : Token} (hk : k.term = 0) :
    ∃ x ts, Spelled [.object ts] (w ++ k :: x) := by
  have hstring : Spelled (.string k :: ns) (w ++ [k]) := Spelled.reduce (.string hk) hs.term
  have hrest : ∃ x ts, Spelled [.object ts] ((w ++ [k]) ++ x) := by
    cases h with
    | value hne h => exact h.complete hne (Spelled.reduce .valueString hstring)
    | key h =>
        -- a colon and a `null`
        have hcolon : Spelled (.term ⟨11, 0, 0⟩ :: .string k :: ns) (w ++ [k] ++ [⟨11, 0, 0⟩]) := hstring.term
        have hnull : Spelled (.value .null :: .term ⟨11, 0, 0⟩ :: .string k :: ns)
            (w ++ [k] ++ [⟨11, 0, 0⟩] ++ [⟨5, 0, 0⟩]) := Spelled.reduce (.valueNull rfl) hcolon.term
        exact close_after (close_after ((h k ⟨11, 0, 0⟩ rfl).complete (List.cons_ne_nil _ _) hnull))
  obtain ⟨x, ts, hspelled⟩ := hrest
  exact ⟨x, ts, by rwa [List.append_assoc, List.singleton_append] at hspelled⟩

end Prefixes

/-! ## Strings that have been decoded -/

section Decoded

variable {F : Type} [LT F] [DecidableLT F] {source : StringT} {strtod : StringT → F} {ns : List Node} {w : List Token}

/-- The actions run where the strings can be decoded. -/
theorem Within.defined (h : Within ns) (hdec : ∀ t ∈ nodesTokens 0 ns, Decodes source t) (s₀ : Sem F) :
    pushNodes source strtod ns s₀ ≠ none := by
  have hstring : ∀ {k : Token} (c : Caches F), (∀ t ∈ (Node.string k).tokens 0, Decodes source t) →
      ∃ r, (leafString source c k.start k.stop).toOption = some r := by
    intro k c hk
    exact Option.ne_none_iff_exists'.mp (leafString_defined.mpr (hk k (by simp [Node.tokens])))
  induction h with
  | top => simp [pushNodes]
  | @first ns k c _ _ ih =>
      simp only [nodesTokens, List.forall_mem_append] at hdec
      obtain ⟨s, hs⟩ := Option.ne_none_iff_exists'.mp (ih hdec.1.1.1)
      obtain ⟨r, hr⟩ := hstring s.caches hdec.1.2
      simp [pushNodes, hs, pushNode, hr]
  | @next ns ps k c d _ _ _ ih =>
      simp only [nodesTokens, List.forall_mem_append] at hdec
      obtain ⟨s, hs⟩ := Option.ne_none_iff_exists'.mp (ih hdec.1.1.1.1.1)
      have hpairs : evalPairs source strtod s.caches ps ≠ none := (evalPairs_defined ps).mpr hdec.1.1.1.2
      obtain ⟨r, hr⟩ := Option.ne_none_iff_exists'.mp hpairs
      obtain ⟨r', hr'⟩ := hstring r.2 hdec.1.2
      simp [pushNodes, hs, pushNode, pushNode.addPairs, hr, hr']
  | @begin ns _ _ ih =>
      simp only [nodesTokens, List.forall_mem_append] at hdec
      obtain ⟨s, hs⟩ := Option.ne_none_iff_exists'.mp (ih hdec.1)
      simp [pushNodes, hs, pushNode]
  | @more ns vs d _ _ _ ih =>
      simp only [nodesTokens, List.forall_mem_append] at hdec
      obtain ⟨s, hs⟩ := Option.ne_none_iff_exists'.mp (ih hdec.1.1.1)
      have hvalues : evalValues source strtod s.caches vs ≠ none := (evalValues_defined vs).mpr hdec.1.2
      obtain ⟨r, hr⟩ := Option.ne_none_iff_exists'.mp hvalues
      simp [pushNodes, hs, pushNode, hr]

theorem TakesString.defined (h : TakesString ns) (hdec : ∀ t ∈ nodesTokens 0 ns, Decodes source t) (s₀ : Sem F) :
    pushNodes source strtod ns s₀ ≠ none := by
  cases h with
  | value _ h => exact h.defined hdec s₀
  | key h =>
      -- with a key that is empty
      have hempty : Decodes source ⟨0, 0, 2⟩ := ⟨[], by simp [stringConst, stringBody, decodeString]⟩
      have hdefined : pushNodes source strtod (.term ⟨11, 0, 0⟩ :: .string ⟨0, 0, 2⟩ :: ns) s₀ ≠ none := by
        refine (h ⟨0, 0, 2⟩ ⟨11, 0, 0⟩ rfl).defined ?_ s₀
        have hall : ∀ t ∈ nodesTokens 0 ns ++ [⟨0, 0, 2⟩], Decodes source t :=
          List.forall_mem_append.mpr ⟨hdec, List.forall_mem_singleton.mpr hempty⟩
        simpa [nodesTokens, Node.tokens] using hall
      intro hnone
      simp [pushNodes, hnone] at hdefined

/-- Where the actions have run, the strings have been decoded, but for one that is still a token. -/
theorem decodes_of_pushNodes {s₀ s : Sem F} (h : pushNodes source strtod ns s₀ = some s)
    (hterm : ∀ t, .term t ∈ ns → t.term ≠ 0) : ∀ t ∈ nodesTokens 0 ns, Decodes source t := by
  induction ns generalizing s with
  | nil => simp [nodesTokens]
  | cons n ns ih =>
      obtain ⟨s₁, hs₁, hpush⟩ := pushNodes_cons h
      have hbelow := ih hs₁ (fun t ht => hterm t (List.mem_cons_of_mem _ ht))
      rw [nodesTokens]
      refine List.forall_mem_append.mpr ⟨hbelow, ?_⟩
      have hpairs : ∀ {ps : List (Token × JTree)} {r : List (VarC F × VarC F) × Caches F},
          evalPairs source strtod s₁.caches ps = some r → ∀ t ∈ pairsTokens 0 ps, Decodes source t := fun hr =>
        (evalPairs_defined _).mp (by rw [hr]; exact Option.some_ne_none _)
      have hvalues : ∀ {vs : List JTree} {r : List (VarC F) × Caches F},
          evalValues source strtod s₁.caches vs = some r → ∀ t ∈ valuesTokens 0 vs, Decodes source t := fun hr =>
        (evalValues_defined _).mp (by rw [hr]; exact Option.some_ne_none _)
      cases n with
      | term t =>
          rw [Node.tokens, if_neg (hterm t List.mem_cons_self)]
          simp
      | dictBegin | arrayBegin => simp [Node.tokens]
      | string t =>
          obtain ⟨r, hr, -⟩ := Option.map_eq_some_iff.mp hpush
          have hdec : Decodes source t := leafString_defined.mp (by rw [hr]; exact Option.some_ne_none _)
          simpa [Node.tokens] using hdec
      | value v =>
          obtain ⟨r, hr, -⟩ := Option.map_eq_some_iff.mp hpush
          exact (evalTree_defined v).mp (by rw [hr]; exact Option.some_ne_none _)
      | dict ps | object ps =>
          obtain ⟨r, hr, -⟩ := Option.map_eq_some_iff.mp hpush
          exact hpairs hr
      | pair p | pairs ps =>
          obtain ⟨r, hr, -⟩ := Option.bind_eq_some_iff.mp hpush
          exact hpairs hr
      | arrayOpen vs | array vs =>
          obtain ⟨r, hr, -⟩ := Option.map_eq_some_iff.mp hpush
          exact hvalues hr
      | values vs =>
          obtain ⟨r, hr, -⟩ := Option.bind_eq_some_iff.mp hpush
          exact hvalues hr

/-- On a parse stack only the last node can be a string token: no symbol leads on from its state. -/
theorem Path.terms_below {e : StackElemC} {stack : List StackElemC} (h : Path [.ofState 0] (e :: stack) ns) :
    ∀ t, .term t ∈ ns.tail → t.term ≠ 0 := by
  have hstuck : ∀ x < cJsonTerminalPlusNonterminalCnt, lalrEdge 11 x = none := by decide
  have hentered : ∀ q < jsonLalrStateCnt, access q = 0 → q = 11 := by decide
  refine (Lr.Path.invariant (fun q ns => (∀ t, .term t ∈ ns.tail → t.term ≠ 0) ∧
    (q ≠ 11 → ∀ t, .term t ∈ ns → t.term ≠ 0)) ⟨by simp, by simp⟩ ?_ h).1
  rintro p n e ns hedge - ⟨-, hns⟩
  obtain ⟨-, hx, -, -⟩ := lalrEdge_eq_some.mp hedge
  have hp : p ≠ 11 := by
    rintro rfl
    have hnone := hstuck _ hx
    exact absurd (hnone.symm.trans hedge) (by simp)
  refine ⟨hns hp, ?_⟩
  intro he t ht
  rcases List.mem_cons.mp ht with rfl | ht
  · intro hzero
    obtain ⟨-, hsym, -⟩ := jsonLr.edge_enters hedge
    exact he (hentered _ (lalrEdge_lt hedge) (hsym.trans hzero))
  · exact hns hp t ht

/-- **The strings that the parser has gone past** have been decoded. -/
theorem Holds.decodes {fuel : Nat} {s : LalrState Nat (Sem F)} {front : List Token} {t : Token}
    (h : Holds (parserEnv source strtod fuel) (nodesSem source strtod) 0 ns w s) (hw : w = front ++ [t]) :
    ∀ k ∈ front, k.term = 0 → Decodes source k := by
  have hbelow : ∀ t, .term t ∈ ns.tail → t.term ≠ 0 := by
    have hpath := h.path
    generalize s.m_lalr_stack = stack at hpath
    cases hpath with
    | bottom => simp
    | push hbelow hedge htag => exact Path.terms_below (hbelow.push hedge htag)
  have hsem : nodesSem source strtod ns = some s.sem := h.sem
  have hfilter : ∀ {ns : List Node} {w : List Token}, Spelled ns w → (∀ k ∈ nodesTokens 0 ns, Decodes source k) →
      ∀ k ∈ w, k.term = 0 → Decodes source k := by
    intro ns w hspelled hdec k hk hzero
    rw [hspelled.tokens (Nat.zero_le 2)] at hdec
    exact hdec k (List.mem_filter.mpr ⟨hk, decide_eq_true hzero⟩)
  have hspelled := h.spelled
  cases ns with
  | nil =>
      cases hspelled
      exact absurd hw (by simp)
  | cons n ns =>
      obtain ⟨s₁, hs₁, -⟩ := pushNodes_cons hsem
      rw [List.tail_cons] at hbelow
      cases hspelled with
      | term hns =>
          obtain ⟨rfl, -⟩ := List.append_inj' hw rfl
          exact hfilter hns (decodes_of_pushNodes hs₁ hbelow)
      | rule hr hbody hns =>
          have hterm : ∀ t, .term t ∈ n :: ns → t.term ≠ 0 := by
            intro t ht
            rcases List.mem_cons.mp ht with rfl | ht
            · cases hr
            · exact hbelow t ht
          intro k hk
          exact hfilter h.spelled (decodes_of_pushNodes hsem hterm) k (by rw [hw]; exact List.mem_append_left _ hk)

end Decoded

end Ccljson
end Cclib
