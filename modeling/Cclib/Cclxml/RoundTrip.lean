import Cclib.Cclxml.Structure
import Cclib.Cclxml.Cuttings

/-!
# `Cclxml.RoundTrip` — a printed tree, read back

libxml2 is a parameter. `Faithful` says what is asked of it: of a plain document it reports the elements and the
character data, each run in one call, and it rejects what is not made of characters.

- `round_trip_iff` — a tree without markup in its texts comes back exactly when its texts are characters and no
  element has both a text and subnodes: the line feed `operator<<` puts between the two comes back as part of the text.
-/

namespace Cclib
namespace Cclxml

/-! ## What libxml2 reports -/

/-- An attribute value that is reported as it stands. -/
def PlainValue (v : StringT) : Prop := ∀ b ∈ v, b ∉ ([0x22, 0x3c, 0x26, 0x09, 0x0a, 0x0d] : StringT)

/-- Character data that is reported as it stands. -/
def PlainRun (run : StringT) : Prop := CharData run ∧ 0x0d ∉ run

/-- The attributes of a tag. -/
inductive ReadsAttrs : StringT → List (StringT × StringT) → Prop
  | nil : ReadsAttrs [] []
  | cons {n v s : StringT} {attrs : List (StringT × StringT)} (hn : IsName n) (hv : PlainValue v)
      (h : ReadsAttrs s attrs) : ReadsAttrs ([0x20] ++ n ++ [0x3d, 0x22] ++ v ++ [0x22] ++ s) ((n, v) :: attrs)

mutual
/-- A plain text of an element: no references, comments or the like in it, and a single blank between attributes. -/
inductive ReadsElement : StringT → Element StringT → Prop
  | empty {n as : StringT} {attrs : List (StringT × StringT)} (hn : IsName n) (has : ReadsAttrs as attrs)
      (hnd : (attrs.map Prod.fst).Nodup) :
      ReadsElement ([0x3c] ++ n ++ as ++ [0x2f, 0x3e]) (.mk n attrs (.last []))
  | tags {n as c : StringT} {attrs : List (StringT × StringT)} {content : Content StringT} (hn : IsName n)
      (has : ReadsAttrs as attrs) (hnd : (attrs.map Prod.fst).Nodup) (hc : ReadsContent c content) :
      ReadsElement ([0x3c] ++ n ++ as ++ [0x3e] ++ c ++ [0x3c, 0x2f] ++ n ++ [0x3e]) (.mk n attrs content)

inductive ReadsContent : StringT → Content StringT → Prop
  | last {run : StringT} (hr : PlainRun run) : ReadsContent run (.last run)
  | more {run e c : StringT} {x : Element StringT} {y : Content StringT} (hr : PlainRun run) (he : ReadsElement e x)
      (hc : ReadsContent c y) : ReadsContent (run ++ e ++ c) (.more run x y)
end

/-- What `parse` relies on. A text that starts with a tag has no declaration, so it is in UTF-8. -/
structure Faithful (xmlSAXUserParseMemory : StringT → Int × List SaxEvent) : Prop where
  reports : ∀ s e, XmlChars s → ReadsElement s e → xmlSAXUserParseMemory (s ++ [0x0a]) = (0, e.events whole)
  rejects : ∀ n s, IsName n → ¬ XmlChars (0x3c :: (n ++ s)) → (xmlSAXUserParseMemory (0x3c :: (n ++ s))).1 ≠ 0

/-! ## Trees -/

mutual
/-- The tree but for the flags that say how an element without content is printed. -/
def XmlNode.selfClosing : XmlNode → XmlNode
  | ⟨_, m_name, m_text, m_attrs, m_nodes⟩ => ⟨true, m_name, m_text, m_attrs, allSelfClosing m_nodes⟩

def allSelfClosing : List XmlNode → List XmlNode
  | [] => []
  | node :: nodes => node.selfClosing :: allSelfClosing nodes
end

/-- The same name, attributes, text and subnodes at every level. -/
def Same (t t' : XmlNode) : Prop := t.selfClosing = t'.selfClosing

/-- None of `<`, `>`, `&`, the quotes, and no white space but blanks. -/
def PlainText (s : StringT) : Prop :=
  ∀ b ∈ s, b ∉ ([0x3c, 0x3e, 0x26, 0x22, 0x27, 0x09, 0x0a, 0x0b, 0x0c, 0x0d] : StringT)

/-- Names, no attribute name twice, and plain texts and values. -/
def XmlNode.Plain (node : XmlNode) : Prop :=
  node.Named ∧ (node.m_attrs.map XmlAttr.m_name).Nodup ∧ PlainText node.m_text ∧
    ∀ attr ∈ node.m_attrs, PlainText attr.m_value

/-- A text or subnodes, not both. -/
def XmlNode.Unmixed (node : XmlNode) : Prop := node.m_text = [] ∨ node.m_nodes = []

mutual
/-- The elements and runs that are read from the printed text. -/
def XmlNode.element : XmlNode → Element StringT
  | ⟨_, m_name, m_text, m_attrs, m_nodes⟩ =>
      .mk m_name (m_attrs.map (fun attr => (attr.m_name, attr.m_value)))
        (match m_nodes with
          | [] => .last m_text
          | node :: nodes => .more (m_text ++ [0x0a]) node.element (following nodes))

/-- What follows a subnode: a line feed each time. -/
def following : List XmlNode → Content StringT
  | [] => .last [0x0a]
  | node :: nodes => .more [0x0a] node.element (following nodes)
end

mutual
/-- The tree that is read from the printed text. -/
def XmlNode.reread : XmlNode → XmlNode
  | ⟨_, m_name, m_text, m_attrs, m_nodes⟩ =>
      ⟨true, m_name, if m_text.isEmpty || m_nodes.isEmpty then m_text else m_text ++ [0x0a], m_attrs,
        allReread m_nodes⟩

def allReread : List XmlNode → List XmlNode
  | [] => []
  | node :: nodes => node.reread :: allReread nodes
end

/-! ## The printed text as it is read -/

theorem PlainText.value {v : StringT} (h : PlainText v) : PlainValue v := by
  intro b hb hmem
  have hall : ∀ b ∈ ([0x22, 0x3c, 0x26, 0x09, 0x0a, 0x0d] : StringT),
      b ∈ ([0x3c, 0x3e, 0x26, 0x22, 0x27, 0x09, 0x0a, 0x0b, 0x0c, 0x0d] : StringT) := by decide +kernel
  exact h b hb (hall b hmem)

theorem PlainText.noLineEnd {s : StringT} (h : PlainText s) : NoLineEnd s := by
  intro b hb
  constructor
  · rintro rfl
    exact h _ hb (by decide)
  · rintro rfl
    exact h _ hb (by decide)

theorem PlainText.run {s : StringT} (h : PlainText s) : PlainRun s := by
  refine ⟨⟨fun b hb => ⟨?_, ?_⟩, fun hinfix => ?_⟩, fun hb => ?_⟩
  · rintro rfl
    exact h _ hb (by decide)
  · rintro rfl
    exact h _ hb (by decide)
  · exact h 0x3e (List.Sublist.mem (by decide) hinfix.sublist) (by decide)
  · exact (h.noLineEnd _ hb).2 rfl

theorem PlainRun.snoc_lineFeed {s : StringT} (h : PlainRun s) : PlainRun (s ++ [0x0a]) := by
  refine ⟨h.1.snoc_lineFeed, fun hb => ?_⟩
  rcases List.mem_append.mp hb with hb | hb
  · exact h.2 hb
  · exact absurd hb (by decide)

theorem plainRun_lineFeed : PlainRun [0x0a] := by
  have h : PlainText [] := by intro b hb; cases hb
  exact h.run.snoc_lineFeed

theorem readsAttrs_output : ∀ {attrs : List XmlAttr}, (∀ attr ∈ attrs, IsName attr.m_name) →
    (∀ attr ∈ attrs, PlainText attr.m_value) →
      ReadsAttrs (attrs.flatMap (fun attr => [0x20] ++ attr.output)) (attrs.map (fun attr => (attr.m_name, attr.m_value)))
  | [], _, _ => .nil
  | attr :: attrs, hn, hv => by
      obtain ⟨hname, hn⟩ := List.forall_mem_cons.mp hn
      obtain ⟨hvalue, hv⟩ := List.forall_mem_cons.mp hv
      have h := ReadsAttrs.cons hname hvalue.value (readsAttrs_output hn hv)
      simpa [XmlAttr.output] using h

mutual
theorem reads_output : ∀ (t : XmlNode), (∀ node ∈ t.elements, node.Plain) →
    ∃ s, t.output = s ++ [0x0a] ∧ ReadsElement s t.element
  | ⟨m_self_close, m_name, m_text, m_attrs, m_nodes⟩, hp => by
      rw [elements_eq] at hp
      obtain ⟨⟨⟨hname, hattrs⟩, hnd, htext, hvalues⟩, hp⟩ := List.forall_mem_cons.mp hp
      have has := readsAttrs_output hattrs hvalues
      have hnd' : ((m_attrs.map (fun attr => (attr.m_name, attr.m_value))).map Prod.fst).Nodup := by
        rw [List.map_map]
        exact hnd
      rw [output_eq]
      by_cases hclose : (m_self_close && m_text.isEmpty && m_nodes.isEmpty) = true
      · simp only [Bool.and_eq_true, List.isEmpty_iff] at hclose
        obtain ⟨⟨rfl, rfl⟩, rfl⟩ := hclose
        refine ⟨_, ?_, .empty hname has hnd'⟩
        simp
      · have hbody : ∃ content : Content StringT,
            (XmlNode.mk m_self_close m_name m_text m_attrs m_nodes).element
              = .mk m_name (m_attrs.map (fun attr => (attr.m_name, attr.m_value))) content ∧
            ReadsContent (m_text ++ (if m_nodes.isEmpty then [] else [0x0a] ++ outputNodes m_nodes)) content := by
          cases m_nodes with
          | nil =>
              refine ⟨_, by rw [XmlNode.element], ?_⟩
              show ReadsContent (m_text ++ []) (.last m_text)
              rw [List.append_nil]
              exact .last htext.run
          | cons node nodes =>
              obtain ⟨hp, hp'⟩ := List.forall_mem_append.mp hp
              -- the line feed in front of the children goes to the text before the first one
              obtain ⟨s, hs, helem⟩ := reads_output node hp
              refine ⟨_, by rw [XmlNode.element], ?_⟩
              have h := ReadsContent.more htext.run.snoc_lineFeed helem (reads_following nodes hp')
              show ReadsContent (m_text ++ ([0x0a] ++ (node.output ++ outputNodes nodes))) _
              rw [hs]
              simpa using h
        obtain ⟨content, helement, hcontent⟩ := hbody
        rw [helement]
        refine ⟨_, ?_, .tags hname has hnd' hcontent⟩
        rw [if_neg hclose]
        simp

theorem reads_following : ∀ (nodes : List XmlNode), (∀ node ∈ allElements nodes, node.Plain) →
    ReadsContent ([0x0a] ++ outputNodes nodes) (following nodes)
  | [], _ => .last plainRun_lineFeed
  | node :: nodes, hp => by
      obtain ⟨hp, hp'⟩ := List.forall_mem_append.mp hp
      obtain ⟨s, hs, helem⟩ := reads_output node hp
      have h := ReadsContent.more plainRun_lineFeed helem (reads_following nodes hp')
      show ReadsContent ([0x0a] ++ (node.output ++ outputNodes nodes)) (.more [0x0a] node.element (following nodes))
      rw [hs]
      simpa using h
end

/-! ## The tree that comes back -/

theorem keptWhole_of_noLineEnd {s : StringT} (h : NoLineEnd s) : keptWhole s = s := if_neg h.not_isLineEnd

/-- The line feed after a text is a line end of its own only after the empty text. -/
theorem keptWhole_snoc {s : StringT} (h : NoLineEnd s) (hne : s ≠ []) : keptWhole (s ++ [0x0a]) = s ++ [0x0a] := by
  apply if_neg
  obtain ⟨b, s, rfl⟩ := List.exists_cons_of_ne_nil hne
  obtain ⟨-, hcr⟩ := h b List.mem_cons_self
  rintro (heq | heq | heq)
  · injection heq with _ heq
    cases s <;> cases heq
  · injection heq with _ heq
    cases s <;> cases heq
  · injection heq with hb _
    exact hcr hb

theorem attrs_map (attrs : List XmlAttr) :
    (attrs.map (fun attr => (attr.m_name, attr.m_value))).map (fun attr => (⟨attr.1, attr.2⟩ : XmlAttr)) = attrs := by
  rw [List.map_map]
  exact List.map_id _

mutual
theorem element_node : ∀ (t : XmlNode), (∀ node ∈ t.elements, node.Plain) → t.element.node keptWhole = t.reread
  | ⟨m_self_close, m_name, m_text, m_attrs, m_nodes⟩, hp => by
      rw [elements_eq] at hp
      obtain ⟨⟨-, -, htext, -⟩, hp⟩ := List.forall_mem_cons.mp hp
      cases m_nodes with
      | nil =>
          rw [XmlNode.element, XmlNode.reread, Element.node, attrs_map]
          show (⟨true, m_name, keptWhole m_text, m_attrs, []⟩ : XmlNode) = ⟨true, m_name, if _ then _ else _, m_attrs, []⟩
          rw [keptWhole_of_noLineEnd htext.noLineEnd, if_pos (by simp)]
      | cons node nodes =>
          obtain ⟨hp, hp'⟩ := List.forall_mem_append.mp hp
          obtain ⟨htext', hnodes⟩ := following_node nodes hp'
          rw [XmlNode.element, XmlNode.reread, Element.node, attrs_map]
          show (⟨true, m_name, keptWhole (m_text ++ [0x0a]) ++ (following nodes).text keptWhole, m_attrs,
            node.element.node keptWhole :: (following nodes).nodes keptWhole⟩ : XmlNode) = _
          rw [htext', hnodes, element_node node hp, List.append_nil]
          by_cases hempty : m_text = []
          · subst hempty
            rfl
          · rw [keptWhole_snoc htext.noLineEnd hempty, if_neg (by simpa using hempty)]
            rfl

theorem following_node : ∀ (nodes : List XmlNode), (∀ node ∈ allElements nodes, node.Plain) →
    (following nodes).text keptWhole = [] ∧ (following nodes).nodes keptWhole = allReread nodes
  | [], _ => ⟨rfl, rfl⟩
  | node :: nodes, hp => by
      obtain ⟨hp, hp'⟩ := List.forall_mem_append.mp hp
      obtain ⟨htext, hnodes⟩ := following_node nodes hp'
      constructor
      · show keptWhole [0x0a] ++ (following nodes).text keptWhole = []
        rw [htext]
        rfl
      · show node.element.node keptWhole :: (following nodes).nodes keptWhole = node.reread :: allReread nodes
        rw [hnodes, element_node node hp]
end

mutual
theorem reread_selfClosing : ∀ t : XmlNode, t.reread.selfClosing = t.reread
  | ⟨_, m_name, m_text, m_attrs, m_nodes⟩ => by
      rw [XmlNode.reread, XmlNode.selfClosing, allReread_selfClosing]

theorem allReread_selfClosing : ∀ nodes : List XmlNode, allSelfClosing (allReread nodes) = allReread nodes
  | [] => rfl
  | node :: nodes => by
      rw [allReread, allSelfClosing, reread_selfClosing, allReread_selfClosing]
end

mutual
theorem reread_eq_iff : ∀ t : XmlNode, t.reread = t.selfClosing ↔ ∀ node ∈ t.elements, node.Unmixed
  | ⟨m_self_close, m_name, m_text, m_attrs, m_nodes⟩ => by
      rw [elements_eq, List.forall_mem_cons, XmlNode.reread, XmlNode.selfClosing]
      have htext : (if m_text.isEmpty || m_nodes.isEmpty then m_text else m_text ++ [0x0a]) = m_text ↔
          XmlNode.Unmixed ⟨m_self_close, m_name, m_text, m_attrs, m_nodes⟩ := by
        simp only [XmlNode.Unmixed, Bool.or_eq_true, List.isEmpty_iff]
        by_cases h : m_text = [] ∨ m_nodes = []
        · exact iff_of_true (if_pos h) h
        · refine iff_of_false (fun heq => ?_) h
          rw [if_neg h] at heq
          exact List.cons_ne_nil _ _ (List.append_right_eq_self.mp heq)
      rw [← htext, ← allReread_eq_iff m_nodes]
      constructor
      · intro h
        injection h with _ _ htext _ hnodes
        exact ⟨htext, hnodes⟩
      · rintro ⟨htext, hnodes⟩
        rw [htext, hnodes]

theorem allReread_eq_iff : ∀ nodes : List XmlNode,
    allReread nodes = allSelfClosing nodes ↔ ∀ node ∈ allElements nodes, node.Unmixed
  | [] => ⟨fun _ _ hnode => absurd hnode List.not_mem_nil, fun _ => rfl⟩
  | node :: nodes => by
      show node.reread :: allReread nodes = node.selfClosing :: allSelfClosing nodes ↔
        ∀ n ∈ node.elements ++ allElements nodes, n.Unmixed
      rw [List.cons.injEq, List.forall_mem_append, reread_eq_iff node, allReread_eq_iff nodes]
end

/-- The tree comes back but for its flags exactly when no element has both a text and subnodes. -/
theorem same_reread_iff (t : XmlNode) : Same t.reread t ↔ ∀ node ∈ t.elements, node.Unmixed := by
  rw [Same, reread_selfClosing, reread_eq_iff]

/-! ## Reading back -/

variable {xmlSAXUserParseMemory : StringT → Int × List SaxEvent} {t : XmlNode}

/-- **What `parse` makes of a printed tree.** -/
theorem parse_output (hsax : Faithful xmlSAXUserParseMemory) (hp : ∀ node ∈ t.elements, node.Plain)
    (hc : ∀ node ∈ t.elements, node.Encoded) : parse xmlSAXUserParseMemory t.output = some (.ok t.reread) := by
  obtain ⟨s, hs, helem⟩ := reads_output t hp
  have hchars : XmlChars s := by
    have h := (xmlChars_output (fun node hnode => (hp node hnode).1)).mpr hc
    rw [hs] at h
    exact ((xmlChars_split (by decide)).mp h).1
  have hevents : (t.element.events whole).foldlM handle none = some (stackOf t.reread []) := by
    rw [foldlM_events]
    have hkept : (fun run => kept (whole run)) = keptWhole := funext kept_whole
    rw [hkept, element_node t hp]
  rw [hs, parse, hsax.reports s t.element hchars helem]
  show ((t.element.events whole).foldlM handle none).bind _ = _
  rw [hevents]
  rfl

/-- What is not made of characters is rejected. -/
theorem parse_rejects (hsax : Faithful xmlSAXUserParseMemory) (hn : ∀ node ∈ t.elements, node.Named)
    (hc : ¬ ∀ node ∈ t.elements, node.Encoded) (t' : XmlNode) : parse xmlSAXUserParseMemory t.output ≠ some (.ok t') := by
  have hname : IsName t.m_name := by
    rw [elements_eq] at hn
    exact (hn t List.mem_cons_self).1
  have hchars : ¬ XmlChars t.output := fun h => hc ((xmlChars_output hn).mp h)
  have hres : (xmlSAXUserParseMemory t.output).1 ≠ 0 := by
    rw [output_eq, List.append_assoc, List.append_assoc, List.singleton_append] at hchars ⊢
    exact hsax.rejects _ _ hname hchars
  intro h
  obtain ⟨ns, -, h⟩ := Option.bind_eq_some_iff.mp h
  simp only [if_pos hres] at h
  cases h

/-! ## One reading -/

/-- Two texts up to the first byte that is not of their kind. -/
theorem span_unique {p : UInt8 → Prop} {b b' : UInt8} {r r' : StringT} (hb : ¬ p b) (hb' : ¬ p b') :
    ∀ {u u' : StringT}, (∀ x ∈ u, p x) → (∀ x ∈ u', p x) → u ++ b :: r = u' ++ b' :: r' → u = u' ∧ b :: r = b' :: r'
  | [], [], _, _, h => ⟨rfl, h⟩
  | [], x :: _, _, hu', h => absurd (hu' x List.mem_cons_self) ((List.cons.inj h).1 ▸ hb)
  | x :: _, [], hu, _, h => absurd (hu x List.mem_cons_self) ((List.cons.inj h).1 ▸ hb')
  | x :: u, x' :: u', hu, hu', h => by
      injection h with hx h
      obtain ⟨rfl, htail⟩ := span_unique hb hb' (List.forall_mem_cons.mp hu).2 (List.forall_mem_cons.mp hu').2 h
      exact ⟨by rw [hx], htail⟩

theorem IsName.unique {n n' r r' : StringT} {b b' : UInt8} (hn : IsName n) (hn' : IsName n') (hb : EndsName b)
    (hb' : EndsName b') (h : n ++ b :: r = n' ++ b' :: r') : n = n' ∧ b :: r = b' :: r' :=
  span_unique (not_not.mpr hb) (not_not.mpr hb') hn.not_endsName hn'.not_endsName h

/-- After the attributes, too, comes a byte that is not in a name. -/
theorem ReadsAttrs.exists_cons {as r : StringT} {attrs : List (StringT × StringT)} {b : UInt8} (h : ReadsAttrs as attrs)
    (hb : EndsName b) : ∃ b' r', as ++ b :: r = b' :: r' ∧ EndsName b' := by
  cases h with
  | nil => exact ⟨b, r, rfl, hb⟩
  | cons _ _ _ => exact ⟨0x20, _, rfl, by decide⟩

theorem ReadsAttrs.unique {b b' : UInt8} {r r' : StringT} (hb : b ≠ 0x20) (hb' : b' ≠ 0x20) :
    ∀ {as as' : StringT} {attrs attrs' : List (StringT × StringT)}, ReadsAttrs as attrs → ReadsAttrs as' attrs' →
      as ++ b :: r = as' ++ b' :: r' → as = as' ∧ attrs = attrs' ∧ b :: r = b' :: r'
  | _, _, _, _, .nil, .nil, h => ⟨rfl, rfl, h⟩
  | _, _, _, _, .nil, .cons _ _ _, h => absurd (List.cons.inj h).1 hb
  | _, _, _, _, .cons _ _ _, .nil, h => absurd (List.cons.inj h).1.symm hb'
  | _, _, _, _, .cons hn hv has, .cons hn' hv' has', h => by
      simp only [List.append_assoc, List.cons_append, List.nil_append, List.cons.injEq, true_and] at h
      obtain ⟨rfl, hvalue⟩ := hn.unique hn' (by decide) (by decide) h
      injection hvalue with _ hvalue
      injection hvalue with _ hvalue
      have hq : ¬ (0x22 : UInt8) ∉ ([0x22, 0x3c, 0x26, 0x09, 0x0a, 0x0d] : StringT) := by decide
      obtain ⟨rfl, hmore⟩ := span_unique hq hq hv hv' hvalue
      injection hmore with _ hmore
      obtain ⟨rfl, rfl, hrest⟩ := ReadsAttrs.unique hb hb' has has' hmore
      exact ⟨rfl, rfl, hrest⟩

/-- The name and the attributes of a tag. -/
theorem tag_unique {n n' as as' r r' : StringT} {attrs attrs' : List (StringT × StringT)} {b b' : UInt8} (hn : IsName n)
    (hn' : IsName n') (has : ReadsAttrs as attrs) (has' : ReadsAttrs as' attrs') (hb : EndsName b) (hb' : EndsName b')
    (hspace : b ≠ 0x20) (hspace' : b' ≠ 0x20) (h : n ++ (as ++ b :: r) = n' ++ (as' ++ b' :: r')) :
    n = n' ∧ as = as' ∧ attrs = attrs' ∧ b :: r = b' :: r' := by
  obtain ⟨c, s, hc, hends⟩ := has.exists_cons (r := r) hb
  obtain ⟨c', s', hc', hends'⟩ := has'.exists_cons (r := r') hb'
  have hnames := h
  rw [hc, hc'] at hnames
  obtain ⟨rfl, hrest⟩ := hn.unique hn' hends hends' hnames
  rw [← hc, ← hc'] at hrest
  exact ⟨rfl, ReadsAttrs.unique hspace hspace' has has' hrest⟩

/-- An element starts with a tag that is not an end tag. -/
theorem ReadsElement.exists_cons {s : StringT} {e : Element StringT} (h : ReadsElement s e) (r : StringT) :
    ∃ b s', s ++ r = 0x3c :: b :: s' ∧ ¬ EndsName b := by
  have hname : ∀ {n : StringT} (r : StringT), IsName n → ∃ b s', 0x3c :: (n ++ r) = 0x3c :: b :: s' ∧ ¬ EndsName b := by
    intro n r hn
    obtain ⟨b, n', rfl⟩ := List.exists_cons_of_ne_nil hn.ne_nil
    exact ⟨b, n' ++ r, rfl, hn.not_endsName b List.mem_cons_self⟩
  cases h with
  | empty hn _ _ =>
      simp only [List.append_assoc, List.cons_append, List.nil_append]
      exact hname _ hn
  | tags hn _ _ _ =>
      simp only [List.append_assoc, List.cons_append, List.nil_append]
      exact hname _ hn

/-- Character data goes up to the next tag. -/
theorem PlainRun.unique {run run' r r' : StringT} (h : PlainRun run) (h' : PlainRun run')
    (heq : run ++ 0x3c :: r = run' ++ 0x3c :: r') : run = run' ∧ r = r' := by
  have hlt : ¬ (0x3c : UInt8) ≠ 0x3c := not_not.mpr rfl
  obtain ⟨rfl, htail⟩ := span_unique (p := fun b => b ≠ 0x3c) hlt hlt (fun b hb => (h.1.1 b hb).1)
    (fun b hb => (h'.1.1 b hb).1) heq
  exact ⟨rfl, (List.cons.inj htail).2⟩

mutual
/-- **A text is read as one element.** -/
theorem ReadsElement.unique : ∀ {s s' r r' : StringT} {e e' : Element StringT}, ReadsElement s e → ReadsElement s' e' →
    s ++ r = s' ++ r' → e = e' ∧ r = r'
  | _, _, _, _, _, _, .empty hn has _, .empty hn' has' _, h => by
      simp only [List.append_assoc, List.cons_append, List.nil_append, List.cons.injEq, true_and] at h
      obtain ⟨rfl, rfl, rfl, h⟩ := tag_unique hn hn' has has' (by decide) (by decide) (by decide) (by decide) h
      simp only [List.cons.injEq, true_and] at h
      exact ⟨rfl, h⟩
  | _, _, _, _, _, _, .empty hn has _, .tags hn' has' _ _, h => by
      simp only [List.append_assoc, List.cons_append, List.nil_append, List.cons.injEq, true_and] at h
      obtain ⟨-, -, -, h⟩ := tag_unique hn hn' has has' (by decide) (by decide) (by decide) (by decide) h
      exact absurd (List.cons.inj h).1 (by decide)
  | _, _, _, _, _, _, .tags hn has _ _, .empty hn' has' _, h => by
      simp only [List.append_assoc, List.cons_append, List.nil_append, List.cons.injEq, true_and] at h
      obtain ⟨-, -, -, h⟩ := tag_unique hn hn' has has' (by decide) (by decide) (by decide) (by decide) h
      exact absurd (List.cons.inj h).1 (by decide)
  | _, _, _, _, _, _, .tags hn has _ hc, .tags hn' has' _ hc', h => by
      simp only [List.append_assoc, List.cons_append, List.nil_append, List.cons.injEq, true_and] at h
      obtain ⟨rfl, rfl, rfl, h⟩ := tag_unique hn hn' has has' (by decide) (by decide) (by decide) (by decide) h
      injection h with _ h
      obtain ⟨rfl, h⟩ := ReadsContent.unique hc hc' h
      have hend := (hn.unique hn (by decide) (by decide) h).2
      exact ⟨rfl, (List.cons.inj hend).2⟩

theorem ReadsContent.unique : ∀ {c c' r r' : StringT} {x x' : Content StringT}, ReadsContent c x → ReadsContent c' x' →
    c ++ 0x3c :: 0x2f :: r = c' ++ 0x3c :: 0x2f :: r' → x = x' ∧ r = r'
  | _, _, _, _, _, _, .last hr, .last hr', h => by
      obtain ⟨rfl, hrest⟩ := hr.unique hr' h
      exact ⟨rfl, (List.cons.inj hrest).2⟩
  | _, _, _, _, _, _, .last hr, .more hr' he' _, h => by
      simp only [List.append_assoc] at h
      obtain ⟨b, s, hs, hb⟩ := he'.exists_cons _
      rw [hs] at h
      obtain ⟨-, h⟩ := hr.unique hr' h
      exact absurd (by rw [← (List.cons.inj h).1]; decide) hb
  | _, _, _, _, _, _, .more hr he _, .last hr', h => by
      simp only [List.append_assoc] at h
      obtain ⟨b, s, hs, hb⟩ := he.exists_cons _
      rw [hs] at h
      obtain ⟨-, h⟩ := hr.unique hr' h
      exact absurd (by rw [(List.cons.inj h).1]; decide) hb
  | _, _, _, _, _, _, .more hr he hc, .more hr' he' hc', h => by
      simp only [List.append_assoc] at h
      obtain ⟨b, s, hs, -⟩ := he.exists_cons _
      obtain ⟨b', s', hs', -⟩ := he'.exists_cons _
      have hruns := h
      rw [hs, hs'] at hruns
      obtain ⟨rfl, htail⟩ := hr.unique hr' hruns
      obtain ⟨rfl, hrest⟩ := ReadsElement.unique he he' (List.append_cancel_left h)
      obtain ⟨rfl, hr⟩ := ReadsContent.unique hc hc' hrest
      exact ⟨rfl, hr⟩
end

open Classical in
/-- A libxml2 that reports the plain documents and rejects all other texts. -/
noncomputable def plainReader (s : StringT) : Int × List SaxEvent :=
  if h : ∃ u e, s = u ++ [0x0a] ∧ XmlChars u ∧ ReadsElement u e then (0, h.choose_spec.choose.events whole) else (1, [])

theorem plainReader_faithful : Faithful plainReader where
  reports := by
    intro s e hs he
    have h : ∃ u e', s ++ [0x0a] = u ++ [0x0a] ∧ XmlChars u ∧ ReadsElement u e' := ⟨s, e, rfl, hs, he⟩
    obtain ⟨heq, -, he'⟩ := h.choose_spec.choose_spec
    rw [plainReader, dif_pos h, (he.unique he' heq).1]
  rejects := by
    intro n s hn hs
    rw [plainReader, dif_neg]
    · exact Int.one_ne_zero
    · rintro ⟨u, e, heq, hu, -⟩
      rw [heq] at hs
      exact hs ((xmlChars_split (by decide)).mpr ⟨hu, xmlChars_nil⟩)

/-! ## The round trip -/

/-- **The round trip** of a tree without markup succeeds exactly when all texts and values are characters and no
    element has both a text and subnodes. -/
theorem round_trip_iff (hsax : Faithful xmlSAXUserParseMemory) (hp : ∀ node ∈ t.elements, node.Plain) :
    (∃ t', parse xmlSAXUserParseMemory t.output = some (.ok t') ∧ Same t' t) ↔
      ∀ node ∈ t.elements, node.Encoded ∧ node.Unmixed := by
  by_cases hc : ∀ node ∈ t.elements, node.Encoded
  · rw [parse_output hsax hp hc]
    constructor
    · rintro ⟨t', heq, hsame⟩
      injection heq with heq
      injection heq with heq
      subst heq
      exact fun node hnode => ⟨hc node hnode, (same_reread_iff t).mp hsame node hnode⟩
    · intro h
      exact ⟨t.reread, rfl, (same_reread_iff t).mpr (fun node hnode => (h node hnode).2)⟩
  · constructor
    · rintro ⟨t', heq, -⟩
      exact absurd heq (parse_rejects hsax (fun node hnode => (hp node hnode).1) hc t')
    · exact fun h => absurd (fun node hnode => (h node hnode).1) hc

theorem isName_ascii {c : Char} (hc : InRanges nameStartRanges c.toNat) : IsName (Utf8.encode [c]) :=
  ⟨c, [], hc, by simp, rfl⟩

/-- The theorem for an element without a text, with an element below that has one. -/
theorem round_trip_iff_nested :
    (∃ t', parse plainReader (XmlNode.mk true [0x61] [] [] [⟨false, [0x62], [0x78], [], []⟩]).output = some (.ok t') ∧
      Same t' ⟨true, [0x61], [], [], [⟨false, [0x62], [0x78], [], []⟩]⟩) ↔
    ∀ node ∈ (XmlNode.mk true [0x61] [] [] [⟨false, [0x62], [0x78], [], []⟩]).elements, node.Encoded ∧ node.Unmixed := by
  apply round_trip_iff plainReader_faithful
  intro node hnode
  simp only [XmlNode.elements, allElements, List.append_nil, List.mem_cons, List.not_mem_nil, or_false] at hnode
  have hx : PlainText [0x78] := List.forall_mem_singleton.mpr (by decide)
  have hnone : PlainText [] := by intro b hb; cases hb
  rcases hnode with rfl | rfl
  · exact ⟨⟨isName_ascii (c := 'a') (by decide), by simp⟩, List.nodup_nil, hnone, by simp⟩
  · exact ⟨⟨isName_ascii (c := 'b') (by decide), by simp⟩, List.nodup_nil, hx, by simp⟩

/-- **An element with a text and a subnode**: the text `x` comes back with a line feed behind it. -/
theorem text_grows :
    let t : XmlNode := ⟨true, [0x61], [0x78], [], [⟨true, [0x62], [], [], []⟩]⟩
    let t' : XmlNode := ⟨true, [0x61], [0x78, 0x0a], [], [⟨true, [0x62], [], [], []⟩]⟩
    (∀ node ∈ t.elements, node.Plain) ∧ Faithful plainReader ∧ parse plainReader t.output = some (.ok t') ∧
      ¬ Same t' t := by
  intro t t'
  have hx : PlainText [0x78] := List.forall_mem_singleton.mpr (by decide)
  have hnone : PlainText [] := by intro b hb; cases hb
  have hp : ∀ node ∈ t.elements, node.Plain := by
    intro node hnode
    simp only [t, XmlNode.elements, allElements, List.append_nil, List.mem_cons, List.not_mem_nil, or_false] at hnode
    rcases hnode with rfl | rfl
    · exact ⟨⟨isName_ascii (c := 'a') (by decide), by simp⟩, List.nodup_nil, hx, by simp⟩
    · exact ⟨⟨isName_ascii (c := 'b') (by decide), by simp⟩, List.nodup_nil, hnone, by simp⟩
  have hc : ∀ node ∈ t.elements, node.Encoded := by
    intro node hnode
    simp only [t, XmlNode.elements, allElements, List.append_nil, List.mem_cons, List.not_mem_nil, or_false] at hnode
    rcases hnode with rfl | rfl
    · exact ⟨⟨['x'], inCharRanges_ascii (by simp), rfl⟩, by simp⟩
    · exact ⟨xmlChars_nil, by simp⟩
  refine ⟨hp, plainReader_faithful, parse_output plainReader_faithful hp hc, fun hsame => ?_⟩
  have h := (same_reread_iff t).mp hsame t (by rw [elements_eq]; exact List.mem_cons_self)
  rcases h with h | h <;> cases h

end Cclxml
end Cclib
