import Cclib.Cclxml.Grammar

/-!
# `Cclxml.Structure` — what the printed elements are to a reader

`operator<<` writes texts and attribute values as they are.

- `output_wellFormed` — when they are content without elements, and attribute values, as they are, the text is
  well formed and its elements are those of the tree.
- `markup_injected` — a text that has an element in it becomes that element.
-/

namespace Cclib
namespace Cclxml

mutual
/-- The node and all nodes below it. -/
def XmlNode.elements : XmlNode → List XmlNode
  | ⟨m_self_close, m_name, m_text, m_attrs, m_nodes⟩ =>
      ⟨m_self_close, m_name, m_text, m_attrs, m_nodes⟩ :: allElements m_nodes

def allElements : List XmlNode → List XmlNode
  | [] => []
  | node :: nodes => node.elements ++ allElements nodes
end

mutual
/-- The elements and the names of their attributes. -/
def XmlNode.skeleton : XmlNode → Skeleton
  | ⟨_, m_name, _, m_attrs, m_nodes⟩ => .node m_name (m_attrs.map XmlAttr.m_name) (skeletons m_nodes)

def skeletons : List XmlNode → List Skeleton
  | [] => []
  | node :: nodes => node.skeleton :: skeletons nodes
end

/-- The names of an element. -/
def XmlNode.Named (node : XmlNode) : Prop := IsName node.m_name ∧ ∀ attr ∈ node.m_attrs, IsName attr.m_name

/-- The text and the values of an element are characters. -/
def XmlNode.Encoded (node : XmlNode) : Prop := XmlChars node.m_text ∧ ∀ attr ∈ node.m_attrs, XmlChars attr.m_value

/-! ## Characters of the printed text -/

theorem xmlChars_attrs {b : UInt8} (hb : AsciiChar b) {v : StringT} : ∀ {attrs : List XmlAttr},
    (∀ attr ∈ attrs, IsName attr.m_name) →
      (XmlChars (attrs.flatMap (fun attr => [0x20] ++ attr.output) ++ b :: v) ↔
        (∀ attr ∈ attrs, XmlChars attr.m_value) ∧ XmlChars v)
  | [], _ => by
      show XmlChars (b :: v) ↔ _
      rw [xmlChars_cons hb, and_iff_right (by simp)]
  | attr :: attrs, hn => by
      obtain ⟨hname, hn⟩ := List.forall_mem_cons.mp hn
      have hshape : (attr :: attrs).flatMap (fun attr => [0x20] ++ attr.output) ++ b :: v
          = 0x20 :: (attr.m_name ++ 0x3d :: 0x22 :: (attr.m_value ++
              0x22 :: (attrs.flatMap (fun attr => [0x20] ++ attr.output) ++ b :: v))) := by
        simp [XmlAttr.output]
      rw [hshape, xmlChars_cons (by decide), xmlChars_split (by decide), xmlChars_cons (by decide),
        xmlChars_split (by decide), xmlChars_attrs hb hn, and_iff_right hname.xmlChars, List.forall_mem_cons, and_assoc]

/-- The start of a tag: name and attributes, up to what follows them. -/
theorem xmlChars_tag {b : UInt8} (hb : AsciiChar b) {v : StringT} {node : XmlNode} (hn : node.Named) :
    XmlChars ([0x3c] ++ node.m_name ++ node.m_attrs.flatMap (fun attr => [0x20] ++ attr.output) ++ b :: v) ↔
      (∀ attr ∈ node.m_attrs, XmlChars attr.m_value) ∧ XmlChars v := by
  rw [← xmlChars_attrs hb hn.2]
  cases h : node.m_attrs with
  | nil =>
      show XmlChars (0x3c :: (node.m_name ++ []) ++ b :: v) ↔ XmlChars (b :: v)
      rw [List.append_nil, List.cons_append, xmlChars_cons (by decide), xmlChars_split hb, xmlChars_cons hb,
        and_iff_right hn.1.xmlChars]
  | cons attr attrs =>
      have hshape : [0x3c] ++ node.m_name ++ (attr :: attrs).flatMap (fun attr => [0x20] ++ attr.output) ++ b :: v
          = 0x3c :: (node.m_name ++ 0x20 :: (attr.output ++
              (attrs.flatMap (fun attr => [0x20] ++ attr.output) ++ b :: v))) := by
        simp
      have hshape' : (attr :: attrs).flatMap (fun attr => [0x20] ++ attr.output) ++ b :: v
          = 0x20 :: (attr.output ++ (attrs.flatMap (fun attr => [0x20] ++ attr.output) ++ b :: v)) := by
        simp
      rw [hshape, hshape', xmlChars_cons (by decide), xmlChars_split (by decide), xmlChars_cons (by decide),
        and_iff_right hn.1.xmlChars]

/-- The texts of `operator<<`, in its two forms. -/
theorem output_eq (node : XmlNode) : node.output =
    [0x3c] ++ node.m_name ++ node.m_attrs.flatMap (fun attr => [0x20] ++ attr.output) ++
      if node.m_self_close && node.m_text.isEmpty && node.m_nodes.isEmpty then [0x2f, 0x3e, 0x0a]
      else [0x3e] ++ node.m_text ++ (if node.m_nodes.isEmpty then [] else [0x0a] ++ outputNodes node.m_nodes) ++
        [0x3c, 0x2f] ++ node.m_name ++ [0x3e, 0x0a] := by
  cases node
  rw [XmlNode.output]

theorem elements_eq (node : XmlNode) : node.elements = node :: allElements node.m_nodes := by
  cases node
  rw [XmlNode.elements]

/-- What stands between the tags, up to the end tag. -/
theorem xmlChars_body {b : UInt8} (hb : AsciiChar b) {text v : StringT} {nodes : List XmlNode}
    (hnodes : ∀ {v}, XmlChars (outputNodes nodes ++ v) ↔ (∀ node ∈ allElements nodes, node.Encoded) ∧ XmlChars v) :
    XmlChars (text ++ (if nodes.isEmpty then [] else [0x0a] ++ outputNodes nodes) ++ b :: v) ↔
      (XmlChars text ∧ ∀ node ∈ allElements nodes, node.Encoded) ∧ XmlChars v := by
  cases nodes with
  | nil =>
      show XmlChars (text ++ [] ++ b :: v) ↔ (XmlChars text ∧ ∀ node ∈ ([] : List XmlNode), node.Encoded) ∧ XmlChars v
      have hnone : ∀ node ∈ ([] : List XmlNode), node.Encoded := by simp
      rw [List.append_nil, xmlChars_split hb, and_iff_left hnone]
  | cons node nodes =>
      show XmlChars (text ++ ([0x0a] ++ outputNodes (node :: nodes)) ++ b :: v) ↔ _
      rw [List.append_assoc, List.append_assoc, List.singleton_append, xmlChars_split (by decide), hnodes,
        xmlChars_cons hb, and_assoc]

mutual
theorem xmlChars_output_append : ∀ (t : XmlNode), (∀ node ∈ t.elements, node.Named) → ∀ {v : StringT},
    (XmlChars (t.output ++ v) ↔ (∀ node ∈ t.elements, node.Encoded) ∧ XmlChars v)
  | ⟨m_self_close, m_name, m_text, m_attrs, m_nodes⟩, hn, v => by
      rw [elements_eq] at hn ⊢
      obtain ⟨hnode, hnodes⟩ := List.forall_mem_cons.mp hn
      rw [output_eq, List.forall_mem_cons]
      by_cases hclose : (m_self_close && m_text.isEmpty && m_nodes.isEmpty) = true
      · simp only [Bool.and_eq_true, List.isEmpty_iff] at hclose
        obtain ⟨⟨rfl, rfl⟩, rfl⟩ := hclose
        show XmlChars (_ ++ [0x2f, 0x3e, 0x0a] ++ v) ↔ _
        rw [List.append_assoc]
        show XmlChars (_ ++ 0x2f :: (0x3e :: 0x0a :: v)) ↔ _
        rw [xmlChars_tag (by decide) hnode, xmlChars_cons (by decide), xmlChars_cons (by decide)]
        simp only [XmlNode.Encoded, xmlChars_nil, true_and, allElements, List.not_mem_nil, false_imp_iff, implies_true,
          and_true]
      · simp only [if_neg hclose]
        have hshape : ∀ body : StringT, [0x3c] ++ m_name ++ m_attrs.flatMap (fun attr => [0x20] ++ attr.output) ++
            ([0x3e] ++ m_text ++ body ++ [0x3c, 0x2f] ++ m_name ++ [0x3e, 0x0a]) ++ v
              = [0x3c] ++ m_name ++ m_attrs.flatMap (fun attr => [0x20] ++ attr.output) ++
                0x3e :: (m_text ++ body ++ 0x3c :: 0x2f :: (m_name ++ 0x3e :: 0x0a :: v)) := by
          intro body
          simp
        rw [hshape, xmlChars_tag (by decide) hnode, xmlChars_body (by decide) (xmlChars_outputNodes m_nodes hnodes),
          xmlChars_cons (by decide), xmlChars_split (by decide), xmlChars_cons (by decide),
          and_iff_right hnode.1.xmlChars]
        show (_ ∧ (XmlChars m_text ∧ _) ∧ _) ↔ ((XmlChars m_text ∧ _) ∧ _) ∧ _
        tauto

theorem xmlChars_outputNodes : ∀ (nodes : List XmlNode), (∀ node ∈ allElements nodes, node.Named) → ∀ {v : StringT},
    (XmlChars (outputNodes nodes ++ v) ↔ (∀ node ∈ allElements nodes, node.Encoded) ∧ XmlChars v)
  | [], _, v => by
      show XmlChars v ↔ (∀ node ∈ ([] : List XmlNode), node.Encoded) ∧ XmlChars v
      rw [and_iff_right (by simp)]
  | node :: nodes, hn, v => by
      obtain ⟨hnode, hnodes⟩ := List.forall_mem_append.mp hn
      show XmlChars (node.output ++ outputNodes nodes ++ v) ↔ (∀ n ∈ node.elements ++ allElements nodes, n.Encoded) ∧ _
      rw [List.append_assoc, xmlChars_output_append node hnode, xmlChars_outputNodes nodes hnodes,
        List.forall_mem_append, and_assoc]
end

/-- **The printed text is made of characters** exactly when the texts and the values are. -/
theorem xmlChars_output {t : XmlNode} (hn : ∀ node ∈ t.elements, node.Named) :
    XmlChars t.output ↔ ∀ node ∈ t.elements, node.Encoded := by
  have h := xmlChars_output_append t hn (v := [])
  rwa [List.append_nil, and_iff_left xmlChars_nil] at h

/-! ## Well-formed texts -/

theorem CharData.snoc_lineFeed {d : StringT} (h : CharData d) : CharData (d ++ [0x0a]) := by
  obtain ⟨hd, hclose⟩ := h
  refine ⟨List.forall_mem_append.mpr ⟨hd, by decide +kernel⟩, fun hinfix => ?_⟩
  -- `]]>` does not end with a line feed, so it was there before
  rcases List.infix_concat_iff.mp hinfix with hsuffix | hinfix
  · obtain ⟨t, ht⟩ := hsuffix
    have hlast := congrArg List.getLast? ht
    rw [List.getLast?_append, List.getLast?_concat] at hlast
    cases hlast
  · exact hclose hinfix

/-- A line feed at the end of content. -/
theorem IsContent.snoc_lineFeed {c : StringT} {ks : List Skeleton} : IsContent c ks → IsContent (c ++ [0x0a]) ks
  | .chars hd => .chars hd.snoc_lineFeed
  | .element hd he hc => by
      rw [List.append_assoc]
      exact .element hd he hc.snoc_lineFeed
  | .other hd ho hc => by
      rw [List.append_assoc]
      exact .other hd ho hc.snoc_lineFeed

theorem charData_nil : CharData [] := ⟨by simp, by decide⟩

/-- An element at the end of content. -/
theorem IsContent.snoc_element {c e : StringT} {ks : List Skeleton} {k : Skeleton} (he : IsElement e k) :
    IsContent c ks → IsContent (c ++ e) (ks ++ [k])
  | .chars hd => by
      have h := IsContent.element hd he (.chars charData_nil)
      rwa [List.append_nil] at h
  | .element hd he' hc => by
      rw [List.append_assoc]
      exact .element hd he' (hc.snoc_element he)
  | .other hd ho hc => by
      rw [List.append_assoc]
      exact .other hd ho (hc.snoc_element he)

/-- The text is content without elements and the values are attribute values, as they are. -/
def XmlNode.Markless (node : XmlNode) : Prop :=
  IsContent node.m_text [] ∧ (∀ attr ∈ node.m_attrs, AttChars 0x22 attr.m_value) ∧
    (node.m_attrs.map XmlAttr.m_name).Nodup

theorem space_nil : Space [] := by simp [Space]

theorem attributes_output : ∀ {attrs : List XmlAttr}, (∀ attr ∈ attrs, IsName attr.m_name) →
    (∀ attr ∈ attrs, AttChars 0x22 attr.m_value) →
      Attributes (attrs.flatMap (fun attr => [0x20] ++ attr.output)) (attrs.map XmlAttr.m_name)
  | [], _, _ => .nil
  | attr :: attrs, hn, hv => by
      obtain ⟨hname, hn⟩ := List.forall_mem_cons.mp hn
      obtain ⟨hvalue, hv⟩ := List.forall_mem_cons.mp hv
      have hblank : Space [0x20] := by simp [Space]
      have h := Attributes.cons (by decide) hblank hname space_nil space_nil (.inl rfl) hvalue (attributes_output hn hv)
      simpa [XmlAttr.output] using h

mutual
/-- An element as it is printed, with the line feed behind it. -/
theorem isElement_output : ∀ (t : XmlNode), (∀ node ∈ t.elements, node.Named) → (∀ node ∈ t.elements, node.Markless) →
    ∃ e, t.output = e ++ [0x0a] ∧ IsElement e t.skeleton
  | ⟨m_self_close, m_name, m_text, m_attrs, m_nodes⟩, hn, hc => by
      rw [elements_eq] at hn hc
      obtain ⟨⟨hname, hattrs⟩, hn⟩ := List.forall_mem_cons.mp hn
      obtain ⟨⟨htext, hvalues, hnd⟩, hc⟩ := List.forall_mem_cons.mp hc
      have has := attributes_output hattrs hvalues
      rw [output_eq]
      by_cases hclose : (m_self_close && m_text.isEmpty && m_nodes.isEmpty) = true
      · simp only [Bool.and_eq_true, List.isEmpty_iff] at hclose
        obtain ⟨⟨rfl, rfl⟩, rfl⟩ := hclose
        have h := IsElement.empty hname has hnd space_nil
        refine ⟨_, ?_, h⟩
        simp
      · have hbody : IsContent (m_text ++ (if m_nodes.isEmpty then [] else [0x0a] ++ outputNodes m_nodes))
            (skeletons m_nodes) := by
          cases m_nodes with
          | nil =>
              show IsContent (m_text ++ []) []
              rwa [List.append_nil]
          | cons node nodes =>
              show IsContent (m_text ++ ([0x0a] ++ outputNodes (node :: nodes))) _
              rw [← List.append_assoc]
              exact isContent_outputNodes (node :: nodes) hn hc htext.snoc_lineFeed
        have h := IsElement.tags hname has hnd space_nil hbody space_nil
        refine ⟨_, ?_, h⟩
        rw [if_neg hclose]
        simp

/-- Printed nodes at the end of content. -/
theorem isContent_outputNodes : ∀ (nodes : List XmlNode), (∀ node ∈ allElements nodes, node.Named) →
    (∀ node ∈ allElements nodes, node.Markless) → ∀ {c : StringT} {ks : List Skeleton}, IsContent c ks →
      IsContent (c ++ outputNodes nodes) (ks ++ skeletons nodes)
  | [], _, _, c, ks, h => by
      show IsContent (c ++ []) (ks ++ [])
      rwa [List.append_nil, List.append_nil]
  | node :: nodes, hn, hc, c, ks, h => by
      obtain ⟨hn, hn'⟩ := List.forall_mem_append.mp hn
      obtain ⟨hc, hc'⟩ := List.forall_mem_append.mp hc
      obtain ⟨e, he, helem⟩ := isElement_output node hn hc
      have hnode := (h.snoc_element helem).snoc_lineFeed
      have hall := isContent_outputNodes nodes hn' hc' hnode
      show IsContent (c ++ (node.output ++ outputNodes nodes)) (ks ++ (node.skeleton :: skeletons nodes))
      rw [he]
      simpa using hall
end

/-- **The printed text is well formed and its elements are those of the tree**, when what is printed as it is, is
    content without elements or an attribute value. -/
theorem output_wellFormed (t : XmlNode) (hn : ∀ node ∈ t.elements, node.Named)
    (hc : ∀ node ∈ t.elements, node.Encoded ∧ node.Markless) : WellFormed t.output t.skeleton := by
  obtain ⟨e, he, helem⟩ := isElement_output t hn (fun node hnode => (hc node hnode).2)
  refine ⟨(xmlChars_output hn).mpr (fun node hnode => (hc node hnode).1), ?_⟩
  have hlf : Space [0x0a] := by simp [Space]
  have hmisc : Miscs ([0x0a] ++ []) := .cons (.inr (.inr ⟨by decide, hlf⟩)) .nil
  rw [he]
  exact .mk .nil helem hmisc

/-- The theorem for an element with an attribute and a text with a reference in it, with an element below. -/
theorem output_wellFormed_reference :
    WellFormed (XmlNode.mk true [0x61] [0x26, 0x6c, 0x74, 0x3b] [⟨[0x78], [0x31]⟩] [⟨true, [0x62], [], [], []⟩]).output
      (.node [0x61] [[0x78]] [.node [0x62] [] []]) := by
  have hname : ∀ (c : Char), InRanges nameStartRanges c.toNat → IsName (Utf8.encode [c]) :=
    fun c hc => ⟨c, [], hc, by simp, rfl⟩
  have hdata : CharData [] := charData_nil
  have hlt : IsContent ([] ++ ([0x26] ++ [0x6c, 0x74] ++ [0x3b]) ++ []) [] :=
    .other hdata (.inl (.entity (by decide))) (.chars hdata)
  have hvalue : AttChars 0x22 [0x31] := .char (by decide) (by decide) (by decide) .nil
  apply output_wellFormed
  · intro node hnode
    simp only [XmlNode.elements, allElements, List.append_nil, List.mem_cons, List.not_mem_nil, or_false] at hnode
    rcases hnode with rfl | rfl
    · exact ⟨hname 'a' (by decide), List.forall_mem_singleton.mpr (hname 'x' (by decide))⟩
    · exact ⟨hname 'b' (by decide), by simp⟩
  · intro node hnode
    simp only [XmlNode.elements, allElements, List.append_nil, List.mem_cons, List.not_mem_nil, or_false] at hnode
    rcases hnode with rfl | rfl
    · refine ⟨⟨⟨['&', 'l', 't', ';'], inCharRanges_ascii (by simp), rfl⟩, ?_⟩, hlt,
        List.forall_mem_singleton.mpr hvalue, by decide +kernel⟩
      exact List.forall_mem_singleton.mpr ⟨['1'], inCharRanges_ascii (by simp), rfl⟩
    · exact ⟨⟨xmlChars_nil, by simp⟩, .chars hdata, by simp, List.nodup_nil⟩

/-! ## Texts with markup -/

/-- A text that starts with the tag of an element has no comment, processing instruction or white space in front of
    it. -/
theorem Miscs.eq_nil {p r r' : StringT} {b : UInt8} (hp : Miscs p) (h : p ++ r = 0x3c :: b :: r') (hb : ¬ EndsName b) :
    p = [] := by
  cases hp with
  | nil => rfl
  | cons hm _ =>
      rcases hm with ⟨d, -, rfl⟩ | ⟨target, sp, d, -, -, -, -, rfl⟩ | ⟨hne, hsp⟩
      · injection h with _ h
        injection h with h _
        exact absurd (by rw [← h]; decide) hb
      · injection h with _ h
        injection h with h _
        exact absurd (by rw [← h]; decide) hb
      · obtain ⟨c, m, rfl⟩ := List.exists_cons_of_ne_nil hne
        injection h with h _
        have hc := hsp c List.mem_cons_self
        rw [h] at hc
        exact absurd hc (by decide)

/-- The name at the start of a tag. -/
theorem IsName.eq_singleton {n r r' : StringT} {a b : UInt8} (hn : IsName n) (h : n ++ r = a :: b :: r') (hb : EndsName b) :
    n = [a] ∧ r = b :: r' := by
  obtain ⟨c, n, rfl⟩ := List.exists_cons_of_ne_nil hn.ne_nil
  injection h with hc h
  subst hc
  cases n with
  | nil => exact ⟨rfl, h⟩
  | cons d n =>
      injection h with hd _
      exact absurd hb (hd ▸ hn.not_endsName d (by simp))

/-- White space and attributes before the end of a tag. -/
theorem Attributes.eq_nil {as r r' : StringT} {b : UInt8} {names : List StringT} (has : Attributes as names)
    (h : as ++ r = b :: r') (hb : ¬ Space [b]) : as = [] ∧ names = [] := by
  cases has with
  | nil => exact ⟨rfl, rfl⟩
  | cons hne hsp _ _ _ _ _ _ =>
      obtain ⟨c, m, rfl⟩ := List.exists_cons_of_ne_nil hne
      injection h with h _
      exact absurd (List.forall_mem_singleton.mpr (h ▸ hsp c List.mem_cons_self)) hb

theorem Space.eq_nil {sp r r' : StringT} {b : UInt8} (hsp : Space sp) (h : sp ++ r = b :: r') (hb : ¬ Space [b]) :
    sp = [] := by
  cases sp with
  | nil => rfl
  | cons c sp =>
      injection h with h _
      exact absurd (List.forall_mem_singleton.mpr (h ▸ hsp c List.mem_cons_self)) hb

/-- A tag without attributes: what is behind the name. -/
theorem tag_eq {n as sp r r' : StringT} {a b : UInt8} {names : List StringT} (hn : IsName n) (has : Attributes as names)
    (hsp : Space sp) (h : n ++ (as ++ (sp ++ r)) = a :: b :: r') (hb : EndsName b) (hspace : ¬ Space [b]) :
    n = [a] ∧ names = [] ∧ r = b :: r' := by
  obtain ⟨rfl, hrest⟩ := hn.eq_singleton h hb
  obtain ⟨rfl, rfl⟩ := has.eq_nil hrest hspace
  have hnone := hsp.eq_nil hrest hspace
  subst hnone
  exact ⟨rfl, rfl, hrest⟩

/-- Content without elements does not start with the tag of one. -/
theorem IsContent.not_tag {c r r' : StringT} {b : UInt8} (hc : IsContent c []) (h : c ++ 0x3c :: 0x2f :: r = 0x3c :: b :: r')
    (hb : ¬ EndsName b) : False := by
  -- character data in front would be there already
  have hnone : ∀ {d r : StringT}, CharData d → d ++ r = 0x3c :: b :: r' → d = [] := by
    intro d r hd h
    cases d with
    | nil => rfl
    | cons x d =>
        injection h with h _
        exact absurd h (hd.1 x List.mem_cons_self).1
  have hends : ∀ {x : UInt8} {s : StringT}, 0x3c :: x :: s = 0x3c :: b :: r' → ¬ EndsName x := by
    intro x s h
    injection h with _ h
    injection h with h _
    exact h ▸ hb
  cases hc with
  | chars hd =>
      have hd := hnone hd h
      subst hd
      exact hends h (by decide)
  | other hd ho _ =>
      simp only [List.append_assoc] at h
      have hd := hnone hd h
      subst hd
      rcases ho with hr | ⟨d, -, rfl⟩ | ⟨target, sp, d, -, -, -, -, rfl⟩ | ⟨d, -, rfl⟩
      · have hamp : (0x26 : UInt8) = 0x3c := by cases hr <;> exact (List.cons.inj h).1
        cases hamp
      · exact hends h (by decide)
      · exact hends h (by decide)
      · exact hends h (by decide)

/-- **A text becomes an element.** The tree is an element `a` with the text `<b/>`; the printed text has an element
    `b` in it. -/
theorem markup_injected :
    let t : XmlNode := ⟨true, [0x61], [0x3c, 0x62, 0x2f, 0x3e], [], []⟩
    WellFormed t.output (.node [0x61] [] [.node [0x62] [] []]) ∧ ¬ WellFormed t.output t.skeleton := by
  intro t
  have hname : ∀ (c : Char), InRanges nameStartRanges c.toNat → IsName (Utf8.encode [c]) :=
    fun c hc => ⟨c, [], hc, by simp, rfl⟩
  constructor
  · refine ⟨⟨['<', 'a', '>', '<', 'b', '/', '>', '<', '/', 'a', '>', '\n'], inCharRanges_ascii (by simp), rfl⟩, ?_⟩
    have hb : IsElement _ _ := .empty (hname 'b' (by decide)) .nil List.nodup_nil space_nil
    have hc : IsContent _ _ := .element charData_nil hb (.chars charData_nil)
    have ha : IsElement _ _ := .tags (hname 'a' (by decide)) .nil List.nodup_nil space_nil hc space_nil
    have hlf : Space [0x0a] := by simp [Space]
    have hm : Miscs ([0x0a] ++ []) := .cons (.inr (.inr ⟨by decide, hlf⟩)) .nil
    have hdoc := IsDocument.mk .nil ha hm
    exact hdoc
  · rintro ⟨-, h⟩
    have hout : t.output = 0x3c :: 0x61 :: 0x3e :: 0x3c :: 0x62 :: [0x2f, 0x3e, 0x3c, 0x2f, 0x61, 0x3e, 0x0a] := rfl
    have hk : t.skeleton = .node [0x61] [] [] := rfl
    rw [hout, hk] at h
    generalize hs : (0x3c :: 0x61 :: 0x3e :: 0x3c :: 0x62 :: [0x2f, 0x3e, 0x3c, 0x2f, 0x61, 0x3e, 0x0a] : StringT) = s at h
    generalize hks : Skeleton.node [0x61] [] [] = k at h
    cases h with
    | mk hp he hm =>
        rw [List.append_assoc] at hs
        -- what starts with a name character after `<` is no prolog
        have hp := hp.eq_nil hs.symm (by decide)
        subst hp
        cases he with
        | empty hn has _ hsp =>
            simp only [List.append_assoc, List.nil_append, List.cons_append, List.cons.injEq,
              true_and] at hs
            obtain ⟨-, -, h⟩ := tag_eq hn has hsp hs.symm (by decide) (by decide)
            injection h with h
            cases h
        | tags hn has _ hsp hc _ =>
            injection hks with _ _ hks
            subst hks
            simp only [List.append_assoc, List.nil_append, List.cons_append, List.cons.injEq,
              true_and] at hs
            obtain ⟨-, -, h⟩ := tag_eq hn has hsp hs.symm (by decide) (by decide)
            injection h with _ h
            exact hc.not_tag h (by decide)

end Cclxml
end Cclib
