import Cclib.Lib.Vectors
import Cclib.Cclxml.Events
import Mathlib.Data.List.Nodup

/-!
# `Cclxml.Pointers` — `xml_parser_c` and the pointers of its stack

`node_stack` holds pointers to nodes that are elements of vectors, and the handlers push to those vectors. Here the
nodes are in memory, a push may move the subnodes of a node and give their buffer back, and every use of a pointer
looks its node up: `none` where it dangles, or where a buffer is given back twice.

A node in memory stands for a tree (`Holds`), the pointers of the stack for a node and those above it (`Spine`). Both
come with the buffers they need, no buffer needed twice. Every handler keeps that (`handleAt_stands`), for what moves is
below the back of the stack; the destructor gives back each of them once (`freeVec_holds`).

## Contents
- `RawNode`, `Parser`, `handleAt`, `freeVec`, `destroy`, `parseAt`.
- `Holds`, `HoldAll`, `Spine`, `Stands`.
- `Holds.frame`, `Spine.frame`, `Spine.deref`, `Spine.write`.
- `handleAt_stands`, `foldlM_stands`.
- `freeVec_holds`, `destroy_stands`.
- `parse_memory_safe`.
-/

namespace Cclib
namespace Cclxml

open Vectors (Memory Vec Ref Buffer buffer deref write alloc pushBack)

/-! ## The parser in memory -/

/-- `xml_node_c`, with its subnodes in a vector. -/
structure RawNode where
  m_self_close : Bool
  m_name : StringT
  m_text : StringT
  m_attrs : List XmlAttr
  m_nodes : Vec
deriving DecidableEq, Repr

/-- `xml_parser_c`, and the memory of all nodes. `node_stack` has its back first. -/
structure Parser where
  memory : Memory RawNode
  node_stack : List Ref
deriving DecidableEq, Repr

/-- `xml_node_c(name)` -/
def rawNode (name : StringT) : RawNode := ⟨true, name, [], [], none⟩

/-- `xml_node_c::node` of the node at a pointer. -/
def nodeAt (grow : Nat → Nat) (m : Memory RawNode) (p : Ref) (name : StringT) : Option (Memory RawNode × Ref) := do
  let raw ← deref m p
  let (m, m_nodes, node) ← pushBack grow m raw.m_nodes (rawNode name)
  let m ← write m p (fun raw => { raw with m_nodes := m_nodes })
  return (m, node)

/-- `xml_node_c::attr_` of the node at a pointer. -/
def attrAt (m : Memory RawNode) (p : Ref) (attr : StringT × StringT) : Option (Memory RawNode) :=
  write m p (fun raw => { raw with m_attrs := raw.m_attrs ++ [⟨attr.1, attr.2⟩] })

/-- `xml_start_element` -/
def xmlStartElement (grow : Nat → Nat) (s : Parser) (name : StringT) (attrs : List (StringT × StringT)) :
    Option Parser := do
  let (m, node) ←
    match s.node_stack with
    | [] => some (alloc s.memory ⟨[rawNode name], 1⟩, ⟨s.memory.length, 0⟩)
    | back :: _ => nodeAt grow s.memory back name
  let m ← attrs.foldlM (fun m attr => attrAt m node attr) m
  return ⟨m, node :: s.node_stack⟩

/-- `xml_end_element` -/
def xmlEndElement (s : Parser) : Parser :=
  if 1 < s.node_stack.length then { s with node_stack := s.node_stack.tail } else s

/-- `xml_characters` -/
def xmlCharacters (s : Parser) (ch : StringT) : Option Parser :=
  if IsLineEnd ch then some s
  else do
    let back ← s.node_stack.head?
    let m ← write s.memory back (fun raw => { raw with m_text := raw.m_text ++ ch })
    return { s with memory := m }

def handleAt (grow : Nat → Nat) (s : Parser) : SaxEvent → Option Parser
  | .startElement name attrs => xmlStartElement grow s name attrs
  | .endElement _ => some (xmlEndElement s)
  | .characters ch => xmlCharacters s ch

/-- The destructor of a vector of nodes: first the elements, then the buffer. -/
def freeVec : Nat → Memory RawNode → Vec → Option (Memory RawNode)
  | _, m, none => some m
  | 0, _, some _ => none
  | fuel + 1, m, some b => do
    let buf ← buffer m b
    let m ← buf.elems.foldlM (fun m raw => freeVec fuel m raw.m_nodes) m
    let _ ← buffer m b
    return m.set b none

/-- `~xml_parser_c`: `node_stack[0]` is deleted, which is the only element of its buffer. -/
def destroy (fuel : Nat) (s : Parser) : Option (Memory RawNode) :=
  match s.node_stack.getLast? with
  | none => some s.memory
  | some p => freeVec fuel s.memory (some p.buffer)

/-- `xml_parser_c::parse`: the node that is moved out of the tree, and the memory behind the destructor. -/
def parseAt (grow : Nat → Nat) (xmlSAXUserParseMemory : StringT → Int × List SaxEvent) (a_data : StringT)
    (fuel : Nat) : Option (Except String RawNode × Memory RawNode) :=
  let (res, events) := xmlSAXUserParseMemory a_data
  do
    let s ← events.foldlM (handleAt grow) ⟨[], []⟩
    if res ≠ 0 then
      let m ← destroy fuel s
      return (.error error_XML_DATA_PARSE_ERROR, m)
    let back ← s.node_stack.head?
    let raw ← deref s.memory back
    let m ← write s.memory back (fun raw => { raw with m_name := [], m_text := [], m_attrs := [], m_nodes := none })
    let m ← destroy fuel { s with memory := m }
    return (.ok raw, m)

/-! ## What nodes in memory stand for -/

/-- The members of a node but for its subnodes. -/
def SameShell (raw : RawNode) (node : XmlNode) : Prop :=
  raw.m_self_close = node.m_self_close ∧ raw.m_name = node.m_name ∧ raw.m_text = node.m_text ∧
    raw.m_attrs = node.m_attrs

mutual
/-- A node in memory stands for a tree; the buffers of its subnodes, theirs, and so on. -/
def Holds (m : Memory RawNode) : XmlNode → RawNode → List Nat → Prop
  | ⟨m_self_close, m_name, m_text, m_attrs, m_nodes⟩, raw, fp =>
    SameShell raw ⟨m_self_close, m_name, m_text, m_attrs, m_nodes⟩ ∧
      ∃ raws g, Vectors.elems m raw.m_nodes = some raws ∧ HoldAll m m_nodes raws g ∧ fp = raw.m_nodes.toList ++ g

def HoldAll (m : Memory RawNode) : List XmlNode → List RawNode → List Nat → Prop
  | [], raws, fp => raws = [] ∧ fp = []
  | node :: nodes, raws, fp =>
    ∃ raw rest f g, raws = raw :: rest ∧ Holds m node raw f ∧ HoldAll m nodes rest g ∧ fp = f ++ g
end

variable {grow : Nat → Nat} {m m' : Memory RawNode} {node parent : XmlNode} {nodes parents : List XmlNode}
  {raw : RawNode} {raws : List RawNode} {f g fp : List Nat} {p q : Ref} {ps : List Ref} {b c : Nat} {s s' : Parser}

theorem holds_iff : Holds m node raw fp ↔ SameShell raw node ∧
    ∃ raws g, Vectors.elems m raw.m_nodes = some raws ∧ HoldAll m node.m_nodes raws g ∧ fp = raw.m_nodes.toList ++ g := by
  cases node
  rw [Holds]

theorem holdAll_snoc (h : HoldAll m nodes raws f) (hnode : Holds m node raw g) :
    HoldAll m (nodes ++ [node]) (raws ++ [raw]) (f ++ g) := by
  induction nodes generalizing raws f with
  | nil =>
      rw [HoldAll] at h
      obtain ⟨rfl, rfl⟩ := h
      refine ⟨raw, [], g, [], rfl, hnode, ?_, (List.append_nil g).symm⟩
      rw [HoldAll]
      exact ⟨rfl, rfl⟩
  | cons first nodes ih =>
      rw [HoldAll] at h
      obtain ⟨r, rest, f₁, f₂, rfl, hfirst, hrest, rfl⟩ := h
      rw [List.cons_append, HoldAll]
      exact ⟨r, rest ++ [raw], f₁, f₂ ++ g, rfl, hfirst, ih hrest, List.append_assoc _ _ _⟩

/-- The pointers of the stack: the node at the first is `raw`, and each is at the last subnode of the next, whose other
    subnodes and members are those of its parent. -/
inductive Spine (m : Memory RawNode) : List Ref → List XmlNode → RawNode → List Nat → Prop
  | root {p : Ref} {raw : RawNode} {c : Nat} (hbuf : buffer m p.buffer = some ⟨[raw], c⟩) (hindex : p.index = 0) :
      Spine m [p] [] raw [p.buffer]
  | last {p : Ref} {ps : List Ref} {parent : XmlNode} {parents : List XmlNode} {raw above : RawNode}
      {raws : List RawNode} {c : Nat} {f g : List Nat} (hspine : Spine m ps parents above g)
      (hshell : SameShell above parent) (hnodes : above.m_nodes = some p.buffer)
      (hbuf : buffer m p.buffer = some ⟨raws ++ [raw], c⟩) (hindex : p.index = raws.length)
      (hraws : HoldAll m parent.m_nodes raws f) : Spine m (p :: ps) (parent :: parents) raw (p.buffer :: (f ++ g))

/-- These are the buffers there are, each once. -/
def Live (m : Memory RawNode) (fp : List Nat) : Prop := fp.Nodup ∧ ∀ b, (buffer m b).isSome = true ↔ b ∈ fp

/-- The parser in memory stands for a stack, and no buffer is there that it does not need. -/
inductive Stands (s : Parser) : Option NodeStack → Prop
  | empty (hstack : s.node_stack = []) (hlive : Live s.memory []) : Stands s none
  | opened {node : XmlNode} {parents : List XmlNode} {raw : RawNode} {f g : List Nat}
      (hspine : Spine s.memory s.node_stack parents raw g) (hnode : Holds s.memory node raw f)
      (hlive : Live s.memory (f ++ g)) : Stands s (stackOf node parents)

/-! ## What does not change -/

mutual
/-- Only the buffers of a tree matter to it. -/
theorem Holds.frame {m m' : Memory RawNode} : ∀ {node : XmlNode} {raw : RawNode} {fp : List Nat},
    Holds m node raw fp → (∀ b ∈ fp, buffer m' b = buffer m b) → Holds m' node raw fp
  | ⟨_, _, _, _, nodes⟩, raw, fp, h, hm => by
      rw [Holds] at h ⊢
      obtain ⟨hshell, raws, g, helems, hall, rfl⟩ := h
      refine ⟨hshell, raws, g, ?_, HoldAll.frame hall (fun b hb => hm b (List.mem_append_right _ hb)), rfl⟩
      cases hv : raw.m_nodes with
      | none =>
          rw [hv] at helems
          exact helems
      | some b =>
          rw [hv] at helems hm
          rw [← helems]
          exact congrArg (Option.map Buffer.elems) (hm b List.mem_cons_self)

theorem HoldAll.frame {m m' : Memory RawNode} : ∀ {nodes : List XmlNode} {raws : List RawNode} {fp : List Nat},
    HoldAll m nodes raws fp → (∀ b ∈ fp, buffer m' b = buffer m b) → HoldAll m' nodes raws fp
  | [], raws, fp, h, _ => by
      rw [HoldAll] at h ⊢
      exact h
  | node :: nodes, raws, fp, h, hm => by
      rw [HoldAll] at h ⊢
      obtain ⟨raw, rest, f, g, rfl, hnode, hrest, rfl⟩ := h
      exact ⟨raw, rest, f, g, rfl, Holds.frame hnode (fun b hb => hm b (List.mem_append_left _ hb)),
        HoldAll.frame hrest (fun b hb => hm b (List.mem_append_right _ hb)), rfl⟩
end

theorem Spine.frame (h : Spine m ps parents raw fp) (hm : ∀ b ∈ fp, buffer m' b = buffer m b) :
    Spine m' ps parents raw fp := by
  induction h with
  | root hbuf hindex => exact .root ((hm _ List.mem_cons_self).trans hbuf) hindex
  | last _ hshell hnodes hbuf hindex hraws ih =>
      have hbelow := fun b hb => hm b (List.mem_cons_of_mem _ (List.mem_append_left _ hb))
      have habove := fun b hb => hm b (List.mem_cons_of_mem _ (List.mem_append_right _ hb))
      exact .last (ih habove) hshell hnodes ((hm _ List.mem_cons_self).trans hbuf) hindex (hraws.frame hbelow)

/-! ## Looking up and writing at the back -/

/-- The back of the stack does not dangle. -/
theorem Spine.deref (h : Spine m (p :: ps) parents raw fp) : deref m p = some raw := by
  cases h with
  | root hbuf hindex => rw [Vectors.deref_of_buffer hbuf, hindex, List.getElem?_cons_zero]
  | last _ _ _ hbuf hindex _ => rw [Vectors.deref_of_buffer hbuf, hindex, List.getElem?_concat_length]

theorem Spine.mem (h : Spine m (p :: ps) parents raw fp) : p.buffer ∈ fp := by
  cases h with
  | root _ _ => exact List.mem_cons_self
  | last _ _ _ _ _ _ => exact List.mem_cons_self

/-- **Writing** through the back of the stack changes the node there, and nothing else of the parser. -/
theorem Spine.write (h : Spine m (p :: ps) parents raw fp) (hnd : fp.Nodup) (change : RawNode → RawNode) :
    ∃ m', Vectors.write m p change = some m' ∧ Spine m' (p :: ps) parents (change raw) fp ∧
      (∀ c, c ≠ p.buffer → buffer m' c = buffer m c) ∧ (buffer m' p.buffer).isSome = true := by
  obtain ⟨buf, hbuf', m', hwrite, hself, -, hothers⟩ := Vectors.write_spec (f := change) h.deref
  refine ⟨m', hwrite, ?_, hothers, by rw [hself]; rfl⟩
  cases h with
  | root hbuf hindex =>
      obtain rfl := Option.some.inj (hbuf.symm.trans hbuf')
      rw [hindex] at hself
      exact .root hself hindex
  | last hspine hshell hnodes hbuf hindex hraws =>
      obtain rfl := Option.some.inj (hbuf.symm.trans hbuf')
      obtain ⟨hp, -⟩ := List.nodup_cons.mp hnd
      have hkept := fun d hd => hothers d (fun heq => hp (heq ▸ hd))
      have hraws' := hraws.frame (fun d hd => hkept d (List.mem_append_left _ hd))
      have hspine' := hspine.frame (fun d hd => hkept d (List.mem_append_right _ hd))
      rw [hindex, List.set_append_right _ _ (Nat.le_refl _), Nat.sub_self] at hself
      exact .last hspine' hshell hnodes hself hindex hraws'

/-- The attributes are added one by one. -/
theorem attrs_foldlM (attrs : List (StringT × StringT)) (h : Spine m (p :: ps) parents raw fp) (hlive : Live m fp) :
    ∃ m', attrs.foldlM (fun m attr => attrAt m p attr) m = some m' ∧
      Spine m' (p :: ps) parents { raw with m_attrs := raw.m_attrs ++ attrs.map (fun attr => ⟨attr.1, attr.2⟩) } fp ∧
      Live m' fp := by
  induction attrs generalizing m raw with
  | nil =>
      refine ⟨m, rfl, ?_, hlive⟩
      rw [List.map_nil, List.append_nil]
      exact h
  | cons attr attrs ih =>
      obtain ⟨m₁, hwrite, hspine, hothers, hself⟩ :=
        h.write hlive.1 (fun raw => { raw with m_attrs := raw.m_attrs ++ [⟨attr.1, attr.2⟩] })
      have hlive₁ : Live m₁ fp := by
        refine ⟨hlive.1, fun b => ?_⟩
        by_cases hb : b = p.buffer
        · subst hb
          exact ⟨fun _ => h.mem, fun _ => hself⟩
        · rw [hothers b hb]
          exact hlive.2 b
      obtain ⟨m₂, hfold, hspine₂, hlive₂⟩ := ih hspine hlive₁
      refine ⟨m₂, ?_, ?_, hlive₂⟩
      · rw [List.foldlM_cons, attrAt, hwrite]
        exact hfold
      · rw [List.map_cons]
        simp only [List.append_assoc, List.singleton_append] at hspine₂
        exact hspine₂

/-! ## The handlers -/

/-- **A new subnode** of the node at the back. Its siblings may move, and no pointer of the stack leads to them. -/
theorem nodeAt_spine (grow : Nat → Nat) (name : StringT) (hspine : Spine m (p :: ps) parents raw g)
    (hnode : Holds m node raw f) (hlive : Live m (f ++ g)) :
    ∃ m' q fp, nodeAt grow m p name = some (m', q) ∧
      Spine m' (q :: p :: ps) (node :: parents) (rawNode name) fp ∧ Live m' fp := by
  obtain ⟨hshell, raws, g₀, helems, hall, rfl⟩ := holds_iff.mp hnode
  obtain ⟨hnd, hmem⟩ := hlive
  obtain ⟨hndf, hndg, hdisj⟩ := List.nodup_append.mp hnd
  obtain ⟨-, hndg₀, hdisj₀⟩ := List.nodup_append.mp hndf
  obtain ⟨m₁, b, c, hpush, hbuf, hb, hothers⟩ := Vectors.pushBack_spec grow (rawNode name) helems
  -- the buffer of the new node is the one of its siblings, or a new one
  have hfresh : ∀ d ∈ g₀ ++ g, d ≠ b := by
    rintro d hd rfl
    rcases hb with hb | rfl
    · have hb := Option.mem_toList.mpr hb
      rcases List.mem_append.mp hd with hd | hd
      · exact hdisj₀ _ hb _ hd rfl
      · exact hdisj _ (List.mem_append_left _ hb) _ hd rfl
    · have hlive : (buffer m m.length).isSome = true := by
        rw [hmem, List.append_assoc]
        exact List.mem_append_right _ hd
      rw [Vectors.buffer_of_ge (Nat.le_refl _)] at hlive
      cases hlive
  have hgone : ∀ d ∈ g₀ ++ g, d ∉ raw.m_nodes := by
    intro d hd hv
    have hv := Option.mem_toList.mpr hv
    rcases List.mem_append.mp hd with hd | hd
    · exact hdisj₀ _ hv _ hd rfl
    · exact hdisj _ (List.mem_append_left _ hv) _ hd rfl
  have hkept₁ : ∀ d ∈ g₀ ++ g, buffer m₁ d = buffer m d := by
    intro d hd
    rw [hothers d (hfresh d hd), if_neg (hgone d hd)]
  have hspine₁ := hspine.frame (fun d hd => hkept₁ d (List.mem_append_right _ hd))
  -- the vector is stored in the node at the back
  obtain ⟨m₂, hwrite, hspine₂, hothers₂, hself⟩ :=
    hspine₁.write hndg (fun raw => { raw with m_nodes := some b })
  have hpb : p.buffer ≠ b := hfresh _ (List.mem_append_right _ hspine.mem)
  have hraws := hall.frame (fun d hd => (hothers₂ d
    (fun heq => hdisj d (List.mem_append_right _ hd) _ hspine.mem heq)).trans (hkept₁ d (List.mem_append_left _ hd)))
  refine ⟨m₂, ⟨b, raws.length⟩, b :: (g₀ ++ g), ?_, ?_, ?_, ?_⟩
  · have hderef : deref m p = some raw := hspine.deref
    simp only [nodeAt, hderef, hpush, hwrite, Option.bind_eq_bind, Option.bind_some, Option.pure_def]
  · exact .last hspine₂ hshell rfl ((hothers₂ b hpb.symm).trans hbuf) rfl hraws
  · refine List.nodup_cons.mpr ⟨fun hmem => hfresh b hmem rfl, ?_⟩
    rw [List.append_assoc] at hnd
    exact (List.nodup_append.mp hnd).2.1
  · intro d
    by_cases hdp : d = p.buffer
    · subst hdp
      exact ⟨fun _ => List.mem_cons_of_mem _ (List.mem_append_right _ hspine.mem), fun _ => hself⟩
    · rw [hothers₂ d hdp]
      by_cases hdb : d = b
      · subst hdb
        exact ⟨fun _ => List.mem_cons_self, fun _ => by rw [hbuf]; rfl⟩
      · rw [hothers d hdb, List.mem_cons, or_iff_right hdb]
        split
        · rename_i hv
          exact ⟨fun h => absurd h Bool.false_ne_true, fun hd => absurd hv (hgone d hd)⟩
        · rename_i hv
          rw [hmem, List.append_assoc, List.mem_append, or_iff_right]
          exact fun h => hv (Option.mem_toList.mp h)

theorem holds_newNode (name : StringT) (attrs : List (StringT × StringT)) : Holds m (newNode name attrs)
    { rawNode name with m_attrs := attrs.map (fun attr => ⟨attr.1, attr.2⟩) } [] := by
  rw [holds_iff]
  refine ⟨⟨rfl, rfl, rfl, rfl⟩, [], [], rfl, ?_, rfl⟩
  rw [newNode, HoldAll]
  exact ⟨rfl, rfl⟩

/-- The root element. -/
theorem startElement_root (grow : Nat → Nat) (name : StringT) (attrs : List (StringT × StringT))
    (hstack : s.node_stack = []) (hlive : Live s.memory []) :
    ∃ s', xmlStartElement grow s name attrs = some s' ∧ Stands s' (stackOf (newNode name attrs) []) := by
  have hnew : Spine (alloc s.memory ⟨[rawNode name], 1⟩) [⟨s.memory.length, 0⟩] [] (rawNode name) [s.memory.length] := by
    refine .root (c := 1) ?_ rfl
    rw [Vectors.buffer_alloc, if_pos rfl]
  have hlive₁ : Live (alloc s.memory ⟨[rawNode name], 1⟩) [s.memory.length] := by
    refine ⟨List.nodup_singleton _, fun b => ?_⟩
    rw [Vectors.buffer_alloc, List.mem_singleton]
    by_cases hb : b = s.memory.length
    · rw [if_pos hb]
      exact ⟨fun _ => hb, fun _ => rfl⟩
    · rw [if_neg hb, hlive.2 b]
      exact ⟨fun h => absurd h List.not_mem_nil, fun h => absurd h hb⟩
  obtain ⟨m', hfold, hspine, hlive'⟩ := attrs_foldlM attrs hnew hlive₁
  refine ⟨⟨m', [⟨s.memory.length, 0⟩]⟩, ?_, .opened hspine (holds_newNode name attrs) hlive'⟩
  simp only [xmlStartElement, hstack, hfold, Option.bind_eq_bind, Option.bind_some, Option.pure_def]

theorem startElement_inner (grow : Nat → Nat) (name : StringT) (attrs : List (StringT × StringT))
    (hspine : Spine s.memory s.node_stack parents raw g) (hnode : Holds s.memory node raw f)
    (hlive : Live s.memory (f ++ g)) :
    ∃ s', xmlStartElement grow s name attrs = some s' ∧ Stands s' (stackOf (newNode name attrs) (node :: parents)) := by
  obtain ⟨m, stack⟩ := s
  cases stack with
  | nil => cases hspine
  | cons p ps =>
      obtain ⟨m₁, q, fp, hat, hspine₁, hlive₁⟩ := nodeAt_spine grow name hspine hnode hlive
      obtain ⟨m₂, hfold, hspine₂, hlive₂⟩ := attrs_foldlM attrs hspine₁ hlive₁
      refine ⟨⟨m₂, q :: p :: ps⟩, ?_, .opened hspine₂ (holds_newNode name attrs) hlive₂⟩
      simp only [xmlStartElement, hat, hfold, Option.bind_eq_bind, Option.bind_some, Option.pure_def]

/-- The end of an element that is not the root: the node is complete, and part of the one above it. -/
theorem endElement_inner (hspine : Spine s.memory s.node_stack (parent :: parents) raw g)
    (hnode : Holds s.memory node raw f) (hlive : Live s.memory (f ++ g)) :
    Stands (xmlEndElement s) (stackOf (parent.moveNode node) parents) := by
  obtain ⟨m, stack⟩ := s
  cases hspine with
  | @last p ps _ _ _ above raws c f' g' hspine hshell hnodes hbuf hindex hraws =>
      have hlen : 1 < (p :: ps).length := by
        cases hspine <;> exact Nat.succ_lt_succ (Nat.succ_pos _)
      have hpop : xmlEndElement ⟨m, p :: ps⟩ = ⟨m, ps⟩ := if_pos hlen
      rw [hpop]
      have hparent : Holds m (parent.moveNode node) above (p.buffer :: (f' ++ f)) := by
        rw [holds_iff]
        refine ⟨hshell, raws ++ [raw], f' ++ f, ?_, holdAll_snoc hraws hnode, by rw [hnodes]; rfl⟩
        rw [hnodes]
        exact congrArg (Option.map Buffer.elems) hbuf
      have hperm : (f ++ p.buffer :: (f' ++ g')).Perm (p.buffer :: (f' ++ f) ++ g') := by
        refine List.perm_middle.trans ((List.Perm.cons _ ?_))
        rw [← List.append_assoc]
        exact List.perm_append_comm.append_right _
      exact .opened hspine hparent ⟨hperm.nodup_iff.mp hlive.1, fun b => (hlive.2 b).trans hperm.mem_iff⟩

/-- The end of the root element, which stays. -/
theorem endElement_root (hspine : Spine s.memory s.node_stack [] raw g) : xmlEndElement s = s := by
  obtain ⟨m, stack⟩ := s
  cases hspine
  rfl

theorem characters_stands (ch : StringT) (hch : ¬ IsLineEnd ch) (hspine : Spine s.memory s.node_stack parents raw g)
    (hnode : Holds s.memory node raw f) (hlive : Live s.memory (f ++ g)) :
    ∃ s', xmlCharacters s ch = some s' ∧ Stands s' (stackOf (node.text ch) parents) := by
  obtain ⟨m, stack⟩ := s
  obtain ⟨-, hndg, hdisj⟩ := List.nodup_append.mp hlive.1
  cases stack with
  | nil => cases hspine
  | cons p ps =>
      obtain ⟨m', hwrite, hspine', hothers, hself⟩ :=
        hspine.write hndg (fun raw => { raw with m_text := raw.m_text ++ ch })
      have hkept : ∀ d ∈ f, buffer m' d = buffer m d :=
        fun d hd => hothers d (fun heq => hdisj d hd _ hspine.mem heq)
      refine ⟨⟨m', p :: ps⟩, ?_, .opened hspine' (f := f) ?_ ⟨hlive.1, ?_⟩⟩
      · simp only [xmlCharacters, if_neg hch, List.head?_cons, hwrite, Option.bind_eq_bind, Option.bind_some, Option.pure_def]
      · obtain ⟨⟨hclose, hname, htext, hattrs⟩, raws, g₀, helems, hall, hf⟩ := holds_iff.mp (hnode.frame hkept)
        exact holds_iff.mpr ⟨⟨hclose, hname, congrArg (· ++ ch) htext, hattrs⟩, raws, g₀, helems, hall, hf⟩
      · intro b
        by_cases hb : b = p.buffer
        · subst hb
          exact ⟨fun _ => List.mem_append_right _ hspine.mem, fun _ => hself⟩
        · rw [hothers b hb]
          exact hlive.2 b

/-- **One event**: in memory it is handled exactly where it is handled on trees, and with the same effect. -/
theorem handleAt_stands (grow : Nat → Nat) {ns : Option NodeStack} (h : Stands s ns) (e : SaxEvent) :
    (∃ s' ns', handleAt grow s e = some s' ∧ handle ns e = some ns' ∧ Stands s' ns') ∨
      (handleAt grow s e = none ∧ handle ns e = none) := by
  cases e with
  | startElement name attrs =>
      refine Or.inl ?_
      cases h with
      | empty hstack hlive =>
          obtain ⟨s', hs', hstands⟩ := startElement_root grow name attrs hstack hlive
          exact ⟨s', _, hs', rfl, hstands⟩
      | opened hspine hnode hlive =>
          obtain ⟨s', hs', hstands⟩ := startElement_inner grow name attrs hspine hnode hlive
          exact ⟨s', _, hs', handle_startElement name attrs, hstands⟩
  | endElement name =>
      refine Or.inl ⟨_, _, rfl, rfl, ?_⟩
      cases h with
      | empty hstack hlive =>
          have hsame : xmlEndElement s = s := by
            rw [xmlEndElement, hstack]
            rfl
          rw [hsame]
          exact .empty hstack hlive
      | @opened node parents raw f g hspine hnode hlive =>
          cases parents with
          | nil =>
              rw [endElement_root hspine]
              exact .opened hspine hnode hlive
          | cons parent parents => exact endElement_inner hspine hnode hlive
  | characters ch =>
      by_cases hch : IsLineEnd ch
      · refine Or.inl ⟨s, ns, ?_, ?_, h⟩
        · exact if_pos hch
        · exact if_pos hch
      · cases h with
        | empty hstack hlive =>
            refine Or.inr ⟨?_, ?_⟩
            · simp only [handleAt, xmlCharacters, if_neg hch, hstack]
              rfl
            · exact if_neg hch
        | opened hspine hnode hlive =>
            obtain ⟨s', hs', hstands⟩ := characters_stands ch hch hspine hnode hlive
            refine Or.inl ⟨s', _, hs', handle_characters ch, ?_⟩
            rw [if_neg hch]
            exact hstands

/-- **All events.** -/
theorem foldlM_stands (grow : Nat → Nat) (events : List SaxEvent) {ns : Option NodeStack} (h : Stands s ns) :
    (∃ s' ns', events.foldlM (handleAt grow) s = some s' ∧ events.foldlM handle ns = some ns' ∧ Stands s' ns') ∨
      (events.foldlM (handleAt grow) s = none ∧ events.foldlM handle ns = none) := by
  induction events generalizing s ns with
  | nil => exact Or.inl ⟨s, ns, rfl, rfl, h⟩
  | cons e events ih =>
      rw [List.foldlM_cons, List.foldlM_cons]
      rcases handleAt_stands grow h e with ⟨s₁, ns₁, hs₁, hns₁, h₁⟩ | ⟨hs₁, hns₁⟩
      · rw [hs₁, hns₁]
        exact ih h₁
      · rw [hs₁, hns₁]
        exact Or.inr ⟨rfl, rfl⟩

theorem stands_start : Stands ⟨[], []⟩ none := by
  refine .empty rfl ⟨List.nodup_nil, fun b => ?_⟩
  rw [Vectors.buffer_of_ge (Nat.zero_le b)]
  exact ⟨fun h => absurd h Bool.false_ne_true, fun h => absurd h List.not_mem_nil⟩

/-! ## The destructor -/

/-- Of the memory behind a destructor: these buffers are gone, and no other. -/
def Freed (m m' : Memory RawNode) (fp : List Nat) : Prop := ∀ b, buffer m' b = if b ∈ fp then none else buffer m b

theorem Freed.kept (h : Freed m m' f) (hb : b ∉ f) : buffer m' b = buffer m b := by
  rw [h b, if_neg hb]

theorem Freed.trans {m₁ : Memory RawNode} (h : Freed m m₁ f) (h' : Freed m₁ m' g) : Freed m m' (f ++ g) := by
  intro b
  rw [h' b, h b]
  by_cases hg : b ∈ g
  · rw [if_pos hg, if_pos (List.mem_append_right _ hg)]
  · rw [if_neg hg]
    by_cases hf : b ∈ f
    · rw [if_pos hf, if_pos (List.mem_append_left _ hf)]
    · rw [if_neg hf, if_neg (fun h => (List.mem_append.mp h).elim hf hg)]

mutual
/-- **The destructor of a node** gives back each of its buffers once. -/
theorem freeVec_holds : ∀ {node : XmlNode} {m : Memory RawNode} {raw : RawNode} {fp : List Nat}, Holds m node raw fp →
    fp.Nodup → ∃ n m', (∀ k, n ≤ k → freeVec k m raw.m_nodes = some m') ∧ Freed m m' fp
  | ⟨_, _, _, _, nodes⟩, m, raw, fp, h, hnd => by
      rw [Holds] at h
      obtain ⟨-, raws, g, helems, hall, rfl⟩ := h
      cases hv : raw.m_nodes with
      | none =>
          -- a node without a buffer has no subnodes
          rw [hv] at helems
          obtain rfl : [] = raws := Option.some.inj helems
          have hg : g = [] := by
            cases nodes with
            | nil =>
                rw [HoldAll] at hall
                exact hall.2
            | cons node nodes =>
                rw [HoldAll] at hall
                obtain ⟨raw, rest, f, g, hnil, -⟩ := hall
                cases hnil
          subst hg
          refine ⟨0, m, ?_, fun b => (if_neg List.not_mem_nil).symm⟩
          intro k _
          cases k <;> rfl
      | some b =>
          rw [hv] at helems hnd
          obtain ⟨buf, hbuf, rfl⟩ := Option.map_eq_some_iff.mp helems
          obtain ⟨hb, hndg⟩ := List.nodup_cons.mp hnd
          obtain ⟨n, m₁, hfree, hfreed⟩ := freeVecs_holds hall hndg
          have hb₁ : buffer m₁ b = some buf := (hfreed.kept hb).trans hbuf
          refine ⟨n + 1, m₁.set b none, ?_, ?_⟩
          · intro k hk
            obtain ⟨k, rfl⟩ : ∃ j, k = j + 1 := ⟨k - 1, by omega⟩
            simp only [freeVec, hbuf, hfree k (Nat.le_of_succ_le_succ hk), hb₁, Option.bind_eq_bind, Option.bind_some,
              Option.pure_def]
          · intro c
            rw [Vectors.buffer_set (Vectors.lt_of_buffer hb₁)]
            by_cases hc : c = b
            · rw [if_pos hc, if_pos (hc ▸ List.mem_cons_self)]
            · rw [if_neg hc, hfreed c]
              exact if_congr ⟨List.mem_cons_of_mem _, fun h => (List.mem_cons.mp h).resolve_left hc⟩ rfl rfl

theorem freeVecs_holds : ∀ {nodes : List XmlNode} {m : Memory RawNode} {raws : List RawNode} {fp : List Nat},
    HoldAll m nodes raws fp → fp.Nodup →
      ∃ n m', (∀ k, n ≤ k → raws.foldlM (fun m raw => freeVec k m raw.m_nodes) m = some m') ∧ Freed m m' fp
  | [], m, raws, fp, h, _ => by
      rw [HoldAll] at h
      obtain ⟨rfl, rfl⟩ := h
      exact ⟨0, m, fun _ _ => rfl, fun b => (if_neg List.not_mem_nil).symm⟩
  | node :: nodes, m, raws, fp, h, hnd => by
      rw [HoldAll] at h
      obtain ⟨raw, rest, f, g, rfl, hnode, hrest, rfl⟩ := h
      obtain ⟨hndf, hndg, hdisj⟩ := List.nodup_append.mp hnd
      obtain ⟨n₁, m₁, hfree₁, hfreed₁⟩ := freeVec_holds hnode hndf
      have hrest₁ := hrest.frame (fun b hb => hfreed₁.kept (fun hf => hdisj b hf b hb rfl))
      obtain ⟨n₂, m₂, hfree₂, hfreed₂⟩ := freeVecs_holds hrest₁ hndg
      refine ⟨max n₁ n₂, m₂, ?_, hfreed₁.trans hfreed₂⟩
      intro k hk
      rw [List.foldlM_cons, hfree₁ k (Nat.le_trans (Nat.le_max_left _ _) hk)]
      exact hfree₂ k (Nat.le_trans (Nat.le_max_right _ _) hk)
end

/-- The tree below the last pointer of the stack, which is `node_stack[0]`. -/
theorem Spine.close (h : Spine m ps parents raw g) (hnode : Holds m node raw f) :
    ∃ p root rootNode c fp, ps.getLast? = some p ∧ buffer m p.buffer = some ⟨[root], c⟩ ∧ Holds m rootNode root fp ∧
      (p.buffer :: fp).Perm (f ++ g) := by
  induction h generalizing node f with
  | @root p raw c hbuf hindex =>
      exact ⟨p, raw, node, c, f, rfl, hbuf, hnode, (List.perm_append_singleton _ _).symm⟩
  | @last p ps parent parents raw above raws c f' g' hspine hshell hnodes hbuf hindex hraws ih =>
      have habove : Holds m (parent.moveNode node) above (p.buffer :: (f' ++ f)) := by
        rw [holds_iff]
        refine ⟨hshell, raws ++ [raw], f' ++ f, ?_, holdAll_snoc hraws hnode, by rw [hnodes]; rfl⟩
        rw [hnodes]
        exact congrArg (Option.map Buffer.elems) hbuf
      obtain ⟨r, root, rootNode, d, fp, hr, hroot, hholds, hperm⟩ := ih habove
      refine ⟨r, root, rootNode, d, fp, ?_, hroot, hholds, ?_⟩
      · rw [List.getLast?_cons, hr]
        rfl
      · refine hperm.trans (List.Perm.symm (List.perm_middle.trans (List.Perm.cons _ ?_)))
        rw [← List.append_assoc]
        exact List.perm_append_comm.append_right _

/-- **The destructor of the parser** gives back each buffer of the tree once. -/
theorem destroy_spine (hspine : Spine s.memory s.node_stack parents raw g) (hnode : Holds s.memory node raw f)
    (hnd : (f ++ g).Nodup) :
    ∃ n m', (∀ k, n ≤ k → destroy k s = some m') ∧ Freed s.memory m' (f ++ g) := by
  obtain ⟨p, root, rootNode, c, fp, hlast, hbuf, hholds, hperm⟩ := hspine.close hnode
  -- the node is the only element of a vector
  have hvec : Holds s.memory ⟨true, [], [], [], [rootNode]⟩ ⟨true, [], [], [], some p.buffer⟩ (p.buffer :: fp) := by
    rw [holds_iff]
    refine ⟨⟨rfl, rfl, rfl, rfl⟩, [root], fp, congrArg (Option.map Buffer.elems) hbuf, ?_, rfl⟩
    rw [HoldAll]
    refine ⟨root, [], fp, [], rfl, hholds, ?_, (List.append_nil fp).symm⟩
    rw [HoldAll]
    exact ⟨rfl, rfl⟩
  obtain ⟨n, m', hfree, hfreed⟩ := freeVec_holds hvec (hperm.nodup_iff.mpr hnd)
  refine ⟨n, m', ?_, ?_⟩
  · intro k hk
    simp only [destroy, hlast]
    exact hfree k hk
  · intro b
    rw [hfreed b]
    exact if_congr hperm.mem_iff rfl rfl

/-! ## The whole parse -/

/-- A parse in memory, by the fuel of the destructor, against the parse of trees: undefined where that is; else, with
    enough fuel, it throws the same and leaves no buffer behind, or returns a node that stands for the same tree and
    leaves the buffers of that, each once. -/
inductive MemorySafe (parsed : Nat → Option (Except String RawNode × Memory RawNode)) : Option (Except String XmlNode) → Prop
  | undefined (h : ∀ k, parsed k = none) : MemorySafe parsed none
  | error {e : String} {m : Memory RawNode} (h : ∃ n, ∀ k, n ≤ k → parsed k = some (.error e, m)) (hlive : Live m []) :
      MemorySafe parsed (some (.error e))
  | ok {node : XmlNode} {raw : RawNode} {m : Memory RawNode} {fp : List Nat}
      (h : ∃ n, ∀ k, n ≤ k → parsed k = some (.ok raw, m)) (hnode : Holds m node raw fp) (hlive : Live m fp) :
      MemorySafe parsed (some (.ok node))

/-- Behind the destructor of a parser without an open element. -/
theorem destroy_empty (hstack : s.node_stack = []) (k : Nat) : destroy k s = some s.memory := by
  rw [destroy, hstack]
  rfl

/-- The destructor leaves the buffers that are not those of the tree. -/
theorem Live.freed (hlive : Live m (f ++ g)) (hfreed : Freed m m' g) : Live m' f := by
  obtain ⟨hndf, -, hdisj⟩ := List.nodup_append.mp hlive.1
  refine ⟨hndf, fun b => ?_⟩
  rw [hfreed b]
  by_cases hb : b ∈ g
  · rw [if_pos hb]
    exact ⟨fun h => absurd h Bool.false_ne_true, fun hf => absurd rfl (hdisj b hf b hb)⟩
  · rw [if_neg hb, hlive.2 b, List.mem_append, or_iff_left hb]

/-- The node at the back is moved out, and then the parser is destroyed. -/
theorem moveOut_destroy (hspine : Spine m (p :: ps) parents raw g) (hnode : Holds m node raw f)
    (hlive : Live m (f ++ g)) :
    ∃ m₁ n m₂, Vectors.write m p
        (fun raw => { raw with m_name := [], m_text := [], m_attrs := [], m_nodes := none }) = some m₁ ∧
      (∀ k, n ≤ k → destroy k ⟨m₁, p :: ps⟩ = some m₂) ∧ Holds m₂ node raw f ∧ Live m₂ f := by
  obtain ⟨-, hndg, hdisj⟩ := List.nodup_append.mp hlive.1
  obtain ⟨m₁, hwrite, hspine₁, hothers, hself⟩ :=
    hspine.write hndg (fun raw => { raw with m_name := [], m_text := [], m_attrs := [], m_nodes := none })
  have hmoved : Holds m₁ ⟨raw.m_self_close, [], [], [], []⟩
      { raw with m_name := [], m_text := [], m_attrs := [], m_nodes := none } [] := by
    rw [holds_iff]
    refine ⟨⟨rfl, rfl, rfl, rfl⟩, [], [], rfl, ?_, rfl⟩
    rw [HoldAll]
    exact ⟨rfl, rfl⟩
  have hkept : ∀ b ∈ f, buffer m₁ b = buffer m b :=
    fun b hb => hothers b (fun heq => hdisj b hb _ hspine.mem heq)
  have hlive₁ : Live m₁ (f ++ g) := by
    refine ⟨hlive.1, fun b => ?_⟩
    by_cases hb : b = p.buffer
    · subst hb
      exact ⟨fun _ => List.mem_append_right _ hspine.mem, fun _ => hself⟩
    · rw [hothers b hb]
      exact hlive.2 b
  obtain ⟨n, m₂, hdestroy, hfreed⟩ := destroy_spine (s := ⟨m₁, p :: ps⟩) hspine₁ hmoved hndg
  refine ⟨m₁, n, m₂, hwrite, hdestroy, ?_, hlive₁.freed hfreed⟩
  exact (hnode.frame hkept).frame (fun b hb => hfreed.kept (fun hg => hdisj b hb b hg rfl))

/-- **Parsing is memory safe**, whatever libxml2 reports and however vectors grow: no handler uses a pointer that
    dangles, what is built is what `parse` builds on trees, and every buffer is given back once, but for those that the
    result owns. -/
theorem parse_memory_safe (grow : Nat → Nat) (xmlSAXUserParseMemory : StringT → Int × List SaxEvent)
    (a_data : StringT) :
    MemorySafe (parseAt grow xmlSAXUserParseMemory a_data) (parse xmlSAXUserParseMemory a_data) := by
  unfold parseAt parse
  obtain ⟨res, events⟩ := xmlSAXUserParseMemory a_data
  rcases foldlM_stands grow events stands_start with ⟨s, ns, hs, hns, hstands⟩ | ⟨hs, hns⟩
  · by_cases hres : res ≠ 0
    · -- the parser is destroyed with what it has built
      simp only [hs, hns, if_pos hres, Option.bind_eq_bind, Option.bind_some, Option.pure_def]
      cases hstands with
      | empty hstack hlive =>
          refine .error ⟨0, fun k _ => ?_⟩ hlive
          rw [destroy_empty hstack]
          rfl
      | opened hspine hnode hlive =>
          obtain ⟨n, m', hdestroy, hfreed⟩ := destroy_spine hspine hnode hlive.1
          refine .error ⟨n, fun k hk => ?_⟩ (Live.freed (f := []) hlive hfreed)
          rw [hdestroy k hk]
          rfl
    · simp only [hs, hns, if_neg hres, Option.bind_eq_bind, Option.bind_some, Option.pure_def]
      cases hstands with
      | empty hstack hlive =>
          refine .undefined (fun k => ?_)
          rw [hstack]
          rfl
      | @opened node parents raw f g hspine hnode hlive =>
          obtain ⟨m, stack⟩ := s
          cases stack with
          | nil => cases hspine
          | cons p ps =>
              obtain ⟨m₁, n, m₂, hwrite, hdestroy, hholds, hlive₂⟩ := moveOut_destroy hspine hnode hlive
              have hderef : deref m p = some raw := hspine.deref
              have hback : (close node parents).back parents.length = some node := back_close node parents
              simp only [stackOf, Option.bind_some, hback]
              refine .ok ⟨n, fun k hk => ?_⟩ hholds hlive₂
              simp only [List.head?_cons, hderef, hwrite, hdestroy k hk, Option.bind_some]
  · simp only [hs, hns]
    exact .undefined (fun k => rfl)

end Cclxml
end Cclib
