import Cclib.Lib.Runs
import Cclib.Cclxml.Pointers

/-!
# `Cclxml.Builder` — documents that are built through references

`xml_node_c::node` makes a subnode in the vector of its node and returns a reference to it, through which the program goes
on: it adds attributes, text and further subnodes. A later subnode of the same node may make the vector move, and then
the references to its elements dangle; those to the subnodes of the elements do not, for the vectors of these are moved
as they are.

A program is a run of calls, each on one of the nodes made so far. What it has made is kept twice: in memory, and as a
table of the calls that were made on each node (`Made`), of which `tree` makes a document. The two agree throughout the
run exactly if every call is made on a node whose reference has not been moved away since (`Unmoved`).

## Contents
- `node`, `attr_`, `text_`; `Made`, `Document`, `Call`, `step`.
- `treeOf`, `Built`, `Unmoved`.
- `Family`: what the table is like; `Laid`: how the nodes lie in memory.
- `Laid.deref_iff`, `Laid.write`, `Laid.node`: what a call finds, and what it does.
- `Laid.holds`, `builder_safe_iff`.
-/

namespace Cclib
namespace Cclxml
namespace Builder

open Runs
open Vectors (Memory Vec Ref Buffer buffer deref write pushBack double Moved Doubled)

/-! ## The functions -/

/-- `xml_node_c(a_name,a_text,a_self_close)` -/
def newRaw (a_name a_text : StringT) (a_self_close : Bool) : RawNode := ⟨a_self_close, a_name, a_text, [], none⟩

/-- `xml_node_c::node`: the memory, and the reference that is returned. -/
def node (m : Memory RawNode) (p : Ref) (a_name a_text : StringT) (a_self_close : Bool) : Option (Memory RawNode × Ref) := do
  let raw ← deref m p
  let (m, m_nodes, back) ← pushBack double m raw.m_nodes (newRaw a_name a_text a_self_close)
  let m ← write m p (fun raw => { raw with m_nodes := m_nodes })
  return (m, back)

/-- `xml_node_c::attr_` -/
def attr_ (m : Memory RawNode) (p : Ref) (a_name a_value : StringT) : Option (Memory RawNode) :=
  write m p (fun raw => { raw with m_attrs := raw.m_attrs ++ [⟨a_name, a_value⟩] })

/-- `xml_node_c::text_` -/
def text_ (m : Memory RawNode) (p : Ref) (a_text : StringT) : Option (Memory RawNode) :=
  write m p (fun raw => { raw with m_text := raw.m_text ++ a_text })

/-! ## The program -/

/-- A node that was made: the reference to it, its members, and which of the nodes are its subnodes. -/
structure Made where
  ref : Ref
  m_self_close : Bool
  m_name : StringT
  m_text : StringT
  m_attrs : List XmlAttr
  children : List Nat
deriving DecidableEq, Repr

/-- The memory, `none` behind a call through a reference that dangles, and the nodes in the order they were made in. -/
structure Document where
  memory : Option (Memory RawNode)
  made : List Made
deriving DecidableEq, Repr

/-- `xml_node_c root(a_name,a_text,a_self_close)` -/
def Document.root (a_name a_text : StringT) (a_self_close : Bool) : Document :=
  ⟨some [some ⟨[newRaw a_name a_text a_self_close], 1⟩], [⟨⟨0, 0⟩, a_self_close, a_name, a_text, [], []⟩]⟩

/-- A call on the `id`-th node that was made. -/
inductive Call where
  | node (id : Nat) (a_name a_text : StringT) (a_self_close : Bool)
  | attr_ (id : Nat) (a_name a_value : StringT)
  | text_ (id : Nat) (a_text : StringT)

def Call.id : Call → Nat
  | .node id _ _ _ => id
  | .attr_ id _ _ => id
  | .text_ id _ => id

/-- `tr`, `th`, `td`, `div` and `span`. -/
def Call.tr (id : Nat) : Call := .node id [0x74, 0x72] [] false
def Call.th (id : Nat) : Call := .node id [0x74, 0x68] [] false
def Call.td (id : Nat) : Call := .node id [0x74, 0x64] [] false
def Call.div (id : Nat) : Call := .node id [0x64, 0x69, 0x76] [] false
def Call.span (id : Nat) : Call := .node id [0x73, 0x70, 0x61, 0x6e] [] false

/-- What a call does to the memory; `none` where the reference dangles. -/
def Call.memory (call : Call) (m : Memory RawNode) (p : Ref) : Option (Memory RawNode × Option Ref) :=
  match call with
  | .node _ a_name a_text a_self_close => (Builder.node m p a_name a_text a_self_close).map (fun r => (r.1, some r.2))
  | .attr_ _ a_name a_value => (Builder.attr_ m p a_name a_value).map (fun m => (m, none))
  | .text_ _ a_text => (Builder.text_ m p a_text).map (fun m => (m, none))

/-- What is known of the nodes behind a call; `back` is the reference that a call of `node` has returned. -/
def Call.table (call : Call) (made : List Made) (back : Option Ref) : List Made :=
  match call with
  | .node id a_name a_text a_self_close =>
    made.modify id (fun e => { e with children := e.children ++ [made.length] }) ++
      back.toList.map (fun p => ⟨p, a_self_close, a_name, a_text, [], []⟩)
  | .attr_ id a_name a_value => made.modify id (fun e => { e with m_attrs := e.m_attrs ++ [⟨a_name, a_value⟩] })
  | .text_ id a_text => made.modify id (fun e => { e with m_text := e.m_text ++ a_text })

/-- A call through the reference to a node that was made. -/
def step (s : Document) (call : Call) : Option Document := do
  let e ← s.made[call.id]?
  match s.memory.bind (fun m => call.memory m e.ref) with
  | some (m, back) => return ⟨some m, call.table s.made back⟩
  | none => return { s with memory := none }

/-! ## What the program means -/

/-- The document below a node; `fuel` bounds its depth. -/
def treeOf : Nat → List Made → Nat → XmlNode
  | 0, _, _ => ⟨true, [], [], [], []⟩
  | fuel + 1, made, id =>
    match made[id]? with
    | none => ⟨true, [], [], [], []⟩
    | some e => ⟨e.m_self_close, e.m_name, e.m_text, e.m_attrs, e.children.map (treeOf fuel made)⟩

/-- **What is in memory is the document** that the calls describe. -/
def Built (s : Document) : Prop :=
  ∃ m raw fp, s.memory = some m ∧ deref m ⟨0, 0⟩ = some raw ∧ Holds m (treeOf s.made.length s.made 0) raw fp

/-- The vector that a node is in, as an element of it, has not moved since the node was made. -/
def Unmoved (kids : List (List Nat)) (id : Nat) : Prop :=
  ∀ (parent : Nat) (cs : List Nat) (i : Nat), kids[parent]? = some cs → cs[i]? = some id → ¬ Moved i cs.length

/-! ## How the nodes lie in memory -/

/-- The subnodes of every node: they are made later, and every node but the first is a subnode once. -/
structure Family (kids : List (List Nat)) : Prop where
  later : ∀ (id : Nat) cs c, kids[id]? = some cs → c ∈ cs → id < c ∧ c < kids.length
  parent : ∀ c, 0 < c → c < kids.length → ∃ (id : Nat) (cs : List Nat) (i : Nat), kids[id]? = some cs ∧ cs[i]? = some c
  only : ∀ (id : Nat) cs (i : Nat) (id' : Nat) cs' (i' : Nat) (c : Nat), kids[id]? = some cs → cs[i]? = some c →
    kids[id']? = some cs' → cs'[i']? = some c → id = id' ∧ i = i'

/-- The reference to a node. -/
def refOf (refs : List Ref) (id : Nat) : Ref := refs.getD id ⟨0, 0⟩

/-- The node with number `id` is `raws id`, and its subnodes are in the vector `v id`. -/
structure Laid (m : Memory RawNode) (refs : List Ref) (kids : List (List Nat)) (raws : Nat → RawNode) (v : Nat → Vec) :
    Prop where
  family : Family kids
  length : refs.length = kids.length
  root : refs[0]? = some ⟨0, 0⟩ ∧ buffer m 0 = some ⟨[raws 0], 1⟩
  vector : ∀ (id : Nat) cs, kids[id]? = some cs → Doubled m (v id) (cs.map raws) (cs.map (refOf refs))
  top : ∀ id, id < kids.length → v id ≠ some 0
  apart : ∀ id id' b, id < kids.length → id' < kids.length → v id = some b → v id' = some b → id = id'

variable {m m' : Memory RawNode} {refs : List Ref} {kids : List (List Nat)} {raws : Nat → RawNode} {v : Nat → Vec}
  {id parent i : Nat} {cs : List Nat} {x : RawNode}

theorem Laid.pos (h : Laid m refs kids raws v) : 0 < kids.length :=
  h.length ▸ (List.getElem?_eq_some_iff.mp h.root.1).1

theorem Laid.refOf_root (h : Laid m refs kids raws v) : refOf refs 0 = ⟨0, 0⟩ := by
  rw [refOf, List.getD_eq_getElem?_getD, h.root.1]
  rfl

/-- A node but the first is an element of a vector. -/
theorem Laid.place (h : Laid m refs kids raws v) (hid : id < kids.length) (hne : id ≠ 0) :
    ∃ (parent : Nat) (cs : List Nat) (i : Nat), kids[parent]? = some cs ∧ cs[i]? = some id ∧ (cs.map raws)[i]? = some (raws id) ∧
      (cs.map (refOf refs))[i]? = some (refOf refs id) := by
  obtain ⟨parent, cs, i, hcs, hi⟩ := h.family.parent id (Nat.pos_of_ne_zero hne) hid
  refine ⟨parent, cs, i, hcs, hi, ?_, ?_⟩
  · rw [List.getElem?_map, hi]
    rfl
  · rw [List.getElem?_map, hi]
    rfl

/-- The first node is an element of no vector. -/
theorem Family.unmoved_root (h : Family kids) : Unmoved kids 0 := by
  intro parent cs i hcs hi
  exact absurd (h.later parent cs 0 hcs (List.mem_of_getElem? hi)).1 (Nat.not_lt_zero parent)

/-- **What a reference leads to**: the node, or nothing. -/
theorem Laid.deref_iff (h : Laid m refs kids raws v) (hid : id < kids.length) :
    (Unmoved kids id → deref m (refOf refs id) = some (raws id)) ∧
      (¬ Unmoved kids id → deref m (refOf refs id) = none) := by
  by_cases hne : id = 0
  · subst hne
    refine ⟨fun _ => ?_, fun hmoved => absurd h.family.unmoved_root hmoved⟩
    rw [h.refOf_root, Vectors.deref_of_buffer h.root.2]
    rfl
  · obtain ⟨parent, cs, i, hcs, hi, hraw, href⟩ := h.place hid hne
    obtain ⟨hgone, hgood⟩ := (h.vector parent cs hcs).deref_iff href
    rw [List.length_map] at hgone hgood
    constructor
    · intro hunmoved
      exact (hgood (hunmoved parent cs i hcs hi)).trans hraw
    · intro hmoved
      refine hgone ?_
      by_contra hnot
      refine hmoved (fun parent' cs' i' hcs' hi' => ?_)
      obtain ⟨rfl, rfl⟩ := h.family.only _ _ _ _ _ _ _ hcs hi hcs' hi'
      obtain rfl := Option.some.inj (hcs.symm.trans hcs')
      exact hnot

/-! ## Writing through a reference -/

/-- The nodes of a vector, when one node has changed that is not among them. -/
theorem map_update_of_not_mem (hid : id ∉ cs) : cs.map (Function.update raws id x) = cs.map raws := by
  refine List.map_congr_left (fun c hc => Function.update_of_ne ?_ _ _)
  rintro rfl
  exact hid hc

/-- And when it is the `i`-th. -/
theorem map_update_of_only (hi : cs[i]? = some id) (honly : ∀ j : Nat, cs[j]? = some id → j = i) :
    cs.map (Function.update raws id x) = (cs.map raws).set i x := by
  refine List.ext_getElem? (fun j => ?_)
  rw [List.getElem?_map, List.getElem?_set, List.length_map, List.getElem?_map]
  by_cases hj : i = j
  · subst hj
    rw [if_pos rfl, if_pos (List.getElem?_eq_some_iff.mp hi).1, hi]
    exact congrArg some (Function.update_self _ _ _)
  · rw [if_neg hj]
    cases hc : cs[j]? with
    | none => rfl
    | some c =>
        refine congrArg some (Function.update_of_ne ?_ _ _)
        rintro rfl
        exact hj (honly j hc).symm

/-- **Writing** through a reference that does not dangle changes the node there, and no other. -/
theorem Laid.write (h : Laid m refs kids raws v) (hid : id < kids.length) (hunmoved : Unmoved kids id)
    (f : RawNode → RawNode) :
    ∃ m', Vectors.write m (refOf refs id) f = some m' ∧
      Laid m' refs kids (Function.update raws id (f (raws id))) v := by
  by_cases hne : id = 0
  · subst hne
    have hderef := (h.deref_iff hid).1 hunmoved
    rw [h.refOf_root] at hderef ⊢
    obtain ⟨buf, hbuf, m', hwrite, hself, hlen, hothers⟩ := Vectors.write_spec (f := f) hderef
    obtain rfl := Option.some.inj (hbuf.symm.trans h.root.2)
    refine ⟨m', hwrite, h.family, h.length, ⟨h.root.1, ?_⟩, ?_, h.top, h.apart⟩
    · rw [Function.update_self]
      exact hself
    · intro q cs hcs
      have hq : q < kids.length := (List.getElem?_eq_some_iff.mp hcs).1
      have hnot : 0 ∉ cs := fun hmem => Nat.not_lt_zero q (h.family.later q cs 0 hcs hmem).1
      rw [map_update_of_not_mem hnot]
      refine (h.vector q cs hcs).frame (fun b hb => hothers b ?_) (Nat.le_of_eq hlen.symm) (fun b _ hb => ?_)
      · rintro rfl
        exact h.top q hq hb
      · rw [hothers b, hb]
        rintro rfl
        rw [hbuf] at hb
        cases hb
  · obtain ⟨parent, cs, i, hcs, hi, hraw, href⟩ := h.place hid hne
    have hp : parent < kids.length := (List.getElem?_eq_some_iff.mp hcs).1
    have hmoved := hunmoved parent cs i hcs hi
    rw [← List.length_map (f := raws)] at hmoved
    obtain ⟨hv, m', hwrite, hdoubled, hlen, hothers⟩ := (h.vector parent cs hcs).write href hraw hmoved f
    refine ⟨m', hwrite, h.family, h.length, ⟨h.root.1, ?_⟩, ?_, h.top, h.apart⟩
    · rw [Function.update_of_ne (Ne.symm hne), hothers 0, h.root.2]
      intro heq
      exact h.top parent hp (hv.trans (congrArg some heq.symm))
    · intro q cs' hcs'
      have hq : q < kids.length := (List.getElem?_eq_some_iff.mp hcs').1
      by_cases hqp : q = parent
      · subst hqp
        obtain rfl := Option.some.inj (hcs.symm.trans hcs')
        rw [map_update_of_only hi (fun j hj => (h.family.only _ _ _ _ _ _ _ hcs hj hcs hi).2)]
        exact hdoubled
      · have hnot : id ∉ cs' := by
          intro hmem
          obtain ⟨j, hj⟩ := List.mem_iff_getElem?.mp hmem
          exact hqp (h.family.only _ _ _ _ _ _ _ hcs' hj hcs hi).1
        rw [map_update_of_not_mem hnot]
        refine (h.vector q cs' hcs').frame (fun b hb => hothers b ?_) (Nat.le_of_eq hlen.symm) (fun b _ hb => ?_)
        · rintro rfl
          exact hqp (h.apart q parent _ hq hp hb hv)
        · rw [hothers b, hb]
          rintro rfl
          -- the buffer that is written is there
          have hderef := (h.deref_iff hid).1 hunmoved
          rw [Vectors.deref_of_gone hb] at hderef
          cases hderef

/-! ## A new subnode -/

/-- The subnodes of every node, when one of them has a new one. -/
def addKid (kids : List (List Nat)) (id : Nat) : List (List Nat) :=
  kids.modify id (fun cs => cs ++ [kids.length]) ++ [[]]

/-- What stands in a list that was changed at one place and is longer by one. -/
theorem modify_append_cases {α : Type} {l : List α} {f : α → α} {a b : α} {q : Nat}
    (h : (l.modify id f ++ [a])[q]? = some b) :
    (q = l.length ∧ b = a) ∨ ∃ c, l[q]? = some c ∧ b = if id = q then f c else c := by
  rcases Nat.lt_or_ge q l.length with hq | hq
  · rw [List.getElem?_append_left (by rw [List.length_modify]; exact hq), List.getElem?_modify] at h
    obtain ⟨c, hc, rfl⟩ := Option.map_eq_some_iff.mp h
    exact Or.inr ⟨c, hc, rfl⟩
  · have hlt := (List.getElem?_eq_some_iff.mp h).1
    rw [List.length_append, List.length_modify, List.length_singleton] at hlt
    obtain rfl : q = l.length := by omega
    rw [List.getElem?_append_right (by simp), List.length_modify, Nat.sub_self] at h
    exact Or.inl ⟨rfl, (Option.some.inj h).symm⟩

theorem addKid_cases {q : Nat} {cs' : List Nat} (h : (addKid kids id)[q]? = some cs') :
    (q = kids.length ∧ cs' = []) ∨ ∃ cs, kids[q]? = some cs ∧ cs' = if id = q then cs ++ [kids.length] else cs :=
  modify_append_cases h

theorem getElem?_addKid {q : Nat} (hcs : kids[q]? = some cs) :
    (addKid kids id)[q]? = some (if id = q then cs ++ [kids.length] else cs) := by
  have hq := (List.getElem?_eq_some_iff.mp hcs).1
  rw [addKid, List.getElem?_append_left (by rw [List.length_modify]; exact hq), List.getElem?_modify, hcs]
  rfl

theorem length_addKid (kids : List (List Nat)) (id : Nat) : (addKid kids id).length = kids.length + 1 := by
  rw [addKid, List.length_append, List.length_modify]
  rfl

/-- A subnode in the new table is the new one, or was one. -/
theorem kid_cases {q : Nat} {cs' : List Nat} {c : Nat} (h : (addKid kids id)[q]? = some cs') (hi : cs'[i]? = some c) :
    (c = kids.length ∧ q = id ∧ ∃ cs, kids[id]? = some cs ∧ i = cs.length) ∨
      ∃ cs, kids[q]? = some cs ∧ cs[i]? = some c := by
  rcases addKid_cases h with ⟨-, rfl⟩ | ⟨cs, hcs, rfl⟩
  · cases hi
  · by_cases hq : id = q
    · subst hq
      rw [if_pos rfl] at hi
      rcases Nat.lt_or_ge i cs.length with hlt | hge
      · rw [List.getElem?_append_left hlt] at hi
        exact Or.inr ⟨cs, hcs, hi⟩
      · have hlast := (List.getElem?_eq_some_iff.mp hi).1
        rw [List.length_append, List.length_singleton] at hlast
        obtain rfl : i = cs.length := by omega
        rw [List.getElem?_concat_length] at hi
        exact Or.inl ⟨(Option.some.inj hi).symm, rfl, cs, hcs, rfl⟩
    · rw [if_neg hq] at hi
      exact Or.inr ⟨cs, hcs, hi⟩

theorem Family.addKid (h : Family kids) (hcs : kids[id]? = some cs) : Family (addKid kids id) where
  later := by
    intro q cs' c hcs' hc
    obtain ⟨i, hi⟩ := List.mem_iff_getElem?.mp hc
    rw [length_addKid]
    rcases kid_cases hcs' hi with ⟨rfl, rfl, -⟩ | ⟨cs₀, hcs₀, hi₀⟩
    · exact ⟨(List.getElem?_eq_some_iff.mp hcs).1, Nat.lt_succ_self _⟩
    · obtain ⟨hlt, hlen⟩ := h.later q cs₀ c hcs₀ (List.mem_of_getElem? hi₀)
      exact ⟨hlt, Nat.lt_succ_of_lt hlen⟩
  parent := by
    intro c hpos hlt
    rw [length_addKid] at hlt
    rcases Nat.lt_succ_iff_lt_or_eq.mp hlt with hlt | rfl
    · obtain ⟨q, cs₀, i, hcs₀, hi⟩ := h.parent c hpos hlt
      refine ⟨q, _, i, getElem?_addKid hcs₀, ?_⟩
      split
      · rw [List.getElem?_append_left (List.getElem?_eq_some_iff.mp hi).1]
        exact hi
      · exact hi
    · refine ⟨id, _, cs.length, getElem?_addKid hcs, ?_⟩
      rw [if_pos rfl, List.getElem?_concat_length]
  only := by
    intro q cs₁ i q' cs₂ i' c h₁ hi₁ h₂ hi₂
    have hold : ∀ {q i : Nat} {cs : List Nat}, kids[q]? = some cs → cs[i]? = some c → c ≠ kids.length :=
      fun hcs hi => Nat.ne_of_lt (h.later _ _ _ hcs (List.mem_of_getElem? hi)).2
    rcases kid_cases h₁ hi₁ with ⟨hc, rfl, csa, ha, rfl⟩ | ⟨csa, ha, hia⟩
    · rcases kid_cases h₂ hi₂ with ⟨-, rfl, csb, hb, rfl⟩ | ⟨csb, hb, hib⟩
      · obtain rfl := Option.some.inj (ha.symm.trans hb)
        exact ⟨rfl, rfl⟩
      · exact absurd hc (hold hb hib)
    · rcases kid_cases h₂ hi₂ with ⟨hc, rfl, csb, hb, rfl⟩ | ⟨csb, hb, hib⟩
      · exact absurd hc (hold ha hia)
      · exact h.only _ _ _ _ _ _ _ ha hia hb hib

/-- The reference to a node that has no new subnode stays what it was. -/
theorem Family.unmoved_addKid (h : Family kids) (hunmoved : Unmoved kids id) : Unmoved (Builder.addKid kids id) id := by
  intro parent cs' i hcs' hi
  rcases kid_cases hcs' hi with ⟨rfl, rfl, cs, hcs, -⟩ | ⟨cs, hcs, hi₀⟩
  · exact absurd (List.getElem?_eq_some_iff.mp hcs).1 (Nat.lt_irrefl _)
  · rcases addKid_cases hcs' with ⟨rfl, rfl⟩ | ⟨cs₀, hcs₀, rfl⟩
    · cases hi
    · obtain rfl := Option.some.inj (hcs.symm.trans hcs₀)
      have hlt := (h.later parent cs id hcs (List.mem_of_getElem? hi₀)).1
      rw [if_neg (Nat.ne_of_gt hlt)]
      exact hunmoved parent cs i hcs hi₀

theorem refOf_append {c : Nat} {p : Ref} (hc : c < refs.length) : refOf (refs ++ [p]) c = refOf refs c := by
  rw [refOf, refOf, List.getD_eq_getElem?_getD, List.getD_eq_getElem?_getD, List.getElem?_append_left hc]

theorem refOf_last (refs : List Ref) (p : Ref) : refOf (refs ++ [p]) refs.length = p := by
  rw [refOf, List.getD_eq_getElem?_getD, List.getElem?_concat_length]
  rfl

/-- The vector of a node is there. -/
theorem Laid.live {b : Nat} (h : Laid m refs kids raws v) (hcs : kids[id]? = some cs) (hv : v id = some b) :
    ∃ buf, buffer m b = some buf := by
  have helems := (h.vector id cs hcs).elems
  rw [hv] at helems
  obtain ⟨buf, hbuf, -⟩ := Option.map_eq_some_iff.mp helems
  exact ⟨buf, hbuf⟩

/-- The vectors of the nodes, when one has a new subnode. -/
def newVec (v : Nat → Vec) (n id : Nat) (v' : Vec) : Nat → Vec := Function.update (Function.update v id v') n none

theorem newVec_cases {n q : Nat} (v : Nat → Vec) (v' : Vec) (hid : id < n) (hq : q < n + 1) :
    (q = n ∧ newVec v n id v' q = none) ∨ (q = id ∧ newVec v n id v' q = v') ∨
      (q ≠ id ∧ q < n ∧ newVec v n id v' q = v q) := by
  unfold newVec
  by_cases hqn : q = n
  · subst hqn
    exact Or.inl ⟨rfl, Function.update_self _ _ _⟩
  · rw [Function.update_of_ne hqn]
    by_cases hqid : q = id
    · subst hqid
      exact Or.inr (Or.inl ⟨rfl, Function.update_self _ _ _⟩)
    · exact Or.inr (Or.inr ⟨hqid, by omega, Function.update_of_ne hqid _ _⟩)

/-- **A push** to the vector of a node. Only the references to its elements may dangle behind it. -/
theorem Laid.push (h : Laid m refs kids raws v) (hcs : kids[id]? = some cs) (x : RawNode) :
    ∃ m' v' p, pushBack double m (v id) x = some (m', v', p) ∧
      Laid m' (refs ++ [p]) (addKid kids id) (Function.update raws kids.length x) (newVec v kids.length id v') := by
  obtain ⟨m', v', p, hpush, hdoubled⟩ := (h.vector id cs hcs).push x
  refine ⟨m', v', p, hpush, ?_⟩
  obtain ⟨m₁, b, c, hspec, hbuf, hb, hothers⟩ := Vectors.pushBack_spec double x (h.vector id cs hcs).elems
  obtain ⟨rfl, hpair⟩ := Prod.mk.inj (Option.some.inj (hpush.symm.trans hspec))
  obtain ⟨rfl, -⟩ := Prod.mk.inj hpair
  have hid := (List.getElem?_eq_some_iff.mp hcs).1
  have hlen := Vectors.pushBack_length hpush
  -- the buffer of the new subnode is that of its siblings, or a new one
  have hold : ∀ d, d < m.length → v id ≠ some d → d ≠ b := by
    rintro d hd hv rfl
    rcases hb with hb | rfl
    · exact hv hb
    · exact Nat.lt_irrefl _ hd
  have hkept : ∀ d, d < m.length → v id ≠ some d → buffer m' d = buffer m d :=
    fun d hd hv => (hothers d (hold d hd hv)).trans (if_neg hv)
  have hgone : ∀ d, d < m.length → buffer m d = none → buffer m' d = none := by
    intro d hd hnone
    have hv : v id ≠ some d := by
      intro hv
      obtain ⟨buf, hlive⟩ := h.live hcs hv
      rw [hnone] at hlive
      cases hlive
    rw [hkept d hd hv, hnone]
  have hroot := Vectors.lt_of_buffer h.root.2
  have hraws : ∀ {cs : List Nat}, (∀ c ∈ cs, c < kids.length) →
      cs.map (Function.update raws kids.length x) = cs.map raws ∧ cs.map (refOf (refs ++ [p])) = cs.map (refOf refs) := by
    intro cs hcs
    refine ⟨map_update_of_not_mem (fun hmem => Nat.lt_irrefl _ (hcs _ hmem)), List.map_congr_left (fun c hc => ?_)⟩
    exact refOf_append (h.length ▸ hcs c hc)
  refine ⟨h.family.addKid hcs, ?_, ⟨?_, ?_⟩, ?_, ?_, ?_⟩
  · rw [List.length_append, length_addKid, h.length]
    rfl
  · rw [List.getElem?_append_left (h.length ▸ h.pos)]
    exact h.root.1
  · rw [Function.update_of_ne (Nat.ne_of_lt h.pos), hkept 0 hroot (h.top id hid)]
    exact h.root.2
  · intro q cs' hcs'
    rcases addKid_cases hcs' with ⟨rfl, rfl⟩ | ⟨cs₀, hcs₀, rfl⟩
    · rw [newVec, Function.update_self]
      exact Vectors.doubled_nil m'
    · have hq := (List.getElem?_eq_some_iff.mp hcs₀).1
      obtain ⟨hxs, hrefs⟩ := hraws (fun c hc => (h.family.later q cs₀ c hcs₀ hc).2)
      rcases newVec_cases v (some b) hid (Nat.lt_succ_of_lt hq) with ⟨rfl, -⟩ | ⟨rfl, hv⟩ | ⟨hne, -, hv⟩
      · exact absurd hq (Nat.lt_irrefl _)
      · obtain rfl := Option.some.inj (hcs.symm.trans hcs₀)
        rw [hv, if_pos rfl, List.map_append, List.map_append, hxs, hrefs, List.map_singleton, List.map_singleton,
          Function.update_self, ← h.length, refOf_last]
        exact hdoubled
      · rw [hv, if_neg (Ne.symm hne), hxs, hrefs]
        refine (h.vector q cs₀ hcs₀).frame (fun d hd => ?_) hlen hgone
        obtain ⟨buf, hlive⟩ := h.live hcs₀ hd
        exact hkept d (Vectors.lt_of_buffer hlive) (fun hv => hne (h.apart q id d hq hid hd hv))
  · intro q hq
    rw [length_addKid] at hq
    rcases newVec_cases v (some b) hid hq with ⟨rfl, hv⟩ | ⟨rfl, hv⟩ | ⟨-, hq, hv⟩
    · rw [hv]
      intro heq
      cases heq
    · rw [hv]
      exact fun heq => hold 0 hroot (h.top q hid) (Option.some.inj heq).symm
    · rw [hv]
      exact h.top q hq
  · intro q q' d hq hq' hd hd'
    rw [length_addKid] at hq hq'
    -- the buffer of another vector is not the one of the new subnode
    have hother : ∀ r, r ≠ id → r < kids.length → v r = some d → d ≠ b := by
      intro r hr hlt hv
      obtain ⟨buf, hlive⟩ := h.live (List.getElem?_eq_getElem hlt) hv
      exact hold d (Vectors.lt_of_buffer hlive) (fun hv' => hr (h.apart r id d hlt hid hv hv'))
    rcases newVec_cases v (some b) hid hq with ⟨rfl, hv⟩ | ⟨rfl, hv⟩ | ⟨hne, hlt, hv⟩
    · rw [hv] at hd
      cases hd
    · rw [hv] at hd
      rcases newVec_cases v (some b) hid hq' with ⟨rfl, hv'⟩ | ⟨rfl, hv'⟩ | ⟨hne', hlt', hv'⟩
      · rw [hv'] at hd'
        cases hd'
      · rfl
      · exact absurd (Option.some.inj hd).symm (hother q' hne' hlt' (hv'.symm.trans hd'))
    · rcases newVec_cases v (some b) hid hq' with ⟨rfl, hv'⟩ | ⟨rfl, hv'⟩ | ⟨hne', hlt', hv'⟩
      · rw [hv'] at hd'
        cases hd'
      · rw [hv'] at hd'
        exact absurd (Option.some.inj hd').symm (hother q hne hlt (hv.symm.trans hd))
      · exact h.apart q q' d hlt hlt' (hv.symm.trans hd) (hv'.symm.trans hd')

/-- **A call of `node`** through a reference that does not dangle. -/
theorem Laid.node (h : Laid m refs kids raws (fun id => (raws id).m_nodes)) (hcs : kids[id]? = some cs)
    (hunmoved : Unmoved kids id) (a_name a_text : StringT) (a_self_close : Bool) :
    ∃ m' p v' raws', Builder.node m (refOf refs id) a_name a_text a_self_close = some (m', p) ∧
      raws' = Function.update (Function.update raws kids.length (newRaw a_name a_text a_self_close)) id
        { raws id with m_nodes := v' } ∧
      Laid m' (refs ++ [p]) (addKid kids id) raws' (fun id => (raws' id).m_nodes) := by
  have hid := (List.getElem?_eq_some_iff.mp hcs).1
  have hderef := (h.deref_iff hid).1 hunmoved
  obtain ⟨m₁, v', p, hpush, h₁⟩ := h.push hcs (newRaw a_name a_text a_self_close)
  obtain ⟨m₂, hwrite, h₂⟩ := h₁.write (by rw [length_addKid]; exact Nat.lt_succ_of_lt hid)
    (h.family.unmoved_addKid hunmoved) (fun raw => { raw with m_nodes := v' })
  rw [refOf_append (h.length ▸ hid)] at hwrite
  rw [Function.update_of_ne (Nat.ne_of_lt hid)] at h₂
  refine ⟨m₂, p, v', _, ?_, rfl, ?_⟩
  · simp only [Builder.node, hderef, hpush, hwrite, Option.bind_eq_bind, Option.bind_some, Option.pure_def]
  · -- the vectors are the ones that the nodes have
    have hv : newVec (fun id => (raws id).m_nodes) kids.length id v' =
        fun q => ((Function.update (Function.update raws kids.length (newRaw a_name a_text a_self_close)) id
          { raws id with m_nodes := v' }) q).m_nodes := by
      funext q
      unfold newVec
      by_cases hqid : q = id
      · subst hqid
        rw [Function.update_of_ne (Nat.ne_of_lt hid), Function.update_self, Function.update_self]
      · rw [Function.update_of_ne hqid]
        by_cases hqn : q = kids.length
        · subst hqn
          rw [Function.update_self, Function.update_self]
          rfl
        · rw [Function.update_of_ne hqn, Function.update_of_ne hqn, Function.update_of_ne hqid]
    rw [← hv]
    exact h₂

/-! ## One call -/

/-- The members of a node that was made, without its subnodes. -/
def Made.shell (e : Made) : XmlNode := ⟨e.m_self_close, e.m_name, e.m_text, e.m_attrs, []⟩

/-- The nodes in memory have the members that the calls gave them. -/
def Shells (made : List Made) (raws : Nat → RawNode) : Prop :=
  ∀ (id : Nat) e, made[id]? = some e → SameShell (raws id) e.shell

/-- What the program has made lies in memory. -/
def Stored (s : Document) : Prop :=
  ∃ m raws, s.memory = some m ∧
    Laid m (s.made.map Made.ref) (s.made.map Made.children) raws (fun id => (raws id).m_nodes) ∧ Shells s.made raws

variable {made : List Made} {s s' : Document} {call : Call} {e : Made}

theorem map_modify {β : Type} {g : Made → β} {f : Made → Made} (hf : ∀ e, g (f e) = g e) (id : Nat) :
    (made.modify id f).map g = made.map g := by
  refine List.ext_getElem? (fun q => ?_)
  rw [List.getElem?_map, List.getElem?_map, List.getElem?_modify]
  cases made[q]? with
  | none => rfl
  | some e =>
      refine congrArg some ?_
      by_cases hq : id = q
      · simp only [if_pos hq, hf]
      · simp only [if_neg hq]

/-- A call that changes members of one node, and no vector. -/
theorem Laid.change (h : Laid m (made.map Made.ref) (made.map Made.children) raws (fun id => (raws id).m_nodes))
    (hshells : Shells made raws) (he : made[id]? = some e) (hunmoved : Unmoved (made.map Made.children) id)
    {f : RawNode → RawNode} {g : Made → Made} (hf : ∀ raw, (f raw).m_nodes = raw.m_nodes)
    (href : ∀ e, (g e).ref = e.ref) (hkids : ∀ e, (g e).children = e.children)
    (hsame : ∀ raw e, SameShell raw (Made.shell e) → SameShell (f raw) (g e).shell) :
    ∃ m', Vectors.write m (refOf (made.map Made.ref) id) f = some m' ∧ Stored ⟨some m', made.modify id g⟩ := by
  have hid := (List.getElem?_eq_some_iff.mp he).1
  obtain ⟨m', hwrite, h'⟩ := h.write (by rw [List.length_map]; exact hid) hunmoved f
  refine ⟨m', hwrite, m', Function.update raws id (f (raws id)), rfl, ?_, ?_⟩
  · rw [map_modify href, map_modify hkids]
    have hv : (fun q => (raws q).m_nodes) = fun q => (Function.update raws id (f (raws id)) q).m_nodes := by
      funext q
      by_cases hq : q = id
      · subst hq
        rw [Function.update_self, hf]
      · rw [Function.update_of_ne hq]
    rw [← hv]
    exact h'
  · intro q e' he'
    rw [List.getElem?_modify] at he'
    obtain ⟨e₀, he₀, rfl⟩ := Option.map_eq_some_iff.mp he'
    by_cases hq : id = q
    · subst hq
      rw [if_pos rfl, Function.update_self]
      exact hsame _ _ (hshells id e₀ he₀)
    · rw [if_neg hq, Function.update_of_ne (Ne.symm hq)]
      exact hshells q e₀ he₀

theorem refOf_map (he : made[id]? = some e) : refOf (made.map Made.ref) id = e.ref := by
  rw [refOf, List.getD_eq_getElem?_getD, List.getElem?_map, he]
  rfl

/-- A call of `node`, and the table behind it. -/
theorem Laid.node_stored (h : Laid m (made.map Made.ref) (made.map Made.children) raws (fun id => (raws id).m_nodes))
    (hshells : Shells made raws) (he : made[id]? = some e) (hunmoved : Unmoved (made.map Made.children) id)
    (a_name a_text : StringT) (a_self_close : Bool) :
    ∃ m' p, Builder.node m (refOf (made.map Made.ref) id) a_name a_text a_self_close = some (m', p) ∧
      Stored ⟨some m', (Call.node id a_name a_text a_self_close).table made (some p)⟩ := by
  have hid := (List.getElem?_eq_some_iff.mp he).1
  have hcs : (made.map Made.children)[id]? = some e.children := by
    rw [List.getElem?_map, he]
    rfl
  obtain ⟨m', p, v', raws', hnode, hraws, h'⟩ := h.node hcs hunmoved a_name a_text a_self_close
  rw [List.length_map] at hraws
  refine ⟨m', p, hnode, m', raws', rfl, ?_, ?_⟩
  · have hrefs : ((Call.node id a_name a_text a_self_close).table made (some p)).map Made.ref =
        made.map Made.ref ++ [p] := by
      rw [Call.table, List.map_append]
      exact congrArg₂ (· ++ ·)
        (map_modify (f := fun e => { e with children := e.children ++ [made.length] }) (fun _ => rfl) id) rfl
    have hkids : ((Call.node id a_name a_text a_self_close).table made (some p)).map Made.children =
        addKid (made.map Made.children) id := by
      rw [Call.table, List.map_append, addKid, List.length_map]
      refine congrArg₂ (· ++ ·) (List.ext_getElem? (fun q => ?_)) rfl
      rw [List.getElem?_map, List.getElem?_modify, List.getElem?_modify, List.getElem?_map]
      cases made[q]? with
      | none => rfl
      | some e =>
          refine congrArg some ?_
          by_cases hq : id = q
          · simp only [if_pos hq]
          · simp only [if_neg hq]
    rw [hrefs, hkids]
    exact h'
  · intro q e' he'
    rw [hraws]
    rcases modify_append_cases he' with ⟨rfl, rfl⟩ | ⟨e₀, he₀, rfl⟩
    · rw [Function.update_of_ne (Nat.ne_of_gt hid), Function.update_self]
      exact ⟨rfl, rfl, rfl, rfl⟩
    · have hq := (List.getElem?_eq_some_iff.mp he₀).1
      have hsame := hshells q e₀ he₀
      by_cases hqid : id = q
      · subst hqid
        rw [if_pos rfl, Function.update_self]
        exact hsame
      · rw [if_neg hqid, Function.update_of_ne (Ne.symm hqid), Function.update_of_ne (Nat.ne_of_lt hq)]
        exact hsame

/-- **One call**: on a node that has not moved it does what it says, and on any other there is none behind it. -/
theorem step_stored (hs : Stored s) (h : step s call = some s') :
    (Unmoved (s.made.map Made.children) call.id → Stored s') ∧
      (¬ Unmoved (s.made.map Made.children) call.id → s'.memory = none) := by
  obtain ⟨m, raws, hm, hlaid, hshells⟩ := hs
  obtain ⟨e, he, h⟩ := Option.bind_eq_some_iff.mp h
  have hid := (List.getElem?_eq_some_iff.mp he).1
  rw [hm, Option.bind_some] at h
  constructor
  · intro hunmoved
    cases call with
    | node id a_name a_text a_self_close =>
        obtain ⟨m', p, hnode, hstored⟩ := hlaid.node_stored hshells he hunmoved a_name a_text a_self_close
        rw [refOf_map he] at hnode
        simp only [Call.memory, hnode, Option.map_some, Option.pure_def, Option.some.injEq] at h
        subst h
        exact hstored
    | attr_ id a_name a_value =>
        obtain ⟨m', hwrite, hstored⟩ := hlaid.change hshells he hunmoved
          (f := fun raw => { raw with m_attrs := raw.m_attrs ++ [⟨a_name, a_value⟩] })
          (g := fun e => { e with m_attrs := e.m_attrs ++ [⟨a_name, a_value⟩] })
          (fun _ => rfl) (fun _ => rfl) (fun _ => rfl)
          (fun _ _ ⟨hclose, hname, htext, hattrs⟩ => ⟨hclose, hname, htext, congrArg (· ++ [⟨a_name, a_value⟩]) hattrs⟩)
        rw [refOf_map he] at hwrite
        simp only [Call.memory, Builder.attr_, hwrite, Option.map_some, Option.pure_def, Option.some.injEq] at h
        subst h
        exact hstored
    | text_ id a_text =>
        obtain ⟨m', hwrite, hstored⟩ := hlaid.change hshells he hunmoved
          (f := fun raw => { raw with m_text := raw.m_text ++ a_text })
          (g := fun e => { e with m_text := e.m_text ++ a_text })
          (fun _ => rfl) (fun _ => rfl) (fun _ => rfl)
          (fun _ _ ⟨hclose, hname, htext, hattrs⟩ => ⟨hclose, hname, congrArg (· ++ a_text) htext, hattrs⟩)
        rw [refOf_map he] at hwrite
        simp only [Call.memory, Builder.text_, hwrite, Option.map_some, Option.pure_def, Option.some.injEq] at h
        subst h
        exact hstored
  · intro hmoved
    have hdangles : deref m e.ref = none := by
      rw [← refOf_map he]
      exact (hlaid.deref_iff (by rw [List.length_map]; exact hid)).2 hmoved
    have hnone : call.memory m e.ref = none := by
      cases call with
      | node id a_name a_text a_self_close =>
          simp only [Call.memory, Builder.node, hdangles, Option.bind_eq_bind, Option.bind_none, Option.map_none]
      | attr_ id a_name a_value => simp only [Call.memory, Builder.attr_, Vectors.write_of_dangling hdangles, Option.map_none]
      | text_ id a_text => simp only [Call.memory, Builder.text_, Vectors.write_of_dangling hdangles, Option.map_none]
    rw [hnone] at h
    obtain rfl := Option.some.inj h
    rfl

/-! ## The whole program -/

theorem holdAll_map {f : Nat → XmlNode} (h : ∀ c ∈ cs, ∃ fp, Holds m (f c) (raws c) fp) :
    ∃ fp, HoldAll m (cs.map f) (cs.map raws) fp := by
  induction cs with
  | nil =>
      refine ⟨[], ?_⟩
      rw [List.map_nil, HoldAll]
      exact ⟨rfl, rfl⟩
  | cons c cs ih =>
      obtain ⟨fp, hc⟩ := h c List.mem_cons_self
      obtain ⟨fps, hcs⟩ := ih (fun c hc => h c (List.mem_cons_of_mem _ hc))
      refine ⟨fp ++ fps, ?_⟩
      rw [List.map_cons, HoldAll]
      exact ⟨raws c, cs.map raws, fp, fps, rfl, hc, hcs, rfl⟩

/-- **What lies in memory** is the document below each node. The subnodes of a node are made later than it. -/
theorem Laid.holds (h : Laid m (made.map Made.ref) (made.map Made.children) raws (fun id => (raws id).m_nodes))
    (hshells : Shells made raws) (fuel : Nat) (he : made[id]? = some e) (hfuel : made.length ≤ id + fuel) :
    ∃ fp, Holds m (treeOf fuel made id) (raws id) fp := by
  induction fuel generalizing id e with
  | zero => exact absurd (List.getElem?_eq_some_iff.mp he).1 (Nat.not_lt.mpr hfuel)
  | succ fuel ih =>
      have hcs : (made.map Made.children)[id]? = some e.children := by
        rw [List.getElem?_map, he]
        rfl
      have hall : ∀ c ∈ e.children, ∃ fp, Holds m (treeOf fuel made c) (raws c) fp := by
        intro c hc
        obtain ⟨hlt, hlen⟩ := h.family.later id e.children c hcs hc
        rw [List.length_map] at hlen
        exact ih (List.getElem?_eq_getElem hlen) (by omega)
      obtain ⟨g, hg⟩ := holdAll_map hall
      obtain ⟨hclose, hname, htext, hattrs⟩ := hshells id e he
      refine ⟨(raws id).m_nodes.toList ++ g, ?_⟩
      rw [treeOf, he, holds_iff]
      exact ⟨⟨hclose, hname, htext, hattrs⟩, e.children.map raws, g, (h.vector id e.children hcs).elems, hg, rfl⟩

theorem Stored.built (h : Stored s) : Built s := by
  obtain ⟨m, raws, hm, hlaid, hshells⟩ := h
  have hpos := hlaid.pos
  rw [List.length_map] at hpos
  obtain ⟨fp, hholds⟩ := hlaid.holds hshells s.made.length (List.getElem?_eq_getElem hpos) (Nat.le_add_left _ _)
  refine ⟨m, raws 0, fp, hm, ?_, hholds⟩
  rw [Vectors.deref_of_buffer hlaid.root.2]
  rfl

theorem stored_root (a_name a_text : StringT) (a_self_close : Bool) : Stored (Document.root a_name a_text a_self_close) := by
  have hkids : ∀ {id : Nat} {cs : List Nat}, [([] : List Nat)][id]? = some cs → cs = [] :=
    fun h => List.mem_singleton.mp (List.mem_of_getElem? h)
  refine ⟨_, fun _ => newRaw a_name a_text a_self_close, rfl, ⟨⟨?_, ?_, ?_⟩, rfl, ⟨rfl, rfl⟩, ?_, ?_, ?_⟩, ?_⟩
  · intro id cs c hcs hc
    rw [hkids hcs] at hc
    cases hc
  · intro c hpos hlt
    exact absurd hlt (Nat.not_lt.mpr hpos)
  · intro id cs i id' cs' i' c hcs hi
    rw [hkids hcs] at hi
    cases hi
  · intro id cs hcs
    rw [hkids hcs]
    exact Vectors.doubled_nil _
  · intro id _ h
    cases h
  · intro id id' b _ _ h
    cases h
  · intro id e he
    obtain rfl := List.mem_singleton.mp (List.mem_of_getElem? he)
    exact ⟨rfl, rfl, rfl, rfl⟩

/-- **Building a document** is safe exactly for the programs that never call through a reference whose vector has moved:
    in every other run, from the first such call on, nothing is known of the memory; in these the memory always holds
    the document that the calls describe. -/
theorem builder_safe_iff (a_name a_text : StringT) (a_self_close : Bool) (calls : List Call) :
    Throughout step Built (Document.root a_name a_text a_self_close) calls ↔
      Along step (fun s call => Unmoved (s.made.map Made.children) call.id)
        (Document.root a_name a_text a_self_close) calls := by
  refine throughout_iff_along (fun s hs => hs.built) (fun s call s' hs hcall h => (step_stored hs h).1 hcall) ?_
    (stored_root a_name a_text a_self_close)
  intro s call s' hs h hbuilt
  by_contra hmoved
  obtain ⟨m, raw, fp, hm, -⟩ := hbuilt
  rw [(step_stored hs h).2 hmoved] at hm
  cases hm

-- the reference to a row of a table dangles behind the next row
example : (run step (Document.root [] [] true) [.tr 0, .td 1, .tr 0, .td 1]).map Document.memory = some none := by decide

end Builder
end Cclxml
end Cclib
