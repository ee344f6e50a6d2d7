import Mathlib.Data.List.Induction
import Mathlib.Data.List.ModifyLast
import Mathlib.Data.List.Basic
import Cclib.Cclxml.Node

/-!
# `Cclxml.Events` — the tree of a balanced event sequence

An element in the events is a start, its content and an end; its content is character data with elements in
between (`Element`). What the character data between two tags is given as is a parameter: a text, or the
texts it is cut into.

`build_events` — the handlers turn the events of an element into its tree, without the line ends that come
in a call of their own.
-/

namespace Cclib
namespace Cclxml

mutual
/-- A balanced event sequence: one element. -/
inductive Element (R : Type) where
  | mk (name : StringT) (attrs : List (StringT × StringT)) (content : Content R)

/-- The runs of character data before, between and after the elements. -/
inductive Content (R : Type) where
  | last (run : R)
  | more (run : R) (e : Element R) (rest : Content R)
end

variable {R S : Type}

mutual
/-- The character data of every run. -/
def Element.runs : Element R → List R
  | .mk _ _ content => content.runs

def Content.runs : Content R → List R
  | .last run => [run]
  | .more run e rest => run :: (e.runs ++ rest.runs)
end

mutual
/-- The same elements around other runs. -/
def Element.map (f : R → S) : Element R → Element S
  | .mk name attrs content => .mk name attrs (content.map f)

def Content.map (f : R → S) : Content R → Content S
  | .last run => .last (f run)
  | .more run e rest => .more (f run) (e.map f) (rest.map f)
end

mutual
/-- The events when a run is delivered in the calls `chunks run`. -/
def Element.events (chunks : R → List StringT) : Element R → List SaxEvent
  | .mk name attrs content => .startElement name attrs :: (content.events chunks ++ [.endElement name])

def Content.events (chunks : R → List StringT) : Content R → List SaxEvent
  | .last run => (chunks run).map .characters
  | .more run e rest => (chunks run).map .characters ++ (e.events chunks ++ rest.events chunks)
end

mutual
/-- The tree when `kept run` is kept of a run. -/
def Element.node (kept : R → StringT) : Element R → XmlNode
  | .mk name attrs content =>
      ⟨true, name, content.text kept, attrs.map (fun attr => ⟨attr.1, attr.2⟩), content.nodes kept⟩

def Content.text (kept : R → StringT) : Content R → StringT
  | .last run => kept run
  | .more run _ rest => kept run ++ rest.text kept

def Content.nodes (kept : R → StringT) : Content R → List XmlNode
  | .last _ => []
  | .more _ e rest => e.node kept :: rest.nodes kept
end

/-! ## Trees and runs -/

mutual
theorem Element.runs_map (f : R → S) : ∀ e : Element R, (e.map f).runs = e.runs.map f
  | .mk _ _ content => content.runs_map f

theorem Content.runs_map (f : R → S) : ∀ c : Content R, (c.map f).runs = c.runs.map f
  | .last _ => rfl
  | .more run e rest => by
      simp only [Content.map, Content.runs, List.map_cons, List.map_append, e.runs_map f, rest.runs_map f]
end

mutual
theorem Element.map_map {T : Type} (f : R → S) (g : S → T) : ∀ e : Element R, (e.map f).map g = e.map (g ∘ f)
  | .mk name attrs content => congrArg (Element.mk name attrs) (content.map_map f g)

theorem Content.map_map {T : Type} (f : R → S) (g : S → T) : ∀ c : Content R, (c.map f).map g = c.map (g ∘ f)
  | .last _ => rfl
  | .more run e rest => by
      simp only [Content.map, e.map_map f g, rest.map_map f g, Function.comp]
end

mutual
theorem Element.map_id : ∀ e : Element R, e.map id = e
  | .mk name attrs content => congrArg (Element.mk name attrs) content.map_id

theorem Content.map_id : ∀ c : Content R, c.map id = c
  | .last _ => rfl
  | .more run e rest => congrArg₂ (Content.more run) e.map_id rest.map_id
end

mutual
theorem Element.events_map (f : R → S) (chunks : S → List StringT) :
    ∀ e : Element R, (e.map f).events chunks = e.events (chunks ∘ f)
  | .mk name attrs content => by
      simp only [Element.map, Element.events, content.events_map f chunks]

theorem Content.events_map (f : R → S) (chunks : S → List StringT) :
    ∀ c : Content R, (c.map f).events chunks = c.events (chunks ∘ f)
  | .last _ => rfl
  | .more run e rest => by
      simp only [Content.map, Content.events, e.events_map f chunks, rest.events_map f chunks, Function.comp]
end

mutual
theorem Element.node_map (f : R → S) (kept : S → StringT) : ∀ e : Element R, (e.map f).node kept = e.node (kept ∘ f)
  | .mk name attrs content => by
      simp only [Element.map, Element.node, content.text_map f kept, content.nodes_map f kept]

theorem Content.text_map (f : R → S) (kept : S → StringT) : ∀ c : Content R, (c.map f).text kept = c.text (kept ∘ f)
  | .last _ => rfl
  | .more run e rest => by
      simp only [Content.map, Content.text, rest.text_map f kept, Function.comp]

theorem Content.nodes_map (f : R → S) (kept : S → StringT) :
    ∀ c : Content R, (c.map f).nodes kept = c.nodes (kept ∘ f)
  | .last _ => rfl
  | .more run e rest => by
      simp only [Content.map, Content.nodes, e.node_map f kept, rest.nodes_map f kept]
end

mutual
/-- Only what is kept of the runs that are there matters. -/
theorem Element.node_congr {f g : R → StringT} : ∀ e : Element R, (∀ run ∈ e.runs, f run = g run) → e.node f = e.node g
  | .mk name attrs content, h => by
      simp only [Element.node, content.text_congr h, content.nodes_congr h]

theorem Content.text_congr {f g : R → StringT} :
    ∀ c : Content R, (∀ run ∈ c.runs, f run = g run) → c.text f = c.text g
  | .last run, h => h run (List.mem_singleton_self run)
  | .more run e rest, h => by
      obtain ⟨hrun, h⟩ := List.forall_mem_cons.mp h
      obtain ⟨-, hrest⟩ := List.forall_mem_append.mp h
      simp only [Content.text, hrun, rest.text_congr hrest]

theorem Content.nodes_congr {f g : R → StringT} :
    ∀ c : Content R, (∀ run ∈ c.runs, f run = g run) → c.nodes f = c.nodes g
  | .last _, _ => rfl
  | .more run e rest, h => by
      obtain ⟨-, h⟩ := List.forall_mem_cons.mp h
      obtain ⟨he, hrest⟩ := List.forall_mem_append.mp h
      simp only [Content.nodes, e.node_congr he, rest.nodes_congr hrest]
end

/-! ## The stack, opened -/

@[simp] theorem XmlNode.text_nil (node : XmlNode) : node.text [] = node := by
  cases node
  simp only [XmlNode.text, List.append_nil]

/-- The tree of a node and the nodes above it: each is the last subnode of the next. -/
def close (node : XmlNode) (parents : List XmlNode) : XmlNode :=
  parents.foldl (fun last parent => parent.moveNode last) node

/-- The stack with `node` at its back. -/
def stackOf (node : XmlNode) (parents : List XmlNode) : Option NodeStack := some ⟨close node parents, parents.length⟩

theorem close_concat (node : XmlNode) (parents : List XmlNode) (root : XmlNode) :
    close node (parents ++ [root]) = root.moveNode (close node parents) := List.foldl_concat _ _ _ _

theorem atBack_close (f : XmlNode → XmlNode) (node : XmlNode) (parents : List XmlNode) :
    (close node parents).atBack f parents.length = close (f node) parents := by
  induction parents using List.reverseRecOn with
  | nil => rfl
  | append_singleton parents root ih =>
      rw [close_concat, close_concat, List.length_append, List.length_singleton]
      show ({ root with m_nodes := (root.m_nodes ++ [close node parents]).modifyLast _ } : XmlNode) = _
      rw [List.modifyLast_concat, ih]
      rfl

theorem back_close (node : XmlNode) (parents : List XmlNode) :
    (close node parents).back parents.length = some node := by
  induction parents using List.reverseRecOn with
  | nil => rfl
  | append_singleton parents root ih =>
      rw [close_concat, List.length_append, List.length_singleton]
      show ((root.m_nodes ++ [close node parents]).getLast?).bind _ = _
      rw [List.getLast?_concat]
      exact ih

variable {node parent : XmlNode} {parents : List XmlNode}

theorem handle_startElement (name : StringT) (attrs : List (StringT × StringT)) :
    handle (stackOf node parents) (.startElement name attrs) = some (stackOf (newNode name attrs) (node :: parents)) := by
  show some (some (NodeStack.mk _ _)) = _
  rw [atBack_close]
  rfl

theorem handle_endElement (name : StringT) :
    handle (stackOf node (parent :: parents)) (.endElement name) = some (stackOf (parent.moveNode node) parents) := rfl

theorem handle_characters (ch : StringT) : handle (stackOf node parents) (.characters ch) =
    some (stackOf (node.text (if IsLineEnd ch then [] else ch)) parents) := by
  by_cases h : IsLineEnd ch
  · rw [if_pos h, XmlNode.text_nil]
    simp only [handle, if_pos h]
  · simp only [handle, if_neg h]
    show some (some (NodeStack.mk _ _)) = _
    rw [atBack_close]
    rfl

/-- What `xml_characters` keeps of the chunks it is called with. -/
def kept (chunks : List StringT) : StringT := chunks.flatMap (fun ch => if IsLineEnd ch then [] else ch)

theorem foldlM_characters (chunks : List StringT) : ∀ node : XmlNode,
    (chunks.map .characters).foldlM handle (stackOf node parents) = some (stackOf (node.text (kept chunks)) parents) := by
  induction chunks with
  | nil =>
      intro node
      show some (stackOf node parents) = some (stackOf (node.text []) parents)
      rw [XmlNode.text_nil]
  | cons ch chunks ih =>
      intro node
      rw [List.map_cons, List.foldlM_cons, handle_characters]
      show List.foldlM handle (stackOf _ parents) _ = _
      rw [ih]
      simp only [XmlNode.text, kept, List.flatMap_cons, List.append_assoc]

mutual
/-- An element becomes the last subnode of the node it is in. -/
theorem Element.foldlM_events (chunks : R → List StringT) : ∀ (e : Element R) (node : XmlNode) (parents : List XmlNode),
    (e.events chunks).foldlM handle (stackOf node parents)
      = some (stackOf (node.moveNode (e.node (fun run => kept (chunks run)))) parents)
  | .mk name attrs content, node, parents => by
      rw [Element.events, List.foldlM_cons, handle_startElement]
      show List.foldlM handle (stackOf _ (node :: parents)) _ = _
      rw [List.foldlM_append, content.foldlM_events chunks]
      show (List.foldlM handle (stackOf _ (node :: parents)) [SaxEvent.endElement name]) = _
      rw [List.foldlM_cons, handle_endElement]
      rfl

/-- The content of an element goes to the end of its text and its subnodes. -/
theorem Content.foldlM_events (chunks : R → List StringT) : ∀ (c : Content R) (node : XmlNode) (parents : List XmlNode),
    (c.events chunks).foldlM handle (stackOf node parents)
      = some (stackOf { node with
          m_text := node.m_text ++ c.text (fun run => kept (chunks run))
          m_nodes := node.m_nodes ++ c.nodes (fun run => kept (chunks run)) } parents)
  | .last run, node, parents => by
      rw [Content.events, foldlM_characters]
      simp only [XmlNode.text, Content.text, Content.nodes, List.append_nil]
  | .more run e rest, node, parents => by
      rw [Content.events, List.foldlM_append, foldlM_characters]
      show List.foldlM handle (stackOf _ parents) _ = _
      rw [List.foldlM_append, e.foldlM_events chunks]
      show List.foldlM handle (stackOf _ parents) _ = _
      rw [rest.foldlM_events chunks]
      simp only [XmlNode.text, XmlNode.moveNode, Content.text, Content.nodes, List.append_assoc, List.singleton_append]
end

/-- **The tree of the events of an element.** -/
theorem foldlM_events (chunks : R → List StringT) (e : Element R) :
    (e.events chunks).foldlM handle none = some (stackOf (e.node (fun run => kept (chunks run))) []) := by
  cases e with
  | mk name attrs content =>
      rw [Element.events, List.foldlM_cons]
      show List.foldlM handle (stackOf (newNode name attrs) []) _ = _
      rw [List.foldlM_append, content.foldlM_events chunks]
      rfl

theorem build_events (chunks : R → List StringT) (e : Element R) :
    build (e.events chunks) = some (e.node (fun run => kept (chunks run))) := by
  rw [build, foldlM_events]
  exact back_close _ []

end Cclxml
end Cclib
