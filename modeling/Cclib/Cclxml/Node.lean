import Mathlib.Data.List.Basic

/-!
# `Cclxml.Node` — `xml_node_c`, its printer and the SAX handlers

`XmlNode.output` is `operator<<`. `handle` is what the three handlers of `xml_parser_c` do with an event, and
`parse` runs them over what libxml2 reports for a text.

`node_stack` holds pointers into the tree that is being built: the root, its last subnode, the last subnode of
that one, and so on. So it is given here by the root and the number of pointers above the first (`NodeStack`),
and `NodeStack.Shows` opens the tree along them.
-/

namespace Cclib
namespace Cclxml

/-- The bytes of a `std::string`. -/
abbrev StringT := List UInt8

def error_XML_DATA_PARSE_ERROR : String := "error while parsing xml data"

/-- `xml_attr_c` -/
structure XmlAttr where
  m_name : StringT
  m_value : StringT
deriving DecidableEq, Repr

/-- `xml_node_c` -/
structure XmlNode where
  m_self_close : Bool
  m_name : StringT
  m_text : StringT
  m_attrs : List XmlAttr
  m_nodes : List XmlNode
deriving Repr

/-! ## The printer -/

/-- `operator<<` of an attribute: `name="value"`. -/
def XmlAttr.output (attr : XmlAttr) : StringT := attr.m_name ++ [0x3d, 0x22] ++ attr.m_value ++ [0x22]

mutual
/-- `operator<<` of a node. The bytes that stand by themselves are `<`, a blank, `/>` or `>`, `</` and `>`;
    `std::endl` is a line feed. -/
def XmlNode.output : XmlNode → StringT
  | ⟨m_self_close, m_name, m_text, m_attrs, m_nodes⟩ =>
      [0x3c] ++ m_name ++ m_attrs.flatMap (fun attr => [0x20] ++ attr.output) ++
        if m_self_close && m_text.isEmpty && m_nodes.isEmpty then
          [0x2f, 0x3e, 0x0a]
        else
          [0x3e] ++ m_text ++ (if m_nodes.isEmpty then [] else [0x0a] ++ outputNodes m_nodes) ++
            [0x3c, 0x2f] ++ m_name ++ [0x3e, 0x0a]

/-- The loop over the subnodes. -/
def outputNodes : List XmlNode → StringT
  | [] => []
  | node :: nodes => node.output ++ outputNodes nodes
end

/-! ## The handlers -/

/-- A call of `startElement`, `endElement` or `characters`. -/
inductive SaxEvent where
  | startElement (name : StringT) (attrs : List (StringT × StringT))
  | endElement (name : StringT)
  | characters (ch : StringT)
deriving DecidableEq, Repr

/-- `xml_node_c::text` -/
def XmlNode.text (node : XmlNode) (a_text : StringT) : XmlNode := { node with m_text := node.m_text ++ a_text }

/-- `xml_node_c::move_node`, and with a new node `xml_node_c::node`. -/
def XmlNode.moveNode (node a_node : XmlNode) : XmlNode := { node with m_nodes := node.m_nodes ++ [a_node] }

/-- The node `xml_start_element` makes: `xml_node_c(name)` with the attributes one by one. -/
def newNode (name : StringT) (attrs : List (StringT × StringT)) : XmlNode :=
  ⟨true, name, [], attrs.map (fun attr => ⟨attr.1, attr.2⟩), []⟩

/-- `f` on the last subnode of the last subnode, `n` steps down. -/
def XmlNode.atBack (f : XmlNode → XmlNode) : Nat → XmlNode → XmlNode
  | 0, node => f node
  | n + 1, node => { node with m_nodes := node.m_nodes.modifyLast (XmlNode.atBack f n) }

/-- That node itself. -/
def XmlNode.back : Nat → XmlNode → Option XmlNode
  | 0, node => some node
  | n + 1, node => do
    let last ← node.m_nodes.getLast?
    last.back n

/-- `node_stack`, not empty: `node_stack[0]`, and how many pointers follow it. -/
structure NodeStack where
  root : XmlNode
  above : Nat
deriving Repr

/-- The line ends that `xml_characters` skips. -/
def IsLineEnd (ch : StringT) : Prop := ch = [0x0a] ∨ ch = [0x0d] ∨ ch = [0x0d, 0x0a]

instance : DecidablePred IsLineEnd := fun _ => inferInstanceAs (Decidable (_ ∨ _ ∨ _))

/-- The handlers of `xml_parser_c`. `none` where `xml_characters` takes the back of an empty stack. -/
def handle (ns : Option NodeStack) : SaxEvent → Option (Option NodeStack)
  | .startElement name attrs =>
      match ns with
      | none => some (some ⟨newNode name attrs, 0⟩)
      | some ns => some (some ⟨ns.root.atBack (fun node => node.moveNode (newNode name attrs)) ns.above, ns.above + 1⟩)
  | .endElement _ =>
      -- the root element stays where it is
      some (ns.map (fun ns => ⟨ns.root, ns.above - 1⟩))
  | .characters ch =>
      if IsLineEnd ch then some ns
      else do
        let ns ← ns
        return some ⟨ns.root.atBack (fun node => node.text ch) ns.above, ns.above⟩

/-- The node at the back of the stack after some events. -/
def build (events : List SaxEvent) : Option XmlNode := do
  let ns ← events.foldlM handle none
  let ns ← ns
  ns.root.back ns.above

/-- `xml_parser_c::parse`. `xmlSAXUserParseMemory` gives the result and the events it reports on the way. -/
def parse (xmlSAXUserParseMemory : StringT → Int × List SaxEvent) (a_data : StringT) :
    Option (Except String XmlNode) :=
  let (res, events) := xmlSAXUserParseMemory a_data
  do
    let ns ← events.foldlM handle none
    if res ≠ 0 then return .error error_XML_DATA_PARSE_ERROR
    let ns ← ns
    let node ← ns.root.back ns.above
    return .ok node

end Cclxml
end Cclib
