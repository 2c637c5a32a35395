import PipelineCanvas.Diagram.Basic
/-! Saved diagrams. A diagram is saved as its nodes and links with their identifiers. A text is
accepted if it has that form and its entries make a diagram: identifiers are used once and are not
too large to count on from, and every link fits the ports of the nodes. The counters are not
saved; they continue behind the largest identifier. -/
namespace PipelineCanvas
open Json

/-- The entries of a saved diagram, in text order. -/
structure SavedDiagram where
  nodes : List (NodeId × Placement)
  links : List (LinkId × Link)

namespace SavedDiagram

/-- A node with its identifier among its fields. -/
def savedNode : Shape (NodeId × Placement) :=
  Placement.record.entry "struct NodeEntry" "id" NodeId.shape

/-- A link with its identifier among its fields. -/
def savedLink : Shape (LinkId × Link) := Link.record.entry "struct LinkEntry" "id" LinkId.shape

def record : Record SavedDiagram where
  name := "DiagramSnapshot"
  types := [List (NodeId × Placement), List (LinkId × Link)]
  fields :=
    .cons { name := "nodes", shape := .list savedNode } <|
    .cons { name := "links", shape := .list savedLink } .nil
  make := fun (nodes, links, _) => ⟨nodes, links⟩
  parts s := (s.nodes, s.links, ())

end SavedDiagram

/-- Why a text is not accepted as a diagram. -/
inductive LoadError where
  /-- The text does not have the form of a saved diagram. -/
  | text (fault : Fault)
  /-- Its entries do not make a diagram. -/
  | entries (error : EditError)
deriving DecidableEq

def LoadError.message : LoadError → String
  | .text fault => fault.message
  | .entries error => error.message

namespace Diagram

/-- The largest identifier that a saved diagram may hold, `2 ^ 63 - 1`. -/
def greatestSavedId : Nat := 0x7fffffffffffffff

/-- The counter that follows an identifier and is not less than it was. -/
def countFrom (counter index : Nat) : Except EditError Nat :=
  if index ≤ greatestSavedId then return max counter (index + 1) else throw (.idTooLarge index)

/-- Takes a saved node into the diagram. -/
def loadNode (d : Diagram) (id : NodeId) (p : Placement) : Except EditError Diagram := do
  if d.nodes.contains id then throw (.repeatedNode id)
  let freshNode ← countFrom d.freshNode id.index
  return { d with nodes := d.nodes.insert id (.ofPlacement p), freshNode }

/-- Takes a saved link into the diagram. -/
def loadLink (d : Diagram) (id : LinkId) (link : Link) : Except EditError Diagram := do
  let d ← d.storeLink id link
  let freshLink ← countFrom d.freshLink id.index
  return { d with freshLink }

/-- The diagram of saved entries, first the nodes and then the links. -/
def load (s : SavedDiagram) : Except EditError Diagram := do
  let d ← s.nodes.foldlM (fun d e => d.loadNode e.1 e.2) ∅
  s.links.foldlM (fun d e => d.loadLink e.1 e.2) d

/-- What is saved of the diagram. -/
def saved (d : Diagram) : SavedDiagram :=
  ⟨d.nodes.entries.map fun e => (e.1, e.2.toPlacement), d.links.entries⟩

def toText (d : Diagram) : String := SavedDiagram.record.shape.toText d.saved

/-- Reads a saved diagram. Its entries are looked at before what follows them in the text. -/
def ofText (text : String) : Except LoadError Diagram := do
  let (s, rest) ← (SavedDiagram.record.shape.read maxDepth text.toList).mapError .text
  let d ← (load s).mapError .entries
  let _ ← (Reader.finish rest).mapError .text
  return d

end Diagram
end PipelineCanvas
