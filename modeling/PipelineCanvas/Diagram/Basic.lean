import PipelineCanvas.Diagram.Elements
import PipelineCanvas.Table
/-! **Diagrams**: nodes and links under identifiers, and for each sort of identifier a counter that
says which is given out next. An edit either succeeds and changes what it names, or is refused with
an `EditError` and changes nothing. A diagram may hold any number of links at a port; whether it
is a pipeline is asked in `PipelineCanvas.Chain`. Counters are natural numbers: they count as
counters of 64 bits do, as long as these stay below `2 ^ 64`. -/
namespace PipelineCanvas

/-- Why an edit is refused, or a saved diagram not accepted. -/
inductive EditError where
  | noSuchNode (id : NodeId)
  | noSuchLink (id : LinkId)
  | noSuchPort (port : PortAddress)
  /-- A link does not leave through this port, or does not enter through it. -/
  | wrongDirection (port : PortAddress) (expected found : Direction)
  /-- A node of this kind has no port in the direction. -/
  | lacksPort (node : NodeId) (direction : Direction)
  | repeatedNode (id : NodeId)
  | repeatedLink (id : LinkId)
  /-- There may be no identifiers left behind this one. -/
  | idTooLarge (index : Nat)
deriving DecidableEq

def EditError.message : EditError → String
  | .noSuchNode id => s!"Node '{id.text}' not found in the diagram"
  | .noSuchLink id => s!"Link '{id.text}' not found in the diagram"
  | .noSuchPort ⟨node, port⟩ => s!"Node '{node.text}' has no port with index {port}"
  | .wrongDirection ⟨node, port⟩ expected found =>
    s!"Port {port} of node '{node.text}' is an {found.text} port, " ++
      s!"expected an {expected.text} port"
  | .lacksPort node direction => s!"Node '{node.text}' has no {direction.text} port"
  | .repeatedNode id => s!"Node id '{id.text}' is used more than once"
  | .repeatedLink id => s!"Link id '{id.text}' is used more than once"
  | .idTooLarge index => s!"Id {index} is too large to continue numbering from"

/-- The graph on the canvas. -/
@[ext] structure Diagram where
  nodes : Table NodeId Node
  links : Table LinkId Link
  /-- The index of the next node. -/
  freshNode : Nat
  /-- The index of the next link. -/
  freshLink : Nat

namespace Diagram

instance : EmptyCollection Diagram := ⟨⟨∅, ∅, 0, 0⟩⟩

/-! ### Looking at a diagram -/

def node? (d : Diagram) (id : NodeId) : Option Node := d.nodes.get? id

def link? (d : Diagram) (id : LinkId) : Option Link := d.links.get? id

/-- The links that satisfy a test, with their identifiers in ascending order. -/
def linksWhere (d : Diagram) (p : Link → Bool) : List (LinkId × Link) :=
  d.links.entries.filter fun e => p e.2

/-- The links that leave through the port. -/
def linksLeaving (d : Diagram) (port : PortAddress) : List (LinkId × Link) :=
  d.linksWhere fun l => l.source == port

/-- The links that enter through the port. -/
def linksEntering (d : Diagram) (port : PortAddress) : List (LinkId × Link) :=
  d.linksWhere fun l => l.target == port

/-- The links that leave the node. -/
def linksLeavingNode (d : Diagram) (id : NodeId) : List Link :=
  (d.linksWhere fun l => l.source.node == id).map (·.2)

/-- The port of the node in the direction, where there is one. -/
def port? (d : Diagram) (id : NodeId) (direction : Direction) : Option PortAddress := do
  let node ← d.node? id
  let index ← node.portIndex? direction
  return ⟨id, index⟩

/-- Whether two diagrams are the same, counters included, whatever the signs of zeros. -/
def same (d e : Diagram) : Bool :=
  d.nodes.entries.isEqv e.nodes.entries (fun a b => a.1 == b.1 && a.2.same b.2) &&
    d.links.entries == e.links.entries && d.freshNode == e.freshNode && d.freshLink == e.freshLink

/-! ### Edits -/

/-- Stores a node under the next identifier. -/
def place (d : Diagram) (node : Node) : NodeId × Diagram :=
  let id : NodeId := ⟨d.freshNode⟩
  (id, { d with nodes := d.nodes.insert id node, freshNode := d.freshNode + 1 })

/-- Takes out a node, and every link at it. -/
def remove (d : Diagram) (id : NodeId) : Except EditError (Node × Diagram) :=
  match d.node? id with
  | none => throw (.noSuchNode id)
  | some node => return (node, { d with
      nodes := d.nodes.erase id
      links := d.links.filter fun _ l => !l.touches id })

/-- Accepts a port that exists and has the direction. -/
def acceptPort (d : Diagram) (port : PortAddress) (expected : Direction) : Except EditError Unit :=
  match d.node? port.node with
  | none => throw (.noSuchNode port.node)
  | some node =>
    match node.ports[port.port]? with
    | none => throw (.noSuchPort port)
    | some ⟨found⟩ => unless found = expected do throw (.wrongDirection port expected found)

/-- Stores a link under an identifier that is free, if its ports fit. -/
def storeLink (d : Diagram) (id : LinkId) (link : Link) : Except EditError Diagram := do
  if d.links.contains id then throw (.repeatedLink id)
  d.acceptPort link.source .output
  d.acceptPort link.target .input
  return { d with links := d.links.insert id link }

/-- Links an out-port to an in-port, under the next identifier. -/
def attach (d : Diagram) (source target : PortAddress) :
    Except EditError (LinkId × Diagram) := do
  let id : LinkId := ⟨d.freshLink⟩
  let d ← d.storeLink id ⟨source, target⟩
  -- a refused link uses up no identifier
  return (id, { d with freshLink := d.freshLink + 1 })

/-- The port of a node in the direction. -/
def portOf (d : Diagram) (id : NodeId) (direction : Direction) : Except EditError PortAddress :=
  if d.nodes.contains id then
    match d.port? id direction with
    | some port => return port
    | none => throw (.lacksPort id direction)
  else throw (.noSuchNode id)

/-- Links the out-port of one node to the in-port of another. -/
def join (d : Diagram) (source target : NodeId) : Except EditError (LinkId × Diagram) := do
  let sourcePort ← d.portOf source .output
  let targetPort ← d.portOf target .input
  d.attach sourcePort targetPort

def detach (d : Diagram) (id : LinkId) : Except EditError (Link × Diagram) :=
  match d.link? id with
  | none => throw (.noSuchLink id)
  | some link => return (link, { d with links := d.links.erase id })

/-- Changes a node that is there. -/
def modifyNode (d : Diagram) (id : NodeId) (f : Node → Node) : Except EditError Diagram :=
  if d.nodes.contains id then return { d with nodes := d.nodes.modify id f }
  else throw (.noSuchNode id)

/-- Puts other properties in place of those of a node. -/
def configure (d : Diagram) (id : NodeId) (properties : Properties) :
    Except EditError Diagram :=
  d.modifyNode id fun node => { node with properties }

def move (d : Diagram) (id : NodeId) (position : Position) : Except EditError Diagram :=
  d.modifyNode id fun node => { node with position }

end Diagram
end PipelineCanvas
