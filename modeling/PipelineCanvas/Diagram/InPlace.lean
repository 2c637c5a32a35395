import PipelineCanvas.Diagram.Edit
/-! Edits **in place**. Such an edit is a program that works on one diagram: it makes its checks and
its writes one by one, and what it has written by the time it fails stays written. Nothing in its
form makes a refused edit leave the diagram alone. -/
namespace PipelineCanvas

/-- A program that works on a diagram in place, and may fail. -/
abbrev InPlace (ε : Type) := ExceptT ε (StateM Diagram)

namespace InPlace
variable {ε α : Type}

/-- What the program answers on the diagram, and the diagram that it leaves behind. -/
def on (program : InPlace ε α) (d : Diagram) : Except ε α × Diagram := program.run.run d

/-- A check, or a question, that writes nothing. -/
def look (ask : Diagram → Except ε α) : InPlace ε α := do
  let d ← get
  liftExcept (ask d)

/-- Stores a node. The counter is moved before the node is there. -/
def place (node : Node) : InPlace ε NodeId := do
  let id : NodeId := ⟨(← get).freshNode⟩
  modify fun d => { d with freshNode := d.freshNode + 1 }
  modify fun d => { d with nodes := d.nodes.insert id node }
  return id

/-- Takes out a node. That it was there is seen when it has been taken out, and its links follow. -/
def remove (id : NodeId) : InPlace EditError Node := do
  let found := (← get).node? id
  modify fun d => { d with nodes := d.nodes.erase id }
  match found with
  | none => throw (.noSuchNode id)
  | some node =>
    modify fun d => { d with links := d.links.filter fun _ l => !l.touches id }
    return node

def storeLink (id : LinkId) (link : Link) : InPlace EditError Unit := do
  if (← get).links.contains id then throw (.repeatedLink id)
  look fun d => d.acceptPort link.source .output
  look fun d => d.acceptPort link.target .input
  modify fun d => { d with links := d.links.insert id link }

/-- Links an out-port to an in-port. The counter is moved when the link is there. -/
def attach (source target : PortAddress) : InPlace EditError LinkId := do
  let id : LinkId := ⟨(← get).freshLink⟩
  storeLink id ⟨source, target⟩
  modify fun d => { d with freshLink := d.freshLink + 1 }
  return id

def join (source target : NodeId) : InPlace EditError LinkId := do
  let sourcePort ← look fun d => d.portOf source .output
  let targetPort ← look fun d => d.portOf target .input
  attach sourcePort targetPort

def detach (id : LinkId) : InPlace EditError Link := do
  let found := (← get).link? id
  modify fun d => { d with links := d.links.erase id }
  match found with
  | none => throw (.noSuchLink id)
  | some link => return link

def modifyNode (id : NodeId) (f : Node → Node) : InPlace EditError Unit := do
  unless (← get).nodes.contains id do throw (.noSuchNode id)
  modify fun d => { d with nodes := d.nodes.modify id f }

def configure (id : NodeId) (properties : Properties) : InPlace EditError Unit :=
  modifyNode id fun node => { node with properties }

def move (id : NodeId) (position : Position) : InPlace EditError Unit :=
  modifyNode id fun node => { node with position }

/-- Carries out an edit. -/
def perform : Edit → InPlace EditError Edit.Answer
  | .place node => return .placed (← place node)
  | .remove id => return .removed (← remove id)
  | .attach source target => return .attached (← attach source target)
  | .join source target => return .attached (← join source target)
  | .detach id => return .detached (← detach id)
  | .configure id properties => do
    configure id properties
    return .done
  | .move id position => do
    move id position
    return .done

end InPlace
end PipelineCanvas
