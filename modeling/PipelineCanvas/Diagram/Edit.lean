import PipelineCanvas.Diagram.Basic
/-! Edits as values, so that one can speak of any sequence of them. `Diagram.perform` carries one
out and hands back what it answers with the new diagram, or the error that it is refused with.
`Diagram.run` goes on after an edit that is refused, as a user does who is told that something
cannot be done. -/
namespace PipelineCanvas

/-- A change that is asked for. -/
inductive Edit where
  | place (node : Node)
  | remove (id : NodeId)
  | attach (source target : PortAddress)
  | join (source target : NodeId)
  | detach (id : LinkId)
  | configure (id : NodeId) (properties : Properties)
  | move (id : NodeId) (position : Position)

/-- What a successful edit hands back. -/
inductive Edit.Answer where
  /-- The identifier of the new node. -/
  | placed (id : NodeId)
  | removed (node : Node)
  /-- The identifier of the new link. -/
  | attached (id : LinkId)
  | detached (link : Link)
  | done

namespace Diagram

/-- Carries out an edit. -/
def perform (d : Diagram) : Edit → Except EditError (Edit.Answer × Diagram)
  | .place node =>
    let (id, d) := d.place node
    return (.placed id, d)
  | .remove id => do
    let (node, d) ← d.remove id
    return (.removed node, d)
  | .attach source target => do
    let (id, d) ← d.attach source target
    return (.attached id, d)
  | .join source target => do
    let (id, d) ← d.join source target
    return (.attached id, d)
  | .detach id => do
    let (link, d) ← d.detach id
    return (.detached link, d)
  | .configure id properties => do
    return (.done, ← d.configure id properties)
  | .move id position => do
    return (.done, ← d.move id position)

/-- The diagram after an edit, which is the old one where the edit is refused. -/
def after (d : Diagram) (e : Edit) : Diagram :=
  match d.perform e with
  | .ok (_, d) => d
  | .error _ => d

/-- The diagram after several edits, one after the other. -/
def run (d : Diagram) (edits : List Edit) : Diagram := edits.foldl after d

end Diagram
end PipelineCanvas
