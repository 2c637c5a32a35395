import PipelineCanvas.Diagram.Basic
/-! **Chains**. A diagram is a pipeline if one can walk it from its only producer to a consumer with
one link to follow at every node and no node met twice. `Walk` records such a walk pass by pass, up
to the consumer or to the first rule that is broken. -/
namespace PipelineCanvas

/-- Why a diagram is not a pipeline. -/
inductive ChainError where
  | noStart
  | manyStarts
  /-- No link leaves a node that is not a consumer. -/
  | unterminated
  /-- More than one link leaves a node. -/
  | fork
  /-- The walk comes back to a node. -/
  | cycle
  /-- The walk takes more steps than are allowed. -/
  | tooLong
  /-- More than one link enters a node, where that is not allowed. -/
  | merge
  /-- A link from this node leads to a node that is not there. -/
  | dangling (node : NodeId)
deriving DecidableEq

def ChainError.message : ChainError → String
  | .noStart => "Pipelines must start with a producer block"
  | .manyStarts => "Multiple producer blocks are not supported"
  | .unterminated => "Pipelines must end with a consumer block"
  | .fork => "Multiple out connections are not supported"
  | .cycle => "Pipelines cannot form a loop"
  | .tooLong => "Pipeline too long"
  | .merge => "Multiple in connections are not supported"
  | .dangling node => s!"Link from node '{node.text}' points to a missing node"

/-- A node with its identifier. -/
abbrev Stop := NodeId × Node

/-- A walk from a node on. -/
inductive Walk where
  /-- The node is a consumer. -/
  | arrived
  /-- A rule is broken. -/
  | halted (error : ChainError)
  /-- One link is followed to another node. -/
  | step (stop : Stop) (rest : Walk)

namespace Walk

/-- The nodes that are walked to, if the walk arrives. -/
def stops : Walk → Except ChainError (List Stop)
  | .arrived => return []
  | .halted error => throw error
  | .step stop rest => return stop :: (← rest.stops)

/-- The number of nodes at which a link to follow was looked for. -/
def passes : Walk → Nat
  | .arrived => 0
  | .halted _ => 1
  | .step _ rest => rest.passes + 1

end Walk

namespace Diagram

/-- The nodes that data starts from. -/
def producers (d : Diagram) : List Stop :=
  d.nodes.entries.filter fun e => e.2.kind == .producer

def start (d : Diagram) : Except ChainError Stop :=
  match d.producers with
  | [] => throw .noStart
  | [producer] => return producer
  | _ => throw .manyStarts

/-- Where the only link that leaves a node leads to. -/
def successor (d : Diagram) (id : NodeId) : Except ChainError NodeId :=
  match d.linksLeavingNode id with
  | [] => throw .unterminated
  | [link] => return link.target.node
  | _ => throw .fork

/-- The number of links that enter through the in-port of a node. -/
def fanIn (d : Diagram) (id : NodeId) : Nat :=
  match d.port? id .input with
  | some port => (d.linksEntering port).length
  | none => 0

/-- The node that the walk goes on to: the successor, if it takes in no other link where that is
refused, and has not been visited. -/
def following (d : Diagram) (refuseMerges : Bool) (visited : List NodeId) (current : NodeId) :
    Except ChainError NodeId := do
  let next ← d.successor current
  -- a walk that closes a loop comes to a merge there, so where merges are refused that is the fault
  if refuseMerges ∧ 1 < d.fanIn next then throw .merge
  if next ∈ visited then throw .cycle
  return next

/-- Walks on from a node that is no consumer, with so many steps left. -/
def walk (d : Diagram) (refuseMerges : Bool) (stepsLeft : Nat) (visited : List NodeId)
    (current : NodeId) : Walk :=
  match d.following refuseMerges visited current, stepsLeft with
  | .error error, _ => .halted error
  | .ok _, 0 => .halted .tooLong
  | .ok next, stepsLeft + 1 =>
    match d.node? next with
    | none => .halted (.dangling current)
    | some node =>
      .step (next, node) <|
        if node.kind = .consumer then .arrived
        else d.walk refuseMerges stepsLeft (next :: visited) next

/-- The chain of the diagram, from its producer to a consumer. -/
def chain (d : Diagram) (stepLimit : Nat) (refuseMerges : Bool) :
    Except ChainError (List Stop) := do
  let producer ← d.start
  let stops ← (d.walk refuseMerges stepLimit [producer.1] producer.1).stops
  return producer :: stops

end Diagram
end PipelineCanvas
