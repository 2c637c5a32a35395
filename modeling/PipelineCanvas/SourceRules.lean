import PipelineCanvas.Chain
/-! From a diagram to a pipeline **source**: the stages that the nodes of its chain stand for, one
after the other. The stage of a node is its default one, unless there is a writer for its block.
What may vary is in `SourceRules`. -/
namespace PipelineCanvas

/-- What stands between two stages of a source. -/
def stageSeparator : String := "\n| "

/-- Which diagrams have a source, and how it is written. -/
structure SourceRules where
  /-- How many links may be followed from the producer. -/
  stepLimit : Nat := 50
  /-- Whether more than one link into a node of the chain is refused. -/
  refuseMerges : Bool := false
  /-- What writes the stages of the nodes of a block, by the name of the block. -/
  writers : Table String (Node → String) := ∅

namespace SourceRules

/-- Registers a writer for a block, in place of one that was there. -/
def withWriter (r : SourceRules) (block : String) (write : Node → String) : SourceRules :=
  { r with writers := r.writers.insert block write }

/-- The stage that a node stands for. -/
def stage (r : SourceRules) (node : Node) : String :=
  match r.writers.get? node.name with
  | some write => write node
  | none => node.stage

/-- The identifiers of the chain of the diagram. -/
def chainIds (r : SourceRules) (d : Diagram) : Except ChainError (List NodeId) := do
  return (← d.chain r.stepLimit r.refuseMerges).map (·.1)

/-- The source of the diagram. -/
def source (r : SourceRules) (d : Diagram) : Except ChainError String := do
  let chain ← d.chain r.stepLimit r.refuseMerges
  return stageSeparator.intercalate (chain.map fun stop => r.stage stop.2)

end SourceRules
end PipelineCanvas
