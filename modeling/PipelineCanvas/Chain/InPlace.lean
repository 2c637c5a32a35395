import PipelineCanvas.Chain
/-! The walk along a chain **in place**: a loop that keeps where it stands, marks every node that a
link leads to, and counts its steps in a word of 64 bits. A pass makes its checks and its writes one
by one. Nothing in the form of the loop makes it end, or keeps the count from coming round. -/
namespace PipelineCanvas

/-- What the loop keeps from one pass to the next. -/
structure Walker where
  current : NodeId
  /-- The producer and the nodes that links have led to, the last one first. A node is marked before
  it is looked up. -/
  visited : List NodeId
  /-- The chain so far. -/
  chain : List Stop
  steps : UInt64

namespace Walker

/-- The loop begins at the producer. -/
def start (producer : Stop) : Walker where
  current := producer.1
  visited := [producer.1]
  chain := [producer]
  steps := 0

/-- One pass of the loop. It answers whether the walk has come to a consumer. -/
def pass (d : Diagram) (limit : UInt64) (refuseMerges : Bool) :
    ExceptT ChainError (StateM Walker) Bool := do
  let current := (← get).current
  let next ← liftExcept (d.following refuseMerges (← get).visited current)
  modify fun w => { w with visited := next :: w.visited }
  modify fun w => { w with steps := w.steps + 1 }
  if limit < (← get).steps then throw .tooLong
  match d.node? next with
  | none => throw (.dangling current)
  | some node =>
    modify fun w => { w with chain := w.chain ++ [(next, node)] }
    modify fun w => { w with current := next }
    return node.kind == .consumer

/-- What a pass answers, and what the loop keeps after it. -/
def afterPass (w : Walker) (d : Diagram) (limit : UInt64) (refuseMerges : Bool) :
    Except ChainError Bool × Walker :=
  (pass d limit refuseMerges).run.run w

end Walker
end PipelineCanvas
