import PipelineCanvas.Diagram.InPlace
import PipelineCanvas.Palette
import PipelineCanvas.SourceRules
/-! The **workbench** stands between the canvas and the diagram. What the user does there arrives
as a `Gesture`; the workbench applies it to its diagram and tells the front-end in a `Reply` what to
do next, or refuses it. -/
namespace PipelineCanvas

namespace Workbench

/-- Something the user did on the canvas. -/
inductive Gesture where
  /-- A block was dragged from the palette and dropped. -/
  | drop (block : String) (position : Position)
  | attach (source target : PortAddress)
  | detach (link : LinkId)
  | remove (node : NodeId)
  | move (node : NodeId) (position : Position)
  /-- The settings of a node were asked for. -/
  | inspect (node : NodeId)
  /-- The settings of a node were confirmed. -/
  | configure (node : NodeId) (properties : Properties)
  /-- The source of the diagram was asked for. -/
  | showSource

/-- What the front-end is to do. -/
inductive Reply where
  | nothing
  /-- Show the node that was dropped. -/
  | placed (id : NodeId)
  /-- Show the new link. -/
  | attached (id : LinkId)
  /-- Show a form for the settings of a node, made from the schema and filled in. -/
  | form (node : NodeId) (schema : Value) (properties : Properties)
  | source (text : String)
  | alert (message : String)

/-- Why a gesture is refused. -/
inductive Refusal where
  | block (error : NoSuchBlock)
  | edit (error : EditError)
deriving DecidableEq

def Refusal.message : Refusal → String
  | .block error => error.message
  | .edit error => error.message

end Workbench

/-- A diagram in the making, with the blocks on offer and the rules for its source. -/
structure Workbench where
  palette : Palette := ∅
  rules : SourceRules := {}
  diagram : Diagram := ∅

namespace Workbench

/-- Offers the blocks of another catalog. The diagram stays as it is. -/
def offer (w : Workbench) (blocks : List Block) : Workbench :=
  { w with palette := .ofCatalog blocks }

/-- The source of the diagram, or an alert that says why there is none. -/
def showSource (w : Workbench) : Reply :=
  match w.rules.source w.diagram with
  | .ok source => .source source
  | .error error => .alert error.message

/-- A form for the settings of a node. The palette may have changed since the node was made, and
counts as it is now. -/
def inspect (w : Workbench) (id : NodeId) : Except EditError Reply :=
  match w.diagram.node? id with
  | none => throw (.noSuchNode id)
  | some node =>
    match w.palette.block? node.name with
    | some block =>
      if block.isConfigurable then return .form id block.schema node.properties
      else return .nothing
    | none => return .nothing

/-- The reply to a gesture and the diagram after it. -/
def respond (w : Workbench) : Gesture → Except Refusal (Reply × Diagram)
  | .drop block position => do
    let node ← (w.palette.instantiate block position).mapError .block
    let (id, d) := w.diagram.place node
    return (.placed id, d)
  | .attach source target => do
    let (id, d) ← (w.diagram.attach source target).mapError .edit
    return (.attached id, d)
  | .detach link => do
    let (_, d) ← (w.diagram.detach link).mapError .edit
    return (.nothing, d)
  | .remove node => do
    let (_, d) ← (w.diagram.remove node).mapError .edit
    return (.nothing, d)
  | .move node position => do
    return (.nothing, ← (w.diagram.move node position).mapError .edit)
  | .inspect node => do
    return (← (w.inspect node).mapError .edit, w.diagram)
  | .configure node properties => do
    return (.nothing, ← (w.diagram.configure node properties).mapError .edit)
  | .showSource => return (w.showSource, w.diagram)

/-- Carries out a gesture. A refused one leaves the workbench as it was. -/
def perform (w : Workbench) (gesture : Gesture) : Except Refusal Reply × Workbench :=
  match w.respond gesture with
  | .ok (reply, diagram) => (.ok reply, { w with diagram })
  | .error refusal => (.error refusal, w)

/-- The workbench after several gestures, one after the other. -/
def run (w : Workbench) (gestures : List Gesture) : Workbench :=
  gestures.foldl (fun w gesture => (w.perform gesture).2) w

/-! ### Gestures in place -/

/-- What a gesture does to the diagram, in place. The palette and the rules are only looked at. -/
def program (w : Workbench) : Gesture → InPlace Refusal Reply
  | .drop block position => do
    let node ← liftExcept ((w.palette.instantiate block position).mapError Refusal.block)
    return .placed (← InPlace.place node)
  | .attach source target => return .attached (← (InPlace.attach source target).adapt .edit)
  | .detach link => do
    let _ ← (InPlace.detach link).adapt .edit
    return .nothing
  | .remove node => do
    let _ ← (InPlace.remove node).adapt .edit
    return .nothing
  | .move node position => do
    (InPlace.move node position).adapt .edit
    return .nothing
  | .inspect node => InPlace.look fun d => ({ w with diagram := d }.inspect node).mapError .edit
  | .configure node properties => do
    (InPlace.configure node properties).adapt .edit
    return .nothing
  | .showSource => InPlace.look fun d => .ok { w with diagram := d }.showSource

/-- Carries out a gesture in place. -/
def handle (w : Workbench) (gesture : Gesture) : Except Refusal Reply × Workbench :=
  let (answer, diagram) := (w.program gesture).on w.diagram
  (answer, { w with diagram })

/-- Carries out gestures one after the other, refused ones among them. -/
def handleAll (w : Workbench) : List Gesture → List (Except Refusal Reply) × Workbench
  | [] => ([], w)
  | gesture :: gestures =>
    let (answer, w) := w.handle gesture
    let (answers, w) := w.handleAll gestures
    (answer :: answers, w)

end Workbench
end PipelineCanvas
