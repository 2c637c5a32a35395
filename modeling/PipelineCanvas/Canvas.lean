import PipelineCanvas.Diagram.Saved
/-! The **canvas** as the front-end saves it: boxes with identifiers of its own, and arrows between
boxes. `Canvas.toDiagram` makes a diagram of it, the nodes and links numbered in the order in which
the boxes and arrows are listed. -/
namespace PipelineCanvas
open Json

/-- A block on the canvas. -/
structure Box where
  id : String
  placement : Placement

def Box.record : Record Box where
  name := "UiNode"
  types := [String, String, BlockKind, Properties, Position]
  fields :=
    .cons { name := "id", shape := .string } <|
    .cons { name := "name", shape := .string } <|
    .cons { name := "block_type", shape := BlockKind.shape, aliases := ["blockType"] } <|
    .cons { name := "properties", shape := .properties, absent := some ∅ } <|
    .cons { name := "position", shape := Position.record.shape, absent := some default } .nil
  make := fun (id, name, kind, properties, position, _) =>
    ⟨id, { name, kind, properties, position }⟩
  parts b := (b.id, b.placement.name, b.placement.kind, b.placement.properties,
    b.placement.position, ())

/-- A link on the canvas, from the out-port of a box to the in-port of another. -/
structure Arrow where
  source : String
  target : String
deriving DecidableEq

def Arrow.record : Record Arrow where
  name := "UiLink"
  types := [String, String]
  fields :=
    .cons { name := "source", shape := .string } <|
    .cons { name := "target", shape := .string } .nil
  make := fun (source, target, _) => ⟨source, target⟩
  parts a := (a.source, a.target, ())

/-- A drawing as the front-end saves it. -/
structure Canvas where
  boxes : List Box
  arrows : List Arrow

/-- Why there is no diagram for a canvas. -/
inductive CanvasError where
  /-- The text is not that of a canvas. -/
  | text (fault : Fault)
  | noSuchBox (id : String)
  | repeatedBox (id : String)
  | edit (error : EditError)
deriving DecidableEq

def CanvasError.message : CanvasError → String
  | .text fault => s!"Failed to parse diagram JSON: {fault.message}"
  | .noSuchBox id => s!"Link references node '{id}', which is not part of the diagram"
  | .repeatedBox id => s!"Duplicate node id '{id}' in diagram"
  | .edit error => error.message

namespace Canvas

def record : Record Canvas where
  name := "UiDiagram"
  types := [List Box, List Arrow]
  fields :=
    .cons { name := "nodes", shape := .list Box.record.shape } <|
    .cons { name := "links", shape := .list Arrow.record.shape, absent := some [] } .nil
  make := fun (boxes, arrows, _) => ⟨boxes, arrows⟩
  parts c := (c.boxes, c.arrows, ())

def ofText (text : String) : Except Fault Canvas := record.shape.ofText text

def toText (c : Canvas) : String := record.shape.toText c

/-- The node of each box, by the identifier of the box. -/
abbrev Names := Table String NodeId

/-- Adds the node of a box. -/
def addBox (d : Diagram) (names : Names) (box : Box) : Except CanvasError (Diagram × Names) :=
  if names.contains box.id then throw (.repeatedBox box.id)
  else
    let (id, d) := d.place (.ofPlacement box.placement)
    return (d, names.insert box.id id)

/-- The node that a box has become. -/
def resolve (names : Names) (id : String) : Except CanvasError NodeId :=
  match names.get? id with
  | some node => return node
  | none => throw (.noSuchBox id)

/-- Adds the link of an arrow. -/
def addArrow (names : Names) (d : Diagram) (arrow : Arrow) : Except CanvasError Diagram := do
  let source ← resolve names arrow.source
  let target ← resolve names arrow.target
  let (_, d) ← (d.join source target).mapError .edit
  return d

/-- The diagram of the canvas. -/
def toDiagram (c : Canvas) : Except CanvasError Diagram := do
  let (d, names) ← c.boxes.foldlM (fun (d, names) box => addBox d names box) (∅, ∅)
  c.arrows.foldlM (addArrow names) d

end Canvas

/-- The diagram of a saved canvas. -/
def Diagram.ofCanvasText (text : String) : Except CanvasError Diagram := do
  (← (Canvas.ofText text).mapError .text).toDiagram

end PipelineCanvas
