import PipelineCanvas.Json.Record
/-! **Blocks** are what a pipeline is made of. The **kind** of a block says whether it emits data,
takes data in, or both, and thereby which ports its nodes have. A **catalog** is the list of blocks
on offer, each with a schema of its settings. -/
namespace PipelineCanvas
open Json

/-- Which way data goes through a port. -/
inductive Direction where
  | input
  | output
deriving DecidableEq

namespace Direction

def text : Direction → String
  | .input => "in"
  | .output => "out"

def shape : Shape Direction := .choice text [.input, .output]

end Direction

/-- A place of a node where links are attached. -/
structure Port where
  direction : Direction
deriving DecidableEq

def Port.record : Record Port where
  name := "Port"
  types := [Direction]
  fields := .cons { name := "direction", shape := Direction.shape } .nil
  make := fun (direction, _) => ⟨direction⟩
  parts p := (p.direction, ())

/-- What a block does with data. -/
inductive BlockKind where
  | producer
  | consumer
  | transformer
deriving DecidableEq

namespace BlockKind

def text : BlockKind → String
  | .producer => "producer"
  | .consumer => "consumer"
  | .transformer => "producer_consumer"

def shape : Shape BlockKind := .choice text [.producer, .consumer, .transformer]

/-- The ports of a node of this kind, the in-port first. -/
def ports : BlockKind → List Port
  | .producer => [⟨.output⟩]
  | .consumer => [⟨.input⟩]
  | .transformer => [⟨.input⟩, ⟨.output⟩]

/-- Whether nodes of this kind have a port in the direction. -/
def hasPort (kind : BlockKind) (direction : Direction) : Bool :=
  match kind, direction with
  | .producer, .input => false
  | .consumer, .output => false
  | _, _ => true

end BlockKind

/-- A block as the catalog offers it. -/
structure Block where
  name : String
  kind : BlockKind
  /-- A JSON schema of the settings. -/
  schema : Value

namespace Block

def record : Record Block where
  name := "BlockDefinition"
  types := [String, BlockKind, Value]
  fields :=
    .cons { name := "name", shape := .string } <|
    .cons { name := "type", shape := BlockKind.shape } <|
    .cons { name := "schema", shape := .value, absent := some .null } .nil
  make := fun (name, kind, schema, _) => ⟨name, kind, schema⟩
  parts b := (b.name, b.kind, b.schema, ())

/-- Whether there is anything to set: the schema lists at least one property. -/
def isConfigurable (b : Block) : Bool :=
  match b.schema.tree with
  | .object members =>
    match members.lookup "properties" with
    | some (.object (_ :: _)) => true
    | _ => false
  | _ => false

end Block

namespace Catalog

def shape : Shape (List Block) := .list Block.record.shape

/-- Reads the blocks of a catalog in text order. -/
def ofText (text : String) : Except Fault (List Block) := shape.ofText text

def toText (blocks : List Block) : String := shape.toText blocks

end Catalog
end PipelineCanvas
