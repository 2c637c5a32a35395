import PipelineCanvas.Block
/-! What diagrams are made of. **Nodes** are blocks placed on the canvas, each with properties and a
position; the ports of a node are those of its kind, and its position means nothing to a pipeline.
**Links** run from a port of one node to a port of another, or of the same. -/
namespace PipelineCanvas
open Json

/-- The identifier of a node in its diagram. -/
structure NodeId where
  index : Nat
deriving DecidableEq

namespace NodeId

instance : Ord NodeId := ⟨fun a b => compare a.index b.index⟩

instance : Std.TransOrd NodeId where
  eq_swap {a b} := Std.OrientedOrd.eq_swap (a := a.index) (b := b.index)
  isLE_trans {a b c} := Std.TransOrd.isLE_trans (a := a.index) (b := b.index) (c := c.index)

instance : Std.LawfulEqOrd NodeId where
  compare_self {a} := Std.ReflOrd.compare_self (a := a.index)
  eq_of_compare h := congrArg mk (Std.LawfulEqOrd.eq_of_compare h)

def text (id : NodeId) : String := s!"node-{id.index}"

def shape : Shape NodeId := (Shape.natural "u64").imap mk index

end NodeId

/-- Where a place lies along one side of the canvas. A text only holds finite coordinates, but a
gesture may bring any. -/
inductive Coordinate where
  | finite (x : Double)
  | infinite (negative : Bool)
  | undefined
deriving DecidableEq

namespace Coordinate

instance : Inhabited Coordinate := ⟨.finite default⟩

def IsFinite : Coordinate → Prop
  | .finite _ => True
  | _ => False

instance : DecidablePred IsFinite
  | .finite _ => .isTrue trivial
  | .infinite _ => .isFalse id
  | .undefined => .isFalse id

/-- A coordinate that is not finite is written as `null`, which is not read. -/
def shape : Shape Coordinate where
  read depth := .finite <$> Shape.double.read depth
  view t := .finite <$> Shape.double.view t
  toJson
    | .finite x => Shape.double.toJson x
    | _ => .null

/-- Whether two coordinates are the same number, whatever the sign of a zero. -/
def same : Coordinate → Coordinate → Bool
  | .finite x, .finite y => x.same y
  | .infinite a, .infinite b => a == b
  | _, _ => false

theorem same_refl {c : Coordinate} (h : c.IsFinite) : c.same c = true := by
  cases c with
  | finite x => exact x.same_refl
  | infinite => cases h
  | undefined => cases h

end Coordinate

/-- A place on the canvas. -/
structure Position where
  x : Coordinate
  y : Coordinate
deriving DecidableEq

namespace Position

instance : Inhabited Position := ⟨⟨default, default⟩⟩

def IsFinite (p : Position) : Prop := p.x.IsFinite ∧ p.y.IsFinite

instance : DecidablePred IsFinite := fun _ => inferInstanceAs (Decidable (_ ∧ _))

def record : Record Position where
  name := "Position"
  types := [Coordinate, Coordinate]
  fields :=
    .cons { name := "x", shape := Coordinate.shape } <|
    .cons { name := "y", shape := Coordinate.shape } .nil
  make := fun (x, y, _) => ⟨x, y⟩
  parts p := (p.x, p.y, ())

/-- Whether two places are the same, whatever the signs of zeros. -/
def same (p q : Position) : Bool := p.x.same q.x && p.y.same q.y

theorem same_refl {p : Position} (h : p.IsFinite) : p.same p = true := by
  simp [same, Coordinate.same_refl h.1, Coordinate.same_refl h.2]

end Position

/-- A block put on the canvas, as it is saved. -/
structure Placement where
  /-- The name of the block. -/
  name : String
  kind : BlockKind
  properties : Properties := ∅
  position : Position := default

def Placement.record : Record Placement where
  name := "NodeFields"
  types := [String, BlockKind, Properties, Position]
  fields :=
    .cons { name := "name", shape := .string } <|
    .cons { name := "block_type", shape := BlockKind.shape } <|
    .cons { name := "properties", shape := .properties, absent := some ∅ } <|
    .cons { name := "position", shape := Position.record.shape, absent := some default } .nil
  make := fun (name, kind, properties, position, _) => { name, kind, properties, position }
  parts p := (p.name, p.kind, p.properties, p.position, ())

/-- A block on the canvas with its ports. They are laid out when the node is made and are not
saved. -/
structure Node extends Placement where
  ports : List Port := kind.ports

namespace Node

/-- A node without properties, with the ports of its kind. -/
def new (name : String) (kind : BlockKind) : Node := { name, kind, ports := kind.ports }

def withProperties (n : Node) (properties : Properties) : Node := { n with properties }

def withPosition (n : Node) (position : Position) : Node := { n with position }

/-- The node that a saved placement stands for. -/
def ofPlacement (p : Placement) : Node :=
  ((new p.name p.kind).withProperties p.properties).withPosition p.position

def record : Record Node := Placement.record.imap ofPlacement toPlacement

/-- The index of the port in the direction, where the node has one. -/
def portIndex? (n : Node) (direction : Direction) : Option Nat :=
  n.ports.findIdx? fun p => p.direction == direction

/-- What a node stands for in a pipeline source by default: the name of its block, and its
properties where there are any. -/
def stage (n : Node) : String :=
  if n.properties.isEmpty then n.name
  else n.name ++ " " ++ n.properties.canonical

/-- Whether two nodes are the same, whatever the signs of zeros. -/
def same (m n : Node) : Bool :=
  m.name == n.name && m.kind == n.kind && m.properties.toJson.same n.properties.toJson &&
    m.position.same n.position && m.ports == n.ports

theorem same_refl {n : Node} (h : n.position.IsFinite) : n.same n = true := by
  simp [same, Position.same_refl h, Json.same_refl]

end Node

/-- A port by the node it is on and its index there. -/
structure PortAddress where
  node : NodeId
  port : Nat
deriving DecidableEq

namespace PortAddress

def text (r : PortAddress) : String := s!"{r.node.text}:{r.port}"

def record : Record PortAddress where
  name := "PortRef"
  types := [NodeId, Nat]
  fields :=
    .cons { name := "node", shape := NodeId.shape } <|
    .cons { name := "port", shape := .natural "usize" } .nil
  make := fun (node, port, _) => ⟨node, port⟩
  parts r := (r.node, r.port, ())

end PortAddress

/-- The identifier of a link in its diagram. -/
structure LinkId where
  index : Nat
deriving DecidableEq

namespace LinkId

instance : Ord LinkId := ⟨fun a b => compare a.index b.index⟩

instance : Std.TransOrd LinkId where
  eq_swap {a b} := Std.OrientedOrd.eq_swap (a := a.index) (b := b.index)
  isLE_trans {a b c} := Std.TransOrd.isLE_trans (a := a.index) (b := b.index) (c := c.index)

instance : Std.LawfulEqOrd LinkId where
  compare_self {a} := Std.ReflOrd.compare_self (a := a.index)
  eq_of_compare h := congrArg mk (Std.LawfulEqOrd.eq_of_compare h)

def text (id : LinkId) : String := s!"link-{id.index}"

def shape : Shape LinkId := (Shape.natural "u64").imap mk index

end LinkId

/-- A connection, from the port where data leaves to the port where it enters. -/
structure Link where
  source : PortAddress
  target : PortAddress
deriving DecidableEq

namespace Link

def record : Record Link where
  name := "Link"
  types := [PortAddress, PortAddress]
  fields :=
    .cons { name := "source", shape := PortAddress.record.shape } <|
    .cons { name := "target", shape := PortAddress.record.shape } .nil
  make := fun (source, target, _) => ⟨source, target⟩
  parts l := (l.source, l.target, ())

/-- Whether the link begins or ends at the node. -/
def touches (l : Link) (id : NodeId) : Bool := l.source.node == id || l.target.node == id

end Link

end PipelineCanvas
