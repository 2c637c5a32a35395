import PipelineCanvas.Palette
/-! How palettes are kept and shared. A catalog is put on a **shelf**, block by block, where every
name has one place. The order of the places means nothing: whoever puts a block on a shelf may
rearrange the others. A shelf that has been filled is left alone. A **registry** shows one shelf at
a time, and a new catalog is put on a new shelf for it to show. Clients hold the number of a
registry, the same as their clones, and a snapshot is the number of the shelf that was shown at the
time. -/
namespace PipelineCanvas

/-- What can be asked of the blocks on offer. -/
@[ext] structure Views where
  block? : String → Option Block
  contains : String → Bool
  instantiate : String → Position → Except NoSuchBlock Node
  size : Nat
  isEmpty : Bool
  /-- The blocks in the order of their names. -/
  toList : List Block

def Palette.views (p : Palette) : Views where
  block? := p.block?
  contains := p.contains
  instantiate name position := p.instantiate name position
  size := p.size
  isEmpty := p.isEmpty
  toList := p.toList

/-- Blocks of different names, as they happen to stand. -/
structure Shelf where
  blocks : List Block
  nodup : (blocks.map (·.name)).Nodup

namespace Shelf

instance : EmptyCollection Shelf := ⟨⟨[], List.nodup_nil⟩⟩

/-- The second shelf has the block in the place of its name and what the first has in the others,
somehow arranged. -/
def Puts (block : Block) (s t : Shelf) : Prop :=
  t.blocks.Perm (block :: s.blocks.filter fun b => b.name != block.name)

/-- The first shelf becomes the second when the blocks are put on it one after the other. -/
inductive Fills : Shelf → List Block → Shelf → Prop
  | nil (s : Shelf) : Fills s [] s
  | cons {block : Block} {blocks : List Block} {s t u : Shelf} (h : Puts block s t)
      (hrest : Fills t blocks u) : Fills s (block :: blocks) u

def block? (s : Shelf) (name : String) : Option Block := s.blocks.find? fun b => b.name == name

def instantiate (s : Shelf) (name : String) (position : Position) : Except NoSuchBlock Node :=
  match s.block? name with
  | some block => return (Node.new block.name block.kind).withPosition position
  | none => throw ⟨name⟩

def views (s : Shelf) : Views where
  block? := s.block?
  contains name := s.blocks.any fun b => b.name == name
  instantiate := s.instantiate
  size := s.blocks.length
  isEmpty := s.blocks.isEmpty
  toList := s.blocks.mergeSort fun a b => (compare a.name b.name).isLE

end Shelf

structure Storeroom where
  /-- The shelves, each at its number. -/
  shelves : List Shelf := []
  /-- For each registry the number of the shelf that it shows. -/
  registries : List Nat := []
  /-- For each client the number of the registry that it holds. -/
  clients : List Nat := []
  /-- The number of the shelf that each snapshot is of, the latest last. -/
  snapshots : List Nat := []

namespace Storeroom

inductive Event where
  /-- There is a new client, with a new registry. -/
  | enter (blocks : List Block)
  /-- There is a new client, cloned from another. -/
  | clone (client : Nat)
  | publish (client : Nat) (blocks : List Block)
  | takeSnapshot (client : Nat)

/-- The number of the shelf that is shown to the client. -/
def shown? (r : Storeroom) (client : Nat) : Option Nat := do r.registries[← r.clients[client]?]?

/-- The shelf that is shown to the client. -/
def seen? (r : Storeroom) (client : Nat) : Option Shelf := do r.shelves[← r.shown? client]?

/-- The shelves that there are snapshots of. -/
def kept (r : Storeroom) : List Shelf := r.snapshots.filterMap fun n => r.shelves[n]?

/-- Who fills the shelves, each with a catalog in some order. -/
abbrev Filler := Nat → List Block → Shelf

/-- Every shelf is filled with the blocks of the catalog one after the other. -/
def Filler.Fair (fill : Filler) : Prop := ∀ n blocks, Shelf.Fills ∅ blocks (fill n blocks)

/-- What an event leaves behind. A client that is not there does nothing. -/
def step (fill : Filler) (r : Storeroom) : Event → Storeroom
  | .enter blocks => { r with
      shelves := r.shelves ++ [fill r.shelves.length blocks]
      registries := r.registries ++ [r.shelves.length]
      clients := r.clients ++ [r.registries.length] }
  | .clone client => { r with clients := r.clients ++ r.clients[client]?.toList }
  | .publish client blocks =>
    match r.clients[client]? with
    | some registry => { r with
        shelves := r.shelves ++ [fill r.shelves.length blocks]
        registries := r.registries.set registry r.shelves.length }
    | none => r
  | .takeSnapshot client => { r with snapshots := r.snapshots ++ (r.shown? client).toList }

/-- The storeroom after several events, one after the other, and at first empty. -/
def run (fill : Filler) (events : List Event) : Storeroom := events.foldl (step fill) {}

end Storeroom
end PipelineCanvas
