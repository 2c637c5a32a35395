import PipelineCanvas.Diagram.Elements
import PipelineCanvas.Table
/-! The **palette** holds the blocks that nodes can be made of, one per name. A catalog replaces
the whole palette; of several blocks with one name the last counts. A node that is made keeps the
name and kind of its block and nothing else of it, so a new catalog does not change the nodes that
are there. -/
namespace PipelineCanvas

/-- There is no block of the name. -/
structure NoSuchBlock where
  name : String
deriving DecidableEq

def NoSuchBlock.message (e : NoSuchBlock) : String := s!"no such block: '{e.name}'"

/-- The blocks on offer, by name. -/
@[ext] structure Palette where
  blocks : Table String Block

namespace Palette

instance : EmptyCollection Palette := ⟨⟨∅⟩⟩

def ofCatalog (blocks : List Block) : Palette := ⟨.ofList (blocks.map fun b => (b.name, b))⟩

def block? (p : Palette) (name : String) : Option Block := p.blocks.get? name

def contains (p : Palette) (name : String) : Bool := p.blocks.contains name

def size (p : Palette) : Nat := p.blocks.size

def isEmpty (p : Palette) : Bool := p.blocks.isEmpty

/-- The blocks in the order of their names. -/
def toList (p : Palette) : List Block := p.blocks.entries.map (·.2)

/-- A node of the block of that name, without properties. -/
def instantiate (p : Palette) (name : String) (position : Position := default) :
    Except NoSuchBlock Node :=
  match p.block? name with
  | some block => return (Node.new block.name block.kind).withPosition position
  | none => throw ⟨name⟩

end Palette
end PipelineCanvas
