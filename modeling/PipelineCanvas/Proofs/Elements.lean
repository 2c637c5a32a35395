import PipelineCanvas.Diagram.Saved
import PipelineCanvas.Proofs.Json.Filling
/-! # What the elements of a diagram make of spellings

To say what a reader does with every text of a tree, however blanks and escapes stand in it, it is
shown that its shapes decide on every spelling (`Shape.Decides`): what they make of it depends on
nothing but the spelling. All the shapes of a diagram do. Where an object has none but known keys
they are also plain (`Shape.Plain`), that is, what they make of a text is what they make of the tree
it stands for.

The one exception is a kind that stands as a key over an empty object: it goes through where it is
looked at in a tree, and not where it is read from a text. A saved diagram is plain even there, as
its entries are read into trees first. -/
namespace PipelineCanvas
open Json
variable {sp : Spelling} {members : List (List Char × Spelling)}

/-- The members have none but these keys. -/
def HasOnly (keys : List String) (members : List (List Char × Spelling)) : Prop :=
  ∀ m ∈ members, ∃ key ∈ keys, key? m.1 = some key

/-- The key of a member is one of the keys. -/
theorem HasOnly.mem {keys : List String} (h : HasOnly keys members) {m : List Char × Spelling}
    (hm : m ∈ members) {key : String} (hkey : key? m.1 = some key) : key ∈ keys := by
  obtain ⟨key', hmem, hkey'⟩ := h m hm
  obtain rfl : key' = key := Option.some.inj (hkey'.symm.trans hkey)
  exact hmem

theorem HasOnly.append {keys : List String} {before after : List (List Char × Spelling)} :
    HasOnly keys (before ++ after) ↔ HasOnly keys before ∧ HasOnly keys after :=
  List.forall_mem_append

/-! ### Places -/

namespace Coordinate

theorem decides_shape : Coordinate.shape.Decides :=
  (Shape.decides_numberWith _ _ _).imap Coordinate.finite fun _ => default

theorem plain_shape (h : sp.Sound) : Coordinate.shape.Plain sp :=
  (Shape.plain_numberWith _ _ _ h).imap (Shape.decides_numberWith _ _ _) h Coordinate.finite
    fun _ => default

end Coordinate

namespace Position

theorem decide_fields : Position.record.fields.Decide :=
  ⟨Coordinate.decides_shape, Coordinate.decides_shape, trivial⟩

theorem allPlain_fields : Position.record.fields.AllPlain :=
  ⟨fun _ => Coordinate.plain_shape, fun _ => Coordinate.plain_shape, trivial⟩

/-- A place with no other members is made of its tree. -/
theorem plain_shape (h : sp.Sound)
    (hkeys : ∀ members, sp = .object members → HasOnly ["x", "y"] members) :
    Position.record.shape.Plain sp := by
  refine Record.plain_of_allPlain decide_fields allPlain_fields h ?_
  intro members hsp m hm key hkey
  have hmem := (hkeys members hsp).mem hm hkey
  simp only [List.mem_cons, List.not_mem_nil, or_false] at hmem
  rcases hmem with rfl | rfl <;> exact trivial

end Position

/-! ### Nodes -/

theorem BlockKind.decides_shape : BlockKind.shape.Decides := Shape.decides_choice _ _

namespace Placement

theorem decide_fields : Placement.record.fields.Decide :=
  ⟨Shape.decides_string, BlockKind.decides_shape, Shape.decides_properties,
    Record.decides Position.decide_fields, trivial⟩

end Placement

/-! ### Saved diagrams -/

namespace NodeId

theorem decides_shape : NodeId.shape.Decides := (Shape.decides_numberWith _ _ _).imap mk index

theorem plain_shape (h : sp.Sound) : NodeId.shape.Plain sp :=
  (Shape.plain_numberWith _ _ _ h).imap (Shape.decides_numberWith _ _ _) h mk index

end NodeId

namespace LinkId

theorem decides_shape : LinkId.shape.Decides := (Shape.decides_numberWith _ _ _).imap mk index

theorem plain_shape (h : sp.Sound) : LinkId.shape.Plain sp :=
  (Shape.plain_numberWith _ _ _ h).imap (Shape.decides_numberWith _ _ _) h mk index

end LinkId

namespace SavedDiagram

/-- What is made of the entry of a node depends on its spelling alone. -/
theorem decides_savedNode : savedNode.Decides :=
  Record.decides_entry NodeId.decides_shape (fun _ => NodeId.plain_shape) _ _ _

theorem decides_savedLink : savedLink.Decides :=
  Record.decides_entry LinkId.decides_shape (fun _ => LinkId.plain_shape) _ _ _

/-- What is made of the entry of a node is what is viewed in its tree. -/
theorem plain_savedNode (h : sp.Sound) : savedNode.Plain sp :=
  Record.plain_entry NodeId.decides_shape (fun _ => NodeId.plain_shape) _ _ _ h

theorem plain_savedLink (h : sp.Sound) : savedLink.Plain sp :=
  Record.plain_entry LinkId.decides_shape (fun _ => LinkId.plain_shape) _ _ _ h

/-- The two lists of a diagram decide on every spelling, as their entries do. -/
theorem decide_fields : SavedDiagram.record.fields.Decide :=
  ⟨decides_savedNode.list, decides_savedLink.list, trivial⟩

theorem allPlain_fields : SavedDiagram.record.fields.AllPlain :=
  ⟨fun _ => Shape.plain_list decides_savedNode fun _ => plain_savedNode,
    fun _ => Shape.plain_list decides_savedLink fun _ => plain_savedLink, trivial⟩

end SavedDiagram

end PipelineCanvas
