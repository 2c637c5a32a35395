import PipelineCanvas.Palette
/-! # Palettes

What a palette has on offer, in terms of the catalog it is made of: under each name the last block
of that name (`LastOf`). A catalog is put into the palette block by block, and a later block takes
the place of an earlier one with its name, so what is found is said by a position in the list: there
is the block, and behind it the name does not occur again. A node is made of what is found, with the
kind of the block, and nothing else of the block goes into it. -/
namespace PipelineCanvas

/-- There is something to set just if the schema is an object with an object of properties that is
not empty. -/
def Block.HasSettings (b : Block) : Prop :=
  ∃ members first rest, b.schema.tree = .object members ∧
    members.lookup "properties" = some (.object (first :: rest))

theorem Block.isConfigurable_iff {b : Block} : b.isConfigurable = true ↔ b.HasSettings := by
  unfold isConfigurable HasSettings
  constructor
  · intro h
    split at h
    · next members htree =>
      split at h
      · next first rest hlookup => exact ⟨members, first, rest, htree, hlookup⟩
      · cases h
    · cases h
  · rintro ⟨members, first, rest, htree, hlookup⟩
    simp only [htree, hlookup]

namespace Catalog
variable {blocks : List Block} {name : String} {block : Block}

/-- The last block of the name in the catalog. -/
def LastOf (blocks : List Block) (name : String) (block : Block) : Prop :=
  ∃ before after, blocks = before ++ block :: after ∧ block.name = name ∧
    ∀ other ∈ after, other.name ≠ name

theorem LastOf.name_eq (h : LastOf blocks name block) : block.name = name := by
  obtain ⟨-, -, -, hname, -⟩ := h
  exact hname

end Catalog

namespace Palette
open Catalog
variable {blocks : List Block} {name : String} {block : Block} {position : Position}

/-- What is found under a name is the last block of that name, and that only. -/
theorem block?_ofCatalog_eq_some_iff :
    (ofCatalog blocks).block? name = some block ↔ LastOf blocks name block := by
  unfold block? ofCatalog LastOf
  rw [Table.get?_ofList_eq_some_iff_last]
  constructor
  · rintro ⟨before, after, hmap, hafter⟩
    obtain ⟨bs, rest, rfl, rfl, hrest⟩ := List.map_eq_append_iff.mp hmap
    obtain ⟨b, as, rfl, hb, rfl⟩ := List.map_eq_cons_iff.mp hrest
    cases hb
    exact ⟨bs, as, rfl, rfl, fun other hother => hafter _ (List.mem_map_of_mem hother)⟩
  · rintro ⟨before, after, rfl, rfl, hafter⟩
    refine ⟨before.map fun b => (b.name, b), after.map fun b => (b.name, b), by simp, ?_⟩
    rintro e he
    obtain ⟨other, hother, rfl⟩ := List.mem_map.mp he
    exact hafter other hother

/-- Nothing is found just if no block has the name. -/
theorem block?_ofCatalog_eq_none_iff :
    (ofCatalog blocks).block? name = none ↔ ∀ block ∈ blocks, block.name ≠ name := by
  unfold block? ofCatalog
  rw [Table.get?_ofList_eq_none_iff]
  simp

/-- A name that is listed has a last listing. -/
theorem exists_lastOf_iff :
    (∃ block, LastOf blocks name block) ↔ ∃ block ∈ blocks, block.name = name := by
  constructor
  · rintro ⟨block, before, after, rfl, hname, -⟩
    exact ⟨block, List.mem_append_right before List.mem_cons_self, hname⟩
  · rintro ⟨block, hblock, hname⟩
    cases hfound : (ofCatalog blocks).block? name with
    | none => exact absurd hname (block?_ofCatalog_eq_none_iff.mp hfound block hblock)
    | some last => exact ⟨last, block?_ofCatalog_eq_some_iff.mp hfound⟩

/-- A block is made into a node with the kind of its last listing, without properties. -/
theorem instantiate_of_lastOf (h : LastOf blocks name block) :
    (ofCatalog blocks).instantiate name position =
      .ok ((Node.new name block.kind).withPosition position) := by
  unfold instantiate
  rw [block?_ofCatalog_eq_some_iff.mpr h]
  simp only [h.name_eq]
  rfl

theorem instantiate_of_forall_ne (h : ∀ block ∈ blocks, block.name ≠ name) :
    (ofCatalog blocks).instantiate name position = .error ⟨name⟩ := by
  unfold instantiate
  rw [block?_ofCatalog_eq_none_iff.mpr h]
  rfl

end Palette
end PipelineCanvas
