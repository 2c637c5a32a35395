import Mathlib.Data.List.Dedup
import PipelineCanvas.Proofs.Palettes
import PipelineCanvas.Storeroom
/-! # Shelves and palettes

Whatever order the blocks stand in on a shelf, it is to its users what the palette of its catalog is
(`Shelf.Fills.views_eq`): each name has one place, so the same blocks are found, and the listing is
sorted by names, of which no two are equal. All that is seen of a catalog is the last block of each
name (`show_catalogViews`).

A shelf is a hash map, whose order is nobody's business and may change from run to run. So filling
one is a relation: a block takes the place of the block with its name, or is put in anywhere
(`Puts`). The palette is the same table kept in order. That a shelf **matches** a palette says that
the same block is found under each name, and it is kept by every block that is put in, so a shelf
matches the palette of its catalog. From this it follows that both have the same blocks, and with
these the same size and the same sorted listing. -/
namespace PipelineCanvas
open Catalog

/-! ### Palettes of catalogs -/

namespace Palette
variable {blocks : List Block}

/-- Every block stands under its name. -/
theorem name_eq_of_mem_entries {e : String × Block} (h : e ∈ (ofCatalog blocks).blocks.entries) :
    e.2.name = e.1 :=
  (block?_ofCatalog_eq_some_iff.mp (Table.get?_eq_some_iff.mpr h)).name_eq

theorem names_toList : (ofCatalog blocks).toList.map (·.name) = (ofCatalog blocks).blocks.keys := by
  rw [toList, List.map_map, Table.keys]
  exact List.map_congr_left fun e he => name_eq_of_mem_entries he

/-- The listing has the blocks that are found under their own names. -/
theorem mem_toList_iff {block : Block} : block ∈ (ofCatalog blocks).toList ↔
    (ofCatalog blocks).block? block.name = some block := by
  rw [toList, List.mem_map, block?, Table.get?_eq_some_iff]
  constructor
  · rintro ⟨e, he, rfl⟩
    rwa [name_eq_of_mem_entries he]
  · exact fun h => ⟨_, h, rfl⟩

/-- The listing ascends by names. -/
theorem ascending_toList : (ofCatalog blocks).toList.Pairwise fun a b =>
    compare a.name b.name = .lt := by
  rw [← List.pairwise_map (f := Block.name) (R := fun a b => compare a b = .lt), names_toList]
  exact List.pairwise_map.mpr (ofCatalog blocks).blocks.ascending

end Palette

/-! ### Shelves and palettes -/

namespace Shelf
variable {s t : Shelf} {p : Palette} {block : Block} {blocks : List Block} {name : String}

theorem block?_eq_some_iff : s.block? name = some block ↔ block ∈ s.blocks ∧ block.name = name := by
  constructor
  · intro h
    exact ⟨List.mem_of_find?_eq_some h, by simpa using List.find?_some h⟩
  · rintro ⟨hmem, rfl⟩
    cases hfound : s.block? block.name with
    | none => simpa using List.find?_eq_none.mp hfound block hmem
    | some other =>
      have hname : other.name = block.name := by simpa using List.find?_some hfound
      exact congrArg some
        (List.inj_on_of_nodup_map s.nodup (List.mem_of_find?_eq_some hfound) hmem hname)

/-- Puts the block in front of all others. -/
def putFirst (s : Shelf) (block : Block) : Shelf where
  blocks := block :: s.blocks.filter fun b => b.name != block.name
  nodup := by
    refine List.nodup_cons.mpr ⟨?_, s.nodup.sublist (List.filter_sublist.map _)⟩
    simp

theorem fills_putFirst (s : Shelf) (blocks : List Block) :
    Fills s blocks (blocks.foldl putFirst s) := by
  induction blocks generalizing s with
  | nil => exact .nil s
  | cons block blocks ih => exact .cons (t := s.putFirst block) (.refl _) (ih _)

/-- The same blocks are found on the shelf and in the palette. -/
def Matches (s : Shelf) (p : Palette) : Prop := ∀ name, s.block? name = p.block? name

/-- One block more, on both sides under its name. -/
theorem Puts.matches (h : Puts block s t) (hs : s.Matches p) :
    t.Matches ⟨p.blocks.insert block.name block⟩ := by
  -- the block takes the place of those of its name, as an insert into the table does
  have mem : ∀ {b}, b ∈ t.blocks ↔ b = block ∨ b ∈ s.blocks ∧ b.name ≠ block.name := by
    intro b
    rw [h.mem_iff, List.mem_cons, List.mem_filter, bne_iff_ne]
  intro name
  refine Option.ext fun found => ?_
  rw [block?_eq_some_iff, mem, Palette.block?, Table.get?_insert]
  by_cases hname : name = block.name
  · rw [if_pos hname, Option.some.injEq]
    constructor
    · rintro ⟨rfl | ⟨-, hne⟩, hfound⟩
      · rfl
      · exact absurd (hfound.trans hname) hne
    · rintro rfl
      exact ⟨.inl rfl, hname.symm⟩
  · have hold : p.blocks.get? name = some found ↔ found ∈ s.blocks ∧ found.name = name := by
      rw [← block?_eq_some_iff, hs name]
      rfl
    rw [if_neg hname, hold]
    constructor
    · rintro ⟨rfl | ⟨hmem, -⟩, hfound⟩
      · exact absurd hfound.symm hname
      · exact ⟨hmem, hfound⟩
    · rintro ⟨hmem, hfound⟩
      exact ⟨.inr ⟨hmem, fun hne => hname (hfound.symm.trans hne)⟩, hfound⟩

/-- By induction on the blocks that are put in. -/
theorem Fills.matches (h : Fills s blocks t) (hs : s.Matches p) :
    t.Matches ⟨blocks.foldl (fun table b => table.insert b.name b) p.blocks⟩ := by
  induction h generalizing p with
  | nil => exact hs
  | cons h _ ih => exact ih (h.matches hs)

theorem Fills.matches_ofCatalog (h : Fills ∅ blocks s) : s.Matches (.ofCatalog blocks) := by
  have hempty : Matches ∅ ∅ := fun _ => rfl
  have hs := h.matches hempty
  rwa [show (⟨blocks.foldl _ (∅ : Palette).blocks⟩ : Palette) = .ofCatalog blocks from
    congrArg Palette.mk (List.foldl_map ..).symm] at hs

/-- On both sides a name stands once, so the same blocks are found just if they are the same up to
order. -/
theorem Matches.perm (h : s.Matches (.ofCatalog blocks)) :
    s.blocks.Perm (Palette.ofCatalog blocks).toList := by
  have hnodup : (Palette.ofCatalog blocks).toList.Nodup := by
    refine List.Nodup.of_map Block.name ?_
    rw [Palette.names_toList]
    exact Table.nodup_keys _
  refine (List.perm_ext_iff_of_nodup s.nodup.of_map hnodup).mpr fun block => ?_
  rw [Palette.mem_toList_iff, ← h, block?_eq_some_iff]
  exact (and_iff_left rfl).symm

/-- Sorting brings the blocks into the order of the palette, whatever order they stand in. -/
theorem Matches.mergeSort_eq (h : s.Matches (.ofCatalog blocks)) :
    (s.blocks.mergeSort fun a b => (compare a.name b.name).isLE) =
      (Palette.ofCatalog blocks).toList := by
  let le (a b : Block) : Bool := (compare a.name b.name).isLE
  have total : ∀ a b, (le a b || le b a) = true := by
    intro a b
    simp only [le, Std.OrientedOrd.eq_swap (a := b.name)]
    cases compare a.name b.name <;> rfl
  have sorted : (s.blocks.mergeSort le).Pairwise fun a b => le a b = true :=
    List.pairwise_mergeSort (fun _ _ _ => Std.TransCmp.isLE_trans) total s.blocks
  have ascending : (Palette.ofCatalog blocks).toList.Pairwise fun a b => le a b = true :=
    Palette.ascending_toList.imp fun hlt => by simp [le, hlt]
  refine List.Perm.eq_of_pairwise ?_ sorted ascending
    ((List.mergeSort_perm _ le).trans h.perm)
  intro a b ha hb hab hba
  have hname : a.name = b.name :=
    Std.LawfulEqOrd.eq_of_compare (Std.OrientedCmp.isLE_antisymm hab hba)
  exact List.inj_on_of_nodup_map s.nodup (List.mem_mergeSort.mp ha) (h.perm.mem_iff.mpr hb) hname

/-- Everything that is asked of a shelf is answered alike: what is found by name, how many blocks
there are, and their sorted listing. -/
theorem Matches.views_eq (h : s.Matches (.ofCatalog blocks)) :
    s.views = (Palette.ofCatalog blocks).views := by
  have hblock : s.block? = (Palette.ofCatalog blocks).block? := funext h
  refine Views.ext hblock ?_ ?_ ?_ ?_ h.mergeSort_eq
  · funext name
    refine Bool.eq_iff_iff.mpr ?_
    show s.blocks.any (fun b => b.name == name) = true ↔ (Palette.block? _ name).isSome = true
    rw [← h name, block?, List.find?_isSome, List.any_eq_true]
  · funext name position
    show s.instantiate name position = _
    rw [instantiate, hblock]
    rfl
  · exact h.perm.length_eq.trans (List.length_map _)
  · have hempty := h.perm.isEmpty_eq
    rwa [Palette.toList, List.isEmpty_map] at hempty

/-- **A filled shelf is to its users what the palette is**, whatever its order. -/
theorem Fills.views_eq (h : Fills ∅ blocks s) : s.views = (Palette.ofCatalog blocks).views :=
  h.matches_ofCatalog.views_eq

end Shelf

/-! ### What is seen of a catalog -/

/-- What is seen of a palette with this catalog. -/
def catalogViews (blocks : List Block) : Views := (Palette.ofCatalog blocks).views

/-- All answers are about the last block of each name. -/
structure Views.Show (v : Views) (blocks : List Block) : Prop where
  /-- Under a name the last block of that name is found. -/
  block?_eq_some_iff : ∀ {name block}, v.block? name = some block ↔ LastOf blocks name block
  /-- A name is there just if some block has it. -/
  contains_iff : ∀ {name}, v.contains name = true ↔ ∃ block ∈ blocks, block.name = name
  /-- A node is made with the kind of that block, and without properties. -/
  instantiate_of_last : ∀ {name position block}, LastOf blocks name block →
    v.instantiate name position = .ok ((Node.new name block.kind).withPosition position)
  /-- There is no node for a name that no block has. -/
  instantiate_of_none : ∀ {name position}, (∀ block ∈ blocks, block.name ≠ name) →
    v.instantiate name position = .error ⟨name⟩
  /-- Blocks are counted by name, however often a name occurs. -/
  size_eq : v.size = (blocks.map (·.name)).dedup.length
  isEmpty_iff : v.isEmpty = true ↔ v.size = 0
  /-- The listing has the last block of each name. -/
  mem_toList_iff : ∀ {block}, block ∈ v.toList ↔ LastOf blocks block.name block
  /-- It is in ascending order of names, so each stands in it once. -/
  ascending : v.toList.Pairwise fun a b => a.name < b.name

theorem show_catalogViews (blocks : List Block) : (catalogViews blocks).Show blocks where
  block?_eq_some_iff := Palette.block?_ofCatalog_eq_some_iff
  contains_iff {name} := by
    rw [← Palette.exists_lastOf_iff]
    simp only [← Palette.block?_ofCatalog_eq_some_iff]
    exact Table.contains_iff
  instantiate_of_last := Palette.instantiate_of_lastOf
  instantiate_of_none := Palette.instantiate_of_forall_ne
  size_eq := by
    have hperm : (Palette.ofCatalog blocks).blocks.keys.Perm (blocks.map (·.name)).dedup := by
      refine (List.perm_ext_iff_of_nodup (Table.nodup_keys _) (List.nodup_dedup _)).mpr ?_
      intro name
      rw [Table.mem_keys_iff, List.mem_dedup, List.mem_map, ← Palette.exists_lastOf_iff]
      simp only [← Palette.block?_ofCatalog_eq_some_iff]
      rfl
    rw [← hperm.length_eq, Table.keys, List.length_map]
    rfl
  isEmpty_iff := List.isEmpty_iff_length_eq_zero
  mem_toList_iff := Palette.mem_toList_iff.trans Palette.block?_ofCatalog_eq_some_iff
  ascending := Palette.ascending_toList.imp compareOfLessAndEq_eq_lt.mp

/-- Where names are told apart, the order of the catalog does not matter. -/
theorem catalogViews_perm {blocks other : List Block} (h : blocks.Perm other)
    (nodup : (blocks.map (·.name)).Nodup) : catalogViews blocks = catalogViews other := by
  have htable := Table.ofList_perm (h.map fun b => (b.name, b)) (by rwa [List.map_map])
  rw [catalogViews, catalogViews, Palette.ofCatalog, Palette.ofCatalog, htable]

end PipelineCanvas
