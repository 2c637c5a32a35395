import PipelineCanvas.Proofs.Json.Layouts
import PipelineCanvas.Proofs.Saving
import PipelineCanvas.Proofs.Storerooms
/-! # Catalogs come back

The listing of a palette is a catalog in which every name stands once. Its text is read as that
listing, also where schemas that are `null` are left out (`Catalog.ofText_of_lists`), and a shelf
that is filled with it looks like the one that was listed (`Shelf.Fills.reloaded`).

Two things are asked of the schemas. They leave room for the two levels around them, which is as
deep as the reader goes, and the doubles in them read back. Names and kinds have no conditions: a
name is any string, and a block that stands twice in what was published is listed once. -/
namespace PipelineCanvas
open Json

namespace Block
variable {b : Block} {t : Json}

/-- The tree stands for the block. A schema that is `null` may be left out. -/
inductive Lists (b : Block) : Json → Prop
  /-- The three members of a block, as they are written. -/
  | full : b.Lists (.object [("name", .string b.name), ("type", .string b.kind.text),
      ("schema", b.schema.tree)])
  /-- A schema that is not there is read as `null`. -/
  | brief (h : b.schema = .null) : b.Lists (.object [("name", .string b.name),
      ("type", .string b.kind.text)])

theorem lists_toJson (b : Block) : b.Lists (record.shape.toJson b) := .full

theorem viewsBack (b : Block) : record.shape.ViewsBack b := by
  refine Record.viewsBack (by decide) ?_ rfl
  exact ⟨Shape.viewsBack_string _, BlockKind.viewsBack _, Shape.viewsBack_value _, trivial⟩

/-- Either way the block is what the tree is viewed as. -/
theorem Lists.view (h : b.Lists t) : record.shape.view t = .ok b := by
  cases h with
  | full => exact b.viewsBack
  | brief h =>
    obtain ⟨name, kind, schema⟩ := b
    obtain rfl : schema = .null := h
    cases kind <;> rfl

theorem Lists.agrees (h : b.Lists t) : record.shape.Agrees t := by
  have hname : record.fields.Agrees "name" (.string b.name) := Shape.agrees_string _
  have hkind : record.fields.Agrees "type" (.string b.kind.text) := Shape.agrees_choice _ _ _
  have hschema : record.fields.Agrees "schema" b.schema.tree := Shape.agrees_value _
  cases h with
  | full =>
    refine Record.agrees_object ?_
    exact List.forall_mem_cons.mpr ⟨hname, List.forall_mem_cons.mpr ⟨hkind,
      List.forall_mem_singleton.mpr hschema⟩⟩
  | brief =>
    refine Record.agrees_object ?_
    exact List.forall_mem_cons.mpr ⟨hname, List.forall_mem_singleton.mpr hkind⟩

/-- All doubles of a block stand in its schema. -/
theorem Lists.readsBack (h : b.Lists t) (hschema : b.schema.tree.ReadsBack) : t.ReadsBack := by
  have hstring : ∀ text, (Json.string text).ReadsBack := fun _ => List.forall_mem_nil _
  cases h with
  | full =>
    exact readsBack_object_iff.mpr <| List.forall_mem_cons.mpr ⟨hstring _,
      List.forall_mem_cons.mpr ⟨hstring _, List.forall_mem_singleton.mpr hschema⟩⟩
  | brief =>
    exact readsBack_object_iff.mpr <|
      List.forall_mem_cons.mpr ⟨hstring _, List.forall_mem_singleton.mpr (hstring _)⟩

theorem Lists.depth_le (h : b.Lists t) : t.depth ≤ b.schema.tree.depth + 1 := by
  cases h <;> simp [depth, depthMembers]

end Block

/-! ### Listings in texts -/

namespace Catalog
variable {blocks : List Block} {trees : List Json} {text : String}

/-- The schemas leave room for the two levels around them. -/
def Shallow (blocks : List Block) : Prop := ∀ b ∈ blocks, b.schema.tree.depth ≤ 125

/-- The doubles in the schemas are read as they were. -/
def ReadsBack (blocks : List Block) : Prop := ∀ b ∈ blocks, b.schema.tree.ReadsBack

/-- A catalog is viewed block by block. -/
theorem view_of_lists (h : List.Forall₂ Block.Lists blocks trees) :
    shape.view (.array trees) = .ok blocks := by
  show trees.mapM Block.record.shape.view = .ok blocks
  induction h with
  | nil => rfl
  | cons h _ ih =>
    rw [List.mapM_cons, h.view, ih]
    rfl

theorem exists_lists (h : List.Forall₂ Block.Lists blocks trees) {t : Json} (ht : t ∈ trees) :
    ∃ b ∈ blocks, b.Lists t := by
  obtain ⟨i, hi, rfl⟩ := List.mem_iff_getElem.mp ht
  have hlt : i < blocks.length := h.length_eq ▸ hi
  exact ⟨blocks[i], List.getElem_mem hlt, h.get hlt hi⟩

theorem agrees_of_lists (h : List.Forall₂ Block.Lists blocks trees) :
    shape.Agrees (.array trees) := by
  refine Shape.agrees_list ?_
  rintro _ ⟨⟩ t ht
  obtain ⟨b, -, hb⟩ := exists_lists h ht
  exact hb.agrees

/-- The array and the object of a block are the two levels around a schema. -/
theorem depth_of_lists (h : List.Forall₂ Block.Lists blocks trees) (shallow : Shallow blocks) :
    (Json.array trees).depth ≤ maxDepth := by
  have hitems : depthItems trees ≤ 126 := by
    refine depthItems_le fun t ht => ?_
    obtain ⟨b, hmem, hb⟩ := exists_lists h ht
    have hdepth := hb.depth_le
    have hschema := shallow b hmem
    omega
  rw [depth, maxDepth]
  omega

theorem readsBack_of_lists (h : List.Forall₂ Block.Lists blocks trees)
    (hreads : ReadsBack blocks) : (Json.array trees).ReadsBack := by
  refine readsBack_array_iff.mpr fun t ht => ?_
  obtain ⟨b, hmem, hb⟩ := exists_lists h ht
  exact hb.readsBack (hreads b hmem)

/-- **A catalog is read as the blocks that it lists, in their order.** -/
theorem ofText_of_lists (h : List.Forall₂ Block.Lists blocks trees) (shallow : Shallow blocks)
    (hreads : ReadsBack blocks)
    (htext : Spaced (Spelling.ofJson (.array trees)).tokens text.toList) :
    ofText text = .ok blocks := by
  have hecho : (Json.array trees).echo = .array trees := (readsBack_of_lists h hreads).echo_eq
  refine Shape.ofText_of_spaced ?_ ?_ (depth_of_lists h shallow) htext
  · rw [hecho]
    exact view_of_lists h
  · rw [hecho]
    exact agrees_of_lists h

theorem lists_toText (blocks : List Block) :
    List.Forall₂ Block.Lists blocks (blocks.map Block.record.shape.toJson) := by
  rw [List.forall₂_map_right_iff, List.forall₂_same]
  exact fun b _ => b.lists_toJson

theorem ofText_toText (shallow : Shallow blocks) (hreads : ReadsBack blocks) :
    ofText (toText blocks) = .ok blocks :=
  ofText_of_lists (lists_toText blocks) shallow hreads (spaced_compact _)

end Catalog

/-! ### Listings as catalogs -/

namespace Palette
variable {blocks : List Block}

/-- A palette is the one of its own listing. -/
theorem ofCatalog_toList : ofCatalog (ofCatalog blocks).toList = ofCatalog blocks := by
  have hentries : (ofCatalog blocks).toList.map (fun b => (b.name, b)) =
      (ofCatalog blocks).blocks.entries := by
    rw [toList, List.map_map]
    refine (List.map_congr_left fun e he => ?_).trans (List.map_id' _)
    exact congrArg (·, e.2) (name_eq_of_mem_entries he)
  refine Palette.ext ?_
  show Table.ofList ((ofCatalog blocks).toList.map fun b => (b.name, b)) = _
  rw [hentries, Table.ofList_entries]

/-- Nothing is listed that has not been in the catalog. -/
theorem mem_of_mem_toList {b : Block} (h : b ∈ (ofCatalog blocks).toList) : b ∈ blocks := by
  obtain ⟨before, after, rfl, -, -⟩ := block?_ofCatalog_eq_some_iff.mp (mem_toList_iff.mp h)
  exact List.mem_append_right before List.mem_cons_self

theorem shallow_toList (shallow : Catalog.Shallow blocks) :
    Catalog.Shallow (ofCatalog blocks).toList :=
  fun b hb => shallow b (mem_of_mem_toList hb)

theorem readsBack_toList (hreads : Catalog.ReadsBack blocks) :
    Catalog.ReadsBack (ofCatalog blocks).toList :=
  fun b hb => hreads b (mem_of_mem_toList hb)

end Palette

namespace Shelf
variable {blocks : List Block} {s t : Shelf}

/-- What a shelf lists depends on the catalog and not on who has filled it. -/
theorem Fills.toList_eq (h : Fills ∅ blocks s) :
    s.views.toList = (Palette.ofCatalog blocks).toList :=
  congrArg Views.toList h.views_eq

/-- Filled with what another lists, a shelf looks like that. -/
theorem Fills.views_eq_of_toList (h : Fills ∅ blocks s) (ht : Fills ∅ s.views.toList t) :
    t.views = s.views := by
  rw [ht.views_eq, h.views_eq]
  exact congrArg Palette.views Palette.ofCatalog_toList

/-- Whoever publishes the listing of a shelf has all with the same registry see that shelf. -/
theorem Fills.seen_of_publish (h : Fills ∅ blocks s) {fill : Storeroom.Filler} (fair : fill.Fair)
    {events more : List Storeroom.Event} {client other : Nat} {r : Storeroom}
    (hr : r = .run fill (events ++ .publish client s.views.toList :: more))
    (hclient : client < (Storeroom.run fill events).clients.length)
    (hquiet : Storeroom.Quiet r.clients client more)
    (hother : Storeroom.Shares r.clients client other) :
    (r.seen? other).map Shelf.views = some s.views := by
  subst hr
  have htells := Storeroom.tells_run fair
  rw [(htells _).clients_eq] at hclient hquiet hother
  rw [(htells _).map_seen?, Storeroom.catalog?_of_publish hclient hquiet hother, h.views_eq]
  exact congrArg (some ∘ Palette.views) Palette.ofCatalog_toList

/-- What is promised of the listing of a shelf that was filled with the blocks. -/
structure Reloads (s : Shelf) (blocks : List Block) : Prop where
  /-- It is read off every text that lists it, with blanks anywhere between the tokens. In such a
  text a schema that is `null` is written or left out, for each block on its own. -/
  read_listing : ∀ trees text, List.Forall₂ Block.Lists s.views.toList trees →
    Spaced (Spelling.ofJson (.array trees)).tokens text.toList →
      Catalog.ofText text = .ok s.views.toList
  /-- In particular it is read off its own text. -/
  read_toText : Catalog.ofText (Catalog.toText s.views.toList) = .ok s.views.toList
  /-- A shelf that is filled with it looks the same, whoever fills it and in which order. -/
  refilled : ∀ t, Fills ∅ s.views.toList t → t.views = s.views
  /-- Whoever publishes it has those who share the registry see the blocks of the shelf again, in
  a storeroom where anything may have been published before. -/
  republished : ∀ {fill : Storeroom.Filler}, fill.Fair → ∀ events more client other r,
    r = Storeroom.run fill (events ++ .publish client s.views.toList :: more) →
      client < (Storeroom.run fill events).clients.length →
      Storeroom.Quiet r.clients client more → Storeroom.Shares r.clients client other →
        (r.seen? other).map Shelf.views = some s.views
  /-- A studio where it is published has the palette of the blocks. -/
  palette_eq : ∀ (studio : Studio) client,
    (studio.act client (.publish s.views.toList)).palette = .ofCatalog blocks

/-- **What a shelf lists is read again as it was listed, and fills shelves that look the same.** It
does not matter who filled the shelf nor in which order, whether the schemas that are `null` are
written, and where there are blanks. So publishing and reading again changes nothing from the second
time on. -/
theorem Fills.reloaded (h : Fills ∅ blocks s) (shallow : Catalog.Shallow blocks)
    (hreads : Catalog.ReadsBack blocks) : s.Reloads blocks := by
  have hlist : Catalog.Shallow s.views.toList := by
    rw [h.toList_eq]
    exact Palette.shallow_toList shallow
  have hlistReads : Catalog.ReadsBack s.views.toList := by
    rw [h.toList_eq]
    exact Palette.readsBack_toList hreads
  refine
    { read_listing := fun trees text hlists htext =>
        Catalog.ofText_of_lists hlists hlist hlistReads htext
      read_toText := Catalog.ofText_toText hlist hlistReads
      refilled := fun t ht => h.views_eq_of_toList ht
      republished := ?_
      palette_eq := fun studio client => ?_ }
  · intro fill fair events more client other r hr hclient hquiet hother
    exact h.seen_of_publish fair hr hclient hquiet hother
  · show Palette.ofCatalog s.views.toList = _
    rw [h.toList_eq, Palette.ofCatalog_toList]

/-- Of two mappers the second is listed, without its schema, and the sink stands behind it. -/
theorem reloaded_sample : ∃ s text, Fills ∅ [⟨"sink", .consumer, .null⟩, ⟨"map", .producer, .null⟩,
      ⟨"map", .transformer, .null⟩] s ∧
    text = (Json.array [.object [("name", .string "map"), ("type", .string "producer_consumer")],
      .object [("name", .string "sink"), ("type", .string "consumer"),
        ("schema", .null)]]).compact ∧
    Catalog.ofText text = .ok [⟨"map", .transformer, .null⟩, ⟨"sink", .consumer, .null⟩] ∧
    s.views.toList = [⟨"map", .transformer, .null⟩, ⟨"sink", .consumer, .null⟩] := by
  have hfills := fills_putFirst ∅ [⟨"sink", .consumer, .null⟩, ⟨"map", .producer, .null⟩,
    ⟨"map", .transformer, .null⟩]
  have hlist : Views.toList _ = [⟨"map", .transformer, .null⟩, ⟨"sink", .consumer, .null⟩] :=
    hfills.toList_eq.trans rfl
  have hshallow : Catalog.Shallow [⟨"sink", .consumer, .null⟩, ⟨"map", .producer, .null⟩,
      ⟨"map", .transformer, .null⟩] := by
    rintro b hb
    simp only [List.mem_cons, List.not_mem_nil, or_false] at hb
    rcases hb with rfl | rfl | rfl <;> decide
  have hreads : Catalog.ReadsBack [⟨"sink", .consumer, .null⟩, ⟨"map", .producer, .null⟩,
      ⟨"map", .transformer, .null⟩] := by
    rintro b hb
    simp only [List.mem_cons, List.not_mem_nil, or_false] at hb
    rcases hb with rfl | rfl | rfl <;> decide
  have hread := (hfills.reloaded hshallow hreads).read_listing
  rw [hlist] at hread
  refine ⟨_, _, hfills, rfl, hread _ _ ?_ (spaced_compact _), hlist⟩
  exact .cons (.brief rfl) (.cons .full .nil)

end Shelf
end PipelineCanvas
