import Mathlib.Data.List.Forall2
import PipelineCanvas.Canvas
import PipelineCanvas.Proofs.Elements
import PipelineCanvas.Proofs.Json.Layouts
import PipelineCanvas.Proofs.Json.Tolerance
import PipelineCanvas.Proofs.Saving
/-! # What the canvas reader tolerates

A text may write a canvas in many ways: the members of each object stand in any order and among
others, a kind goes by two names, and what holds its default may be left out. All of them are read
as the canvas, and among them the text that is written for it. What is refused is an object with two
members for one field, wherever they stand (`Canvas.ofText_tolerant`).

What a text has to say for an object to be read from it is a list of parts (`Json.Part`): each has
the names that it goes by, the values that say it, and whether it may be left out. The texts of a
canvas are described by such lists (`Box.parts`, `Arrow.parts`, `Canvas.parts`), and independently
of them by the fields of the records that the reader runs over. For each record it is shown that its
fields follow the parts, and the rest is one theorem about records, `Record.makes_of_writes`.

The depths in the statements, down to 124 for properties, are what the nesting of a canvas leaves of
the greatest depth of a text. -/
namespace PipelineCanvas
open Json
variable {s : Spelling} {depth : Nat}

/-! ### Texts of a canvas -/

/-- A number that counts as the coordinate. -/
def Coordinate.IsWritten (c : Coordinate) (s : Spelling) : Prop := ∃ x, c = .finite x ∧ s.IsDouble x

/-- The two coordinates of a place, none of which may be left out. -/
def Position.parts (p : Position) : List Part :=
  [⟨["x"], p.x.IsWritten, False⟩, ⟨["y"], p.y.IsWritten, False⟩]

/-- What a box says, the kind under either of two names. -/
def Box.parts (b : Box) : List Part :=
  [⟨["id"], Spelling.IsString b.id, False⟩,
    ⟨["name"], Spelling.IsString b.placement.name, False⟩,
    ⟨["blockType", "block_type"], Spelling.IsString b.placement.kind.text, False⟩,
    ⟨["properties"], Spelling.IsBag 124 b.placement.properties, b.placement.properties = ∅⟩,
    ⟨["position"], Spelling.Writes b.placement.position.parts,
      b.placement.position = ⟨.finite (.zero false), .finite (.zero false)⟩⟩]

/-- What an arrow says: the boxes at its two ends. -/
def Arrow.parts (a : Arrow) : List Part :=
  [⟨["source"], Spelling.IsString a.source, False⟩, ⟨["target"], Spelling.IsString a.target, False⟩]

/-- What a canvas says: its boxes, and its arrows unless there are none. -/
def Canvas.parts (c : Canvas) : List Part :=
  [⟨["nodes"], Spelling.IsArray (fun b => Spelling.Writes (Box.parts b)) c.boxes, False⟩,
    ⟨["links"], Spelling.IsArray (fun a => Spelling.Writes (Arrow.parts a)) c.arrows,
      c.arrows = []⟩]

/-! ### Reading them -/

/-- A number that counts as the coordinate is read as it. -/
theorem Coordinate.makes {c : Coordinate} (h : c.IsWritten s) (depth : Nat) :
    Coordinate.shape.Makes depth c s := by
  obtain ⟨x, rfl, hx⟩ := h
  have hmakes := Shape.makes_double hx depth
  exact ⟨hmakes.sound, (hmakes.imap (Shape.decides_numberWith _ _ _) Coordinate.finite
    fun _ => default).sense_eq⟩

namespace Position

theorem apart_parts (p : Position) : Part.Apart p.parts := by
  simp [Part.Apart, parts]

theorem follows (p : Position) (depth : Nat) :
    Position.record.fields.Follows depth p.parts (p.x, p.y, ()) :=
  ⟨.refl _, fun _ h => Coordinate.makes h depth, nofun,
    .refl _, fun _ h => Coordinate.makes h depth, nofun, trivial⟩

theorem makes {p : Position} (h : s.Writes p.parts) (depth : Nat) :
    Position.record.shape.Makes (depth + 1) p s :=
  Record.makes_of_writes decide_fields p.apart_parts (p.follows depth) h

end Position

namespace Box

theorem decide_fields : Box.record.fields.Decide :=
  ⟨Shape.decides_string, Shape.decides_string, BlockKind.decides_shape, Shape.decides_properties,
    Record.decides Position.decide_fields, trivial⟩

theorem apart_parts (b : Box) : Part.Apart b.parts := by
  simp [Part.Apart, parts]

/-- The fields of a box say what its parts say: properties and place may be left out where they hold
their defaults, and the kind is known by either name. -/
theorem follows (b : Box) : Box.record.fields.Follows 124 b.parts (Box.record.parts b) :=
  ⟨.refl _, fun _ h => Shape.makes_string h 124, nofun,
    .refl _, fun _ h => Shape.makes_string h 124, nofun,
    .swap _ _ _, fun _ h => Shape.makes_choice (BlockKind.viewsBack _) h 124, nofun,
    .refl _, fun _ h => Shape.makes_properties h, fun h => congrArg some h.symm,
    .refl _, fun _ h => Position.makes h 123, fun h => congrArg some h.symm, trivial⟩

/-- Every text that writes a box is read as the box. -/
theorem makes {b : Box} (h : s.Writes b.parts) : Box.record.shape.Makes 125 b s :=
  Record.makes_of_writes decide_fields b.apart_parts b.follows h

end Box

namespace Arrow

theorem decide_fields : Arrow.record.fields.Decide :=
  ⟨Shape.decides_string, Shape.decides_string, trivial⟩

theorem apart_parts (a : Arrow) : Part.Apart a.parts := by
  simp [Part.Apart, parts]

theorem follows (a : Arrow) (depth : Nat) :
    Arrow.record.fields.Follows depth a.parts (Arrow.record.parts a) :=
  ⟨.refl _, fun _ h => Shape.makes_string h depth, nofun,
    .refl _, fun _ h => Shape.makes_string h depth, nofun, trivial⟩

theorem makes {a : Arrow} (h : s.Writes a.parts) (depth : Nat) :
    Arrow.record.shape.Makes (depth + 1) a s :=
  Record.makes_of_writes decide_fields a.apart_parts (a.follows depth) h

end Arrow

namespace Canvas

theorem decide_fields : Canvas.record.fields.Decide :=
  ⟨(Record.decides Box.decide_fields).list, (Record.decides Arrow.decide_fields).list, trivial⟩

theorem apart_parts (c : Canvas) : Part.Apart c.parts := by
  simp [Part.Apart, parts]

theorem follows (c : Canvas) : Canvas.record.fields.Follows 126 c.parts (Canvas.record.parts c) :=
  ⟨.refl _, fun _ h => Shape.makes_list (Record.decides Box.decide_fields) (fun _ _ => Box.makes) h,
    nofun, .refl _, fun _ h => Shape.makes_list (Record.decides Arrow.decide_fields)
      (fun _ _ h => Arrow.makes h 124) h, fun h => congrArg some h.symm, trivial⟩

theorem makes {c : Canvas} (h : s.Writes c.parts) : Canvas.record.shape.Makes maxDepth c s :=
  Record.makes_of_writes decide_fields c.apart_parts c.follows h

/-- Every text that writes a canvas is read as the canvas. -/
theorem ofText_of_writes {c : Canvas} {text : String} (h : s.Writes c.parts)
    (htext : Spaced s.tokens text.toList) : Canvas.ofText text = .ok c := by
  have hmakes := makes h
  have hread := (Record.decides decide_fields).ofText hmakes.sound htext
  exact toOption_eq_some_iff.mp (hread.trans hmakes.sense_eq)

end Canvas

/-! ### The text that is written -/

theorem isString_ofJson (text : String) : (Spelling.ofJson (.string text)).IsString text :=
  ⟨quote text, stringToken_quote text, key?_quote text, rfl⟩

/-- The number that is written for a double that reads back counts as the double. -/
theorem isDouble_ofJson {x : Double} (h : x.ReadsBack) :
    (Spelling.ofJson (.number (.double x))).IsDouble x := by
  have htoken := numberToken_text (.double x)
  have hreads : (Json.number (.double x)).ReadsBack := List.forall_mem_singleton.mpr h
  have hvalue : (Spelling.ofJson (.number (.double x))).value? 0 = some (.number (.double x)) :=
    Spelling.value?_of_readsBack (Nat.le_refl 0) hreads
  have hmeaning : meaning? (Number.double x).text = some (.number (.double x)) := hvalue
  rw [meaning?_of_numberToken htoken] at hmeaning
  obtain ⟨n, hn, hnumber⟩ := Option.map_eq_some_iff.mp hmeaning
  cases hnumber
  exact ⟨_, _, htoken, hn, rfl, rfl⟩

/-- Properties that read back and are not nested too deeply are written as themselves. -/
theorem isBag_ofJson {p : Properties} (h : p.toJson.depth ≤ 124) (hreads : p.toJson.ReadsBack) :
    (Spelling.ofJson p.toJson).IsBag 124 p :=
  ⟨Spelling.sound_ofJson _, _, Spelling.value?_of_readsBack h hreads, p.ofMembers_entries⟩

theorem isArray_ofJson {α : Type} {toJson : α → Json} {Item : α → Spelling → Prop} {as : List α}
    (h : ∀ a ∈ as, Item a (Spelling.ofJson (toJson a))) :
    (Spelling.ofJson (.array (as.map toJson))).IsArray Item as := by
  refine ⟨_, rfl, ?_⟩
  rw [Spelling.ofItems_eq_map, List.map_map, List.forall₂_map_right_iff, List.forall₂_same]
  exact h

/-- A member that is written under one of the names of a part says that part. -/
theorem Json.Listed.ofJson {part : Part} {parts : List Part} {name : String} {t : Json}
    {members : List (String × Json)} (hname : name ∈ part.names)
    (holds : part.Holds (Spelling.ofJson t)) (h : Listed parts (Spelling.ofMembers members)) :
    Listed (part :: parts) (Spelling.ofMembers ((name, t) :: members)) :=
  .stated (stringToken_quote name) ⟨name, hname, key?_quote name⟩ holds h

/-- An object that is written says its parts in their order and nothing else. -/
theorem writes_ofJson {parts : List Part} {members : List (String × Json)}
    (h : Listed parts (Spelling.ofMembers members)) :
    (Spelling.ofJson (.object members)).Writes parts := by
  refine ⟨_, _, [], rfl, ?_, h, List.forall_mem_nil _⟩
  rw [List.append_nil]

theorem Coordinate.isWritten_ofJson {c : Coordinate} (h : c.IsFinite) (hreads : c.ReadsBack) :
    c.IsWritten (Spelling.ofJson (Coordinate.shape.toJson c)) := by
  cases c with
  | finite x => exact ⟨x, rfl, isDouble_ofJson hreads⟩
  | infinite => cases h
  | undefined => cases h

theorem Position.writes_toJson {p : Position} (h : p.IsFinite) (hx : p.x.ReadsBack)
    (hy : p.y.ReadsBack) : (Spelling.ofJson (Position.record.shape.toJson p)).Writes p.parts := by
  apply writes_ofJson
  apply Listed.ofJson List.mem_cons_self (Coordinate.isWritten_ofJson h.1 hx)
  exact .ofJson List.mem_cons_self (Coordinate.isWritten_ofJson h.2 hy) .nil

/-- The text that is written for a box says it, under the second name of the kind and with the
defaults spelled out. -/
theorem Box.writes_toJson {b : Box} (h : b.placement.Writable) (hreads : b.placement.ReadsBack) :
    (Spelling.ofJson (Box.record.shape.toJson b)).Writes b.parts := by
  apply writes_ofJson
  apply Listed.ofJson List.mem_cons_self (isString_ofJson b.id)
  apply Listed.ofJson List.mem_cons_self (isString_ofJson b.placement.name)
  apply Listed.ofJson (List.mem_cons_of_mem _ List.mem_cons_self) (isString_ofJson _)
  apply Listed.ofJson List.mem_cons_self (isBag_ofJson h.depth_le hreads.properties)
  exact .ofJson List.mem_cons_self (Position.writes_toJson h.finite hreads.x hreads.y) .nil

theorem Arrow.writes_toJson (a : Arrow) :
    (Spelling.ofJson (Arrow.record.shape.toJson a)).Writes a.parts := by
  apply writes_ofJson
  apply Listed.ofJson List.mem_cons_self (isString_ofJson a.source)
  exact .ofJson List.mem_cons_self (isString_ofJson a.target) .nil

/-- The text that is written for a canvas is one of the texts that write it. -/
theorem Canvas.writes_toJson {c : Canvas} (h : ∀ b ∈ c.boxes, b.placement.Writable)
    (hreads : ∀ b ∈ c.boxes, b.placement.ReadsBack) :
    (Spelling.ofJson (Canvas.record.shape.toJson c)).Writes c.parts := by
  apply writes_ofJson
  apply Listed.ofJson List.mem_cons_self
    (isArray_ofJson fun b hb => Box.writes_toJson (h b hb) (hreads b hb))
  exact .ofJson List.mem_cons_self (isArray_ofJson fun a _ => a.writes_toJson) .nil

/-! ### Two members for one field -/

/-- An object of the canvas has two members for one field. -/
inductive Canvas.Doubles (s : Spelling) : Prop
  /-- The canvas itself does, as with two lists of nodes. -/
  | canvas {members : List (List Char × Spelling)} (hs : s = .object members)
      (h : Repeats [["nodes"], ["links"]] members)
  /-- One of its boxes does, be it with a kind under both of its names. -/
  | box {boxes : List Spelling} {members : List (List Char × Spelling)}
      (hboxes : Gives ["nodes"] 0 s (.array boxes)) (hbox : .object members ∈ boxes)
      (h : Repeats [["id"], ["name"], ["blockType", "block_type"], ["properties"], ["position"]]
        members)
  /-- The place of one of its boxes does. -/
  | position {boxes : List Spelling} {box : Spelling} {members : List (List Char × Spelling)}
      (hboxes : Gives ["nodes"] 0 s (.array boxes)) (hbox : box ∈ boxes)
      (hposition : Gives ["position"] 4 box (.object members)) (h : Repeats [["x"], ["y"]] members)
  /-- One of its arrows does. -/
  | arrow {arrows : List Spelling} {members : List (List Char × Spelling)}
      (harrows : Gives ["links"] 1 s (.array arrows)) (harrow : .object members ∈ arrows)
      (h : Repeats [["source"], ["target"]] members)

/-- A canvas with a box that is refused is refused. -/
theorem Canvas.refuses_of_box (hsound : s.Sound) {boxes : List Spelling}
    (hboxes : Gives ["nodes"] 0 s (.array boxes)) {box : Spelling} (hbox : box ∈ boxes)
    (h : Box.record.shape.Refuses box) : Canvas.record.shape.Refuses s := by
  refine Record.refuses_of_gives decide_fields (by decide) hsound hboxes ?_
  exact Shape.refuses_list (Record.decides Box.decide_fields) (hboxes.sound hsound) hbox h

/-- Two members for one field are refused, at whatever place in the canvas. -/
theorem Canvas.Doubles.refuses (h : Doubles s) (hsound : s.Sound) :
    Canvas.record.shape.Refuses s := by
  cases h with
  | canvas hs h =>
    subst hs
    exact Record.refuses_of_repeats decide_fields (by decide) hsound h
  | box hboxes hbox h =>
    have hitem := (hboxes.sound hsound).item _ hbox
    refine refuses_of_box hsound hboxes hbox ?_
    exact Record.refuses_of_repeats Box.decide_fields (by decide) hitem h
  | position hboxes hbox hposition h =>
    have hitem := (hboxes.sound hsound).item _ hbox
    have hplace := hposition.sound hitem
    refine refuses_of_box hsound hboxes hbox ?_
    refine Record.refuses_of_gives Box.decide_fields (by decide) hitem hposition ?_
    exact Record.refuses_of_repeats Position.decide_fields (by decide) hplace h
  | arrow harrows harrow h =>
    refine Record.refuses_of_gives decide_fields (by decide) hsound harrows ?_
    have harray := harrows.sound hsound
    refine Shape.refuses_list (Record.decides Arrow.decide_fields) harray harrow ?_
    exact Record.refuses_of_repeats Arrow.decide_fields (by decide) (harray.item _ harrow) h

/-! ### The reader -/

namespace Canvas

/-- **The canvas reader is tolerant, but not of doubled members.** It reads every text that writes a
canvas, with the members in any order and among others, a kind under either name and defaults left
out, and so the text that is written for the canvas, as long as the doubles in it read back. It
refuses every text in which an object has two members for one field. -/
theorem ofText_tolerant :
    (∀ (c : Canvas) (s : Spelling) (text : String), s.Writes c.parts →
      Spaced s.tokens text.toList → ofText text = .ok c) ∧
    (∀ c : Canvas, (∀ b ∈ c.boxes, b.placement.Writable) →
      (∀ b ∈ c.boxes, b.placement.ReadsBack) → ofText c.toText = .ok c) ∧
    ∀ (s : Spelling) (text : String), s.Sound → Doubles s → Spaced s.tokens text.toList →
      ∃ fault, ofText text = .error fault := by
  refine ⟨fun c s text => ofText_of_writes, fun c hc hreads => ?_,
    fun s text hsound hdoubles htext => ?_⟩
  · exact ofText_of_writes (writes_toJson hc hreads) (spaced_compact _)
  · have hread := (Record.decides decide_fields).ofText hsound htext
    have hnone : (ofText text).toOption = none := hread.trans (hdoubles.refuses hsound maxDepth)
    cases hread : ofText text with
    | error fault => exact ⟨fault, rfl⟩
    | ok c =>
      rw [hread] at hnone
      cases hnone

/-- A canvas with one box that holds its defaults. -/
def plain : Canvas := ⟨[⟨"a", { name := "timer", kind := .producer }⟩], []⟩

/-- What is known of the box, and a note. -/
def plainMembers : List (String × Json) :=
  [("id", .string "a"), ("name", .string "timer"), ("blockType", .string "producer"),
    ("note", .array [.null])]

/-- The text of the canvas with these members in the box. -/
def plainText (members : List (String × Json)) : Json :=
  .object [("nodes", .array [.object members])]

theorem writes_plainBox : (Spelling.ofJson (.object plainMembers.reverse)).Writes
    (Box.parts ⟨"a", { name := "timer", kind := .producer }⟩) := by
  refine ⟨_, Spelling.ofMembers (plainMembers.take 3), Spelling.ofMembers (plainMembers.drop 3),
    rfl, ?_, ?_, ?_⟩
  · simp only [Spelling.ofMembers_eq_map, ← List.map_append, List.take_append_drop]
    exact (List.reverse_perm plainMembers).map _
  · apply Listed.ofJson List.mem_cons_self (isString_ofJson "a")
    apply Listed.ofJson List.mem_cons_self (isString_ofJson "timer")
    apply Listed.ofJson List.mem_cons_self (isString_ofJson "producer")
    exact .omitted rfl (.omitted rfl .nil)
  · refine List.forall_mem_singleton.mpr ⟨stringToken_quote _, Spelling.sound_ofJson _, "note",
      key?_quote _, ?_⟩
    simp [Box.parts]

/-- The members of the box may stand the other way round, with the note before them. -/
theorem writes_plainText :
    (Spelling.ofJson (plainText plainMembers.reverse)).Writes plain.parts := by
  apply writes_ofJson
  refine Listed.ofJson List.mem_cons_self ⟨_, rfl, ?_⟩ (.omitted rfl .nil)
  exact .cons writes_plainBox .nil

/-- A second kind under the other name is a second member for the field. -/
theorem doubles_plainText : Doubles
    (Spelling.ofJson (plainText (("block_type", .string "consumer") :: plainMembers))) := by
  have hnodes : IsNamed ["nodes"] (quote "nodes", Spelling.ofJson (.array
      [.object (("block_type", .string "consumer") :: plainMembers)])) :=
    ⟨"nodes", List.mem_cons_self, key?_quote _⟩
  refine .box (.member List.mem_cons_self hnodes) List.mem_cons_self
    ⟨["blockType", "block_type"], by decide, [], _, Spelling.ofMembers (plainMembers.take 2), _,
      Spelling.ofMembers (plainMembers.drop 3), rfl, ?_, ?_⟩
  · exact ⟨"block_type", by decide, key?_quote _⟩
  · exact ⟨"blockType", by decide, key?_quote _⟩

/-- A canvas is read without its defaults, but not with a second kind in its box. -/
theorem ofText_plainText :
    (Spelling.ofJson (plainText plainMembers.reverse)).Writes plain.parts ∧
    ofText (plainText plainMembers.reverse).compact = .ok plain ∧
    (∀ b ∈ plain.boxes, b.placement.Writable) ∧ (∀ b ∈ plain.boxes, b.placement.ReadsBack) ∧
    ofText plain.toText = .ok plain ∧
    ∃ fault, ofText (plainText (("block_type", .string "consumer") :: plainMembers)).compact =
      .error fault := by
  have hwritable : ∀ b ∈ plain.boxes, b.placement.Writable :=
    List.forall_mem_singleton.mpr ⟨⟨trivial, trivial⟩, by decide⟩
  have hreadsBack : ∀ b ∈ plain.boxes, b.placement.ReadsBack := by decide +kernel
  obtain ⟨hreads, hback, hrefuses⟩ := ofText_tolerant
  exact ⟨writes_plainText, hreads _ _ _ writes_plainText (spaced_compact _), hwritable,
    hreadsBack, hback plain hwritable hreadsBack,
    hrefuses _ _ (Spelling.sound_ofJson _) doubles_plainText (spaced_compact _)⟩

end Canvas
end PipelineCanvas
