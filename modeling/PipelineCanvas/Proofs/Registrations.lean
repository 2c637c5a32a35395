import PipelineCanvas.Registration
import PipelineCanvas.Proofs.Json.Layouts
import PipelineCanvas.Proofs.Json.Records
/-! # Registrations come back

A registration is saved over several lines and read in one pass. Whatever characters its strings
have and whatever its schema holds, as long as the doubles in it read back, it comes back as it was,
with one exception: a schema that is `null` is written, but what is read is that there is none
(`Registration.load_save`).

Doubles that do not read back are no obstacle to reading. With them too the text is read, as the
registration with the echo of the schema (`Registration.ofText_toText`).

The exception comes from an optional field having three states when it is written and two when it is
read: absent, `null`, and a value. So what is read of a registration is named first (`reread`), and
everything is proved of that. It is the registration itself unless the schema is `null`, and it is
always read again as it is, so that a second round changes nothing.

Files come in at the very end. A directory gives back the text that was written to it, and any other
reader of files will do that does so. -/
namespace PipelineCanvas.Registration
open Json
variable {r : Registration}

/-- The schema leaves room for the level around it. -/
def Shallow (r : Registration) : Prop := ∀ v ∈ r.schema, v.tree.depth ≤ 126

/-- The doubles in the schema are read as they were. -/
def ReadsBack (r : Registration) : Prop := ∀ v ∈ r.schema, v.tree.ReadsBack

/-- The registration with its schema as that is read again. -/
def echo (r : Registration) : Registration := { r with schema := r.schema.map Value.echo }

theorem ReadsBack.echo_eq (h : r.ReadsBack) : r.echo = r := by
  obtain ⟨name, description, source, schema⟩ := r
  cases schema with
  | none => rfl
  | some v => rw [echo, Option.map_some, Value.echo_eq (h v rfl)]

/-- The registration as it is read again, where a schema that is `null` is none. -/
def reread (r : Registration) : Registration :=
  { r with schema := match r.schema with
      | some ⟨.null, _⟩ => none
      | schema => schema }

/-- The exception. -/
theorem reread_of_null (h : r.schema = some .null) : r.reread = { r with schema := none } := by
  rw [reread, h]
  rfl

theorem reread_of_ne_null (h : r.schema ≠ some .null) : r.reread = r := by
  obtain ⟨name, description, source, schema⟩ := r
  unfold reread
  split
  · next hnull => exact absurd hnull h
  · rfl

/-- What has been read is never an exception, so reading it again is no different. -/
theorem schema_reread_ne_null (r : Registration) : r.reread.schema ≠ some .null := by
  by_cases h : r.schema = some .null
  · rw [reread_of_null h]
    exact nofun
  · rwa [reread_of_ne_null h]

/-- The second round changes nothing. -/
theorem reread_reread (r : Registration) : r.reread.reread = r.reread :=
  reread_of_ne_null r.schema_reread_ne_null

theorem Shallow.reread (h : r.Shallow) : r.reread.Shallow := by
  by_cases hnull : r.schema = some .null
  · rw [reread_of_null hnull]
    exact nofun
  · rwa [reread_of_ne_null hnull]

theorem reread_eq_iff : r.reread = r ↔ r.schema ≠ some .null := by
  refine ⟨fun heq => ?_, reread_of_ne_null⟩
  have hne := r.schema_reread_ne_null
  rwa [heq] at hne

theorem same_refl (r : Registration) : r.same r = true := by
  unfold same
  cases r.schema with
  | none => simp
  | some v => simp [Json.same_refl]

theorem reread_same_iff : r.reread.same r = true ↔ r.schema ≠ some .null := by
  by_cases h : r.schema = some .null
  · rw [reread_of_null h]
    simp [same, h]
  · rw [reread_of_ne_null h]
    simp [h, r.same_refl]

/-! ### The text -/

/-- The schema stands last, and is left out where there is none. -/
theorem toJson_eq (r : Registration) : record.shape.toJson r = .object
    ([("name", .string r.name), ("description", .string r.description),
      ("source", .string r.source)] ++ (r.schema.map fun v => ("schema", v.tree)).toList) := by
  obtain ⟨name, description, source, schema⟩ := r
  cases schema <;> rfl

theorem toJson_echo (r : Registration) :
    record.shape.toJson r.echo = (record.shape.toJson r).echo := by
  rw [toJson_eq, toJson_eq]
  cases hschema : r.schema <;>
    simp [Registration.echo, hschema, Json.echo, mapDoubles, mapMemberDoubles, Value.echo]

theorem depth_toJson (h : r.Shallow) : (record.shape.toJson r).depth ≤ maxDepth := by
  rw [toJson_eq]
  unfold Shallow at h
  cases hschema : r.schema with
  | none => simp [depth, depthMembers, maxDepth]
  | some v =>
    have hv : v.tree.depth ≤ 126 := h v hschema
    simp only [Option.map_some, Option.toList_some, List.cons_append, List.nil_append, depth,
      depthMembers, maxDepth]
    omega

/-- The text has a schema just if the registration has one, be it `null`. -/
theorem schema_mem_iff :
    "schema" ∈ (record.fields.toMembers (record.parts r)).map (·.1) ↔ r.schema ≠ none := by
  have hmembers := Json.object.inj (toJson_eq r)
  rw [hmembers]
  cases r.schema with
  | none => simp
  | some v => simp

/-- The schema is the only member that may be left out, and the one whose value may be anything. -/
theorem agrees (r : Registration) : record.shape.Agrees (record.shape.toJson r) := by
  rw [toJson_eq]
  have hschema : ∀ m ∈ (r.schema.map fun v => ("schema", v.tree)).toList,
      record.fields.Agrees m.1 m.2 := by
    intro m hm
    obtain ⟨v, -, rfl⟩ := Option.map_eq_some_iff.mp (Option.mem_toList.mp hm)
    exact Shape.agrees_optional (Shape.agrees_value v.tree)
  refine Record.agrees_object fun m hm => ?_
  rcases List.mem_append.mp hm with hm | hm
  · simp only [List.mem_cons, List.not_mem_nil, or_false] at hm
    rcases hm with rfl | rfl | rfl <;> exact Shape.agrees_string _
  · exact hschema m hm

theorem viewsBack (h : r.schema ≠ some .null) : record.shape.ViewsBack r := by
  have hschema : if r.schema.isSome then (Shape.optional Shape.value).ViewsBack r.schema
      else some none = some r.schema := by
    cases hschema : r.schema with
    | none => rfl
    | some v =>
      refine Shape.viewsBack_optional (fun w _ => Shape.viewsBack_value w) ?_
      rintro w ⟨⟩ hnull
      exact h (hschema.trans (congrArg some (Value.ext hnull)))
  refine Record.viewsBack (by decide) ?_ rfl
  exact ⟨Shape.viewsBack_string _, Shape.viewsBack_string _, Shape.viewsBack_string _, hschema,
    trivial⟩

/-- With a schema that is `null` the text is viewed as if it had none. -/
theorem view_toJson (r : Registration) :
    record.shape.view (record.shape.toJson r) = .ok r.reread := by
  by_cases h : r.schema = some .null
  · rw [reread_of_null h, toJson_eq, h]
    rfl
  · rw [reread_of_ne_null h]
    exact viewsBack h

theorem spaced_toText (r : Registration) :
    Spaced (Spelling.ofJson (record.shape.toJson r)).tokens r.toText.toList := by
  rw [toText]
  exact spaced_pretty _

/-- The text of a registration is read, whatever its doubles are. -/
theorem ofText_toText (h : r.Shallow) : ofText r.toText = .ok r.echo.reread := by
  refine Shape.ofText_of_spaced ?_ ?_ (depth_toJson h) r.spaced_toText
  · rw [← toJson_echo]
    exact r.echo.view_toJson
  · rw [← toJson_echo]
    exact r.echo.agrees

/-- The directory matters only in so far as it gives the text. -/
theorem load_of_read {read : FileReader} {path : String} (h : r.Shallow) (hreads : r.ReadsBack)
    (hread : read path = .ok r.toText) : load read path = .ok r.reread := by
  have htext : ofText r.toText = .ok r.reread := by rw [ofText_toText h, hreads.echo_eq]
  exact bind_eq_ok_iff.mpr ⟨r.toText, mapError_eq_ok_iff.mpr hread, mapError_eq_ok_iff.mpr htext⟩

/-- What is promised of a registration that is saved: `s` is what comes back for `r`. -/
structure ComesBack (r s : Registration) : Prop where
  /-- It is read from the file that `r` was saved in. -/
  from_file : ∀ {d e : Directory} {path}, r.save d path = .ok e → load e.read path = .ok s
  /-- Any other reader of files that gives the text back does as well. -/
  from_reader : ∀ {read : FileReader} {path}, read path = .ok r.toText → load read path = .ok s
  /-- All strings come back character by character. -/
  name_eq : s.name = r.name
  description_eq : s.description = r.description
  source_eq : s.source = r.source
  /-- The exception: of a schema that is `null` nothing comes back. -/
  schema_of_null : r.schema = some .null → s.schema = none
  /-- Every other schema comes back, and no schema comes back as none. -/
  schema_of_ne_null : r.schema ≠ some .null → s.schema = r.schema
  /-- What comes back is what was saved, with the exception. -/
  eq_iff : s = r ↔ r.schema ≠ some .null
  /-- The comparison of registrations in the program sees the exception as well. -/
  same_iff : s.same r = true ↔ r.schema ≠ some .null
  /-- The text has a schema just if there is one, be it `null`. -/
  written_iff : ∃ members, Json.ofText r.toText = .ok (.object members) ∧
    ("schema" ∈ members.map (·.1) ↔ r.schema ≠ none)
  /-- Saving and reading once more changes nothing. -/
  stable : ∀ {d e : Directory} {path}, s.save d path = .ok e → load e.read path = .ok s

theorem ReadsBack.reread (h : r.ReadsBack) : r.reread.ReadsBack := by
  by_cases hnull : r.schema = some .null
  · rw [reread_of_null hnull]
    exact nofun
  · rwa [reread_of_ne_null hnull]

/-- **A registration comes back from the file that it was saved in**, and from every reader of files
that gives the text back, with its name, description, source and schema, save that there is no
schema where it was `null`. So it is the registration that was saved just if the schema of that was
not `null`. Its text has a schema just if it has one itself. What comes back is saved and read again
as it is. -/
theorem load_save (h : r.Shallow) (hreads : r.ReadsBack) : ∃ s : Registration, r.ComesBack s := by
  have hread : ∀ {s : Registration} {d e : Directory} {path : String}, s.save d path = .ok e →
      e.read path = .ok s.toText := fun hsave =>
    Directory.read_write (mapError_eq_ok_iff.mp hsave)
  have hecho : (record.shape.toJson r).echo = record.shape.toJson r := by
    rw [← toJson_echo, hreads.echo_eq]
  refine ⟨r.reread,
    { from_file := fun hsave => load_of_read h hreads (hread hsave)
      from_reader := load_of_read h hreads
      name_eq := rfl
      description_eq := rfl
      source_eq := rfl
      schema_of_null := fun hnull => by rw [reread_of_null hnull]
      schema_of_ne_null := fun hnull => by rw [reread_of_ne_null hnull]
      eq_iff := reread_eq_iff
      same_iff := reread_same_iff
      written_iff := ⟨_, ?_, schema_mem_iff⟩
      stable := fun hsave => ?_ }⟩
  · rw [ofText_of_spaced (depth_toJson h) r.spaced_toText, hecho]
    rfl
  · have hload := load_of_read h.reread hreads.reread (hread hsave)
    rwa [reread_reread] at hload

/-- A registration with a source over two lines and a schema that is `null`. -/
def nullSchema : Registration where
  name := "water \"level\""
  description := ""
  source := "http_source\n\t| mqtt_sink"
  schema := some .null

/-- A schema that is null comes back as none, so this registration does not come back as it was. -/
theorem load_save_null : nullSchema.Shallow ∧ nullSchema.ReadsBack ∧
    ∃ s e, nullSchema.save ⟨∅⟩ "p" = .ok e ∧ load e.read "p" = .ok s ∧
      s.source = nullSchema.source ∧ s.schema = none ∧ s ≠ nullSchema := by
  have hshallow : nullSchema.Shallow := by
    rintro v ⟨⟩
    decide
  have hreads : nullSchema.ReadsBack := by
    rintro v ⟨⟩
    decide
  have hwrite : ∀ text, Directory.write ⟨∅⟩ "p" text =
      .ok ⟨(∅ : Table String String).insert ("" ++ "p") text⟩ := by
    intro text
    have hstart : "p".startsWith "/" = false := by decide +kernel
    have hsplit : "p".splitOn "/" = ["p"] := by
      rw [String.splitOn, if_neg (by decide), String.splitOnAux, if_neg (by decide),
        if_neg (by decide), String.splitOnAux]
      rfl
    rw [Directory.write, Directory.destination, hstart, hsplit]
    rfl
  have hsave : nullSchema.save ⟨∅⟩ "p" = .ok _ := mapError_eq_ok_iff.mpr (hwrite _)
  obtain ⟨s, hs⟩ := load_save hshallow hreads
  exact ⟨hshallow, hreads, s, _, hsave, hs.from_file hsave, hs.source_eq, hs.schema_of_null rfl,
    fun heq => hs.eq_iff.mp heq rfl⟩

end PipelineCanvas.Registration
