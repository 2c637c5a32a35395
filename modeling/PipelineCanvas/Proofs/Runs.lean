import PipelineCanvas.CommandLine.Run
import PipelineCanvas.Proofs.Palettes
import PipelineCanvas.Proofs.Results
/-! # Only a checked canvas has a source

A run goes from stage to stage: the canvas is read and made into a diagram, the nodes of the diagram
are looked up in the catalog where there is one, the source is written, and for a registration the
schema is read. `Makes` says what comes of a run in which every stage goes well, and `Stops` what is
wrong in the first stage that does not. A problem of one stage presupposes that those before it went
well, and nothing of those behind it.

Nodes are listed by identifier, so where several do not match the catalog the smallest identifier is
the one reported. All files are taken to be there and to be text (`Holds`).

The run itself reads files as it goes. Once it is known what the files hold, it is the same as a run
on texts (`Holds.product_eq`), and only that is gone through stage by stage. For each stage there
are two equivalences, for its success and for its errors, and put together they give those for the
whole (`stages_eq_ok_iff`, `stages_eq_error_iff`).

What a run makes is not yet what is seen of it. That is an exit code, two texts that are shown, and
a directory. So it is said of each of these what they are, for the three ways in which a run can end
(`Prints`, `Saves`, `Fails`), and the main result is stated in these terms (`Settles`): a source is
shown, or found in a file, only where it is that of a checked canvas, and a run that stops shows the
message of its problem and leaves every file as it was. -/
namespace PipelineCanvas.CommandLine
open Json Catalog
variable {o : Options} {read : FileReader} {blocks : List Block} {d : Diagram} {id : NodeId}
  {node : Node} {problem : Problem}

/-- The texts of the files that the options name. -/
structure Texts where
  diagram : String
  catalog : Option String
  schema : Option String

variable {t : Texts}

/-- The registration of a source, with the name and the description that are asked for. -/
def Options.register (o : Options) (source : String) (schema : Option Value) : Registration :=
  { name := o.name, description := o.description, source, schema }

/-- The files that the options name can be read, and hold the texts. -/
structure Holds (read : FileReader) (o : Options) (t : Texts) : Prop where
  /-- The canvas is always read. -/
  diagram : read o.diagram = .ok t.diagram
  /-- A catalog is read where one is asked for, and there is a text for it just then. -/
  catalog : o.catalog.map read = t.catalog.map .ok
  /-- The same goes for the schema. -/
  schema : o.schema.map read = t.schema.map .ok

/-! ### Stages that go well -/

/-- The text is that of a canvas, of which the diagram can be made. -/
def Draws (text : String) (d : Diagram) : Prop :=
  ∃ c, Canvas.ofText text = .ok c ∧ c.toDiagram = .ok d

/-- The last block of the name of the node is of the kind of the node. -/
def Offers (blocks : List Block) (node : Node) : Prop :=
  ∃ block, LastOf blocks node.name block ∧ block.kind = node.kind

/-- Where there is a catalog, it offers every node of the diagram. -/
def Admits (catalog : Option String) (d : Diagram) : Prop :=
  ∀ text, catalog = some text → ∃ blocks, Catalog.ofText text = .ok blocks ∧
    ∀ id node, d.node? id = some node → Offers blocks node

/-- The stages before the source is put out. -/
structure Checked (o : Options) (t : Texts) (d : Diagram) (source : String) : Prop where
  /-- The canvas can be read, and a diagram can be made of it. -/
  drawn : Draws t.diagram d
  /-- The catalog, where there is one, can be read and offers all nodes, on the chain or not. -/
  admitted : Admits t.catalog d
  /-- The diagram has a source under the limit that is asked for. -/
  written : SourceRules.source { stepLimit := o.stepLimit } d = .ok source

/-- What comes of a run without a problem. -/
inductive Makes (o : Options) (t : Texts) : Product → Prop where
  /-- Without a place for a registration the source is put out by itself. The schema is not looked
  at. -/
  | source {d source} (checked : Checked o t d source) (houtput : o.output = none) :
    Makes o t (.source source)
  /-- The source goes into a registration, with the schema where there is one. -/
  | registration {d source path} {schema : Option Value} (checked : Checked o t d source)
    (houtput : o.output = some path) (hschema : t.schema.map Shape.value.ofText = schema.map .ok) :
    Makes o t (.registration path (o.register source schema))

/-! ### Stages that do not -/

/-- What is wrong with a node that the catalog does not offer. -/
inductive Mistaken (blocks : List Block) (id : NodeId) (node : Node) : Problem → Prop where
  /-- There is no block of the name. -/
  | notInCatalog (h : ∀ block ∈ blocks, block.name ≠ node.name) :
    Mistaken blocks id node (.notInCatalog id node)
  /-- The last block of the name is of another kind. -/
  | kindDiffers {block : Block} (h : LastOf blocks node.name block)
    (hkind : block.kind ≠ node.kind) : Mistaken blocks id node (.kindDiffers id node block.kind)

/-- What is wrong with the first node that the catalog does not offer. -/
def Mismatch (blocks : List Block) (d : Diagram) (problem : Problem) : Prop :=
  ∃ id node, d.node? id = some node ∧ Mistaken blocks id node problem ∧
    ∀ other n, other.index < id.index → d.node? other = some n → Offers blocks n

/-- What is wrong in the first stage that does not go well. -/
inductive Stops (o : Options) (t : Texts) : Problem → Prop where
  /-- The text is not that of a canvas. -/
  | canvasText {fault} (h : Canvas.ofText t.diagram = .error fault) :
    Stops o t (.canvas (.text fault))
  /-- It is, but no diagram can be made of the canvas. -/
  | canvas {c error} (hread : Canvas.ofText t.diagram = .ok c) (h : c.toDiagram = .error error) :
    Stops o t (.canvas error)
  /-- There is a diagram, and a catalog that cannot be read. -/
  | catalogText {d text fault} (drawn : Draws t.diagram d) (hcatalog : t.catalog = some text)
    (h : Catalog.ofText text = .error fault) : Stops o t (.catalogText fault)
  /-- The catalog can be read, and does not offer some node. -/
  | mismatch {d text blocks problem} (drawn : Draws t.diagram d) (hcatalog : t.catalog = some text)
    (hread : Catalog.ofText text = .ok blocks) (h : Mismatch blocks d problem) : Stops o t problem
  /-- All nodes are in order, but they are no pipeline. -/
  | chain {d error} (drawn : Draws t.diagram d) (admitted : Admits t.catalog d)
    (h : SourceRules.source { stepLimit := o.stepLimit } d = .error error) :
    Stops o t (.chain error)
  /-- There is a source, and a schema for its registration that cannot be read. -/
  | schemaText {d source path text fault} (checked : Checked o t d source)
    (houtput : o.output = some path) (hschema : t.schema = some text)
    (h : Shape.value.ofText text = .error fault) : Stops o t (.schemaText fault)

/-! ### The stages on texts -/

/-- Checks every node of the diagram against the catalog in a text. -/
def checkText (d : Diagram) (text : String) : Except Problem Unit := do
  let blocks ← (Catalog.ofText text).mapError .catalogText
  d.nodes.entries.forM fun e => checkNode (.ofCatalog blocks) e.1 e.2

def schemaOf (text : String) : Except Problem Value :=
  (Shape.value.ofText text).mapError .schemaText

/-- The last stage. -/
def deliver (o : Options) (t : Texts) (source : String) : Except Problem Product :=
  match o.output with
  | none => return .source source
  | some path => do
    let schema ← t.schema.mapM schemaOf
    return .registration path (o.register source schema)

/-- The same stages as those of `product`, with the texts in the place of the files. -/
def stages (o : Options) (t : Texts) : Except Problem Product := do
  let d ← (Diagram.ofCanvasText t.diagram).mapError .canvas
  t.catalog.forM (checkText d)
  let source ← (SourceRules.source { stepLimit := o.stepLimit } d).mapError .chain
  deliver o t source

theorem readFile_eq {role : Role} {path text : String} (h : read path = .ok text) :
    readFile read role path = .ok text := by
  rw [readFile, h]
  rfl

/-- An option that names a file comes with its text. -/
theorem text_cases {path? text? : Option String} (h : path?.map read = text?.map .ok) :
    (path? = none ∧ text? = none) ∨
      ∃ path text, path? = some path ∧ text? = some text ∧ read path = .ok text := by
  cases path? with
  | none =>
    cases text? with
    | none => exact .inl ⟨rfl, rfl⟩
    | some text => cases h
  | some path =>
    cases text? with
    | none => cases h
    | some text => exact .inr ⟨path, text, rfl, rfl, Option.some.inj h⟩

/-- The stage of the catalog, with or without one. -/
theorem Holds.forM_checkCatalog (h : Holds read o t) (d : Diagram) :
    o.catalog.forM (checkCatalog read d) = t.catalog.forM (checkText d) := by
  rcases text_cases h.catalog with ⟨hpath, htext⟩ | ⟨path, text, hpath, htext, hread⟩
  · rw [hpath, htext]
    rfl
  · rw [hpath, htext]
    show checkCatalog read d path = checkText d text
    rw [checkCatalog, readFile_eq hread]
    rfl

/-- The stage of the schema, with or without one. -/
theorem Holds.mapM_readSchema (h : Holds read o t) :
    o.schema.mapM (readSchema read) = t.schema.mapM schemaOf := by
  rcases text_cases h.schema with ⟨hpath, htext⟩ | ⟨path, text, hpath, htext, hread⟩
  · rw [hpath, htext]
    rfl
  · rw [hpath, htext]
    show some <$> readSchema read path = some <$> schemaOf text
    rw [readSchema, readFile_eq hread]
    rfl

/-- What a run makes, it makes of the texts. -/
theorem Holds.product_eq (h : Holds read o t) : product o read = stages o t := by
  unfold product stages deliver
  rw [readFile_eq h.diagram]
  simp only [← h.forM_checkCatalog, ← h.mapM_readSchema]
  cases o.catalog <;> rfl

/-! ### Stage by stage -/

theorem ofCanvasText_eq_ok_iff {text : String} :
    Diagram.ofCanvasText text = .ok d ↔ Draws text d := by
  simp only [Diagram.ofCanvasText, bind_eq_ok_iff, mapError_eq_ok_iff, Draws]

theorem ofCanvasText_eq_error_iff {text : String} {error : CanvasError} :
    Diagram.ofCanvasText text = .error error ↔
      (∃ fault, Canvas.ofText text = .error fault ∧ .text fault = error) ∨
        ∃ c, Canvas.ofText text = .ok c ∧ c.toDiagram = .error error := by
  simp only [Diagram.ofCanvasText, bind_eq_error_iff, mapError_eq_ok_iff, mapError_eq_error_iff]

theorem checkNode_of_offers (h : Offers blocks node) :
    checkNode (.ofCatalog blocks) id node = .ok () := by
  obtain ⟨block, hlast, hkind⟩ := h
  rw [checkNode, Palette.block?_ofCatalog_eq_some_iff.mpr hlast]
  exact if_pos hkind

theorem checkNode_of_mistaken (h : Mistaken blocks id node problem) :
    checkNode (.ofCatalog blocks) id node = .error problem := by
  cases h with
  | notInCatalog h =>
    rw [checkNode, Palette.block?_ofCatalog_eq_none_iff.mpr h]
    rfl
  | kindDiffers hlast hkind =>
    rw [checkNode, Palette.block?_ofCatalog_eq_some_iff.mpr hlast]
    exact if_neg hkind

/-- Each node is offered or something is wrong with it, so the two equivalences below follow from
one direction each. -/
theorem offers_or_mistaken (blocks : List Block) (id : NodeId) (node : Node) :
    Offers blocks node ∨ ∃ problem, Mistaken blocks id node problem := by
  cases hblock : (Palette.ofCatalog blocks).block? node.name with
  | none => exact .inr ⟨_, .notInCatalog (Palette.block?_ofCatalog_eq_none_iff.mp hblock)⟩
  | some block =>
    have hlast := Palette.block?_ofCatalog_eq_some_iff.mp hblock
    by_cases hkind : block.kind = node.kind
    · exact .inl ⟨block, hlast, hkind⟩
    · exact .inr ⟨_, .kindDiffers hlast hkind⟩

theorem checkNode_eq_ok_iff :
    checkNode (.ofCatalog blocks) id node = .ok () ↔ Offers blocks node := by
  constructor
  · intro h
    refine (offers_or_mistaken blocks id node).resolve_right ?_
    rintro ⟨problem, hproblem⟩
    rw [checkNode_of_mistaken hproblem] at h
    cases h
  · exact checkNode_of_offers

theorem checkNode_eq_error_iff :
    checkNode (.ofCatalog blocks) id node = .error problem ↔ Mistaken blocks id node problem := by
  constructor
  · intro h
    rcases offers_or_mistaken blocks id node with hoffers | ⟨other, hother⟩
    · rw [checkNode_of_offers hoffers] at h
      cases h
    · rw [checkNode_of_mistaken hother] at h
      cases h
      exact hother
  · exact checkNode_of_mistaken

theorem checkNodes_eq_ok_iff :
    (d.nodes.entries.forM fun e => checkNode (.ofCatalog blocks) e.1 e.2) = .ok () ↔
      ∀ id node, d.node? id = some node → Offers blocks node := by
  rw [forM_eq_ok_iff]
  simp only [checkNode_eq_ok_iff, Prod.forall, ← Table.get?_eq_some_iff]
  rfl

/-- The nodes are gone through by ascending identifier. -/
theorem checkNodes_eq_error_iff :
    (d.nodes.entries.forM fun e => checkNode (.ofCatalog blocks) e.1 e.2) = .error problem ↔
      Mismatch blocks d problem := by
  simp only [forM_eq_error_iff, checkNode_eq_ok_iff, checkNode_eq_error_iff]
  constructor
  · rintro ⟨before, ⟨id, node⟩, after, hcut, hbefore, hmistaken⟩
    obtain ⟨hmem, hsmaller⟩ := Table.exists_cut_iff.mp ⟨before, after, hcut, hbefore⟩
    refine ⟨id, node, Table.get?_eq_some_iff.mpr hmem, hmistaken, fun other n hlt hother => ?_⟩
    exact hsmaller (other, n) (Table.get?_eq_some_iff.mp hother) (Nat.compare_eq_lt.mpr hlt)
  · rintro ⟨id, node, hnode, hmistaken, hsmaller⟩
    have hbefore : ∀ a ∈ d.nodes.entries, compare a.1 id = .lt → Offers blocks a.2 := by
      intro a ha hlt
      exact hsmaller a.1 a.2 (Nat.compare_eq_lt.mp hlt) (Table.get?_eq_some_iff.mpr ha)
    obtain ⟨before, after, hcut, hbefore⟩ :=
      Table.exists_cut_iff.mpr ⟨Table.get?_eq_some_iff.mp hnode, hbefore⟩
    exact ⟨before, (id, node), after, hcut, hbefore, hmistaken⟩

theorem admit_eq_ok_iff {catalog : Option String} :
    catalog.forM (checkText d) = .ok () ↔ Admits catalog d := by
  cases catalog with
  | none => exact ⟨nofun, fun _ => rfl⟩
  | some text =>
    show checkText d text = .ok () ↔ _
    simp only [checkText, bind_eq_ok_iff, mapError_eq_ok_iff, checkNodes_eq_ok_iff, Admits,
      Option.some.injEq, forall_eq']

/-- The stage of the catalog fails with the text of the catalog or with the first node that it does
not offer. -/
theorem admit_eq_error_iff {catalog : Option String} :
    catalog.forM (checkText d) = .error problem ↔ ∃ text, catalog = some text ∧
      ((∃ fault, Catalog.ofText text = .error fault ∧ .catalogText fault = problem) ∨
        ∃ blocks, Catalog.ofText text = .ok blocks ∧ Mismatch blocks d problem) := by
  cases catalog with
  | none => exact ⟨nofun, nofun⟩
  | some text =>
    show checkText d text = .error problem ↔ _
    simp only [checkText, bind_eq_error_iff, mapError_eq_ok_iff, mapError_eq_error_iff,
      checkNodes_eq_error_iff, Option.some.injEq, exists_eq_left']

/-- A schema is there just if it is asked for. -/
theorem mapM_schemaOf_eq_ok_iff {text? : Option String} {schema : Option Value} :
    text?.mapM schemaOf = .ok schema ↔ text?.map Shape.value.ofText = schema.map .ok := by
  cases text? with
  | none =>
    cases schema with
    | none => exact ⟨fun _ => rfl, fun _ => rfl⟩
    | some v => exact ⟨nofun, nofun⟩
  | some text =>
    show some <$> schemaOf text = .ok schema ↔ _
    simp only [map_eq_ok_iff, schemaOf, mapError_eq_ok_iff]
    cases schema with
    | none => exact ⟨nofun, nofun⟩
    | some v => simp

theorem mapM_schemaOf_eq_error_iff {text? : Option String} :
    text?.mapM schemaOf = .error problem ↔ ∃ text fault, text? = some text ∧
      Shape.value.ofText text = .error fault ∧ .schemaText fault = problem := by
  cases text? with
  | none => exact ⟨nofun, fun ⟨_, _, h, _⟩ => nomatch h⟩
  | some text =>
    show some <$> schemaOf text = .error problem ↔ _
    simp only [map_eq_error_iff, schemaOf, mapError_eq_error_iff, Option.some.injEq,
      exists_and_left, exists_eq_left']

theorem deliver_of_source {source : String} (h : o.output = none) :
    deliver o t source = .ok (.source source) := by
  rw [deliver, h]
  rfl

theorem deliver_of_registration {source path : String} (h : o.output = some path) :
    deliver o t source =
      (fun schema => .registration path (o.register source schema)) <$> t.schema.mapM schemaOf := by
  rw [deliver, h]
  exact bind_pure_comp _ _

/-- The run on texts makes what `Makes` says. -/
theorem stages_eq_ok_iff {p : Product} : stages o t = .ok p ↔ Makes o t p := by
  simp only [stages, bind_eq_ok_iff, mapError_eq_ok_iff, ofCanvasText_eq_ok_iff]
  constructor
  · rintro ⟨d, drawn, ⟨⟩, admitted, source, written, hdeliver⟩
    have checked : Checked o t d source := ⟨drawn, admit_eq_ok_iff.mp admitted, written⟩
    cases houtput : o.output with
    | none =>
      rw [deliver_of_source houtput] at hdeliver
      cases hdeliver
      exact .source checked houtput
    | some path =>
      rw [deliver_of_registration houtput] at hdeliver
      obtain ⟨schema, hschema, rfl⟩ := map_eq_ok_iff.mp hdeliver
      exact .registration checked houtput (mapM_schemaOf_eq_ok_iff.mp hschema)
  · intro h
    cases h with
    | source checked houtput =>
      have admitted := admit_eq_ok_iff.mpr checked.admitted
      exact ⟨_, checked.drawn, (), admitted, _, checked.written, deliver_of_source houtput⟩
    | registration checked houtput hschema =>
      have admitted := admit_eq_ok_iff.mpr checked.admitted
      refine ⟨_, checked.drawn, (), admitted, _, checked.written, ?_⟩
      rw [deliver_of_registration houtput]
      exact map_eq_ok_iff.mpr ⟨_, mapM_schemaOf_eq_ok_iff.mpr hschema, rfl⟩

/-- The run on texts comes to the first problem. -/
theorem stages_eq_error_iff : stages o t = .error problem ↔ Stops o t problem := by
  simp only [stages, bind_eq_error_iff, mapError_eq_ok_iff, mapError_eq_error_iff,
    ofCanvasText_eq_ok_iff, ofCanvasText_eq_error_iff, admit_eq_error_iff]
  -- one disjunct for each stage, which takes those before it to have gone well
  constructor
  · rintro (⟨error, ⟨fault, hfault, rfl⟩ | ⟨c, hread, hc⟩, rfl⟩ | ⟨d, drawn, hrest⟩)
    · exact .canvasText hfault
    · exact .canvas hread hc
    · rcases hrest with
        ⟨text, hcatalog, ⟨fault, hfault, rfl⟩ | ⟨blocks, hread, hmismatch⟩⟩ |
        ⟨⟨⟩, admitted, ⟨error, herror, rfl⟩ | ⟨source, written, hdeliver⟩⟩
      · exact .catalogText drawn hcatalog hfault
      · exact .mismatch drawn hcatalog hread hmismatch
      · exact .chain drawn (admit_eq_ok_iff.mp admitted) herror
      · cases houtput : o.output with
        | none =>
          rw [deliver_of_source houtput] at hdeliver
          cases hdeliver
        | some path =>
          rw [deliver_of_registration houtput, map_eq_error_iff] at hdeliver
          obtain ⟨text, fault, hschema, hfault, rfl⟩ := mapM_schemaOf_eq_error_iff.mp hdeliver
          exact .schemaText ⟨drawn, admit_eq_ok_iff.mp admitted, written⟩ houtput hschema hfault
  · intro h
    cases h with
    | canvasText h => exact .inl ⟨_, .inl ⟨_, h, rfl⟩, rfl⟩
    | canvas hread h => exact .inl ⟨_, .inr ⟨_, hread, h⟩, rfl⟩
    | catalogText drawn hcatalog h =>
      exact .inr ⟨_, drawn, .inl ⟨_, hcatalog, .inl ⟨_, h, rfl⟩⟩⟩
    | mismatch drawn hcatalog hread h =>
      exact .inr ⟨_, drawn, .inl ⟨_, hcatalog, .inr ⟨_, hread, h⟩⟩⟩
    | chain drawn admitted h =>
      exact .inr ⟨_, drawn, .inr ⟨(), admit_eq_ok_iff.mpr admitted, .inl ⟨_, h, rfl⟩⟩⟩
    | schemaText checked houtput hschema h =>
      have admitted := admit_eq_ok_iff.mpr checked.admitted
      refine .inr ⟨_, checked.drawn, .inr ⟨(), admitted, .inr ⟨_, checked.written, ?_⟩⟩⟩
      rw [deliver_of_registration houtput, map_eq_error_iff]
      exact mapM_schemaOf_eq_error_iff.mpr ⟨_, _, hschema, h, rfl⟩

/-! ### What comes of a run -/

/-- Whether anything is made can be said without naming it. The text of the schema matters only
where it is read. -/
theorem exists_makes_iff : (∃ p, Makes o t p) ↔ ∃ d source, Checked o t d source ∧
    (o.output ≠ none → ∀ text, t.schema = some text → ∃ v, Shape.value.ofText text = .ok v) := by
  constructor
  · rintro ⟨p, h⟩
    cases h with
    | source checked houtput => exact ⟨_, _, checked, fun h => absurd houtput h⟩
    | registration checked houtput hschema =>
      refine ⟨_, _, checked, fun _ text htext => ?_⟩
      rw [htext] at hschema
      obtain ⟨v, -, hv⟩ := Option.map_eq_some_iff.mp hschema.symm
      exact ⟨v, hv.symm⟩
  · rintro ⟨d, source, checked, hschema⟩
    cases houtput : o.output with
    | none => exact ⟨_, .source checked houtput⟩
    | some path =>
      cases htext : t.schema with
      | none =>
        have hnone : t.schema.map Shape.value.ofText = (none : Option Value).map .ok := by
          rw [htext]
          rfl
        exact ⟨_, .registration checked houtput hnone⟩
      | some text =>
        obtain ⟨v, hv⟩ := hschema (by rw [houtput]; exact nofun) text htext
        have hsome : t.schema.map Shape.value.ofText = (some v).map .ok := by
          rw [htext]
          exact congrArg some hv
        exact ⟨_, .registration checked houtput hsome⟩

/-- What is written of a source: the name and the description that are asked for, the source, and
the schema where there is one. -/
def payload (o : Options) (source : String) (schema : Option Value) : Json :=
  .object ([("name", .string o.name), ("description", .string o.description),
    ("source", .string source)] ++ (schema.map fun v => ("schema", v.tree)).toList)

/-- The file of a registration is the text of the payload, over several lines. -/
theorem toText_eq (o : Options) (source : String) (schema : Option Value) :
    (o.register source schema).toText = (payload o source schema).pretty := by
  cases schema <;> rfl

/-- A run makes something or stops, and never both. -/
theorem stops_iff_not_makes : (∃ problem, Stops o t problem) ↔ ¬ ∃ p, Makes o t p := by
  simp only [← stages_eq_ok_iff, ← stages_eq_error_iff]
  cases stages o t <;> simp

/-- Of the problems that there may be only the first is one that a run stops with. -/
theorem Stops.unique {other : Problem} (h : Stops o t problem) (hother : Stops o t other) :
    other = problem := by
  rw [← stages_eq_error_iff] at h hother
  exact Except.error.inj (hother.symm.trans h)

/-! ### What a run shows

A report has an exit code and what goes to the two outputs. A source goes to the first, followed by
the end of the line; everything else that is told to a reader goes to the second. -/

namespace Report
variable {source path : String} {cause : FileError}

@[simp] theorem exitCode_printed : (printed source).exitCode = 0 := rfl

@[simp] theorem output_printed : (printed source).output = source ++ "\n" := rfl

@[simp] theorem errors_printed : (printed source).errors = "" := rfl

@[simp] theorem exitCode_failure : (failure problem).exitCode = 1 := rfl

@[simp] theorem output_failure : (failure problem).output = "" := rfl

@[simp] theorem errors_failure :
    (failure problem).errors = "\nError: " ++ problem.message ++ "\n" := rfl

@[simp] theorem exitCode_saved : (saved path (.ok ())).exitCode = 0 := rfl

@[simp] theorem output_saved : (saved path (.ok ())).output = "" := rfl

@[simp] theorem errors_saved : (saved path (.ok ())).errors =
    "Wrote pipeline registration to '" ++ path ++ "'\n" := rfl

/-- That a file cannot be written is a problem like those of the stages. -/
theorem saved_error : saved path (.error cause) = failure (.registration (.access path cause)) :=
  rfl

end Report

/-- The run prints the source, and nothing but the source, and writes no file. -/
structure Prints (source : String) (dir : Directory) (run : Report × Directory) : Prop where
  /-- The run succeeds. -/
  exitCode_eq : run.1.exitCode = 0
  /-- The source is printed in full, and the end of its line. -/
  output_eq : run.1.output = source ++ "\n"
  errors_eq : run.1.errors = ""
  dir_eq : run.2 = dir
  /-- No file is new and none holds another text. -/
  unchanged : run.2.changedSince dir = []

/-- The run writes the text at the path, changes no file to anything else and prints nothing. -/
structure Saves (path text : String) (dir : Directory) (run : Report × Directory) : Prop where
  exitCode_eq : run.1.exitCode = 0
  /-- A source that goes to a file is not printed as well. -/
  output_eq : run.1.output = ""
  /-- What is told of the file goes to the other output. -/
  errors_eq : run.1.errors = "Wrote pipeline registration to '" ++ path ++ "'\n"
  /-- The directory is left as it is by writing the text there. -/
  write_eq : dir.write path text = .ok run.2
  /-- Whoever reads the file afterwards reads the text. -/
  read_eq : run.2.read path = .ok text
  /-- Of the files that are new or changed each holds the text. -/
  changed : ∀ f ∈ run.2.changedSince dir, f.2 = text

/-- The run ends with the message of the problem. It prints nothing and writes no file. -/
structure Fails (problem : Problem) (dir : Directory) (run : Report × Directory) : Prop where
  exitCode_eq : run.1.exitCode = 1
  /-- Nothing that could be taken for a source is printed. -/
  output_eq : run.1.output = ""
  /-- The message is shown in full, behind the word that introduces it. -/
  errors_eq : run.1.errors = "\nError: " ++ problem.message ++ "\n"
  dir_eq : run.2 = dir
  /-- No file is new and none holds another text. -/
  unchanged : run.2.changedSince dir = []

/-- What comes of a run in a directory, when the files that the options name hold the texts. -/
structure Settles (o : Options) (t : Texts) (dir : Directory) (run : Report × Directory) :
    Prop where
  /-- It succeeds just if all stages go well, as far as the registration can be written. -/
  succeeds_iff : (∀ path, o.output = some path → ∀ text, ∃ e, dir.write path text = .ok e) →
    (run.1.exitCode = 0 ↔ ∃ d source, Checked o t d source ∧ (o.output ≠ none →
      ∀ text, t.schema = some text → ∃ v, Shape.value.ofText text = .ok v))
  /-- A source that is not put into a registration is printed. -/
  prints : ∀ {d source}, Checked o t d source → o.output = none → Prints source dir run
  /-- A source that is put into a registration is found there. -/
  writes : ∀ {d source path} {schema : Option Value} {e}, Checked o t d source →
    o.output = some path → t.schema.map Shape.value.ofText = schema.map .ok →
    dir.write path (payload o source schema).pretty = .ok e →
    Saves path (payload o source schema).pretty dir run
  /-- A source that cannot be written is not put out at all, and the cause is reported. -/
  unwritten : ∀ {d source path} {schema : Option Value} {cause}, Checked o t d source →
    o.output = some path → t.schema.map Shape.value.ofText = schema.map .ok →
    dir.write path (payload o source schema).pretty = .error cause →
    Fails (.registration (.access path cause)) dir run
  /-- Of a run that stops nothing comes but the message of the problem. -/
  stops : ∀ {problem}, Stops o t problem → Fails problem dir run
  /-- There is no other problem that the run might have reported. -/
  stops_unique : ∀ {problem other}, Stops o t problem → Stops o t other → other = problem
  /-- There is a problem in one of the stages, or all go well. -/
  stops_iff : (∃ problem, Stops o t problem) ↔ ¬ ∃ p, Makes o t p

section
variable {args : List String} {dir : Directory} {path : String} {r : Registration}

theorem runIn_of_stops (hargs : Options.ofArguments? args = some o) (h : Holds dir.read o t)
    (hstops : Stops o t problem) : runIn dir args = (.failure problem, dir) := by
  simp only [runIn, hargs, h.product_eq, stages_eq_error_iff.mpr hstops]

theorem runIn_of_source {source : String} (hargs : Options.ofArguments? args = some o)
    (h : Holds dir.read o t) (hmakes : Makes o t (.source source)) :
    runIn dir args = (.printed source, dir) := by
  simp only [runIn, hargs, h.product_eq, stages_eq_ok_iff.mpr hmakes]

theorem runIn_of_registration {e : Directory} (hargs : Options.ofArguments? args = some o)
    (h : Holds dir.read o t) (hmakes : Makes o t (.registration path r))
    (hwrite : dir.write path r.toText = .ok e) :
    runIn dir args = (.saved path (.ok ()), e) := by
  simp only [runIn, hargs, h.product_eq, stages_eq_ok_iff.mpr hmakes, hwrite]

theorem runIn_of_unwritten {cause : FileError} (hargs : Options.ofArguments? args = some o)
    (h : Holds dir.read o t) (hmakes : Makes o t (.registration path r))
    (hwrite : dir.write path r.toText = .error cause) :
    runIn dir args = (.saved path (.error cause), dir) := by
  simp only [runIn, hargs, h.product_eq, stages_eq_ok_iff.mpr hmakes, hwrite]

theorem prints_printed (source : String) (dir : Directory) :
    Prints source dir (.printed source, dir) where
  exitCode_eq := Report.exitCode_printed
  output_eq := Report.output_printed
  errors_eq := Report.errors_printed
  dir_eq := rfl
  unchanged := dir.changedSince_self

theorem saves_saved {text : String} {e : Directory} (hwrite : dir.write path text = .ok e) :
    Saves path text dir (.saved path (.ok ()), e) where
  exitCode_eq := Report.exitCode_saved
  output_eq := Report.output_saved
  errors_eq := Report.errors_saved
  write_eq := hwrite
  read_eq := Directory.read_write hwrite
  changed := Directory.changedSince_write hwrite

theorem fails_failure (problem : Problem) (dir : Directory) :
    Fails problem dir (.failure problem, dir) where
  exitCode_eq := Report.exitCode_failure
  output_eq := Report.output_failure
  errors_eq := Report.errors_failure
  dir_eq := rfl
  unchanged := dir.changedSince_self

/-- A run of which something comes succeeds, if it can be written. -/
theorem exitCode_of_makes {p : Product} (hargs : Options.ofArguments? args = some o)
    (h : Holds dir.read o t) (hmakes : Makes o t p)
    (hwritable : ∀ path, o.output = some path → ∀ text, ∃ e, dir.write path text = .ok e) :
    (runIn dir args).1.exitCode = 0 := by
  cases hmakes with
  | source checked houtput =>
    rw [runIn_of_source hargs h (.source checked houtput)]
    exact Report.exitCode_printed
  | registration checked houtput hschema =>
    obtain ⟨e, hwrite⟩ := hwritable _ houtput _
    rw [runIn_of_registration hargs h (.registration checked houtput hschema) hwrite]
    exact Report.exitCode_saved

/-- **Only a checked canvas has a source.** A run succeeds just if the canvas is a diagram with a
source, the catalog offers all nodes of the diagram, and the schema can be read where it is needed.
Then the source is what is printed, or what the registration holds that is written, and nothing else
is put out. Otherwise the run reports the first problem, prints nothing and writes nothing. -/
theorem runIn_settles (hargs : Options.ofArguments? args = some o) (h : Holds dir.read o t) :
    Settles o t dir (runIn dir args) where
  succeeds_iff hwritable := by
    rw [← exists_makes_iff]
    by_cases hmakes : ∃ p, Makes o t p
    · obtain ⟨p, hp⟩ := hmakes
      exact ⟨fun _ => ⟨p, hp⟩, fun _ => exitCode_of_makes hargs h hp hwritable⟩
    · obtain ⟨problem, hstops⟩ := stops_iff_not_makes.mpr hmakes
      rw [runIn_of_stops hargs h hstops]
      exact ⟨nofun, fun hp => absurd hp hmakes⟩
  prints checked houtput := by
    rw [runIn_of_source hargs h (.source checked houtput)]
    exact prints_printed _ dir
  writes checked houtput hschema hwrite := by
    rw [← toText_eq] at hwrite ⊢
    rw [runIn_of_registration hargs h (.registration checked houtput hschema) hwrite]
    exact saves_saved hwrite
  unwritten checked houtput hschema hwrite := by
    rw [← toText_eq] at hwrite
    rw [runIn_of_unwritten hargs h (.registration checked houtput hschema) hwrite,
      Report.saved_error]
    exact fails_failure _ dir
  stops hstops := by
    rw [runIn_of_stops hargs h hstops]
    exact fails_failure _ dir
  stops_unique hstops hother := hstops.unique hother
  stops_iff := stops_iff_not_makes

end

/-- A canvas of two blocks, and a catalog with one of them. -/
def sampleTexts : Texts where
  diagram := "\x7b\"nodes\":[\x7b\"id\":\"a\",\"name\":\"A\",\"block_type\":\"producer\"\x7d," ++
    "\x7b\"id\":\"b\",\"name\":\"B\",\"block_type\":\"consumer\"\x7d]\x7d"
  catalog := some "[\x7b\"name\":\"A\",\"type\":\"producer\"\x7d]"
  schema := none

def sampleFiles : Directory :=
  ⟨.ofList [("d", sampleTexts.diagram), ("c", sampleTexts.catalog.getD "")]⟩

theorem sampleFiles_hold :
    Holds sampleFiles.read { diagram := "d", catalog := some "c" } sampleTexts := by
  have hstart : "d".startsWith "/" = false ∧ "c".startsWith "/" = false := by decide +kernel
  have hsplit : "d".splitOn "/" = ["d"] ∧ "c".splitOn "/" = ["c"] := by
    constructor
    all_goals
      rw [String.splitOn, if_neg (by decide), String.splitOnAux, if_neg (by decide),
        if_neg (by decide), String.splitOnAux]
      rfl
  have hdiagram : sampleFiles.read "d" = .ok sampleTexts.diagram := by
    rw [Directory.read, Directory.destination, hstart.1, hsplit.1]
    rfl
  have hcatalog : sampleFiles.read "c" = .ok (sampleTexts.catalog.getD "") := by
    rw [Directory.read, Directory.destination, hstart.2, hsplit.2]
    rfl
  exact ⟨hdiagram, congrArg some hcatalog, rfl⟩

set_option maxRecDepth 10000 in
/-- The second node is not in the catalog. That there is no link is a problem of a later stage. -/
theorem runIn_settles_sample :
    Options.ofArguments? ["d", "-c", "c"] = some { diagram := "d", catalog := some "c" } ∧
      Holds sampleFiles.read { diagram := "d", catalog := some "c" } sampleTexts ∧
      (runIn sampleFiles ["d", "-c", "c"]).1.errors =
        "\nError: Node 'node-1' uses block 'B', which is not in the catalog\n" ∧
      (runIn sampleFiles ["d", "-c", "c"]).1.output = "" ∧
      (runIn sampleFiles ["d", "-c", "c"]).2 = sampleFiles := by
  have hargs : Options.ofArguments? ["d", "-c", "c"] =
      some { diagram := "d", catalog := some "c" } := by decide +kernel
  have hstages : stages { diagram := "d", catalog := some "c" } sampleTexts =
      .error (.notInCatalog ⟨1⟩ (.new "B" .consumer)) := rfl
  have hfails := (runIn_settles hargs sampleFiles_hold).stops (stages_eq_error_iff.mp hstages)
  refine ⟨hargs, sampleFiles_hold, hfails.errors_eq.trans ?_, hfails.output_eq, hfails.dir_eq⟩
  decide +kernel

end PipelineCanvas.CommandLine
