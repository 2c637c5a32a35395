import PipelineCanvas.Proofs.Entries
import PipelineCanvas.Proofs.Identifiers
import PipelineCanvas.Proofs.Json.Origins
/-! # Sessions that go on after saving

A diagram that has been read can be written: its positions are finite, as no others are read, and
its bags leave room for the three levels around them, as they stood in a text. Edits keep this when
what they bring can be written (`Edit.Writable`).

So only one thing can keep the saved diagram from being read again. A diagram may number on from the
largest identifier that is read, and nothing larger is read after that. The first identifier that is
too large, those of nodes coming before those of links, is the one that is refused
(`Diagram.firstTooLarge?`). Where the counters had room for the edits there is none.

The result is about being read at all, and not about what is read. Doubles may come back as their
neighbours, so the diagram that is read is the echo of the one that was saved; but the echo has the
same identifiers, kinds and links, and the loader looks at nothing else. So nothing is assumed of
the doubles here, in contrast to the result that a saved diagram comes back as it was.

That the bound can really be passed is shown by a diagram with one node, which has the largest
identifier that is read. It can be read and a second node can be placed in it, which gets the next
number. The text that is saved has both, and is refused. -/
namespace PipelineCanvas
open Json

/-! ### What can be written -/

/-- What the edit brings can be written. -/
def Edit.Writable : Edit → Prop
  | .place node => node.toPlacement.Writable
  | .configure _ properties => properties.toJson.depth ≤ 124
  | .move _ position => position.IsFinite
  | _ => True

/-- A number in a text stands for a double, which is finite. -/
theorem Coordinate.isFinite_of_view {t : Json} {c : Coordinate} (h : shape.view t = .ok c) :
    c.IsFinite := by
  obtain ⟨_, -, rfl⟩ := map_eq_ok_iff.mp h
  trivial

/-- A coordinate that is left out is zero. -/
theorem Position.isFinite_of_view {t : Json} {p : Position} (h : record.shape.view t = .ok p) :
    p.IsFinite := by
  obtain ⟨⟨x, y, _⟩, rfl, hx, hy, -⟩ := Record.come_of_view h
  have coordinate : ∀ {c : Coordinate},
      ((none : Option Coordinate) = some c ∨ ∃ u, Coordinate.shape.view u = .ok c) →
        c.IsFinite := by
    rintro c (h | ⟨u, h⟩)
    · cases h
    · exact Coordinate.isFinite_of_view h
  exact ⟨coordinate hx, coordinate hy⟩

/-- Putting a bag in order does not make it deeper. -/
theorem Properties.depth_le_of_view {t : Json} {properties : Properties}
    (h : Shape.properties.view t = .ok properties) : properties.toJson.depth ≤ t.depth := by
  cases t with
  | object members =>
    cases h
    exact depth_ofMembers_le members
  | _ => cases h

/-- A node that is read stands three levels deep. -/
theorem SavedDiagram.writable_of_read {s : SavedDiagram} {cs rest : List Char}
    (h : record.shape.read maxDepth cs = .ok (s, rest)) : ∀ e ∈ s.nodes, e.2.Writable := by
  obtain ⟨below, ⟨nodes, links, _⟩, hbelow, rfl, hnodes, -⟩ := Record.come_of_read h
  rintro ⟨id, p⟩ he
  obtain hnodes | ⟨cs, rest, hnodes⟩ := hnodes
  · cases hnodes
  obtain ⟨below', hbelow', hread⟩ := Shape.mem_of_readList hnodes
  obtain ⟨cs, rest, hentry⟩ := hread _ he
  obtain ⟨below'', ⟨name, kind, properties, position, _⟩, hbelow'', rfl, -, -, hproperties,
    hposition, -⟩ := Record.come_of_readEntry hentry
  have hdepth : below'' = 124 := by
    have hmax : maxDepth = 127 := rfl
    omega
  constructor
  · obtain hposition | ⟨t, -, hposition⟩ := hposition
    · cases hposition
      exact ⟨trivial, trivial⟩
    · exact Position.isFinite_of_view hposition
  · obtain hproperties | ⟨t, ht, hproperties⟩ := hproperties
    · cases hproperties
      exact (by decide : (∅ : Properties).toJson.depth ≤ 124)
    · exact Nat.le_trans (Properties.depth_le_of_view hproperties) (hdepth ▸ ht)

/-- Position and properties of the node as they are read again. Its ports are not in a text. -/
def Node.echo (node : Node) : Node := { node with toPlacement := node.toPlacement.echo }

namespace Diagram
variable {d e : Diagram}

/-- All nodes can be written. -/
def NodesWritable (d : Diagram) : Prop :=
  ∀ id node, d.node? id = some node → node.toPlacement.Writable

/-- Every node that is loaded has been read, with its bag three levels deep in a text that was not
too deep. -/
theorem nodesWritable_of_ofText {text : String} (h : ofText text = .ok d) : d.NodesWritable := by
  obtain ⟨s, rest, hread, hload⟩ := load_of_ofText h
  obtain ⟨-, rfl⟩ := load_eq_ok_iff.mp hload
  intro id node hnode
  have hentry := Table.mem_entries_ofList (Table.get?_eq_some_iff.mp hnode)
  obtain ⟨⟨_, p⟩, he, heq⟩ := List.mem_map.mp hentry
  cases heq
  exact SavedDiagram.writable_of_read hread _ he

theorem NodesWritable.modify (h : d.NodesWritable) {id : NodeId} {f : Node → Node}
    (keeps : ∀ {node : Node}, node.toPlacement.Writable → (f node).toPlacement.Writable) :
    NodesWritable { d with nodes := d.nodes.modify id f } := by
  intro other n hn
  simp only [node?, Table.get?_modify] at hn
  split at hn
  · obtain ⟨m, hm, rfl⟩ := Option.map_eq_some_iff.mp hn
    exact keeps (h _ _ hm)
  · exact h _ _ hn

/-- What an edit brings is asked about, and what was there has been asked about before. -/
theorem NodesWritable.change {edit : Edit} {answer : Edit.Answer} (h : d.NodesWritable)
    (writable : edit.Writable) (hc : d.Change edit answer e) : e.NodesWritable := by
  cases hc with
  | place node =>
    intro id n hn
    rcases Table.get?_insert_cases hn with ⟨-, rfl⟩ | hn
    · exact writable
    · exact h _ _ hn
  | remove _ => exact fun _ _ hn => h _ _ (Table.get?_of_get?_erase hn)
  | attach _ _ _ => exact h
  | join _ _ _ => exact h
  | detach _ => exact h
  | @configure _ properties _ =>
    exact h.modify (f := fun node => { node with properties }) fun hn => ⟨hn.finite, writable⟩
  | @move _ position _ =>
    exact h.modify (f := fun node => { node with position }) fun hn => ⟨writable, hn.depth_le⟩

theorem NodesWritable.run (h : d.NodesWritable) {edits : List Edit}
    (writable : ∀ edit ∈ edits, edit.Writable) : (d.run edits).NodesWritable :=
  run_keeps (P := NodesWritable) (fun hmem hc hd => hd.change (writable _ hmem) hc) h

/-! ### What is refused -/

/-- The first identifier that is too large to be read. Nodes are read before links. -/
def firstTooLarge? (d : Diagram) : Option Nat :=
  (d.nodes.keys.map NodeId.index ++ d.links.keys.map LinkId.index).find? (greatestSavedId < ·)

/-- There is no such identifier just if every stored one can be read. -/
theorem firstTooLarge?_eq_none_iff : d.firstTooLarge? = none ↔
    (∀ {id node}, d.node? id = some node → id.index ≤ greatestSavedId) ∧
      ∀ {id link}, d.link? id = some link → id.index ≤ greatestSavedId := by
  simp only [firstTooLarge?, List.find?_eq_none, List.forall_mem_append, List.forall_mem_map,
    decide_eq_true_eq, Nat.not_lt, Table.keys]
  constructor
  · rintro ⟨hnodes, hlinks⟩
    exact ⟨fun hn => hnodes _ (Table.get?_eq_some_iff.mp hn),
      fun hl => hlinks _ (Table.get?_eq_some_iff.mp hl)⟩
  · rintro ⟨hnodes, hlinks⟩
    exact ⟨fun e he => hnodes (Table.get?_eq_some_iff.mpr he),
      fun e he => hlinks (Table.get?_eq_some_iff.mpr he)⟩

theorem firstTooLarge?_eq_saved (d : Diagram) : d.firstTooLarge? =
    ((d.saved.nodes.find? fun e => greatestSavedId < e.1.index).map (·.1.index)).or
      ((d.saved.links.find? fun e => greatestSavedId < e.1.index).map (·.1.index)) := by
  simp [firstTooLarge?, saved, Table.keys, List.find?_append, List.find?_map, Function.comp_def]

/-- The entries of a diagram are loaded unless an identifier is too large. -/
theorem WellFormed.load_saved (h : d.WellFormed) : load d.saved =
    match d.firstTooLarge? with
    | none => .ok d.recounted
    | some index => .error (.idTooLarge index) := by
  have hfirst := d.firstTooLarge?_eq_saved
  cases hnode : d.saved.nodes.find? fun e => greatestSavedId < e.1.index with
  | some p =>
    rw [hfirst, hnode]
    exact load_eq_error_of_node d.nodup_saved_nodes hnode
  | none =>
    have node_le : ∀ e ∈ d.saved.nodes, e.1.index ≤ greatestSavedId := by
      simpa using hnode
    cases hlink : d.saved.links.find? fun e => greatestSavedId < e.1.index with
    | some p =>
      rw [hfirst, hnode, hlink]
      refine load_eq_error_of_link d.nodup_saved_nodes node_le d.links.nodup_keys ?_ hlink
      intro e he
      have hstored : d.link? e.1 = some e.2 := Table.get?_eq_some_iff.mpr he
      rw [h.diagram_saved]
      exact ⟨(h.source_fits hstored).congr_nodes rfl, (h.target_fits hstored).congr_nodes rfl⟩
    | none =>
      have hnone : d.firstTooLarge? = none := by
        rw [hfirst, hnode, hlink]
        rfl
      obtain ⟨node_le, link_le⟩ := firstTooLarge?_eq_none_iff.mp hnone
      rw [hnone]
      exact load_eq_ok_iff.mpr ⟨h.valid_saved node_le link_le, h.diagram_saved.symm⟩

/-! ### Doubles do not matter

What is loaded is not the entries that were written but their echo. As identifiers, kinds and links
are the same in it, it is accepted or refused as the entries themselves would be. -/

/-- The diagram with its nodes as they are read again. -/
def echo (d : Diagram) : Diagram := { d with nodes := d.nodes.map fun _ => Node.echo }

theorem saved_echo (d : Diagram) : d.echo.saved = d.saved.echo := by
  simp [saved, echo, SavedDiagram.echo, Node.echo, Table.map, Function.comp_def]

theorem firstTooLarge?_echo (d : Diagram) : d.echo.firstTooLarge? = d.firstTooLarge? := by
  simp [firstTooLarge?, echo, Table.map, Table.keys, Function.comp_def]

/-- Nothing that makes a diagram well formed is about doubles. -/
theorem WellFormed.echo (h : d.WellFormed) : d.echo.WellFormed := by
  have hport : ∀ {port direction}, d.HasPort port direction → d.echo.HasPort port direction := by
    rintro port direction ⟨node, hnode, hport⟩
    refine ⟨node.echo, ?_, hport⟩
    rw [node?, Diagram.echo, Table.get?_map]
    exact congrArg (Option.map _) hnode
  have hstored : ∀ {id n}, d.echo.node? id = some n →
      ∃ node, d.node? id = some node ∧ node.echo = n := by
    intro id n hn
    rw [node?, Diagram.echo, Table.get?_map] at hn
    exact Option.map_eq_some_iff.mp hn
  refine ⟨fun hl => hport (h.source_fits hl), fun hl => hport (h.target_fits hl), fun hn => ?_,
    fun hn => ?_, h.link_lt⟩
  · obtain ⟨node, hnode, rfl⟩ := hstored hn
    show node.ports = node.kind.ports
    exact h.ports_eq hnode
  · obtain ⟨node, hnode, -⟩ := hstored hn
    exact h.node_lt hnode

/-- What becomes of the text of a diagram whose nodes can be written. -/
theorem WellFormed.ofText_toText_eq (h : d.WellFormed) (hw : d.NodesWritable)
    (hnode : FitsWord d.freshNode) (hlink : FitsWord d.freshLink) : ofText d.toText =
      match d.firstTooLarge? with
      | none => .ok d.echo.recounted
      | some index => .error (.entries (.idTooLarge index)) := by
  have hfits : d.saved.Fits := by
    refine h.fits_saved (fun hn => (hw _ _ hn).finite) (fun hn => ?_) fun hl => ?_
    · exact Nat.lt_trans (h.node_lt hn) hnode
    · exact Nat.lt_trans (h.link_lt hl) hlink
  rw [ofText_toText_eq_load hfits fun hn => (hw _ _ hn).depth_le, ← saved_echo,
    h.echo.load_saved, firstTooLarge?_echo]
  cases d.firstTooLarge? <;> rfl

/-! ### Sessions -/

/-- What is promised of the text that a diagram is saved as after some edits. -/
structure Reopens (d : Diagram) (edits : List Edit) : Prop where
  /-- It is read exactly if no identifier in it is too large. -/
  read_iff : (∃ e, ofText (d.run edits).toText = .ok e) ↔
    (∀ {id node}, (d.run edits).node? id = some node → id.index ≤ greatestSavedId) ∧
      ∀ {id link}, (d.run edits).link? id = some link → id.index ≤ greatestSavedId
  /-- Otherwise the first one that is too large is refused. -/
  refused : ∀ {index}, (d.run edits).firstTooLarge? = some index →
    ofText (d.run edits).toText = .error (.entries (.idTooLarge index))
  /-- It is read in any case where the counters had room for the edits. -/
  read_of_room : d.freshNode + edits.length ≤ greatestSavedId + 1 →
    d.freshLink + edits.length ≤ greatestSavedId + 1 →
      ∃ e, ofText (d.run edits).toText = .ok e

/-- **What becomes of a saved session.** A diagram that has been read is edited, with nothing that
cannot be written, and saved. Its text is read exactly if no identifier in it is too large, and
otherwise the first such identifier is refused. It is read in particular where the counters had room
for the edits. Nothing is assumed of the doubles in the diagram: some of them may come back as
their neighbours, but none is refused. -/
theorem ofText_toText_run {text : String} (h : ofText text = .ok d) {edits : List Edit}
    (built : ∀ edit ∈ edits, edit.Built) (writable : ∀ edit ∈ edits, edit.Writable)
    (hnode : FitsWord (d.run edits).freshNode) (hlink : FitsWord (d.run edits).freshLink) :
    d.Reopens edits := by
  have hwell : (d.run edits).WellFormed := ((Obtainable.read h).run built).wellFormed
  have hread := hwell.ofText_toText_eq ((nodesWritable_of_ofText h).run writable) hnode hlink
  have read_iff : (∃ e, ofText (d.run edits).toText = .ok e) ↔
      (d.run edits).firstTooLarge? = none := by
    rw [hread]
    cases (d.run edits).firstTooLarge? with
    | none => simp
    | some index => simp
  refine ⟨read_iff.trans firstTooLarge?_eq_none_iff, fun hfirst => ?_, fun roomNode roomLink => ?_⟩
  · rw [hread, hfirst]
  · obtain ⟨hnodes, hlinks⟩ := d.fresh_run_le edits
    refine read_iff.mpr (firstTooLarge?_eq_none_iff.mpr ⟨fun hn => ?_, fun hl => ?_⟩)
    · have := hwell.node_lt hn
      omega
    · have := hwell.link_lt hl
      omega

/-- A text with one node, which has the largest identifier that is read. -/
def brimText : String :=
  "\x7b\"nodes\":[\x7b\"id\":9223372036854775807,\"name\":\"http_source\"," ++
    "\"block_type\":\"producer\"\x7d],\"links\":[]\x7d"

/-- The value of that text. -/
def brimTree : Json :=
  .object [("nodes", .array [.object [("id", .ofNat greatestSavedId),
    ("name", .string "http_source"), ("block_type", .string "producer")]]), ("links", .array [])]

theorem compact_brimTree : brimTree.compact = brimText := by decide +kernel

/-- The diagram of that text. -/
def brim : Diagram where
  nodes := .ofList [(⟨greatestSavedId⟩, .new "http_source" .producer)]
  links := ∅
  freshNode := greatestSavedId + 1
  freshLink := 0

/-- A second node, which gets an identifier that is too large. -/
def overBrim : Edit := .place (.new "mqtt_sink" .consumer)

theorem ofText_brimText : ofText brimText = .ok brim := by
  have hviewed : (Spelling.ofJson brimTree).viewed? SavedDiagram.record.shape maxDepth =
      some ⟨[(⟨greatestSavedId⟩, { name := "http_source", kind := .producer })], []⟩ := rfl
  rw [← compact_brimTree]
  refine (ofText_eq_ok_iff (Spelling.sound_ofJson brimTree) ?_ (spaced_compact _)).mpr
    ⟨_, hviewed, rfl⟩
  rintro members ⟨⟩
  exact List.forall_mem_cons.mpr ⟨⟨"nodes", by decide, by decide⟩,
    List.forall_mem_singleton.mpr ⟨"links", by decide, by decide⟩⟩

theorem overBrim_built : overBrim.Built := .new _ _

theorem overBrim_writable : overBrim.Writable := ⟨⟨trivial, trivial⟩, by decide⟩

/-- Over the brim a text is refused. -/
theorem not_reopened_over_brim : ofText brimText = .ok brim ∧ overBrim.Built ∧ overBrim.Writable ∧
    ofText (brim.run [overBrim]).toText =
      .error (.entries (.idTooLarge 9223372036854775808)) := by
  have hwell : (brim.run [overBrim]).WellFormed :=
    ((Obtainable.read ofText_brimText).run (by simpa using overBrim_built)).wellFormed
  have hwritable : (brim.run [overBrim]).NodesWritable :=
    (nodesWritable_of_ofText ofText_brimText).run (by simpa using overBrim_writable)
  have hfirst : (brim.run [overBrim]).firstTooLarge? = some 9223372036854775808 := by decide
  refine ⟨ofText_brimText, overBrim_built, overBrim_writable, ?_⟩
  rw [hwell.ofText_toText_eq hwritable (by decide) (by decide), hfirst]

/-- Taking the second node out again leaves a text that is read. -/
theorem reopened_at_brim : ofText brimText = .ok brim ∧
    ∃ e, ofText (brim.run [overBrim, .remove ⟨9223372036854775808⟩]).toText = .ok e := by
  have built : ∀ edit ∈ [overBrim, .remove ⟨9223372036854775808⟩], edit.Built :=
    List.forall_mem_cons.mpr ⟨overBrim_built, List.forall_mem_singleton.mpr trivial⟩
  have writable : ∀ edit ∈ [overBrim, .remove ⟨9223372036854775808⟩], edit.Writable :=
    List.forall_mem_cons.mpr ⟨overBrim_writable, List.forall_mem_singleton.mpr trivial⟩
  have hnone : (brim.run [overBrim, .remove ⟨9223372036854775808⟩]).firstTooLarge? = none := by
    decide
  have h := ofText_toText_run ofText_brimText built writable (by decide) (by decide)
  exact ⟨ofText_brimText, h.read_iff.mpr (firstTooLarge?_eq_none_iff.mp hnone)⟩

end Diagram
end PipelineCanvas
