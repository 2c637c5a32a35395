import PipelineCanvas.SourceRules
import PipelineCanvas.Proofs.Json.Records
import PipelineCanvas.Proofs.Routes
import PipelineCanvas.Proofs.WellFormed
/-! # Saved diagrams come back

The text of a well-formed diagram is read as the entries that were saved, and these are valid, so
they are loaded (`Diagram.WellFormed.ofText_toText`). What comes back has the nodes and the links of
the diagram. Its counters begin behind the largest identifiers, so they are those of the diagram
unless the newest node or link has been taken out.

Positions and properties hold doubles, and a double may be read from its text as a neighbour
(`PipelineCanvas.Proofs.Json.Echoes`). So the entries that are read are the **echo** of those that
were saved (`SavedDiagram.read_toText`): the same identifiers, names, kinds and links, with other
doubles in some places. That nothing is lost is stated of the diagrams whose doubles read back,
which is a part of being **savable** (`Diagram.Savable`).

The other conditions are about the diagram. An infinite coordinate is written as `null`, which is
not a number; an identifier beyond `greatestSavedId` is written and refused; and a bag that is too
deep is written and cannot be read inside a diagram, where it stands three levels further in. None
of the three is excluded by the diagram's being well formed, so they are asked for.

Everything else about the text follows from the shapes of its parts. A shape that views what it has
written as what it was (`ViewsBack`), and that reads in one pass what it views (`Agrees`), reads its
own text, so the two properties are proved part by part, and put together along the record. -/
namespace PipelineCanvas
open Json

/-! ### Shapes of the parts -/

/-- A number of 64 bits, which a text can hold. -/
abbrev FitsWord (n : Nat) : Prop := n < 0x10000000000000000

theorem NodeId.viewsBack {id : NodeId} (h : FitsWord id.index) : NodeId.shape.ViewsBack id :=
  (Shape.viewsBack_natural "u64" h).imap rfl

theorem NodeId.agrees (t : Json) : NodeId.shape.Agrees t :=
  (Shape.agrees_numberWith _ _ _ t).imap _ _

theorem LinkId.viewsBack {id : LinkId} (h : FitsWord id.index) : LinkId.shape.ViewsBack id :=
  (Shape.viewsBack_natural "u64" h).imap rfl

theorem LinkId.agrees (t : Json) : LinkId.shape.Agrees t :=
  (Shape.agrees_numberWith _ _ _ t).imap _ _

/-- A kind is written as one of three names, which are all different. -/
theorem BlockKind.viewsBack (kind : BlockKind) : BlockKind.shape.ViewsBack kind := by
  refine Shape.viewsBack_choice ?_ ?_
  · cases kind <;> decide
  · cases kind <;> decide

/-- A coordinate that is not finite is written as `null`, and that is not a number. -/
theorem Coordinate.viewsBack {c : Coordinate} (h : c.IsFinite) : Coordinate.shape.ViewsBack c := by
  cases c with
  | finite x => exact PipelineCanvas.map_eq_ok_iff.mpr ⟨x, Shape.viewsBack_double x, rfl⟩
  | infinite => cases h
  | undefined => cases h

theorem Position.viewsBack {p : Position} (h : p.IsFinite) :
    Position.record.shape.ViewsBack p := by
  refine Record.viewsBack (by decide) ?_ rfl
  exact ⟨Coordinate.viewsBack h.1, Coordinate.viewsBack h.2, trivial⟩

theorem PortAddress.viewsBack {r : PortAddress} (hnode : FitsWord r.node.index)
    (hport : FitsWord r.port) : PortAddress.record.shape.ViewsBack r := by
  refine Record.viewsBack (by decide) ?_ rfl
  exact ⟨NodeId.viewsBack hnode, Shape.viewsBack_natural "usize" hport, trivial⟩

/-! ### Doubles that are read again -/

/-- The coordinate as it is read from its text. -/
def Coordinate.echo : Coordinate → Coordinate
  | .finite x => .finite x.echo
  | .infinite negative => .infinite negative
  | .undefined => .undefined

/-- The coordinate is read as it was. -/
def Coordinate.ReadsBack : Coordinate → Prop
  | .finite x => x.ReadsBack
  | _ => True

instance : (c : Coordinate) → Decidable c.ReadsBack
  | .finite x => inferInstanceAs (Decidable x.ReadsBack)
  | .infinite _ => inferInstanceAs (Decidable True)
  | .undefined => inferInstanceAs (Decidable True)

def Position.echo (p : Position) : Position := ⟨p.x.echo, p.y.echo⟩

/-- Position and properties as they are read from their text, and all else as it is. -/
def Placement.echo (p : Placement) : Placement :=
  { p with properties := p.properties.echo, position := p.position.echo }

/-- The doubles of a node, be they in its position or in its properties, are read as they were. -/
structure Placement.ReadsBack (p : Placement) : Prop where
  x : p.position.x.ReadsBack
  y : p.position.y.ReadsBack
  /-- Wherever in the bag they stand. -/
  properties : p.properties.toJson.ReadsBack

instance (p : Placement) : Decidable p.ReadsBack :=
  decidable_of_iff (p.position.x.ReadsBack ∧ p.position.y.ReadsBack ∧ p.properties.toJson.ReadsBack)
    ⟨fun ⟨x, y, properties⟩ => ⟨x, y, properties⟩, fun h => ⟨h.x, h.y, h.properties⟩⟩

theorem Coordinate.ReadsBack.echo_eq {c : Coordinate} (h : c.ReadsBack) : c.echo = c := by
  cases c with
  | finite x => exact congrArg Coordinate.finite (Double.ReadsBack.echo_eq h)
  | infinite negative => rfl
  | undefined => rfl

/-- What is read is always finite, whatever it was read from. -/
theorem Coordinate.isFinite_echo {c : Coordinate} (h : c.IsFinite) : c.echo.IsFinite := by
  cases c with
  | finite x => trivial
  | infinite negative => exact h
  | undefined => exact h

theorem Position.isFinite_echo {p : Position} (h : p.IsFinite) : p.echo.IsFinite :=
  ⟨Coordinate.isFinite_echo h.1, Coordinate.isFinite_echo h.2⟩

/-- Name and kind have no doubles, so the node is read as it was. -/
theorem Placement.ReadsBack.echo_eq {p : Placement} (h : p.ReadsBack) : p.echo = p := by
  obtain ⟨name, kind, properties, ⟨x, y⟩⟩ := p
  obtain ⟨hx, hy, hproperties⟩ := h
  simp only at hx hy hproperties
  rw [echo, Position.echo, hx.echo_eq, hy.echo_eq, Properties.echo_eq hproperties]

theorem Coordinate.toJson_echo (c : Coordinate) : shape.toJson c.echo = (shape.toJson c).echo := by
  cases c <;> rfl

theorem Position.toJson_eq (p : Position) : record.shape.toJson p = .object
    [("x", Coordinate.shape.toJson p.x), ("y", Coordinate.shape.toJson p.y)] := rfl

theorem Position.toJson_echo (p : Position) :
    record.shape.toJson p.echo = (record.shape.toJson p).echo := by
  rw [toJson_eq, toJson_eq, echo, Coordinate.toJson_echo, Coordinate.toJson_echo]
  rfl

/-- The position is finite, and the bag leaves room for the three levels around it. -/
structure Placement.Writable (p : Placement) : Prop where
  /-- What is not finite is written as `null`, which is not read as a coordinate. -/
  finite : p.position.IsFinite
  /-- The levels are those of the node, of the list and of the diagram. -/
  depth_le : p.properties.toJson.depth ≤ 124

/-- The numbers of a link fit into a text. -/
structure Link.Fits (l : Link) : Prop where
  source_node : FitsWord l.source.node.index
  source_port : FitsWord l.source.port
  target_node : FitsWord l.target.node.index
  target_port : FitsWord l.target.port

namespace SavedDiagram

/-- The identifier stands among the fields of the node, and is split off before these are viewed. -/
theorem savedNode_viewsBack {id : NodeId} (h : FitsWord id.index) {p : Placement}
    (hp : p.position.IsFinite) : savedNode.ViewsBack (id, p) := by
  refine Record.viewsBack_entry (by decide) ?_ rfl (by decide) (NodeId.viewsBack h) _
  exact ⟨Shape.viewsBack_string _, BlockKind.viewsBack _, Shape.viewsBack_properties _,
    Position.viewsBack hp, trivial⟩

theorem savedLink_viewsBack {id : LinkId} (h : FitsWord id.index) {l : Link} (hl : l.Fits) :
    savedLink.ViewsBack (id, l) := by
  refine Record.viewsBack_entry (by decide) ?_ rfl (by decide) (LinkId.viewsBack h) _
  exact ⟨PortAddress.viewsBack hl.source_node hl.source_port,
    PortAddress.viewsBack hl.target_node hl.target_port, trivial⟩

/-- The entries as they are read from their text. -/
def echo (s : SavedDiagram) : SavedDiagram where
  nodes := s.nodes.map fun e => (e.1, e.2.echo)
  links := s.links

theorem toJson_savedNode (id : NodeId) (p : Placement) : savedNode.toJson (id, p) = .object
    [("id", NodeId.shape.toJson id), ("name", .string p.name),
      ("block_type", .string p.kind.text), ("properties", p.properties.toJson),
      ("position", Position.record.shape.toJson p.position)] := rfl

theorem toJson_eq (s : SavedDiagram) : record.shape.toJson s = .object
    [("nodes", .array (s.nodes.map savedNode.toJson)),
      ("links", .array (s.links.map savedLink.toJson))] := rfl

/-- The echo of the entries is written as the echo of what they are written as. -/
theorem toJson_echo (s : SavedDiagram) :
    record.shape.toJson s.echo = (record.shape.toJson s).echo := by
  have hnode : ∀ e : NodeId × Placement,
      savedNode.toJson (e.1, e.2.echo) = (savedNode.toJson e).echo := by
    rintro ⟨id, p⟩
    rw [toJson_savedNode, toJson_savedNode, Placement.echo, Properties.toJson_echo,
      Position.toJson_echo]
    rfl
  have hlink : ∀ e : LinkId × Link, savedLink.toJson e = (savedLink.toJson e).echo := fun _ => rfl
  have hnodes :
      s.echo.nodes.map savedNode.toJson = (s.nodes.map savedNode.toJson).map Json.echo := by
    rw [List.map_map, echo, List.map_map]
    exact List.map_congr_left fun e _ => hnode e
  have hlinks :
      s.echo.links.map savedLink.toJson = (s.links.map savedLink.toJson).map Json.echo := by
    rw [List.map_map]
    exact List.map_congr_left fun e _ => hlink e
  rw [toJson_eq, toJson_eq, hnodes, hlinks]
  simp only [Json.echo, mapDoubles, mapMemberDoubles, mapItemDoubles_eq_map]
  rfl

/-- The numbers of all entries fit into a text. -/
structure Fits (s : SavedDiagram) : Prop where
  /-- Identifiers fit, and coordinates are numbers. -/
  nodes : ∀ e ∈ s.nodes, FitsWord e.1.index ∧ e.2.position.IsFinite
  /-- Identifiers fit, and so do the ports at both ends. -/
  links : ∀ e ∈ s.links, FitsWord e.1.index ∧ e.2.Fits

/-- What is read again is not larger than what was written. -/
theorem Fits.echo {s : SavedDiagram} (h : s.Fits) : s.echo.Fits where
  nodes := List.forall_mem_map.mpr fun e he =>
    ⟨(h.nodes e he).1, Position.isFinite_echo (h.nodes e he).2⟩
  links := h.links

/-- A saved diagram is viewed as its entries, in their order. -/
theorem viewsBack {s : SavedDiagram} (h : s.Fits) : record.shape.ViewsBack s := by
  refine Record.viewsBack (by decide) ?_ rfl
  exact ⟨Shape.viewsBack_list fun e he => savedNode_viewsBack (h.nodes e he).1 (h.nodes e he).2,
    Shape.viewsBack_list fun e he => savedLink_viewsBack (h.links e he).1 (h.links e he).2,
    trivial⟩

/-- Entries are read in one pass, as viewing their tree gives them. -/
theorem agrees (s : SavedDiagram) : record.shape.Agrees (record.shape.toJson s) := by
  have hnodes : (Shape.list savedNode).Agrees ((Shape.list savedNode).toJson s.nodes) :=
    Shape.agrees_list fun _ _ t _ => Record.agrees_entry _ _ _ NodeId.agrees t
  have hlinks : (Shape.list savedLink).Agrees ((Shape.list savedLink).toJson s.links) :=
    Shape.agrees_list fun _ _ t _ => Record.agrees_entry _ _ _ LinkId.agrees t
  have hmembers : record.fields.toMembers (record.parts s) =
      [("nodes", (Shape.list savedNode).toJson s.nodes),
        ("links", (Shape.list savedLink).toJson s.links)] := rfl
  refine Record.agrees_object ?_
  rw [hmembers]
  refine List.forall_mem_cons.mpr ⟨hnodes, List.forall_mem_cons.mpr ⟨hlinks, ?_⟩⟩
  exact List.forall_mem_nil _

/-! ### Nesting -/

theorem depth_coordinate (c : Coordinate) : (Coordinate.shape.toJson c).depth = 0 := by
  cases c <;> rfl

/-- A node is one level around its bag, or around its position. -/
theorem depth_savedNode (id : NodeId) (p : Placement) :
    (savedNode.toJson (id, p)).depth = max p.properties.toJson.depth 1 + 1 := by
  have hid : (NodeId.shape.toJson id).depth = 0 := rfl
  -- the position is one level deep, as deep as an empty bag
  have hposition : (Position.record.shape.toJson p.position).depth = 1 := by
    rw [Position.toJson_eq]
    simp [depth, depthMembers, depth_coordinate]
  rw [toJson_savedNode]
  simp [depth, depthMembers, hid, hposition]

theorem depth_savedLink (id : LinkId) (l : Link) : (savedLink.toJson (id, l)).depth = 2 := rfl

/-- The bags of the nodes stand three levels deep in the text. -/
theorem depth_le {s : SavedDiagram} {n : Nat} (hn : 1 ≤ n)
    (h : ∀ e ∈ s.nodes, e.2.properties.toJson.depth ≤ n) :
    (record.shape.toJson s).depth ≤ n + 3 := by
  have hnodes : depthItems (s.nodes.map savedNode.toJson) ≤ n + 1 := by
    refine depthItems_le fun t ht => ?_
    obtain ⟨⟨id, p⟩, hp, rfl⟩ := List.mem_map.mp ht
    have hbag : p.properties.toJson.depth ≤ n := h (id, p) hp
    rw [depth_savedNode]
    omega
  have hlinks : depthItems (s.links.map savedLink.toJson) ≤ n + 1 := by
    refine depthItems_le fun t ht => ?_
    obtain ⟨⟨id, l⟩, -, rfl⟩ := List.mem_map.mp ht
    rw [depth_savedLink]
    omega
  rw [toJson_eq]
  simp only [depth, depthMembers]
  omega

/-- **The echo of the entries is read from their text.** -/
theorem read_toText {s : SavedDiagram} (h : s.Fits)
    (hdepth : (record.shape.toJson s).depth ≤ maxDepth) :
    record.shape.read maxDepth (record.shape.toText s).toList = .ok (s.echo, []) := by
  refine Shape.read_toText ?_ ?_ hdepth
  · rw [← toJson_echo]
    exact viewsBack h.echo
  · rw [← toJson_echo]
    exact agrees s.echo

end SavedDiagram

namespace Diagram
variable {d e : Diagram}

/-! ### Saved diagrams are valid -/

/-- No kind has more than two ports. -/
theorem WellFormed.portIndex_lt (h : d.WellFormed) {port : PortAddress} {direction : Direction}
    (hport : d.HasPort port direction) : port.port < 2 := by
  obtain ⟨node, hnode, hport⟩ := hport
  have hlt : port.port < node.ports.length := (List.getElem?_eq_some_iff.mp hport).1
  have hlength : node.kind.ports.length ≤ 2 := by cases node.kind <;> decide
  rw [h.ports_eq hnode] at hlt
  omega

/-- What can be read again as it was. The last condition is about the reader of numbers and not
about the diagram: it holds of most doubles, but not of all. -/
structure Savable (d : Diagram) : Prop where
  /-- The positions are finite. -/
  finite : ∀ {id node}, d.node? id = some node → node.position.IsFinite
  /-- The identifiers are not too large to be read. -/
  node_le : ∀ {id node}, d.node? id = some node → id.index ≤ greatestSavedId
  link_le : ∀ {id link}, d.link? id = some link → id.index ≤ greatestSavedId
  /-- The bags leave room for the three levels around them. -/
  depth_le : ∀ {id node}, d.node? id = some node → node.properties.toJson.depth ≤ 124
  /-- The doubles in positions and bags are read from their texts as they were. -/
  reads_back : ∀ {id node}, d.node? id = some node → node.toPlacement.ReadsBack

/-- The diagram with its counters right behind the identifiers that it holds. -/
def recounted (d : Diagram) : Diagram where
  nodes := d.nodes
  links := d.links
  freshNode := nextIndex (d.nodes.keys.map NodeId.index)
  freshLink := nextIndex (d.links.keys.map LinkId.index)

/-- What is not saved is the ports, which come with the kinds, and the counters. -/
theorem WellFormed.diagram_saved (h : d.WellFormed) : d.saved.diagram = d.recounted := by
  have hentries : (d.nodes.entries.map fun e => (e.1, e.2.toPlacement)).map
      (fun e => (e.1, Node.ofPlacement e.2)) = d.nodes.entries := by
    rw [List.map_map]
    refine (List.map_congr_left fun e he => ?_).trans (List.map_id' _)
    have hnode : d.node? e.1 = some e.2 := Table.get?_eq_some_iff.mpr he
    exact congrArg (Prod.mk e.1) (h.ofPlacement_toPlacement hnode)
  refine Diagram.ext ?_ ?_ ?_ ?_
  · show Table.ofList _ = d.nodes
    rw [saved, hentries, Table.ofList_entries]
  · exact Table.ofList_entries d.links
  · simp [SavedDiagram.diagram, saved, recounted, Table.keys, Function.comp_def]
  · simp [SavedDiagram.diagram, saved, recounted, Table.keys, Function.comp_def]

theorem nodup_saved_nodes (d : Diagram) : (d.saved.nodes.map (·.1)).Nodup := by
  have hkeys : d.saved.nodes.map (·.1) = d.nodes.keys := by
    simp [saved, Table.keys, Function.comp_def]
  rw [hkeys]
  exact d.nodes.nodup_keys

/-- Of the conditions on entries only the size of identifiers is not a matter of being well formed.
-/
theorem WellFormed.valid_saved (h : d.WellFormed)
    (node_le : ∀ {id node}, d.node? id = some node → id.index ≤ greatestSavedId)
    (link_le : ∀ {id link}, d.link? id = some link → id.index ≤ greatestSavedId) :
    d.saved.Valid where
  nodes_nodup := d.nodup_saved_nodes
  links_nodup := d.links.nodup_keys
  node_le e he := by
    obtain ⟨⟨id, node⟩, hnode, rfl⟩ := List.mem_map.mp he
    exact node_le (Table.get?_eq_some_iff.mpr hnode)
  accepts e he := by
    have hlink : d.link? e.1 = some e.2 := Table.get?_eq_some_iff.mpr he
    have haccepts : d.Accepts e := ⟨h.source_fits hlink, h.target_fits hlink, link_le hlink⟩
    rw [h.diagram_saved]
    exact haccepts.congr_nodes rfl

/-- Entries can be written whatever their identifiers are, as long as these have 64 bits. -/
theorem WellFormed.fits_saved (h : d.WellFormed)
    (finite : ∀ {id node}, d.node? id = some node → node.position.IsFinite)
    (node_fits : ∀ {id node}, d.node? id = some node → FitsWord id.index)
    (link_fits : ∀ {id link}, d.link? id = some link → FitsWord id.index) : d.saved.Fits where
  nodes e he := by
    obtain ⟨⟨id, node⟩, hentry, rfl⟩ := List.mem_map.mp he
    have hnode : d.node? id = some node := Table.get?_eq_some_iff.mpr hentry
    exact ⟨node_fits hnode, finite hnode⟩
  links e he := by
    have hlink : d.link? e.1 = some e.2 := Table.get?_eq_some_iff.mpr he
    have end_fits : ∀ {port direction}, d.HasPort port direction → FitsWord port.node.index := by
      rintro port direction ⟨node, hnode, -⟩
      exact node_fits hnode
    have port_fits : ∀ {port direction}, d.HasPort port direction → FitsWord port.port := by
      intro port direction hport
      exact Nat.lt_of_lt_of_le (h.portIndex_lt hport) (by decide)
    exact ⟨link_fits hlink, end_fits (h.source_fits hlink), port_fits (h.source_fits hlink),
      end_fits (h.target_fits hlink), port_fits (h.target_fits hlink)⟩

/-- A text that holds entries and nothing else is the diagram that they are loaded as. -/
theorem ofText_of_read {text : String} {s : SavedDiagram}
    (h : SavedDiagram.record.shape.read maxDepth text.toList = .ok (s, [])) :
    ofText text = (load s).mapError .entries := by
  unfold ofText
  rw [h]
  -- the entries are loaded before what is behind them is looked at
  show (do
    let d ← (load s).mapError .entries
    let _ ← (Reader.finish []).mapError .text
    return d : Except LoadError Diagram) = _
  cases load s <;> rfl

/-- From its text a diagram comes back as what the echo of its entries is loaded as. -/
theorem ofText_toText_eq_load (h : d.saved.Fits)
    (depth_le : ∀ {id node}, d.node? id = some node → node.properties.toJson.depth ≤ 124) :
    ofText d.toText = (load d.saved.echo).mapError .entries := by
  refine ofText_of_read (SavedDiagram.read_toText h (SavedDiagram.depth_le (n := 124) ?_ ?_))
  · decide
  intro e he
  obtain ⟨⟨id, node⟩, hnode, rfl⟩ := List.mem_map.mp he
  exact depth_le (Table.get?_eq_some_iff.mpr hnode)

/-- The entries of a diagram whose doubles read back are their own echo. -/
theorem echo_saved (h : ∀ {id node}, d.node? id = some node → node.toPlacement.ReadsBack) :
    d.saved.echo = d.saved := by
  have hnodes : d.saved.nodes.map (fun e => (e.1, e.2.echo)) = d.saved.nodes := by
    refine (List.map_congr_left fun e he => ?_).trans (List.map_id' _)
    obtain ⟨⟨id, node⟩, hnode, rfl⟩ := List.mem_map.mp he
    exact congrArg (Prod.mk id) (h (Table.get?_eq_some_iff.mpr hnode)).echo_eq
  rw [SavedDiagram.echo, hnodes]

/-- A well-formed diagram comes back from its text, its counters right behind the identifiers. -/
theorem WellFormed.ofText_toText (h : d.WellFormed) (hs : d.Savable) :
    ofText d.toText = .ok d.recounted := by
  have hfits : d.saved.Fits :=
    h.fits_saved hs.finite (fun hnode => Nat.lt_of_le_of_lt (hs.node_le hnode) (by decide))
      fun hlink => Nat.lt_of_le_of_lt (hs.link_le hlink) (by decide)
  have hload : load d.saved = .ok d.recounted :=
    load_eq_ok_iff.mpr ⟨h.valid_saved hs.node_le hs.link_le, h.diagram_saved.symm⟩
  rw [ofText_toText_eq_load hfits hs.depth_le, echo_saved hs.reads_back, hload]
  rfl

/-- Nodes and links are the same in any case. -/
theorem recounted_eq_iff : d.recounted = d ↔
    d.freshNode = nextIndex (d.nodes.keys.map NodeId.index) ∧
      d.freshLink = nextIndex (d.links.keys.map LinkId.index) := by
  constructor
  · intro h
    exact ⟨(congrArg freshNode h).symm, (congrArg freshLink h).symm⟩
  · rintro ⟨hnode, hlink⟩
    exact Diagram.ext rfl rfl hnode.symm hlink.symm

/-- Diagrams with the same nodes and links are the same where their counters are. -/
theorem same_iff_counters (hfinite : ∀ {id node}, d.node? id = some node → node.position.IsFinite)
    (hnodes : e.nodes = d.nodes) (hlinks : e.links = d.links) :
    e.same d = true ↔ e.freshNode = d.freshNode ∧ e.freshLink = d.freshLink := by
  have hrefl : ∀ entries : List (NodeId × Node), (∀ e ∈ entries, e.2.position.IsFinite) →
      entries.isEqv entries (fun a b => a.1 == b.1 && a.2.same b.2) = true := by
    intro entries h
    induction entries with
    | nil => rfl
    | cons entry entries ih =>
      obtain ⟨hentry, hentries⟩ := List.forall_mem_cons.mp h
      simp [List.isEqv, Node.same_refl hentry, ih hentries]
  have hsame := hrefl d.nodes.entries fun _ he => hfinite (Table.get?_eq_some_iff.mpr he)
  simp [same, hnodes, hlinks, hsame]

/-- What is promised of a diagram that is saved: `e` is what comes back for `d`. -/
structure ComesBack (d e : Diagram) : Prop where
  /-- It is read from the text of `d`. -/
  of_text : ofText d.toText = .ok e
  /-- The nodes are the same under the same identifiers, their ports included. -/
  nodes_eq : e.nodes = d.nodes
  links_eq : e.links = d.links
  /-- The counters are not in the text. They go on behind the largest identifiers there. -/
  freshNode_eq : e.freshNode = nextIndex (d.nodes.keys.map NodeId.index)
  freshLink_eq : e.freshLink = nextIndex (d.links.keys.map LinkId.index)
  /-- Chains and sources do not depend on the counters, so they are the same under all rules. -/
  same_chain : ∀ rules : SourceRules, rules.chainIds e = rules.chainIds d
  same_source : ∀ rules : SourceRules, rules.source e = rules.source d
  /-- What comes back is what was saved, unless the newest node or link had been taken out. -/
  eq_iff : e = d ↔ d.freshNode = nextIndex (d.nodes.keys.map NodeId.index) ∧
    d.freshLink = nextIndex (d.links.keys.map LinkId.index)
  /-- The comparison of diagrams in the program sees the same differences. -/
  same_iff : e.same d = true ↔ e = d
  /-- The text has no trace of the counters either. -/
  text_eq : e.toText = d.toText
  /-- Saving and reading once more changes nothing. -/
  stable : ofText e.toText = .ok e

/-- **Saving and reading a diagram loses nothing.** An obtainable diagram that can be read again
comes back from its text with the same nodes, their ports included, and the same links, under the
same identifiers, so with the same chain and source under all rules. Its counters follow the largest
identifiers; it is the diagram that was saved exactly if the counters of that did so too. What comes
back has the same text, and comes back from it as it is. -/
theorem Obtainable.exists_ofText_toText (h : d.Obtainable) (hs : d.Savable) :
    ∃ e, d.ComesBack e := by
  have hread : ofText d.toText = .ok d.recounted := h.wellFormed.ofText_toText hs
  have hchain : ∀ limit refuse, d.recounted.chain limit refuse = d.chain limit refuse :=
    chain_congr rfl rfl
  refine ⟨d.recounted,
    { of_text := hread
      nodes_eq := rfl
      links_eq := rfl
      freshNode_eq := rfl
      freshLink_eq := rfl
      same_chain := fun rules => by simp only [SourceRules.chainIds, hchain]
      same_source := fun rules => by simp only [SourceRules.source, hchain]
      eq_iff := recounted_eq_iff
      same_iff := ?_
      text_eq := rfl
      stable := hread }⟩
  have hsame : d.recounted.same d = true ↔
      d.recounted.freshNode = d.freshNode ∧ d.recounted.freshLink = d.freshLink :=
    same_iff_counters hs.finite rfl rfl
  rw [hsame, recounted_eq_iff]
  exact and_congr eq_comm eq_comm

/-- The diagram of the samples is not the one that is read from its text: its counters have seen the
node and the link that were removed. -/
theorem exists_ofText_toText_sample : Obtainable (run ∅ sampleEdits) ∧
    Savable (run ∅ sampleEdits) ∧ ∃ e, ofText (run ∅ sampleEdits).toText = .ok e ∧
      e.nodes = (run ∅ sampleEdits).nodes ∧ e.links = (run ∅ sampleEdits).links ∧
      e.freshNode = 3 ∧ e.freshLink = 2 ∧ e ≠ run ∅ sampleEdits := by
  have hnodes : ∀ e ∈ (run ∅ sampleEdits).nodes.entries, e.2.position.IsFinite ∧
      e.1.index ≤ greatestSavedId ∧ e.2.properties.toJson.depth ≤ 124 := by decide
  have hreads : ∀ e ∈ (run ∅ sampleEdits).nodes.entries, e.2.toPlacement.ReadsBack := by
    decide +kernel
  have hlinks : ∀ e ∈ (run ∅ sampleEdits).links.entries, e.1.index ≤ greatestSavedId := by decide
  have hs : Savable (run ∅ sampleEdits) :=
    { finite := fun hn => (hnodes _ (Table.get?_eq_some_iff.mp hn)).1
      node_le := fun hn => (hnodes _ (Table.get?_eq_some_iff.mp hn)).2.1
      link_le := fun hl => hlinks _ (Table.get?_eq_some_iff.mp hl)
      depth_le := fun hn => (hnodes _ (Table.get?_eq_some_iff.mp hn)).2.2
      reads_back := fun hn => hreads _ (Table.get?_eq_some_iff.mp hn) }
  have h : Obtainable (run ∅ sampleEdits) := Obtainable.empty.run sampleEdits_built
  obtain ⟨e, he⟩ := h.exists_ofText_toText hs
  refine ⟨h, hs, e, he.of_text, he.nodes_eq, he.links_eq, he.freshNode_eq.trans ?_,
    he.freshLink_eq.trans ?_, fun heq => ?_⟩
  · decide
  · decide
  · exact absurd (he.eq_iff.mp heq) (by decide)

end Diagram
end PipelineCanvas
