import PipelineCanvas.Canvas
import PipelineCanvas.Workbench
import PipelineCanvas.Proofs.Loading
/-! # Well-formed diagrams

A diagram is **well formed** when its links run from out-ports to in-ports of its nodes, its nodes
have the ports of their kinds, and its counters are ahead of the identifiers that it holds. A
diagram is **obtainable** when it is empty, read from a text or made from a canvas, or comes from an
obtainable one by an edit or by a gesture on a workbench. Nothing is asked of the arguments of an
edit but that a node which is placed has been made by the constructors of nodes.

Every operation keeps diagrams well formed, so all obtainable diagrams are. Most of the later
results are about obtainable diagrams, and most of their proofs begin by going over to well-formed
ones: what a walk can meet, which faults a link can have and what a text can hold follows from the
five conditions and not from how the diagram has come about.

The conditions are kept one node or link at a time. Whatever stores something does it by
`insertNode` or `insertLink`, whatever changes a node does it by `modifyNode`, and what takes
something away leaves the rest as it is. That the counters are ahead is the one condition that an
editor could break without anyone noticing: a number that is taken would be given to a second node,
which would then silently replace the first. -/
namespace PipelineCanvas

/-- The node has been made by the constructors. -/
inductive Node.Built : Node → Prop
  | new (name : String) (kind : BlockKind) : Built (.new name kind)
  | withProperties {n : Node} (h : Built n) (properties : Properties) :
    Built (n.withProperties properties)
  | withPosition {n : Node} (h : Built n) (position : Position) : Built (n.withPosition position)

/-- What is read from a text is put together by the constructors, too. -/
theorem Node.built_ofPlacement (p : Placement) : (Node.ofPlacement p).Built :=
  ((Built.new _ _).withProperties _).withPosition _

/-- The constructors never give a node other ports than those of its kind, whatever else they
change. -/
theorem Node.Built.ports_eq {n : Node} (h : n.Built) : n.ports = n.kind.ports := by
  induction h with
  | new => rfl
  | withProperties _ _ ih => exact ih
  | withPosition _ _ ih => exact ih

/-- A node that is dropped on the canvas has been made by the constructors as well. -/
theorem Palette.built_of_instantiate {p : Palette} {name : String} {position : Position}
    {node : Node} (h : p.instantiate name position = .ok node) : node.Built := by
  unfold instantiate at h
  split at h
  · cases h
    exact (Node.Built.new _ _).withPosition _
  · cases h

/-- A node that the edit places has been made by the constructors. -/
def Edit.Built : Edit → Prop
  | .place node => node.Built
  | _ => True

namespace Diagram
variable {d e : Diagram}

/-- The links fit the ports, the ports fit the nodes, and the counters are ahead. -/
structure WellFormed (d : Diagram) : Prop where
  /-- A link leaves a node that is there, by a port of that node for sending. -/
  source_fits : ∀ {id link}, d.link? id = some link → d.HasPort link.source .output
  /-- It enters a node that is there, by a port of that node for taking in. -/
  target_fits : ∀ {id link}, d.link? id = some link → d.HasPort link.target .input
  /-- Ports are not chosen node by node, they come with the kind. -/
  ports_eq : ∀ {id node}, d.node? id = some node → node.ports = node.kind.ports
  /-- The number for the next node is not taken, nor is any after it. -/
  node_lt : ∀ {id node}, d.node? id = some node → id.index < d.freshNode
  link_lt : ∀ {id link}, d.link? id = some link → id.index < d.freshLink

theorem wellFormed_empty : WellFormed ∅ where
  source_fits h := nomatch h
  target_fits h := nomatch h
  ports_eq h := nomatch h
  node_lt h := nomatch h
  link_lt h := nomatch h

/-- A node is what is saved of it. -/
theorem WellFormed.ofPlacement_toPlacement (h : d.WellFormed) {id : NodeId} {node : Node}
    (hnode : d.node? id = some node) : Node.ofPlacement node.toPlacement = node := by
  obtain ⟨p, ports⟩ := node
  have hports : ports = p.kind.ports := h.ports_eq hnode
  rw [hports]
  rfl

/-! ### One node or link at a time -/

/-- A node is stored under a free identifier, and the counter is moved ahead of it. -/
theorem WellFormed.insertNode (h : d.WellFormed) {id : NodeId} {node : Node} {fresh : Nat}
    (free : d.node? id = none) (hnode : node.ports = node.kind.ports) (hid : id.index < fresh)
    (hfresh : d.freshNode ≤ fresh) :
    WellFormed { d with nodes := d.nodes.insert id node, freshNode := fresh } := by
  have keep : ∀ {port direction}, d.HasPort port direction →
      HasPort { d with nodes := d.nodes.insert id node, freshNode := fresh } port direction := by
    rintro port direction ⟨n, hn, hport⟩
    have hne : port.node ≠ id := by
      rintro rfl
      rw [free] at hn
      cases hn
    exact ⟨n, (Table.get?_insert_of_ne _ hne _).trans hn, hport⟩
  constructor
  · exact fun hl => keep (h.source_fits hl)
  · exact fun hl => keep (h.target_fits hl)
  · intro l n hn
    rcases Table.get?_insert_cases hn with ⟨-, rfl⟩ | hn
    · exact hnode
    · exact h.ports_eq hn
  · intro l n hn
    rcases Table.get?_insert_cases hn with ⟨rfl, -⟩ | hn
    · exact hid
    · exact Nat.lt_of_lt_of_le (h.node_lt hn) hfresh
  · exact h.link_lt

/-- A link between ports that fit is stored, and the counter is moved ahead of it. -/
theorem WellFormed.insertLink (h : d.WellFormed) {id : LinkId} {link : Link} {fresh : Nat}
    (hs : d.HasPort link.source .output) (ht : d.HasPort link.target .input)
    (hid : id.index < fresh) (hfresh : d.freshLink ≤ fresh) :
    WellFormed { d with links := d.links.insert id link, freshLink := fresh } := by
  constructor
  · intro i l hl
    rcases Table.get?_insert_cases hl with ⟨-, rfl⟩ | hl
    · exact hs
    · exact h.source_fits hl
  · intro i l hl
    rcases Table.get?_insert_cases hl with ⟨-, rfl⟩ | hl
    · exact ht
    · exact h.target_fits hl
  · exact h.ports_eq
  · exact h.node_lt
  · intro i l hl
    rcases Table.get?_insert_cases hl with ⟨rfl, -⟩ | hl
    · exact hid
    · exact Nat.lt_of_lt_of_le (h.link_lt hl) hfresh

/-! ### Edits -/

theorem WellFormed.node_fresh (h : d.WellFormed) : d.node? ⟨d.freshNode⟩ = none :=
  Option.eq_none_iff_forall_ne_some.mpr fun _ hn => Nat.lt_irrefl _ (h.node_lt hn)

/-- A new node has no links yet, so nothing is asked of it but its ports. -/
theorem WellFormed.place (h : d.WellFormed) {node : Node} (hnode : node.ports = node.kind.ports) :
    (d.place node).2.WellFormed :=
  h.insertNode h.node_fresh hnode (Nat.lt_succ_self _) (Nat.le_succ _)

/-- With a node go all links at it, so no link loses a port. -/
theorem WellFormed.remove (h : d.WellFormed) {id : NodeId} {node : Node}
    (hr : d.remove id = .ok (node, e)) : e.WellFormed := by
  obtain ⟨-, rfl⟩ := remove_eq_ok_iff.mp hr
  have keep : ∀ {port direction}, port.node ≠ id → d.HasPort port direction →
      HasPort { d with
        nodes := d.nodes.erase id
        links := d.links.filter fun _ l => !l.touches id } port direction := by
    rintro port direction hne ⟨n, hn, hport⟩
    exact ⟨n, (Table.get?_erase_of_ne _ hne).trans hn, hport⟩
  constructor
  · intro i l hl
    obtain ⟨hl, hs, -⟩ := get?_filter_touches.mp hl
    exact keep hs (h.source_fits hl)
  · intro i l hl
    obtain ⟨hl, -, ht⟩ := get?_filter_touches.mp hl
    exact keep ht (h.target_fits hl)
  · exact fun hn => h.ports_eq (Table.get?_of_get?_erase hn)
  · exact fun hn => h.node_lt (Table.get?_of_get?_erase hn)
  · exact fun hl => h.link_lt (get?_filter_touches.mp hl).1

/-- A link is stored only if both of its ports have been checked. -/
theorem WellFormed.attach (h : d.WellFormed) {source target : PortAddress} {id : LinkId}
    (ha : d.attach source target = .ok (id, e)) : e.WellFormed := by
  obtain ⟨-, hs, ht, he⟩ := attach_eq_ok_iff.mp ha
  cases he
  exact h.insertLink hs ht (Nat.lt_succ_self _) (Nat.le_succ _)

/-- Joining nodes ends in linking two of their ports. -/
theorem WellFormed.join (h : d.WellFormed) {source target : NodeId} {id : LinkId}
    (hj : d.join source target = .ok (id, e)) : e.WellFormed := by
  obtain ⟨s, t, ha⟩ := attach_of_join hj
  exact h.attach ha

/-- Without the link there is less to ask for. -/
theorem WellFormed.detach (h : d.WellFormed) {id : LinkId} {link : Link}
    (hd : d.detach id = .ok (link, e)) : e.WellFormed := by
  obtain ⟨-, rfl⟩ := detach_eq_ok_iff.mp hd
  constructor
  · exact fun hl => h.source_fits (Table.get?_of_get?_erase hl)
  · exact fun hl => h.target_fits (Table.get?_of_get?_erase hl)
  · exact h.ports_eq
  · exact h.node_lt
  · exact fun hl => h.link_lt (Table.get?_of_get?_erase hl)

/-- A node may be changed as long as it keeps its kind and its ports. -/
theorem WellFormed.modifyNode (h : d.WellFormed) {id : NodeId} {f : Node → Node}
    (hkind : ∀ n, (f n).kind = n.kind) (hports : ∀ n, (f n).ports = n.ports)
    (hm : d.modifyNode id f = .ok e) : e.WellFormed := by
  obtain ⟨-, rfl⟩ := modifyNode_eq_ok_iff.mp hm
  -- ports are stored with their node, so a link still fits
  have keep : ∀ {port direction}, d.HasPort port direction →
      HasPort { d with nodes := d.nodes.modify id f } port direction := by
    rintro port direction ⟨n, hn, hport⟩
    by_cases hid : port.node = id
    · have hmod : (d.nodes.modify id f).get? port.node = some (f n) := by
        rw [Table.get?_modify, if_pos hid, show d.nodes.get? port.node = some n from hn]
        rfl
      exact ⟨f n, hmod, hports n ▸ hport⟩
    · exact ⟨n, (Table.get?_modify_of_ne _ hid f).trans hn, hport⟩
  have old : ∀ {i n}, (d.nodes.modify id f).get? i = some n →
      ∃ m, d.node? i = some m ∧ n.kind = m.kind ∧ n.ports = m.ports := by
    intro i n hn
    rw [Table.get?_modify] at hn
    split at hn
    · obtain ⟨m, hm, rfl⟩ := Option.map_eq_some_iff.mp hn
      exact ⟨m, hm, hkind m, hports m⟩
    · exact ⟨n, hn, rfl, rfl⟩
  constructor
  · exact fun hl => keep (h.source_fits hl)
  · exact fun hl => keep (h.target_fits hl)
  · intro i n hn
    obtain ⟨m, hm, hk, hp⟩ := old hn
    rw [hp, hk, h.ports_eq hm]
  · intro i n hn
    obtain ⟨m, hm, -⟩ := old hn
    exact h.node_lt hm
  · exact h.link_lt

/-- Properties have no part in the conditions. -/
theorem WellFormed.configure (h : d.WellFormed) {id : NodeId} {properties : Properties}
    (hc : d.configure id properties = .ok e) : e.WellFormed :=
  h.modifyNode (f := fun node => { node with properties }) (fun _ => rfl) (fun _ => rfl) hc

theorem WellFormed.move (h : d.WellFormed) {id : NodeId} {position : Position}
    (hm : d.move id position = .ok e) : e.WellFormed :=
  h.modifyNode (f := fun node => { node with position }) (fun _ => rfl) (fun _ => rfl) hm

/-- Case by case what the lemmas above say of one edit. Only `place` brings a node in from outside,
so only there it is needed that the node has been built. -/
theorem WellFormed.change (h : d.WellFormed) {edit : Edit} {answer : Edit.Answer}
    (hc : d.Change edit answer e) (built : edit.Built) : e.WellFormed := by
  cases hc with
  | place node => exact h.place (Node.Built.ports_eq built)
  | remove stored => exact h.remove (remove_eq_ok_iff.mpr ⟨stored, rfl⟩)
  | attach _ hs ht => exact h.insertLink hs ht (Nat.lt_succ_self _) (Nat.le_succ _)
  | join _ hs ht => exact h.insertLink hs ht (Nat.lt_succ_self _) (Nat.le_succ _)
  | detach stored => exact h.detach (detach_eq_ok_iff.mpr ⟨stored, rfl⟩)
  | configure stored => exact h.configure (modifyNode_eq_ok_iff.mpr ⟨stored, rfl⟩)
  | move stored => exact h.move (modifyNode_eq_ok_iff.mpr ⟨stored, rfl⟩)

/-- **An edit keeps a diagram well formed**, whether it succeeds or is refused. -/
theorem WellFormed.after (h : d.WellFormed) {edit : Edit} (built : edit.Built) :
    (d.after edit).WellFormed := by
  rcases d.after_cases edit with ⟨answer, hp⟩ | hp
  · exact h.change (change_of_perform hp) built
  · rw [hp]
    exact h

end Diagram

/-- **A gesture keeps the diagram of a workbench well formed**, whatever is on offer. -/
theorem Workbench.wellFormed_perform {w : Workbench} (h : w.diagram.WellFormed)
    (gesture : Gesture) : (w.perform gesture).2.diagram.WellFormed := by
  unfold perform
  split
  · next reply e hr =>
    cases gesture with
    | drop block position =>
      obtain ⟨node, hnode, hr⟩ := bind_eq_ok_iff.mp hr
      cases hr
      exact h.place (Palette.built_of_instantiate (mapError_eq_ok_iff.mp hnode)).ports_eq
    | attach source target =>
      obtain ⟨⟨id, e⟩, ha, hr⟩ := bind_eq_ok_iff.mp hr
      cases hr
      exact h.attach (mapError_eq_ok_iff.mp ha)
    | detach link =>
      obtain ⟨⟨link, e⟩, hd, hr⟩ := bind_eq_ok_iff.mp hr
      cases hr
      exact h.detach (mapError_eq_ok_iff.mp hd)
    | remove node =>
      obtain ⟨⟨node, e⟩, hd, hr⟩ := bind_eq_ok_iff.mp hr
      cases hr
      exact h.remove (mapError_eq_ok_iff.mp hd)
    | move node position =>
      obtain ⟨e, hm, hr⟩ := bind_eq_ok_iff.mp hr
      cases hr
      exact h.move (mapError_eq_ok_iff.mp hm)
    | inspect node =>
      obtain ⟨reply, -, hr⟩ := bind_eq_ok_iff.mp hr
      cases hr
      exact h
    | configure node properties =>
      obtain ⟨e, hc, hr⟩ := bind_eq_ok_iff.mp hr
      cases hr
      exact h.configure (mapError_eq_ok_iff.mp hc)
    | showSource =>
      cases hr
      exact h
  · exact h

namespace Diagram
variable {d e : Diagram}

/-! ### Saved diagrams and canvases -/

theorem WellFormed.loadNode (h : d.WellFormed) {id : NodeId} {p : Placement}
    (hl : d.loadNode id p = .ok e) : e.WellFormed := by
  obtain ⟨free, -, rfl⟩ := loadNode_eq_ok_iff.mp hl
  exact h.insertNode free (Node.built_ofPlacement p).ports_eq (by omega) (by omega)

theorem WellFormed.loadLink (h : d.WellFormed) {id : LinkId} {link : Link}
    (hl : d.loadLink id link = .ok e) : e.WellFormed := by
  obtain ⟨-, haccepts, rfl⟩ := loadLink_eq_ok_iff.mp hl
  exact h.insertLink haccepts.source_fits haccepts.target_fits (by omega) (by omega)

/-- The loop over the nodes comes first, so that every link finds the nodes that it runs between. -/
theorem wellFormed_of_load {s : SavedDiagram} (h : load s = .ok d) : d.WellFormed := by
  obtain ⟨e, hnodes, hlinks⟩ := bind_eq_ok_iff.mp h
  have he : e.WellFormed :=
    foldlM_keeps (P := WellFormed) (fun hl hd => hd.loadNode hl) hnodes wellFormed_empty
  exact foldlM_keeps (P := WellFormed) (fun hl hd => hd.loadLink hl) hlinks he

theorem wellFormed_of_ofText {text : String} (h : ofText text = .ok d) : d.WellFormed := by
  obtain ⟨s, -, -, hload⟩ := load_of_ofText h
  exact wellFormed_of_load hload

/-- A canvas is drawn by placing and joining, so nothing new is to be shown. -/
theorem wellFormed_of_toDiagram {c : Canvas} (h : c.toDiagram = .ok d) : d.WellFormed := by
  obtain ⟨⟨e, names⟩, hboxes, harrows⟩ := bind_eq_ok_iff.mp h
  have he : e.WellFormed := by
    refine foldlM_keeps (P := fun p : Diagram × Canvas.Names => p.1.WellFormed) ?_ hboxes
      wellFormed_empty
    rintro ⟨b, names⟩ box ⟨c, names'⟩ hadd hb
    simp only [Canvas.addBox] at hadd
    split at hadd
    · cases hadd
    · cases hadd
      exact hb.place (Node.built_ofPlacement _).ports_eq
  refine foldlM_keeps (P := WellFormed) ?_ harrows he
  intro b arrow c hadd hb
  obtain ⟨source, -, hadd⟩ := bind_eq_ok_iff.mp hadd
  obtain ⟨target, -, hadd⟩ := bind_eq_ok_iff.mp hadd
  obtain ⟨⟨id, e⟩, hjoin, hadd⟩ := bind_eq_ok_iff.mp hadd
  cases hadd
  exact hb.join (mapError_eq_ok_iff.mp hjoin)

/-! ### Obtainable diagrams -/

/-- The diagrams that one can come to. -/
inductive Obtainable : Diagram → Prop
  | empty : Obtainable ∅
  /-- Whatever text is read as a diagram, be it written by hand. -/
  | read {text : String} {d : Diagram} (h : ofText text = .ok d) : Obtainable d
  | drawn {canvas : Canvas} {d : Diagram} (h : canvas.toDiagram = .ok d) : Obtainable d
  /-- An edit that is refused leaves the diagram as it was, and is admitted here, too. -/
  | edited {d : Diagram} (h : Obtainable d) {edit : Edit} (built : edit.Built) :
    Obtainable (d.after edit)
  /-- A gesture of the user, with any palette and any rules on the workbench. -/
  | handled {w : Workbench} (h : Obtainable w.diagram) (gesture : Workbench.Gesture) :
    Obtainable (w.perform gesture).2.diagram

/-- Every obtainable diagram is well formed. -/
theorem Obtainable.wellFormed (h : d.Obtainable) : d.WellFormed := by
  induction h with
  | empty => exact wellFormed_empty
  | read h => exact wellFormed_of_ofText h
  | drawn h => exact wellFormed_of_toDiagram h
  | edited _ built ih => exact ih.after built
  | handled _ gesture ih => exact Workbench.wellFormed_perform ih gesture

/-- Edits go on from wherever the diagram has come from. -/
theorem Obtainable.run (h : d.Obtainable) {edits : List Edit} (built : ∀ edit ∈ edits, edit.Built) :
    (d.run edits).Obtainable := by
  induction edits generalizing d with
  | nil => exact h
  | cons edit edits ih =>
    exact ih (h.edited (built edit List.mem_cons_self))
      fun e he => built e (List.mem_cons_of_mem _ he)

theorem obtainable_workbench_run {w : Workbench} (h : w.diagram.Obtainable)
    (gestures : List Workbench.Gesture) : (w.run gestures).diagram.Obtainable := by
  induction gestures generalizing w with
  | nil => exact h
  | cons gesture gestures ih => exact ih (h.handled gesture)

/-- A node with settings, among them a list of a fraction and an empty object. -/
def sampleNode : Node :=
  (Node.new "filter" .transformer).withProperties (.ofMembers
    [("rates", .array [.number (.double ⟨false, 1 <<< 52, 1021, by decide, by decide, by decide⟩),
      .object []]), ("label", .string "a\nb")])

/-- Edits that make a pipeline of three nodes, and add and remove a fourth. -/
def sampleEdits : List Edit :=
  [.place (.new "source" .producer), .place sampleNode, .place (.new "sink" .consumer),
    .join ⟨0⟩ ⟨1⟩, .join ⟨1⟩ ⟨2⟩, .place (.new "spare" .consumer), .join ⟨1⟩ ⟨3⟩, .remove ⟨3⟩]

theorem sampleEdits_built : ∀ edit ∈ sampleEdits, edit.Built := by
  simp only [sampleEdits, List.forall_mem_cons]
  exact ⟨.new _ _, (Node.Built.new _ _).withProperties _, .new _ _, trivial, trivial, .new _ _,
    trivial, trivial, List.forall_mem_nil _⟩

/-- **What one can come to is well formed**: the empty diagram, those read from texts or made from
canvases, and whatever edits or gestures turn these into, in any number and order and however many
of them are refused. -/
theorem Obtainable.wellFormed_run (h : d.Obtainable) :
    d.WellFormed ∧
      (∀ edits : List Edit, (∀ edit ∈ edits, edit.Built) → (d.run edits).WellFormed) ∧
      ∀ (w : Workbench) (gestures : List Workbench.Gesture), w.diagram = d →
        (w.run gestures).diagram.WellFormed := by
  refine ⟨h.wellFormed, fun edits built => (h.run built).wellFormed, ?_⟩
  rintro w gestures rfl
  exact (obtainable_workbench_run h gestures).wellFormed

/-- The edits of the samples leave two links, both between nodes that are stored. -/
theorem wellFormed_run_sample :
    Obtainable ∅ ∧ (∀ edit ∈ sampleEdits, edit.Built) ∧ (run ∅ sampleEdits).links.size = 2 ∧
      (run ∅ sampleEdits).WellFormed :=
  ⟨.empty, sampleEdits_built, by decide,
    (Obtainable.wellFormed_run .empty).2.1 sampleEdits sampleEdits_built⟩

end Diagram
end PipelineCanvas
