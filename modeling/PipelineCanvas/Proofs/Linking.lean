import PipelineCanvas.Proofs.Identifiers
import PipelineCanvas.Proofs.Merges
/-! # When nodes and ports can be linked

Two things are asked of a port at the end of a link: that it exists and that it has the direction of
that end. What is at fault is found by looking for the node, then for the port on it, then at the
direction, at the end where the link leaves before the end where it enters (`Diagram.AttachFault`).
That the next identifier is taken never happens on a well-formed diagram.

To join nodes is to find a port on each and to link these. The kind of a node says which ports it
has, one in each direction at most, so what can be wrong is that a node is not there or has no port
in the direction (`Diagram.JoinFault`). Behind that the link cannot fail, as the ports that have
been found exist and have their directions.

Each list of faults comes with two facts: the operation fails with what stands in the list
(`WellFormed.join_of_joinFault`), and where nothing of it holds the operation succeeds
(`fits_or_joinFault`). From the two it follows that the list is complete and that its cases exclude
each other, so none of this has to be shown case against case. It is not asked that the two nodes
are different, nor that they are not linked yet: a node can be joined to itself, and two nodes any
number of times. -/
namespace PipelineCanvas

theorem BlockKind.isSome_findIdx?_ports (kind : BlockKind) (direction : Direction) :
    (kind.ports.findIdx? fun p => p.direction == direction).isSome = kind.hasPort direction := by
  cases kind <;> cases direction <;> rfl

theorem BlockKind.hasPort_output_iff {kind : BlockKind} :
    kind.hasPort .output = true ↔ kind ≠ .consumer := by
  cases kind <;> decide

theorem BlockKind.hasPort_input_iff {kind : BlockKind} :
    kind.hasPort .input = true ↔ kind ≠ .producer := by
  cases kind <;> decide

namespace Diagram
variable {d e : Diagram} {source target port : PortAddress} {direction : Direction}
  {a b id : NodeId} {error : EditError}

/-! ### What links ask for -/

/-- What is wrong with a port where one with a direction is asked for. -/
inductive PortFault (d : Diagram) (port : PortAddress) (expected : Direction) : EditError → Prop
  | noNode (gone : d.node? port.node = none) : PortFault d port expected (.noSuchNode port.node)
  | noPort {node : Node} (stored : d.node? port.node = some node)
    (gone : node.ports[port.port]? = none) : PortFault d port expected (.noSuchPort port)
  | direction {node : Node} {found : Direction} (stored : d.node? port.node = some node)
    (hport : node.ports[port.port]? = some ⟨found⟩) (hne : found ≠ expected) :
    PortFault d port expected (.wrongDirection port expected found)

/-- What is wrong with a link between ports: what is wrong with the port it leaves through, or else
with the port it enters through. -/
inductive AttachFault (d : Diagram) (source target : PortAddress) : EditError → Prop
  | source {error : EditError} (h : d.PortFault source .output error) :
    AttachFault d source target error
  | target {error : EditError} (source_fits : d.HasPort source .output)
    (h : d.PortFault target .input error) : AttachFault d source target error

/-- The node is there and is no consumer. -/
def Emits (d : Diagram) (id : NodeId) : Prop :=
  ∃ node, d.node? id = some node ∧ node.kind ≠ .consumer

/-- The node is there and is no producer. -/
def TakesIn (d : Diagram) (id : NodeId) : Prop :=
  ∃ node, d.node? id = some node ∧ node.kind ≠ .producer

/-- What is wrong with two nodes that are to be joined, in the order in which it is found. -/
inductive JoinFault (d : Diagram) (a b : NodeId) : EditError → Prop
  | noSource (gone : d.node? a = none) : JoinFault d a b (.noSuchNode a)
  | noOutput (consumer : d.HasKind a .consumer) : JoinFault d a b (.lacksPort a .output)
  | noTarget (emits : d.Emits a) (gone : d.node? b = none) : JoinFault d a b (.noSuchNode b)
  | noInput (emits : d.Emits a) (producer : d.HasKind b .producer) :
    JoinFault d a b (.lacksPort b .input)

/-- The port is the one that the node has in the direction. -/
structure OnlyPort (d : Diagram) (id : NodeId) (direction : Direction) (port : PortAddress) :
    Prop where
  /-- It is a port of the node. -/
  node_eq : port.node = id
  /-- It is there, and in the direction. -/
  fits : d.HasPort port direction
  /-- No other port of the node is in the direction. -/
  only : ∀ {other}, other.node = id → d.HasPort other direction → other = port

/-- The second diagram has a link that the first has not, under an identifier that was free and
that the first counts next; in all else they are the same. -/
structure Gains (d : Diagram) (id : LinkId) (link : Link) (e : Diagram) : Prop where
  /-- The identifier is the next one. -/
  id_eq : id = ⟨d.freshLink⟩
  /-- No link had it. -/
  free : d.link? id = none
  /-- The nodes are as they were, those at the ends of the link among them. -/
  node?_eq : ∀ i, e.node? i = d.node? i
  /-- The link is stored as it was asked for, and every other one is as it was. -/
  link?_eq : ∀ i, e.link? i = if i = id then some link else d.link? i
  freshNode_eq : e.freshNode = d.freshNode
  freshLink_eq : e.freshLink = d.freshLink + 1

/-! ### Links between ports -/

/-- The faults of a port are all that can be wrong with it. -/
theorem acceptPort_eq_error_iff_portFault :
    d.acceptPort port direction = .error error ↔ d.PortFault port direction error := by
  rw [acceptPort_eq_error_iff]
  constructor
  · rintro (⟨gone, rfl⟩ | ⟨node, stored, ⟨gone, rfl⟩ | ⟨found, hport, hne, rfl⟩⟩)
    · exact .noNode gone
    · exact .noPort stored gone
    · exact .direction stored hport hne
  · intro h
    cases h with
    | noNode gone => exact .inl ⟨gone, rfl⟩
    | noPort stored gone => exact .inr ⟨_, stored, .inl ⟨gone, rfl⟩⟩
    | direction stored hport hne => exact .inr ⟨_, stored, .inr ⟨_, hport, hne, rfl⟩⟩

/-- On a diagram whose next identifier is free there is nothing else to go wrong. -/
theorem attach_of_fits (free : d.link? ⟨d.freshLink⟩ = none) (hs : d.HasPort source .output)
    (ht : d.HasPort target .input) :
    d.attach source target = .ok (⟨d.freshLink⟩, d.linked ⟨source, target⟩) :=
  attach_eq_ok_iff.mpr ⟨free, hs, ht, rfl⟩

theorem attach_eq_error_iff (free : d.link? ⟨d.freshLink⟩ = none) :
    d.attach source target = .error error ↔ d.AttachFault source target error := by
  rw [attach_of_free free, bind_eq_error_iff, acceptPort_eq_error_iff_portFault]
  constructor
  · rintro (hs | ⟨_, hs, h⟩)
    · exact .source hs
    · rcases bind_eq_error_iff.mp h with ht | ⟨_, -, h⟩
      · exact .target (acceptPort_eq_ok_iff.mp hs) (acceptPort_eq_error_iff_portFault.mp ht)
      · cases h
  · intro h
    cases h with
    | source h => exact .inl h
    | target source_fits h =>
      refine .inr ⟨(), acceptPort_eq_ok_iff.mpr source_fits, bind_eq_error_iff.mpr (.inl ?_)⟩
      exact acceptPort_eq_error_iff_portFault.mpr h

/-- The new link is added to those that are there; nodes and their counter stay as they are. -/
theorem gains_linked (free : d.link? ⟨d.freshLink⟩ = none) (link : Link) :
    d.Gains ⟨d.freshLink⟩ link (d.linked link) where
  id_eq := rfl
  free := free
  node?_eq _ := rfl
  link?_eq i := Table.get?_insert d.links ⟨d.freshLink⟩ i link
  freshNode_eq := rfl
  freshLink_eq := rfl

/-! ### Links between nodes -/

/-- No kind has two ports in one direction, so the port that is found first is the only one. -/
theorem WellFormed.onlyPort (h : d.WellFormed) (hport : d.port? id direction = some port) :
    d.OnlyPort id direction port where
  node_eq := node_of_port? hport
  fits := hasPort_of_port? hport
  only := by
    rintro other rfl hother
    exact Option.some.inj ((h.port?_eq_some hother).symm.trans hport)

/-- A node has no port in a direction just if its kind has none. -/
theorem WellFormed.port?_eq_none_iff (h : d.WellFormed) {node : Node}
    (hnode : d.node? id = some node) :
    d.port? id direction = none ↔ node.kind.hasPort direction = false := by
  have hindex : (node.portIndex? direction).isSome = node.kind.hasPort direction := by
    rw [Node.portIndex?, h.ports_eq hnode, BlockKind.isSome_findIdx?_ports]
  simp only [port?, hnode, ← hindex]
  cases hfound : node.portIndex? direction <;> simp [hfound]

/-- Whether a port is found is a question of the kind, as a node has the ports of its kind. -/
theorem WellFormed.exists_port?_iff (h : d.WellFormed) :
    (∃ port, d.port? id direction = some port) ↔
      ∃ node, d.node? id = some node ∧ node.kind.hasPort direction = true := by
  cases hnode : d.node? id with
  | none => simp [port?, hnode]
  | some node =>
    rw [← Option.ne_none_iff_exists', Ne, h.port?_eq_none_iff hnode, Bool.not_eq_false]
    simp

theorem WellFormed.emits_iff (h : d.WellFormed) :
    d.Emits id ↔ ∃ port, d.port? id .output = some port := by
  simp only [h.exists_port?_iff, BlockKind.hasPort_output_iff, Emits]

theorem WellFormed.takesIn_iff (h : d.WellFormed) :
    d.TakesIn id ↔ ∃ port, d.port? id .input = some port := by
  simp only [h.exists_port?_iff, BlockKind.hasPort_input_iff, TakesIn]

/-- Ports that are found on two nodes are linked as if they had been named. -/
theorem join_eq_attach (hs : d.port? a .output = some source)
    (ht : d.port? b .input = some target) : d.join a b = d.attach source target := by
  rw [join, portOf_eq_ok_iff.mpr hs, portOf_eq_ok_iff.mpr ht]
  rfl

/-- Where both nodes have their port, joining is linking these two, and that succeeds. -/
theorem WellFormed.join_of_emits (h : d.WellFormed) (ha : d.Emits a) (hb : d.TakesIn b) :
    ∃ source target, d.OnlyPort a .output source ∧ d.OnlyPort b .input target ∧
      d.join a b = d.attach source target ∧
      d.attach source target = .ok (⟨d.freshLink⟩, d.linked ⟨source, target⟩) := by
  obtain ⟨source, hs⟩ := h.emits_iff.mp ha
  obtain ⟨target, ht⟩ := h.takesIn_iff.mp hb
  exact ⟨source, target, h.onlyPort hs, h.onlyPort ht, join_eq_attach hs ht,
    attach_of_fits h.numbered.link_fresh (hasPort_of_port? hs) (hasPort_of_port? ht)⟩

theorem WellFormed.portOf_of_lacks (h : d.WellFormed) {kind : BlockKind} (hid : d.HasKind id kind)
    (hlacks : kind.hasPort direction = false) :
    d.portOf id direction = .error (.lacksPort id direction) := by
  obtain ⟨node, hnode, rfl⟩ := hid
  exact portOf_eq_error hnode ((h.port?_eq_none_iff hnode).mpr hlacks)

/-- Each fault leads to its error. The cases are in the order in which nodes and ports are looked
for, and each takes the ones before it not to apply. -/
theorem WellFormed.join_of_joinFault (h : d.WellFormed) (hj : d.JoinFault a b error) :
    d.join a b = .error error := by
  cases hj with
  | noSource gone =>
    rw [Diagram.join, portOf_of_gone gone]
    rfl
  | noOutput consumer =>
    rw [Diagram.join, h.portOf_of_lacks consumer rfl]
    rfl
  | noTarget emits gone =>
    obtain ⟨source, hs⟩ := h.emits_iff.mp emits
    rw [Diagram.join, portOf_eq_ok_iff.mpr hs, portOf_of_gone gone]
    rfl
  | noInput emits producer =>
    obtain ⟨source, hs⟩ := h.emits_iff.mp emits
    rw [Diagram.join, portOf_eq_ok_iff.mpr hs, h.portOf_of_lacks producer rfl]
    rfl

/-- Two nodes can be joined, or something is wrong with them. -/
theorem fits_or_joinFault (d : Diagram) (a b : NodeId) :
    (d.Emits a ∧ d.TakesIn b) ∨ ∃ error, d.JoinFault a b error := by
  cases ha : d.node? a with
  | none => exact .inr ⟨_, .noSource ha⟩
  | some m =>
    by_cases hm : m.kind = .consumer
    · exact .inr ⟨_, .noOutput ⟨m, ha, hm⟩⟩
    · have emits : d.Emits a := ⟨m, ha, hm⟩
      cases hb : d.node? b with
      | none => exact .inr ⟨_, .noTarget emits hb⟩
      | some n =>
        by_cases hn : n.kind = .producer
        · exact .inr ⟨_, .noInput emits ⟨n, hb, hn⟩⟩
        · exact .inl ⟨emits, n, hb, hn⟩

/-- That two faults never apply at once needs no proof of its own: there is only one error. -/
theorem WellFormed.join_eq_error_iff (h : d.WellFormed) :
    d.join a b = .error error ↔ d.JoinFault a b error := by
  refine ⟨fun herror => ?_, h.join_of_joinFault⟩
  rcases d.fits_or_joinFault a b with ⟨ha, hb⟩ | ⟨other, hj⟩
  · obtain ⟨source, target, -, -, hjoin, hattach⟩ := h.join_of_emits ha hb
    rw [hjoin, hattach] at herror
    cases herror
  · rw [h.join_of_joinFault hj] at herror
    cases herror
    exact hj

/-! ### What comes of linking -/

/-- When a link is made between ports or nodes, what it changes, and what is reported otherwise. -/
structure LinksExactly (d : Diagram) : Prop where
  /-- Two ports are linked just if they exist and have the directions of the two ends. -/
  attached_iff : ∀ {source target}, (∃ r, d.attach source target = .ok r) ↔
    d.HasPort source .output ∧ d.HasPort target .input
  /-- The diagram gains the one link, under the next identifier, and nothing else changes. -/
  attach_gains : ∀ {source target id e}, d.attach source target = .ok (id, e) →
    d.Gains id ⟨source, target⟩ e
  /-- Otherwise the first fault is reported, and there is no other. -/
  attach_error_iff : ∀ {source target error},
    d.attach source target = .error error ↔ d.AttachFault source target error
  /-- Two nodes are joined just if both are there and their kinds have the ports for it. -/
  joined_iff : ∀ {a b}, (∃ r, d.join a b = .ok r) ↔ d.Emits a ∧ d.TakesIn b
  /-- Nodes are joined by their only ports in the direction. -/
  join_eq_attach : ∀ {a b}, d.Emits a → d.TakesIn b → ∃ source target,
    d.OnlyPort a .output source ∧ d.OnlyPort b .input target ∧
      d.join a b = d.attach source target
  /-- Otherwise the first fault of the nodes is reported, and there is no other. -/
  join_error_iff : ∀ {a b error}, d.join a b = .error error ↔ d.JoinFault a b error
  /-- What can be wrong with ports that are given cannot be wrong with ports that are found. -/
  join_error_ne : ∀ {a b error}, d.join a b = .error error →
    (∀ port, error ≠ .noSuchPort port) ∧
      (∀ port expected found, error ≠ .wrongDirection port expected found) ∧
      ∀ id, error ≠ .repeatedLink id

/-- **Links are made exactly between ports that fit**, and nodes are joined exactly if their kinds
fit; what is reported otherwise is the first thing at fault. It does not matter how the diagram has
come about, as every obtainable one is well formed and has a free identifier for the next link. -/
theorem Obtainable.linksExactly (h : d.Obtainable) : d.LinksExactly := by
  have well := h.wellFormed
  have free := well.numbered.link_fresh
  constructor
  · intro source target
    constructor
    · rintro ⟨r, hr⟩
      obtain ⟨-, hs, ht, -⟩ := attach_eq_ok_iff.mp hr
      exact ⟨hs, ht⟩
    · rintro ⟨hs, ht⟩
      exact ⟨_, attach_of_fits free hs ht⟩
  · intro source target id e hr
    obtain ⟨-, -, -, hr⟩ := attach_eq_ok_iff.mp hr
    cases hr
    exact gains_linked free ⟨source, target⟩
  · exact attach_eq_error_iff free
  · intro a b
    constructor
    · rintro ⟨r, hr⟩
      -- kinds that do not fit are a fault, and then that is what is reported
      by_contra hnot
      obtain ⟨error, hj⟩ := (d.fits_or_joinFault a b).resolve_left hnot
      rw [well.join_of_joinFault hj] at hr
      cases hr
    · rintro ⟨ha, hb⟩
      obtain ⟨source, target, -, -, hjoin, hattach⟩ := well.join_of_emits ha hb
      exact ⟨_, hjoin.trans hattach⟩
  · intro a b ha hb
    obtain ⟨source, target, hs, ht, hjoin, -⟩ := well.join_of_emits ha hb
    exact ⟨source, target, hs, ht, hjoin⟩
  · exact well.join_eq_error_iff
  · intro a b error herror
    cases well.join_eq_error_iff.mp herror <;> exact ⟨nofun, nofun, nofun⟩

/-- In the pipeline of the samples two nodes more are linked, one of them to itself, and links are
refused for each of their faults. -/
theorem linksExactly_sample : (run ∅ sampleEdits).Obtainable ∧
    (∃ r, (run ∅ sampleEdits).attach ⟨⟨0⟩, 0⟩ ⟨⟨2⟩, 0⟩ = .ok r) ∧
    (run ∅ sampleEdits).attach ⟨⟨1⟩, 0⟩ ⟨⟨7⟩, 0⟩ =
      .error (.wrongDirection ⟨⟨1⟩, 0⟩ .output .input) ∧
    (∃ r, (run ∅ sampleEdits).join ⟨1⟩ ⟨1⟩ = .ok r) ∧
    (run ∅ sampleEdits).join ⟨2⟩ ⟨7⟩ = .error (.lacksPort ⟨2⟩ .output) ∧
    (run ∅ sampleEdits).join ⟨1⟩ ⟨3⟩ = .error (.noSuchNode ⟨3⟩) := by
  have h : (run ∅ sampleEdits).Obtainable := .run .empty sampleEdits_built
  have exactly : (run ∅ sampleEdits).LinksExactly := h.linksExactly
  refine ⟨h, exactly.attached_iff.mpr ⟨⟨_, rfl, rfl⟩, _, rfl, rfl⟩, ?_, ?_, ?_, ?_⟩
  · exact exactly.attach_error_iff.mpr (.source (.direction rfl rfl nofun))
  · exact exactly.joined_iff.mpr ⟨⟨_, rfl, nofun⟩, _, rfl, nofun⟩
  · exact exactly.join_error_iff.mpr (.noOutput ⟨_, rfl, rfl⟩)
  · exact exactly.join_error_iff.mpr (.noTarget ⟨_, rfl, nofun⟩ rfl)

end Diagram
end PipelineCanvas
