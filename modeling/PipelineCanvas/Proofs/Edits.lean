import PipelineCanvas.Diagram.Edit
import PipelineCanvas.Proofs.Results
/-! # What edits do

What each edit of a diagram asks for and what it leaves behind. An edit that adds or takes away
something is refused unless the nodes, ports and links that it names are there; where it is not
refused, the diagram after it is given field by field.

`Change` puts all edits together: what is true after every change is true after every edit that is
not refused. It has one case for each edit, with everything that the edit has checked as a
hypothesis, so a later proof about edits is a proof by cases on `Change` and opens none of the
functions that carry them out. What is kept by every change is kept by a run of edits (`run_keeps`),
the refused ones among them included. -/
namespace PipelineCanvas
namespace Diagram
variable {d e : Diagram}

/-- The port exists, on a node of the diagram, and has the direction. -/
def HasPort (d : Diagram) (port : PortAddress) (direction : Direction) : Prop :=
  ∃ node, d.node? port.node = some node ∧ node.ports[port.port]? = some ⟨direction⟩

/-- A port of a node that is not there does not exist. -/
theorem HasPort.stored {port : PortAddress} {direction : Direction}
    (h : d.HasPort port direction) : (d.node? port.node).isSome := by
  obtain ⟨node, hnode, -⟩ := h
  exact Option.isSome_of_mem hnode

/-- The three questions that are asked of a port together say that it exists and has the direction.
-/
theorem acceptPort_eq_ok_iff {port : PortAddress} {direction : Direction} :
    d.acceptPort port direction = .ok () ↔ d.HasPort port direction := by
  unfold acceptPort HasPort
  cases hnode : d.node? port.node with
  | none => simp [throw, throwThe, MonadExceptOf.throw]
  | some node =>
    cases hport : node.ports[port.port]? with
    | none => simp [hport, throw, throwThe, MonadExceptOf.throw]
    | some p =>
      obtain ⟨found⟩ := p
      by_cases hfound : found = direction
      · simp [hport, hfound, pure, Except.pure]
      · simp [hport, hfound, throw, throwThe, MonadExceptOf.throw]

/-- A port is refused for its node first, then for its index, then for its direction. -/
theorem acceptPort_eq_error_iff {port : PortAddress} {expected : Direction} {error : EditError} :
    d.acceptPort port expected = .error error ↔
      (d.node? port.node = none ∧ error = .noSuchNode port.node) ∨
      ∃ node, d.node? port.node = some node ∧
        ((node.ports[port.port]? = none ∧ error = .noSuchPort port) ∨
          ∃ found, node.ports[port.port]? = some ⟨found⟩ ∧ found ≠ expected ∧
            error = .wrongDirection port expected found) := by
  unfold acceptPort
  cases d.node? port.node with
  | none => simp [throw, throwThe, MonadExceptOf.throw, eq_comm]
  | some node =>
    simp only [Option.some.injEq, exists_eq_left', reduceCtorEq, false_and, false_or]
    cases node.ports[port.port]? with
    | none => simp [throw, throwThe, MonadExceptOf.throw, eq_comm]
    | some p =>
      obtain ⟨found⟩ := p
      by_cases hfound : found = expected
      · simp [hfound, pure, Except.pure]
      · have hne : expected ≠ found := Ne.symm hfound
        simp [hfound, hne, throw, throwThe, MonadExceptOf.throw, eq_comm]

/-- A link is stored under an identifier that is free, between ports that fit, and nothing else
happens. -/
theorem storeLink_eq_ok_iff {id : LinkId} {link : Link} :
    d.storeLink id link = .ok e ↔ d.link? id = none ∧ d.HasPort link.source .output ∧
      d.HasPort link.target .input ∧ e = { d with links := d.links.insert id link } := by
  unfold storeLink
  cases hid : d.links.contains id with
  | true =>
    obtain ⟨l, hl⟩ := Table.contains_iff.mp hid
    simp [link?, hl, bind, Except.bind, throw, throwThe, MonadExceptOf.throw]
  | false =>
    have free : d.link? id = none := Table.not_contains_iff.mp hid
    simp only [Bool.false_eq_true, if_false, bind_eq_ok_iff, ← acceptPort_eq_ok_iff]
    constructor
    · rintro ⟨⟨⟩, hs, ⟨⟩, ht, h⟩
      cases h
      exact ⟨free, hs, ht, rfl⟩
    · rintro ⟨-, hs, ht, rfl⟩
      exact ⟨(), hs, (), ht, rfl⟩

/-- The links that stay when a node goes are those that have no end there. -/
theorem get?_filter_touches {id : NodeId} {i : LinkId} {link : Link} :
    (d.links.filter fun _ l => !l.touches id).get? i = some link ↔
      d.link? i = some link ∧ link.source.node ≠ id ∧ link.target.node ≠ id := by
  simp [Table.get?_filter, Option.filter_eq_some_iff, Link.touches, link?]

/-- Linking ports takes the next identifier and moves the counter behind it. -/
theorem attach_eq_ok_iff {source target : PortAddress} {r : LinkId × Diagram} :
    d.attach source target = .ok r ↔ d.link? ⟨d.freshLink⟩ = none ∧ d.HasPort source .output ∧
      d.HasPort target .input ∧ r = (⟨d.freshLink⟩, { d with
        links := d.links.insert ⟨d.freshLink⟩ ⟨source, target⟩
        freshLink := d.freshLink + 1 }) := by
  simp only [attach, bind_eq_ok_iff, storeLink_eq_ok_iff, pure, Except.pure, Except.ok.injEq]
  constructor
  · rintro ⟨_, ⟨hid, hs, ht, rfl⟩, rfl⟩
    exact ⟨hid, hs, ht, rfl⟩
  · rintro ⟨hid, hs, ht, rfl⟩
    exact ⟨_, ⟨hid, hs, ht, rfl⟩, rfl⟩

theorem portOf_eq_ok_iff {id : NodeId} {direction : Direction} {port : PortAddress} :
    d.portOf id direction = .ok port ↔ d.port? id direction = some port := by
  unfold portOf
  by_cases hid : d.nodes.contains id = true
  · rw [if_pos hid]
    cases d.port? id direction <;> simp [pure, Except.pure, throw, throwThe, MonadExceptOf.throw]
  · have gone : d.node? id = none := Table.not_contains_iff.mp (Bool.eq_false_iff.mpr hid)
    simp [hid, port?, gone, throw, throwThe, MonadExceptOf.throw]

/-- Joining two nodes is attaching a link to the out-port of one and the in-port of the other. -/
theorem join_eq_ok_iff {source target : NodeId} {r : LinkId × Diagram} :
    d.join source target = .ok r ↔ ∃ s t, d.port? source .output = some s ∧
      d.port? target .input = some t ∧ d.attach s t = .ok r := by
  simp only [join, bind_eq_ok_iff, portOf_eq_ok_iff]
  constructor
  · rintro ⟨s, hs, t, ht, h⟩
    exact ⟨s, t, hs, ht, h⟩
  · rintro ⟨s, t, hs, ht, h⟩
    exact ⟨s, hs, t, ht, h⟩

/-- What is found as the port of a node in a direction is one of its ports, and has the direction.
-/
theorem hasPort_of_port? {id : NodeId} {direction : Direction} {port : PortAddress}
    (h : d.port? id direction = some port) : d.HasPort port direction := by
  obtain ⟨node, hnode, hindex⟩ := Option.bind_eq_some_iff.mp h
  obtain ⟨index, hfound, hport⟩ := Option.bind_eq_some_iff.mp hindex
  cases hport
  obtain ⟨hlt, hdirection, -⟩ := List.findIdx?_eq_some_iff_getElem.mp hfound
  refine ⟨node, hnode, ?_⟩
  rw [List.getElem?_eq_getElem hlt, ← beq_iff_eq.mp hdirection]

/-- Nodes that are there are joined if they have the ports, where the next identifier is free. -/
theorem join_of_port? {a b : NodeId} {source target : PortAddress}
    (free : d.link? ⟨d.freshLink⟩ = none) (hs : d.port? a .output = some source)
    (ht : d.port? b .input = some target) :
    d.join a b = .ok (⟨d.freshLink⟩, { d with
      links := d.links.insert ⟨d.freshLink⟩ ⟨source, target⟩, freshLink := d.freshLink + 1 }) :=
  join_eq_ok_iff.mpr ⟨source, target, hs, ht,
    attach_eq_ok_iff.mpr ⟨free, hasPort_of_port? hs, hasPort_of_port? ht, rfl⟩⟩

theorem portOf_eq_error {id : NodeId} {node : Node} {direction : Direction}
    (hnode : d.node? id = some node) (hport : d.port? id direction = none) :
    d.portOf id direction = .error (.lacksPort id direction) := by
  have stored : d.nodes.contains id = true := Table.contains_iff.mpr ⟨node, hnode⟩
  rw [portOf, if_pos stored, hport]
  rfl

/-- Joining two nodes is never more than linking two ports. -/
theorem attach_of_join {source target : NodeId} {r : LinkId × Diagram}
    (h : d.join source target = .ok r) : ∃ s t, d.attach s t = .ok r := by
  obtain ⟨s, t, -, -, h⟩ := join_eq_ok_iff.mp h
  exact ⟨s, t, h⟩

/-- A node goes with all the links that touch it, and with no others. -/
theorem remove_eq_ok_iff {id : NodeId} {r : Node × Diagram} :
    d.remove id = .ok r ↔ d.node? id = some r.1 ∧ r.2 = { d with
      nodes := d.nodes.erase id, links := d.links.filter fun _ l => !l.touches id } := by
  obtain ⟨node, e⟩ := r
  unfold remove
  cases d.node? id with
  | none => simp [throw, throwThe, MonadExceptOf.throw]
  | some n => simp [pure, Except.pure, eq_comm]

theorem detach_eq_ok_iff {id : LinkId} {r : Link × Diagram} :
    d.detach id = .ok r ↔
      d.link? id = some r.1 ∧ r.2 = { d with links := d.links.erase id } := by
  obtain ⟨link, e⟩ := r
  unfold detach
  cases d.link? id with
  | none => simp [throw, throwThe, MonadExceptOf.throw]
  | some l => simp [pure, Except.pure, eq_comm]

/-- A node that is there can be changed; its identifier and its links are not asked about. -/
theorem modifyNode_eq_ok_iff {id : NodeId} {f : Node → Node} :
    d.modifyNode id f = .ok e ↔
      d.nodes.contains id = true ∧ e = { d with nodes := d.nodes.modify id f } := by
  unfold modifyNode
  cases d.nodes.contains id <;>
    simp [pure, Except.pure, throw, throwThe, MonadExceptOf.throw, eq_comm]

/-- The diagram with a link under the next identifier. -/
def linked (d : Diagram) (link : Link) : Diagram := { d with
  links := d.links.insert ⟨d.freshLink⟩ link
  freshLink := d.freshLink + 1 }

/-- What an edit that is not refused hands back, and what it makes of the diagram. -/
inductive Change (d : Diagram) : Edit → Edit.Answer → Diagram → Prop
  | place (node : Node) : Change d (.place node) (.placed ⟨d.freshNode⟩) (d.place node).2
  /-- The links at the node go with it. -/
  | remove {id : NodeId} {node : Node} (stored : d.node? id = some node) :
    Change d (.remove id) (.removed node) { d with
      nodes := d.nodes.erase id, links := d.links.filter fun _ l => !l.touches id }
  /-- The ports are given, and have been checked. -/
  | attach {source target : PortAddress} (free : d.link? ⟨d.freshLink⟩ = none)
    (hs : d.HasPort source .output) (ht : d.HasPort target .input) :
    Change d (.attach source target) (.attached ⟨d.freshLink⟩) (d.linked ⟨source, target⟩)
  /-- The ports have been looked for on the two nodes. What is left behind is the same as for
  `attach`. -/
  | join {a b : NodeId} {source target : PortAddress} (free : d.link? ⟨d.freshLink⟩ = none)
    (hs : d.HasPort source .output) (ht : d.HasPort target .input) :
    Change d (.join a b) (.attached ⟨d.freshLink⟩) (d.linked ⟨source, target⟩)
  | detach {id : LinkId} {link : Link} (stored : d.link? id = some link) :
    Change d (.detach id) (.detached link) { d with links := d.links.erase id }
  /-- Another bag of properties takes the place of the old one. -/
  | configure {id : NodeId} {properties : Properties} (stored : d.nodes.contains id = true) :
    Change d (.configure id properties) .done
      { d with nodes := d.nodes.modify id fun node => { node with properties } }
  | move {id : NodeId} {position : Position} (stored : d.nodes.contains id = true) :
    Change d (.move id position) .done
      { d with nodes := d.nodes.modify id fun node => { node with position } }

/-- An edit that is not refused is a change, by what each operation asks for. -/
theorem change_of_perform {edit : Edit} {answer : Edit.Answer}
    (h : d.perform edit = .ok (answer, e)) : d.Change edit answer e := by
  cases edit with
  | place node =>
    cases h
    exact .place node
  | remove id =>
    obtain ⟨⟨node, e⟩, hr, h⟩ := bind_eq_ok_iff.mp h
    obtain ⟨stored, rfl⟩ := remove_eq_ok_iff.mp hr
    cases h
    exact .remove stored
  | attach source target =>
    obtain ⟨r, ha, h⟩ := bind_eq_ok_iff.mp h
    obtain ⟨free, hs, ht, rfl⟩ := attach_eq_ok_iff.mp ha
    cases h
    exact .attach free hs ht
  | join a b =>
    obtain ⟨r, hj, h⟩ := bind_eq_ok_iff.mp h
    obtain ⟨source, target, ha⟩ := attach_of_join hj
    obtain ⟨free, hs, ht, rfl⟩ := attach_eq_ok_iff.mp ha
    cases h
    exact .join free hs ht
  | detach id =>
    obtain ⟨⟨link, e⟩, hd, h⟩ := bind_eq_ok_iff.mp h
    obtain ⟨stored, rfl⟩ := detach_eq_ok_iff.mp hd
    cases h
    exact .detach stored
  | configure id properties =>
    obtain ⟨e, hc, h⟩ := bind_eq_ok_iff.mp h
    obtain ⟨stored, rfl⟩ := modifyNode_eq_ok_iff.mp hc
    cases h
    exact .configure stored
  | move id position =>
    obtain ⟨e, hm, h⟩ := bind_eq_ok_iff.mp h
    obtain ⟨stored, rfl⟩ := modifyNode_eq_ok_iff.mp hm
    cases h
    exact .move stored

/-- After an edit the diagram is the one it hands back, or the old one where it is refused. -/
theorem after_cases (d : Diagram) (edit : Edit) :
    (∃ answer, d.perform edit = .ok (answer, d.after edit)) ∨ d.after edit = d := by
  unfold after
  split
  · next answer _ h => exact .inl ⟨answer, h⟩
  · exact .inr rfl

/-- What every change keeps, a run of edits keeps. -/
theorem run_keeps {P : Diagram → Prop} {edits : List Edit}
    (keeps : ∀ {d e : Diagram} {edit answer}, edit ∈ edits → d.Change edit answer e → P d → P e)
    (h : P d) : P (d.run edits) := by
  induction edits generalizing d with
  | nil => exact h
  | cons edit edits ih =>
    refine ih (fun hmem => keeps (List.mem_cons_of_mem _ hmem)) ?_
    rcases d.after_cases edit with ⟨answer, hp⟩ | hp
    · exact keeps List.mem_cons_self (change_of_perform hp) h
    · rw [hp]
      exact h

end Diagram
end PipelineCanvas
