import PipelineCanvas.Proofs.Identifiers
/-! # Edits that commute

Edits that change or take out what is there **revise** a diagram. What such an edit does, it does to
each node and to each link by itself: `Edit.onNode` says what becomes of what is stored under the
identifier of a node, and `Edit.keeps` whether a link stays. That covers an edit which is refused:
what it names is not there, and in a well-formed diagram no link is at a node that is not there.

Two revisions are **independent** when neither changes what the other looks at. What becomes of a
node or a link is then the same in either order, so the diagrams are equal, and each edit answers as
it would have answered first.

With seven kinds of edits there are many pairs to compare, and going through them pair by pair would
prove the same few facts over and over. To say what a revision does to one identifier makes it a
matter of two functions on the content of one place: they commute if they are about different
places, or about different parts of one node. Links need even less, as a revision can only take them
out, and in which order several things ask for that does not matter (`after_comm`).

Edits that give out identifiers are left out, since two of them never commute: the number that each
gets depends on whether it comes first. Two removals of linked nodes are the case to watch. Both
take the link between them out, and whichever comes first, it is gone. -/
namespace PipelineCanvas

namespace Edit

/-- The edit changes or takes out the node. -/
inductive AtNode (id : NodeId) : Edit → Prop
  | configure (properties : Properties) : AtNode id (.configure id properties)
  | move (position : Position) : AtNode id (.move id position)
  /-- With the node its links go, which is why `Edit.keeps` is asked as well. -/
  | remove : AtNode id (.remove id)

/-- The edit changes or takes out what is there. -/
inductive Revises : Edit → Prop
  /-- What is revised is a node. -/
  | node {id : NodeId} {edit : Edit} (at_node : edit.AtNode id) : Revises edit
  /-- What is revised is a link, which can only be taken out. -/
  | link (id : LinkId) : Revises (.detach id)

/-- What the edit makes of what is stored under the identifier of a node. -/
def onNode : Edit → NodeId → Option Node → Option Node
  | .remove id, other, node => if other = id then none else node
  | .configure id properties, other, node =>
    if other = id then node.map fun n => { n with properties } else node
  | .move id position, other, node =>
    if other = id then node.map fun n => { n with position } else node
  | _, _, node => node

/-- Whether the edit lets a link stay. -/
def keeps : Edit → LinkId → Link → Bool
  | .remove id, _, link => !link.touches id
  | .detach id, other, _ => other != id
  | _, _, _ => true

/-- At any other node there is nothing to do. -/
theorem AtNode.onNode_of_ne {edit : Edit} {id other : NodeId} (h : edit.AtNode id)
    (hne : other ≠ id) (node : Option Node) : edit.onNode other node = node := by
  cases h <;> exact if_neg hne

/-- Only a removal leaves nothing where there was a node. -/
theorem isSome_onNode {edit : Edit} (h : ∀ id, edit ≠ .remove id) (other : NodeId)
    (node : Option Node) : (edit.onNode other node).isSome = node.isSome := by
  cases edit with
  | remove id => exact absurd rfl (h id)
  | configure id properties =>
    simp only [onNode]
    split <;> simp
  | move id position =>
    simp only [onNode]
    split <;> simp
  | _ => rfl

end Edit

namespace Diagram
variable {d e : Diagram} {edit first second : Edit}

/-- What an edit hands back, or why it is refused. -/
def reply (d : Diagram) (edit : Edit) : Except EditError Edit.Answer := Prod.fst <$> d.perform edit

/-- The two edits are about different nodes or links, or change different parts of nodes, and
neither takes out the link that the other is about. -/
inductive Independent (d : Diagram) : Edit → Edit → Prop
  /-- Edits at different nodes, removals among them. -/
  | nodes {first second : Edit} {a b : NodeId} (ha : first.AtNode a) (hb : second.AtNode b)
    (ne : a ≠ b) : Independent d first second
  /-- Properties and position are different parts of a node, so it may be the same one. -/
  | parts (a b : NodeId) (properties : Properties) (position : Position) :
    Independent d (.configure a properties) (.move b position)
  /-- Links are taken out one by one. -/
  | links {i j : LinkId} (ne : i ≠ j) : Independent d (.detach i) (.detach j)
  /-- A node with the links at it is not taken out when one of these is the link. -/
  | node_link {edit : Edit} {a : NodeId} {i : LinkId} (ha : edit.AtNode a)
    (apart : edit = .remove a → ∀ link, d.link? i = some link → link.touches a = false) :
    Independent d edit (.detach i)
  | symm {first second : Edit} (h : Independent d first second) : Independent d second first

/-! ### What each revision does -/

section
variable {id : NodeId} {g : Node → Node}

theorem modifyNode_of_stored (h : d.nodes.contains id = true) :
    d.modifyNode id g = .ok { d with nodes := d.nodes.modify id g } := if_pos h

theorem modifyNode_of_gone (h : d.nodes.contains id = false) :
    d.modifyNode id g = .error (.noSuchNode id) := by
  rw [modifyNode, h]
  rfl

/-- A node that is not there is not changed. -/
theorem after_of_modifyNode
    (h : d.perform edit = d.modifyNode id g >>= fun e => return (.done, e)) :
    d.after edit = { d with nodes := d.nodes.modify id g } := by
  rw [after, h]
  cases hid : d.nodes.contains id with
  | true =>
    rw [modifyNode_of_stored hid]
    rfl
  | false =>
    have gone : d.nodes.get? id = none := Table.not_contains_iff.mp hid
    rw [modifyNode_of_gone hid, Table.modify_of_get?_eq_none gone]
    rfl

/-- Whether a node can be changed depends only on whether it is there. -/
theorem reply_of_modifyNode
    (h : d.perform edit = d.modifyNode id g >>= fun e => return (.done, e)) :
    d.reply edit = if d.nodes.contains id then .ok .done else .error (.noSuchNode id) := by
  rw [reply, h]
  cases hid : d.nodes.contains id with
  | true =>
    rw [modifyNode_of_stored hid]
    rfl
  | false =>
    rw [modifyNode_of_gone hid]
    rfl

theorem reply_remove (d : Diagram) (id : NodeId) : d.reply (.remove id) =
    match d.node? id with
    | none => .error (.noSuchNode id)
    | some node => .ok (.removed node) := by
  show Prod.fst <$> (d.remove id >>= _) = _
  unfold remove
  cases d.node? id <;> rfl

theorem reply_detach (d : Diagram) (id : LinkId) : d.reply (.detach id) =
    match d.link? id with
    | none => .error (.noSuchLink id)
    | some link => .ok (.detached link) := by
  show Prod.fst <$> (d.detach id >>= _) = _
  unfold detach
  cases d.link? id <;> rfl

/-- Also where there is no such link, as then there is nothing to take out. -/
theorem after_detach (d : Diagram) (id : LinkId) :
    d.after (.detach id) = { d with links := d.links.erase id } := by
  cases hlink : d.link? id with
  | some link =>
    simp only [after, perform, detach, hlink]
    rfl
  | none =>
    rw [Table.erase_of_get?_eq_none hlink]
    simp only [after, perform, detach, hlink]
    rfl

/-- At a node that is not there are no links. -/
theorem WellFormed.filter_touches_of_gone (h : d.WellFormed) (gone : d.node? id = none) :
    (d.links.filter fun _ l => !l.touches id) = d.links := by
  refine Table.ext_get? fun i => Option.ext fun link => get?_filter_touches.trans ?_
  refine ⟨And.left, fun hlink => ⟨hlink, ?_, ?_⟩⟩
  · rintro rfl
    have hstored := (h.source_fits hlink).stored
    rw [gone] at hstored
    cases hstored
  · rintro rfl
    have hstored := (h.target_fits hlink).stored
    rw [gone] at hstored
    cases hstored

/-- Also where there is no such node, as then no link is at it. -/
theorem WellFormed.after_remove (h : d.WellFormed) (id : NodeId) :
    d.after (.remove id) = { d with
      nodes := d.nodes.erase id, links := d.links.filter fun _ l => !l.touches id } := by
  cases hnode : d.node? id with
  | some node =>
    simp only [Diagram.after, perform, Diagram.remove, hnode]
    rfl
  | none =>
    rw [h.filter_touches_of_gone hnode, Table.erase_of_get?_eq_none hnode]
    simp only [Diagram.after, perform, Diagram.remove, hnode]
    rfl

end

/-! ### Node by node and link by link -/

/-- The second diagram is the first after a revision. -/
structure Revised (d e : Diagram) (edit : Edit) : Prop where
  /-- Every node is what the edit makes of what was there, or of nothing. -/
  node?_eq : ∀ id, e.node? id = edit.onNode id (d.node? id)
  /-- A link is what it was, or it is gone. -/
  link?_eq : ∀ id, e.link? id = (d.link? id).filter (edit.keeps id)
  freshNode_eq : e.freshNode = d.freshNode
  freshLink_eq : e.freshLink = d.freshLink

/-- Whether the edit is refused does not matter, so there is one case for each edit and not two. -/
theorem WellFormed.revised (h : d.WellFormed) (revises : edit.Revises) :
    d.Revised (d.after edit) edit := by
  have all_kept : ∀ id, d.link? id = (d.link? id).filter fun _ => true := by
    intro id
    cases d.link? id <;> rfl
  cases revises with
  | link id =>
    rw [after_detach]
    refine ⟨fun _ => rfl, fun other => (Table.get?_erase ..).trans ?_, rfl, rfl⟩
    show _ = (d.links.get? other).filter fun _ => other != id
    by_cases heq : other = id
    · rw [if_pos heq, heq, bne_self_eq_false]
      cases d.links.get? id <;> rfl
    · rw [if_neg heq, bne_iff_ne.mpr heq]
      exact all_kept other
  | node at_node =>
    cases at_node with
    | configure properties =>
      rw [after_of_modifyNode rfl]
      exact ⟨fun _ => Table.get?_modify .., all_kept, rfl, rfl⟩
    | move position =>
      rw [after_of_modifyNode rfl]
      exact ⟨fun _ => Table.get?_modify .., all_kept, rfl, rfl⟩
    | remove =>
      rw [h.after_remove]
      exact ⟨fun _ => Table.get?_erase .., fun _ => Table.get?_filter .., rfl, rfl⟩

theorem WellFormed.after_revises (h : d.WellFormed) (revises : edit.Revises) :
    (d.after edit).WellFormed := by
  refine h.after ?_
  cases revises with
  | link => exact trivial
  | node at_node => cases at_node <;> exact trivial

namespace Revised

theorem contains_eq (h : d.Revised e edit) (hedit : ∀ id, edit ≠ .remove id) (id : NodeId) :
    e.nodes.contains id = d.nodes.contains id := by
  show (e.node? id).isSome = (d.node? id).isSome
  rw [h.node?_eq, Edit.isSome_onNode hedit]

/-- A link that the edit does not ask for is there as before. -/
theorem link?_of_kept (h : d.Revised e edit) {id : LinkId}
    (kept : ∀ link, d.link? id = some link → edit.keeps id link = true) :
    e.link? id = d.link? id := by
  rw [h.link?_eq]
  cases hlink : d.link? id with
  | none => rfl
  | some link => exact if_pos (kept link hlink)

end Revised

/-! ### Independent revisions -/

/-- An edit at a node answers by the node alone. -/
theorem reply_congr_of_node {a : NodeId} (h : edit.AtNode a) (hnode : e.node? a = d.node? a) :
    e.reply edit = d.reply edit := by
  have hcontains : e.nodes.contains a = d.nodes.contains a := congrArg Option.isSome hnode
  cases h with
  | configure => rw [reply_of_modifyNode rfl, reply_of_modifyNode rfl, hcontains]
  | move => rw [reply_of_modifyNode rfl, reply_of_modifyNode rfl, hcontains]
  | remove => rw [reply_remove, reply_remove, hnode]

/-- Taking out a link answers by the link alone. -/
theorem reply_congr_of_link {i : LinkId} (hlink : e.link? i = d.link? i) :
    e.reply (.detach i) = d.reply (.detach i) := by
  rw [reply_detach, reply_detach, hlink]

namespace Independent

theorem revises (h : d.Independent first second) : first.Revises ∧ second.Revises := by
  induction h with
  | nodes ha hb => exact ⟨.node ha, .node hb⟩
  | parts a b properties position => exact ⟨.node (.configure _), .node (.move _)⟩
  | links => exact ⟨.link _, .link _⟩
  | node_link ha => exact ⟨.node ha, .link _⟩
  | symm _ ih => exact ih.symm

/-- The heart of the matter: on the content of one place, independent revisions commute. -/
theorem onNode_comm (h : d.Independent first second) (id : NodeId) (node : Option Node) :
    first.onNode id (second.onNode id node) = second.onNode id (first.onNode id node) := by
  induction h with
  | @nodes first second a b ha hb ne =>
    by_cases heq : id = a
    · have hb_id : id ≠ b := fun h => ne (heq.symm.trans h)
      rw [hb.onNode_of_ne hb_id, hb.onNode_of_ne hb_id]
    · rw [ha.onNode_of_ne heq, ha.onNode_of_ne heq]
  | parts a b properties position =>
    simp only [Edit.onNode]
    split_ifs
    · cases node <;> rfl
    · rfl
    · rfl
    · rfl
  | links => rfl
  | node_link => rfl
  | symm _ ih => exact ih.symm

/-- Neither edit changes what the other answers. -/
theorem reply_eq (h : d.Independent first second) (hd : d.WellFormed) :
    (d.after second).reply first = d.reply first ∧
      (d.after first).reply second = d.reply second := by
  have revised : ∀ {edit : Edit}, edit.Revises → d.Revised (d.after edit) edit :=
    fun hedit => hd.revised hedit
  induction h with
  | @nodes first second a b ha hb ne =>
    -- each answers from its own node, and the other edit leaves that alone
    have hnode : (d.after second).node? a = d.node? a :=
      ((revised (.node hb)).node?_eq a).trans (hb.onNode_of_ne ne _)
    have hnode' : (d.after first).node? b = d.node? b :=
      ((revised (.node ha)).node?_eq b).trans (ha.onNode_of_ne ne.symm _)
    exact ⟨reply_congr_of_node ha hnode, reply_congr_of_node hb hnode'⟩
  | parts a b properties position =>
    -- both answer from whether the node is stored, which neither changes
    have hcontains : (d.after (.move b position)).nodes.contains a = d.nodes.contains a :=
      (revised (.node (.move position))).contains_eq nofun a
    have hcontains' : (d.after (.configure a properties)).nodes.contains b = d.nodes.contains b :=
      (revised (.node (.configure properties))).contains_eq nofun b
    constructor
    · rw [reply_of_modifyNode rfl, reply_of_modifyNode rfl, hcontains]
    · rw [reply_of_modifyNode rfl, reply_of_modifyNode rfl, hcontains']
  | @links i j ne =>
    have hlink : (d.after (.detach j)).link? i = d.link? i :=
      (revised (.link j)).link?_of_kept fun _ _ => bne_iff_ne.mpr ne
    have hlink' : (d.after (.detach i)).link? j = d.link? j :=
      (revised (.link i)).link?_of_kept fun _ _ => bne_iff_ne.mpr ne.symm
    exact ⟨reply_congr_of_link hlink, reply_congr_of_link hlink'⟩
  | @node_link edit a i ha apart =>
    have hnode : (d.after (.detach i)).node? a = d.node? a := (revised (.link i)).node?_eq a
    -- only a node that is taken out takes links with it, and then `i` is not among them
    have hkept : ∀ link, d.link? i = some link → edit.keeps i link = true := by
      intro link hlink
      cases ha with
      | configure => rfl
      | move => rfl
      | remove =>
        show (!link.touches a) = true
        rw [apart rfl link hlink]
        rfl
    exact ⟨reply_congr_of_node ha hnode,
      reply_congr_of_link ((revised (.node ha)).link?_of_kept hkept)⟩
  | symm _ ih => exact ih.symm

/-- The diagrams after both edits are equal, link by link and node by node. -/
theorem after_comm (h : d.Independent first second) (hd : d.WellFormed) :
    (d.after first).after second = (d.after second).after first := by
  obtain ⟨hfirst, hsecond⟩ := h.revises
  have one := hd.revised hfirst
  have one_two := (hd.after_revises hfirst).revised hsecond
  have two := hd.revised hsecond
  have two_one := (hd.after_revises hsecond).revised hfirst
  refine Diagram.ext (Table.ext_get? fun id => ?_) (Table.ext_get? fun id => ?_) ?_ ?_
  · calc ((d.after first).after second).node? id
      _ = second.onNode id (first.onNode id (d.node? id)) := by
        rw [one_two.node?_eq, one.node?_eq]
      _ = first.onNode id (second.onNode id (d.node? id)) := (h.onNode_comm id _).symm
      _ = ((d.after second).after first).node? id := by rw [two_one.node?_eq, two.node?_eq]
  · calc ((d.after first).after second).link? id
      _ = ((d.link? id).filter (first.keeps id)).filter (second.keeps id) := by
        rw [one_two.link?_eq, one.link?_eq]
      _ = ((d.link? id).filter (second.keeps id)).filter (first.keeps id) := by
        simp only [Option.filter_filter, Bool.and_comm]
      _ = ((d.after second).after first).link? id := by rw [two_one.link?_eq, two.link?_eq]
  · rw [one_two.freshNode_eq, one.freshNode_eq, two_one.freshNode_eq, two.freshNode_eq]
  · rw [one_two.freshLink_eq, one.freshLink_eq, two_one.freshLink_eq, two.freshLink_eq]

end Independent

/-- **Independent edits commute.** In either order they make the same diagram, counters included,
and each hands back the same or is refused for the same reason, be what it names there or not. -/
theorem Obtainable.run_comm (h : d.Obtainable) (independent : d.Independent first second) :
    d.run [first, second] = d.run [second, first] ∧
      ∃ one two, d.outcomes [first, second] = [one, two] ∧
        d.outcomes [second, first] = [two, one] := by
  have hd : d.WellFormed := h.wellFormed
  obtain ⟨hfirst, hsecond⟩ := independent.reply_eq hd
  refine ⟨independent.after_comm hd, d.reply first, d.reply second, ?_, ?_⟩
  · exact congrArg (fun reply => [d.reply first, reply]) hsecond
  · exact congrArg (fun reply => [d.reply second, reply]) hfirst

/-- Two neighbours are removed in either order, a link is removed before or after one of its ends,
and each of two edits is answered as if there were no other. -/
theorem run_comm_sample : (run ∅ sampleEdits).Obtainable ∧
    ((run ∅ sampleEdits).links.keys = [⟨0⟩, ⟨1⟩] ∧
      ((run ∅ sampleEdits).run [.remove ⟨0⟩, .remove ⟨1⟩]).links.keys = [] ∧
      (run ∅ sampleEdits).run [.remove ⟨0⟩, .remove ⟨1⟩] =
        (run ∅ sampleEdits).run [.remove ⟨1⟩, .remove ⟨0⟩]) ∧
    (run ∅ sampleEdits).run [.remove ⟨0⟩, .detach ⟨1⟩] =
      (run ∅ sampleEdits).run [.detach ⟨1⟩, .remove ⟨0⟩] ∧
    ∃ one, (run ∅ sampleEdits).outcomes [.configure ⟨1⟩ ∅, .move ⟨3⟩ default] =
        [one, .error (.noSuchNode ⟨3⟩)] ∧
      (run ∅ sampleEdits).outcomes [.move ⟨3⟩ default, .configure ⟨1⟩ ∅] =
        [.error (.noSuchNode ⟨3⟩), one] := by
  have h : (run ∅ sampleEdits).Obtainable := .run .empty sampleEdits_built
  have removals : (run ∅ sampleEdits).Independent (.remove ⟨0⟩) (.remove ⟨1⟩) :=
    .nodes .remove .remove (by decide)
  have apart : (run ∅ sampleEdits).Independent (.remove ⟨0⟩) (.detach ⟨1⟩) := by
    refine .node_link .remove fun _ link hlink => ?_
    obtain rfl : ⟨⟨⟨1⟩, 1⟩, ⟨⟨2⟩, 0⟩⟩ = link := Option.some.inj hlink
    decide
  have parts : (run ∅ sampleEdits).Independent (.configure ⟨1⟩ ∅) (.move ⟨3⟩ default) :=
    .parts _ _ _ _
  obtain ⟨-, one, two, hone, htwo⟩ := h.run_comm parts
  obtain rfl : .error (.noSuchNode ⟨3⟩) = two := (List.cons.inj (List.cons.inj hone).2).1
  exact ⟨h, ⟨by decide, by decide, (h.run_comm removals).1⟩, (h.run_comm apart).1, one, hone, htwo⟩

end Diagram
end PipelineCanvas
