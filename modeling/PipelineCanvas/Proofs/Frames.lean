import PipelineCanvas.Proofs.Reachability
import PipelineCanvas.Proofs.Stages
/-! # What edits leave alone

An edit changes what it names and nothing else. What the second of two diagrams keeps of the first
is said by a relation for each way in which an edit changes a diagram: a node is put in
(`Diagram.AddsNode`), taken out with the links at it (`Diagram.DropsNode`) or changed
(`Diagram.ChangesNode`), or a link is taken out (`Diagram.DropsLink`).

A walk along a chain looks at kinds and links only, so a node that keeps its kind may be changed
without a change to any chain (`Diagram.ChangesNode.chain_eq`). A source is made of names and
properties, so it takes no notice of a move, or of a node that is not on the chain.

A new node has no links yet. Those that are put at it go with it when it is taken out, so what was
there before stays (`Diagram.GrowsAt`).

The relations say what is seen under each identifier, and not how the tables are built, so together
with the counters each of them determines the second diagram. Putting in a link has its relation
elsewhere (`Diagram.Gains`), since it is proved along with when a link can be put in.

Taking a node out does not bring back the counter. So a diagram to which a node has been added and
from which it has been taken again is the one before in its nodes and links, and is numbered on from
further ahead; the number of the node is not used again. -/
namespace PipelineCanvas

/-- The edit puts a link at the node. -/
inductive Edit.LinksAt (id : NodeId) : Edit → Prop
  /-- A link that leaves the node, by any port and to anywhere. -/
  | attachFrom (port : Nat) (target : PortAddress) : LinksAt id (.attach ⟨id, port⟩ target)
  /-- A link that enters the node. -/
  | attachTo (source : PortAddress) (port : Nat) : LinksAt id (.attach source ⟨id, port⟩)
  | joinFrom (target : NodeId) : LinksAt id (.join id target)
  | joinTo (source : NodeId) : LinksAt id (.join source id)

namespace Diagram
variable {d e f : Diagram}

/-- The second diagram is the first with one node more. -/
structure AddsNode (d e : Diagram) (id : NodeId) (node : Node) : Prop where
  /-- The identifier was free before. -/
  node_new : d.node? id = none
  node?_eq : e.node? id = some node
  /-- Under every other identifier there is what was there before. -/
  others : ∀ {other}, other ≠ id → e.node? other = d.node? other
  links_eq : e.links = d.links
  freshNode_eq : e.freshNode = d.freshNode + 1
  freshLink_eq : e.freshLink = d.freshLink

/-- The second diagram is the first without a node and the links at it. -/
structure DropsNode (d e : Diagram) (id : NodeId) : Prop where
  node_gone : e.node? id = none
  /-- Under every other identifier there is what was there before. -/
  others : ∀ {other}, other ≠ id → e.node? other = d.node? other
  /-- The links that stay are those that do not end at the node. -/
  link?_iff : ∀ {i link}, e.link? i = some link ↔
    d.link? i = some link ∧ link.source.node ≠ id ∧ link.target.node ≠ id
  /-- The counters stay where they are, so the number is not given out again. -/
  freshNode_eq : e.freshNode = d.freshNode
  freshLink_eq : e.freshLink = d.freshLink

/-- The second diagram is the first with a function applied to one node. -/
structure ChangesNode (d e : Diagram) (id : NodeId) (g : Node → Node) : Prop where
  /-- The node was there, and is there in its new form. -/
  node?_eq : ∃ node, d.node? id = some node ∧ e.node? id = some (g node)
  others : ∀ {other}, other ≠ id → e.node? other = d.node? other
  /-- Its links stay with it. -/
  links_eq : e.links = d.links
  freshNode_eq : e.freshNode = d.freshNode
  freshLink_eq : e.freshLink = d.freshLink

/-- The second diagram is the first without a link. -/
structure DropsLink (d e : Diagram) (id : LinkId) : Prop where
  link_gone : e.link? id = none
  /-- All other links are as they were, also those between the same nodes. -/
  others : ∀ {other}, other ≠ id → e.link? other = d.link? other
  /-- The nodes at both ends stay as they are. -/
  nodes_eq : e.nodes = d.nodes
  freshNode_eq : e.freshNode = d.freshNode
  freshLink_eq : e.freshLink = d.freshLink

/-! ### What each edit changes -/

/-- That the number is free is where it is needed that counters are ahead. -/
theorem WellFormed.addsNode (h : d.WellFormed) (node : Node) :
    d.AddsNode (d.place node).2 (d.place node).1 node where
  node_new := h.node_fresh
  node?_eq := Table.get?_insert_self d.nodes _ node
  others hne := Table.get?_insert_of_ne d.nodes hne node
  links_eq := rfl
  freshNode_eq := rfl
  freshLink_eq := rfl

theorem dropsNode_of_remove {id : NodeId} {node : Node} (h : d.remove id = .ok (node, e)) :
    d.DropsNode e id := by
  obtain ⟨-, rfl⟩ := remove_eq_ok_iff.mp h
  constructor
  · exact Table.get?_erase_self d.nodes id
  · exact fun hne => Table.get?_erase_of_ne d.nodes hne
  · exact get?_filter_touches
  · rfl
  · rfl

/-- One lemma for all edits that change a node in its place. -/
theorem changesNode_of_modifyNode {id : NodeId} {g : Node → Node}
    (h : d.modifyNode id g = .ok e) : d.ChangesNode e id g := by
  obtain ⟨stored, rfl⟩ := modifyNode_eq_ok_iff.mp h
  obtain ⟨node, hnode⟩ := Table.contains_iff.mp stored
  constructor
  · refine ⟨node, hnode, ?_⟩
    show (d.nodes.modify id g).get? id = _
    rw [Table.get?_modify_self, hnode]
    rfl
  · exact fun hne => Table.get?_modify_of_ne d.nodes hne g
  · rfl
  · rfl
  · rfl

theorem dropsLink_of_detach {id : LinkId} {link : Link} (h : d.detach id = .ok (link, e)) :
    d.DropsLink e id := by
  obtain ⟨-, rfl⟩ := detach_eq_ok_iff.mp h
  constructor
  · exact Table.get?_erase_self d.links id
  · exact fun hne => Table.get?_erase_of_ne d.links hne
  · rfl
  · rfl
  · rfl

/-! ### Chains and sources after a change of a node -/

namespace ChangesNode
variable {id : NodeId} {g : Node → Node}

/-- What a changed node is met as. -/
def image (id : NodeId) (g : Node → Node) (s : Stop) : Node := if s.1 = id then g s.2 else s.2

/-- Every node is found where it was, in its new form if it is the one. -/
theorem node?_image (h : d.ChangesNode e id g) {other : NodeId} {node : Node}
    (hnode : d.node? other = some node) : e.node? other = some (image id g (other, node)) := by
  by_cases heq : other = id
  · obtain ⟨changed, hold, hnew⟩ := h.node?_eq
    rw [heq, hold] at hnode
    cases hnode
    rw [heq, hnew, image, if_pos rfl]
  · rw [h.others heq, hnode, image, if_neg heq]

theorem kind_image (hkind : ∀ n, (g n).kind = n.kind) (s : Stop) :
    (image id g s).kind = s.2.kind := by
  unfold image
  split
  · exact hkind s.2
  · rfl

/-- There are no nodes but those that were there. -/
theorem exists_node (h : d.ChangesNode e id g) {other : NodeId} {node : Node}
    (hnode : e.node? other = some node) :
    ∃ old, d.node? other = some old ∧ node = image id g (other, old) := by
  have hstored : ∃ old, d.node? other = some old := by
    by_cases heq : other = id
    · obtain ⟨changed, hold, -⟩ := h.node?_eq
      exact ⟨changed, heq ▸ hold⟩
    · exact ⟨node, (h.others heq).symm.trans hnode⟩
  obtain ⟨old, hold⟩ := hstored
  have himage := h.node?_image hold
  rw [hnode] at himage
  exact ⟨old, hold, Option.some.inj himage⟩

theorem hasKind_iff (h : d.ChangesNode e id g) (hkind : ∀ n, (g n).kind = n.kind)
    {other : NodeId} {kind : BlockKind} : e.HasKind other kind ↔ d.HasKind other kind := by
  constructor
  · rintro ⟨node, hnode, hk⟩
    obtain ⟨old, hold, rfl⟩ := h.exists_node hnode
    exact ⟨old, hold, (kind_image hkind _).symm.trans hk⟩
  · rintro ⟨old, hold, hk⟩
    exact ⟨_, h.node?_image hold, (kind_image hkind _).trans hk⟩

theorem linksWhere_eq (h : d.ChangesNode e id g) (p : Link → Bool) :
    e.linksWhere p = d.linksWhere p := by
  rw [linksWhere, linksWhere, h.links_eq]

/-- A change that keeps the kind keeps what a walk looks at, on the reached nodes and on all others.
-/
theorem agreesOnReached (h : d.ChangesNode e id g) (hd : d.WellFormed)
    (hkind : ∀ n, (g n).kind = n.kind) : d.AgreesOnReached e where
  producer_iff _ := h.hasKind_iff hkind
  stored hreached := by
    obtain ⟨node, hnode⟩ := hreached.exists_node hd
    exact ⟨node, _, hnode, h.node?_image hnode, kind_image hkind _⟩
  targets_perm _ := by
    rw [targets, targets, linksLeavingNode, linksLeavingNode, h.linksWhere_eq]

/-- A chain has the changed node where it had the node. -/
theorem chain_eq (h : d.ChangesNode e id g) (hd : d.WellFormed) (he : e.WellFormed)
    (hkind : ∀ n, (g n).kind = n.kind) (limit : Nat) (refuse : Bool) :
    e.chain limit refuse =
      List.map (fun s : Stop => (s.1, image id g s)) <$> d.chain limit refuse := by
  refine (h.agreesOnReached hd hkind).chain_eq hd he (fun _ hnode => h.node?_image hnode) ?_ limit
  intro _ other _
  rw [arrivals, arrivals, h.linksWhere_eq]

variable {rules : SourceRules}

/-- So the chain is told with the same identifiers, or fails with the same error. -/
theorem chainIds_kept (h : d.ChangesNode e id g) (hd : d.WellFormed) (he : e.WellFormed)
    (hkind : ∀ n, (g n).kind = n.kind) : rules.chainIds e = rules.chainIds d := by
  rw [rules.chainIds_eq_map, rules.chainIds_eq_map, h.chain_eq hd he hkind]
  cases d.chain rules.stepLimit rules.refuseMerges with
  | error error => rfl
  | ok stops => exact congrArg Except.ok List.map_map

/-- The source is the same if on the chain each node stands for the stage that it stood for. -/
theorem source_eq (h : d.ChangesNode e id g) (hd : d.WellFormed) (he : e.WellFormed)
    (hkind : ∀ n, (g n).kind = n.kind)
    (hstage : ∀ {ids n}, rules.chainIds d = .ok ids → id ∈ ids →
      rules.stage (g n) = rules.stage n) : rules.source e = rules.source d := by
  rw [rules.chainIds_eq_map] at hstage
  rw [rules.source_eq_map, rules.source_eq_map, h.chain_eq hd he hkind]
  cases hchain : d.chain rules.stepLimit rules.refuseMerges with
  | error error => rfl
  | ok stops =>
    rw [hchain] at hstage
    have hstages : ∀ s ∈ stops, rules.stage (image id g s) = rules.stage s.2 := by
      intro s hs
      unfold image
      split
      · next heq => exact hstage rfl (List.mem_map.mpr ⟨s, hs, heq⟩)
      · rfl
    refine congrArg (fun stages => Except.ok (stageSeparator.intercalate stages)) ?_
    rw [List.map_map]
    exact List.map_congr_left hstages

end ChangesNode

/-! ### A node that comes and goes -/

/-- The second diagram is the first with a node and with links at it. -/
structure GrowsAt (d e : Diagram) (id : NodeId) (node : Node) : Prop where
  /-- The first has no node of the identifier. -/
  node_new : d.node? id = none
  node?_eq : e.node? id = some node
  others : ∀ {other}, other ≠ id → e.node? other = d.node? other
  /-- No link is lost. -/
  link?_of_old : ∀ {i link}, d.link? i = some link → e.link? i = some link
  /-- What is new among the links is at the node. -/
  link?_of_new : ∀ {i link}, e.link? i = some link → link.touches id = false →
    d.link? i = some link

namespace GrowsAt
variable {id : NodeId} {node : Node}

/-- At first there are no new links. -/
theorem place (h : d.WellFormed) (node : Node) :
    d.GrowsAt (d.place node).2 (d.place node).1 node where
  node_new := h.node_fresh
  node?_eq := (h.addsNode node).node?_eq
  others hne := (h.addsNode node).others hne
  link?_of_old hlink := hlink
  link?_of_new hlink _ := hlink

/-- A link at the node may be added, under the next identifier. -/
theorem linked (h : d.GrowsAt e id node) {link : Link} (free : e.link? ⟨e.freshLink⟩ = none)
    (touches : link.touches id = true) : d.GrowsAt (e.linked link) id node where
  node_new := h.node_new
  node?_eq := h.node?_eq
  others := h.others
  link?_of_old {i other} hother := by
    have hstored := h.link?_of_old hother
    have hne : i ≠ ⟨e.freshLink⟩ := by
      rintro rfl
      rw [free] at hstored
      cases hstored
    exact (Table.get?_insert_of_ne e.links hne link).trans hstored
  link?_of_new {i other} hother haway := by
    rcases Table.get?_insert_cases hother with ⟨-, rfl⟩ | hother
    · rw [touches] at haway
      cases haway
    · exact h.link?_of_new hother haway

/-- A link that is attached leaves or enters the node that the edit puts it at. -/
theorem perform (h : d.GrowsAt e id node) {edit : Edit} (at_node : Edit.LinksAt id edit)
    {answer : Edit.Answer} (hp : e.perform edit = .ok (answer, f)) : d.GrowsAt f id node := by
  -- joining ends in attaching, so this does for all four edits
  have attach : ∀ {source target : PortAddress} {i : LinkId} {f : Diagram},
      source.node = id ∨ target.node = id → e.attach source target = .ok (i, f) →
        d.GrowsAt f id node := by
    intro source target i f hend hattach
    obtain ⟨free, -, -, heq⟩ := attach_eq_ok_iff.mp hattach
    cases heq
    have touches : (Link.mk source target).touches id = true := by
      simpa [Link.touches] using hend
    exact h.linked free touches
  cases at_node with
  | attachFrom port target =>
    obtain ⟨r, hattach, hp⟩ := bind_eq_ok_iff.mp hp
    cases hp
    exact attach (.inl rfl) hattach
  | attachTo source port =>
    obtain ⟨r, hattach, hp⟩ := bind_eq_ok_iff.mp hp
    cases hp
    exact attach (.inr rfl) hattach
  | joinFrom target =>
    obtain ⟨r, hjoin, hp⟩ := bind_eq_ok_iff.mp hp
    obtain ⟨s, t, hs, -, hattach⟩ := join_eq_ok_iff.mp hjoin
    cases hp
    exact attach (.inl (node_of_port? hs)) hattach
  | joinTo source =>
    obtain ⟨r, hjoin, hp⟩ := bind_eq_ok_iff.mp hp
    obtain ⟨s, t, -, ht, hattach⟩ := join_eq_ok_iff.mp hjoin
    cases hp
    exact attach (.inr (node_of_port? ht)) hattach

/-- By induction on the edits. One that is refused adds nothing. -/
theorem run (h : d.GrowsAt e id node) {edits : List Edit}
    (at_node : ∀ edit ∈ edits, Edit.LinksAt id edit) : d.GrowsAt (e.run edits) id node := by
  induction edits generalizing e with
  | nil => exact h
  | cons edit edits ih =>
    obtain ⟨hedit, hedits⟩ := List.forall_mem_cons.mp at_node
    have hafter : d.GrowsAt (e.after edit) id node := by
      rcases e.after_cases edit with ⟨answer, hp⟩ | hsame
      · exact h.perform hedit hp
      · rw [hsame]
        exact h
    exact ih hafter hedits

/-- With the node go all links that are not of the first diagram, which has none at the node. -/
theorem remove (h : d.GrowsAt e id node) (hd : d.WellFormed) :
    ∃ f, e.remove id = .ok (node, f) ∧ f.nodes = d.nodes ∧ f.links = d.links := by
  refine ⟨_, remove_eq_ok_iff.mpr ⟨h.node?_eq, rfl⟩, ?_, ?_⟩
  · refine Table.ext_get? fun other => ?_
    by_cases heq : other = id
    · rw [heq]
      exact (Table.get?_erase_self e.nodes id).trans h.node_new.symm
    · exact (Table.get?_erase_of_ne e.nodes heq).trans (h.others heq)
  · refine Table.ext_get? fun i => Option.ext fun link => ?_
    refine get?_filter_touches.trans ⟨?_, fun hlink => ?_⟩
    · rintro ⟨hlink, hs, ht⟩
      exact h.link?_of_new hlink (by simp [Link.touches, hs, ht])
    · -- the ends of an old link are at nodes that are stored
      have away : ∀ {port : PortAddress}, (d.node? port.node).isSome → port.node ≠ id := by
        rintro port hstored rfl
        rw [h.node_new] at hstored
        cases hstored
      exact ⟨h.link?_of_old hlink, away (hd.source_fits hlink).stored,
        away (hd.target_fits hlink).stored⟩

end GrowsAt

/-! ### All edits -/

/-- What is promised of what each edit changes, and of the chains and sources after it. -/
structure TouchesOnlyNamed (d : Diagram) : Prop where
  /-- A new node is put in under the next number. -/
  place : ∀ node, d.AddsNode (d.place node).2 (d.place node).1 node
  /-- A node goes with its links, and is what the edit answers with. -/
  remove : ∀ {id node e}, d.remove id = .ok (node, e) →
    d.node? id = some node ∧ d.DropsNode e id
  /-- A link goes alone, and is what the edit answers with. -/
  detach : ∀ {id link e}, d.detach id = .ok (link, e) →
    d.link? id = some link ∧ d.DropsLink e id
  /-- Other properties never change the chain, and change the source only if the node is on it. -/
  configure : ∀ {id properties e}, d.configure id properties = .ok e →
    d.ChangesNode e id (fun node => { node with properties }) ∧
      ∀ rules : SourceRules, rules.chainIds e = rules.chainIds d ∧
        ((∀ ids, rules.chainIds d = .ok ids → id ∉ ids) → rules.source e = rules.source d)
  /-- A position never changes the chain, nor the source as long as blocks have no writers of their
  own, which might read it. -/
  move : ∀ {id position e}, d.move id position = .ok e →
    d.ChangesNode e id (fun node => { node with position }) ∧
      ∀ rules : SourceRules, rules.chainIds e = rules.chainIds d ∧
        (rules.writers = ∅ → rules.source e = rules.source d)
  /-- A node is placed, links are put at it, and it is removed. -/
  restore : ∀ (node : Node) {edits : List Edit},
    (∀ edit ∈ edits, Edit.LinksAt (d.place node).1 edit) →
      ∃ e, ((d.place node).2.run edits).remove (d.place node).1 = .ok (node, e) ∧
        e.nodes = d.nodes ∧ e.links = d.links

/-- **Each edit touches only what it names.** Chains are the same after a node is configured or
moved, and so are sources as far as they are not made of what has been changed. -/
theorem Obtainable.touchesOnlyNamed (h : d.Obtainable) : d.TouchesOnlyNamed := by
  have hd : d.WellFormed := h.wellFormed
  constructor
  · exact hd.addsNode
  · exact fun hr => ⟨(remove_eq_ok_iff.mp hr).1, dropsNode_of_remove hr⟩
  · exact fun hr => ⟨(detach_eq_ok_iff.mp hr).1, dropsLink_of_detach hr⟩
  · intro id properties e hc
    have hchanges := changesNode_of_modifyNode hc
    have he : e.WellFormed := hd.configure hc
    refine ⟨hchanges, fun rules => ⟨hchanges.chainIds_kept hd he fun _ => rfl, fun hoff => ?_⟩⟩
    exact hchanges.source_eq hd he (fun _ => rfl) fun hids hmem => absurd hmem (hoff _ hids)
  · intro id position e hm
    have hchanges := changesNode_of_modifyNode hm
    have he : e.WellFormed := hd.move hm
    refine ⟨hchanges, fun rules => ⟨hchanges.chainIds_kept hd he fun _ => rfl, fun plain => ?_⟩⟩
    refine hchanges.source_eq hd he (fun _ => rfl) fun _ _ => ?_
    rw [SourceRules.stage_of_no_writers plain]
    rfl
  · exact fun node _ at_node => ((GrowsAt.place hd node).run at_node).remove hd

/-- A node that is joined to itself, and twice to each of two others. -/
def spareLinks : List Edit :=
  [.join ⟨4⟩ ⟨4⟩, .join ⟨0⟩ ⟨4⟩, .attach ⟨⟨0⟩, 0⟩ ⟨⟨4⟩, 0⟩, .join ⟨4⟩ ⟨2⟩, .join ⟨4⟩ ⟨2⟩]

/-- Properties are set for one node and refused for one that is not there, and the chain stays. A
spare node with five links is placed and removed, and the diagram is what it was but for its
counters. -/
theorem touchesOnlyNamed_sample : (run ∅ sampleEdits).Obtainable ∧
    (∃ e, (run ∅ sampleEdits).configure ⟨3⟩ ∅ = .error (.noSuchNode ⟨3⟩) ∧
      (run ∅ sampleEdits).configure ⟨1⟩ ∅ = .ok e ∧
      ({} : SourceRules).chainIds e = .ok [⟨0⟩, ⟨1⟩, ⟨2⟩]) ∧
    (((run ∅ sampleEdits).place (.new "spare" .transformer)).2.run spareLinks).links.size = 7 ∧
    ∃ e, (((run ∅ sampleEdits).place (.new "spare" .transformer)).2.run spareLinks).remove ⟨4⟩ =
        .ok (.new "spare" .transformer, e) ∧
      e.nodes = (run ∅ sampleEdits).nodes ∧ e.links = (run ∅ sampleEdits).links := by
  have h : (run ∅ sampleEdits).Obtainable := .run .empty sampleEdits_built
  have only := h.touchesOnlyNamed
  have hc : (run ∅ sampleEdits).configure ⟨1⟩ ∅ = .ok _ := rfl
  have hids : ({} : SourceRules).chainIds (run ∅ sampleEdits) = .ok [⟨0⟩, ⟨1⟩, ⟨2⟩] := rfl
  have at_node : ∀ edit ∈ spareLinks, Edit.LinksAt ⟨4⟩ edit := by
    simp only [spareLinks, List.forall_mem_cons]
    exact ⟨.joinFrom _, .joinTo _, .attachTo _ _, .joinFrom _, .joinFrom _, List.forall_mem_nil _⟩
  exact ⟨h, ⟨_, rfl, hc, (((only.configure hc).2 {}).1).trans hids⟩, by decide,
    only.restore (.new "spare" .transformer) at_node⟩

end Diagram
end PipelineCanvas
