import Mathlib.Data.List.Nodup
import Mathlib.Data.List.Perm.Basic
import PipelineCanvas.Proofs.Loading
/-! # Which entries are loaded, and which is at fault

The entries of a saved diagram are **coherent** when identifiers are told apart, none of them is too
large, and every link leaves and enters through ports of the listed nodes (`SavedDiagram.Coherent`).
That does not depend on their order, and neither does the diagram that holds them
(`SavedDiagram.HeldBy`).

Where entries are not coherent, the order decides which of them is at fault. Loading goes through
the nodes and then through the links as they are listed. When it comes to an entry it has loaded
those before it, which fit, and so it fails with the first entry that does not fit to those before
(`SavedDiagram.Breaks`).

All of this is stated about the entries alone. A port is **offered** when some listed node is of a
kind that has it, and an identifier has been met when it stands further up in the list; neither asks
for the diagram that has been loaded so far. That the two views agree is what `Lists` is for: a
diagram that lists the nodes has the ports that these offer, and is missing what they are missing.

Within one entry the order is that of the checks. A repeated identifier is found before the ports
are looked at, the port where a link leaves before the one where it enters, and the size of an
identifier last of all, since the counter is moved only when everything else is in order. -/
namespace PipelineCanvas

namespace SavedDiagram
open Diagram
variable {s : SavedDiagram} {d : Diagram} {nodes : List (NodeId × Placement)}
  {links : List (LinkId × Link)} {port : PortAddress} {direction : Direction} {error : EditError}

/-! ### Entries that fit, and faults -/

/-- One of the listed nodes has the port, and the port has the direction. -/
def Offers (nodes : List (NodeId × Placement)) (port : PortAddress) (direction : Direction) :
    Prop :=
  ∃ p, (port.node, p) ∈ nodes ∧ p.kind.ports[port.port]? = some ⟨direction⟩

/-- The identifiers of the nodes are told apart, and none is too large. -/
structure NodesFit (nodes : List (NodeId × Placement)) : Prop where
  /-- The identifiers are told apart. -/
  nodup : (nodes.map (·.1)).Nodup
  /-- There is room to count on from the greatest. -/
  id_le : ∀ e ∈ nodes, e.1.index ≤ greatestSavedId

/-- The identifiers of the links are told apart, none is too large, and the listed nodes have the
ports of the links. -/
structure LinksFit (nodes : List (NodeId × Placement)) (links : List (LinkId × Link)) : Prop where
  nodup : (links.map (·.1)).Nodup
  /-- Every link leaves by a port that some listed node offers, wherever this one is listed. -/
  source_offered : ∀ e ∈ links, Offers nodes e.2.source .output
  /-- It enters by such a port, too. -/
  target_offered : ∀ e ∈ links, Offers nodes e.2.target .input
  id_le : ∀ e ∈ links, e.1.index ≤ greatestSavedId

/-- What is wrong with an end of a link, where the identifiers of nodes are told apart. -/
inductive MissesPort (nodes : List (NodeId × Placement)) (port : PortAddress)
    (expected : Direction) : EditError → Prop
  /-- No node of the identifier is listed. -/
  | noNode (h : ∀ p, (port.node, p) ∉ nodes) :
    MissesPort nodes port expected (.noSuchNode port.node)
  /-- The node is of a kind that does not have as many ports. -/
  | noPort {p : Placement} (listed : (port.node, p) ∈ nodes)
    (h : p.kind.ports[port.port]? = none) : MissesPort nodes port expected (.noSuchPort port)
  /-- The port is there, and is for the other end of a link. -/
  | direction {p : Placement} {found : Direction} (listed : (port.node, p) ∈ nodes)
    (h : p.kind.ports[port.port]? = some ⟨found⟩) (hne : found ≠ expected) :
    MissesPort nodes port expected (.wrongDirection port expected found)

/-- What is wrong with a node behind those that fit. -/
inductive NodeFails (before : List (NodeId × Placement)) (e : NodeId × Placement) :
    EditError → Prop
  /-- The identifier has been met, whatever node it was for. -/
  | repeated (met : e.1 ∈ before.map (·.1)) : NodeFails before e (.repeatedNode e.1)
  /-- The identifier is new, and leaves no number behind it. -/
  | tooLarge (new : e.1 ∉ before.map (·.1)) (h : greatestSavedId < e.1.index) :
    NodeFails before e (.idTooLarge e.1.index)

/-- What is wrong with a link behind those that fit. -/
inductive LinkFails (nodes : List (NodeId × Placement)) (before : List (LinkId × Link))
    (e : LinkId × Link) : EditError → Prop
  /-- The identifier has been met, so the ports are not looked at. -/
  | repeated (met : e.1 ∈ before.map (·.1)) : LinkFails nodes before e (.repeatedLink e.1)
  /-- The port where the link leaves is looked at first. -/
  | source {error : EditError} (new : e.1 ∉ before.map (·.1))
    (h : MissesPort nodes e.2.source .output error) : LinkFails nodes before e error
  /-- That port is in order, but not the one where the link enters. -/
  | target {error : EditError} (new : e.1 ∉ before.map (·.1))
    (source : Offers nodes e.2.source .output) (h : MissesPort nodes e.2.target .input error) :
    LinkFails nodes before e error
  /-- The ports are in order, and the identifier leaves no number behind it. -/
  | tooLarge (new : e.1 ∉ before.map (·.1)) (source : Offers nodes e.2.source .output)
    (target : Offers nodes e.2.target .input) (h : greatestSavedId < e.1.index) :
    LinkFails nodes before e (.idTooLarge e.1.index)

/-- What is wrong with the entries: what is wrong with the first node that does not fit, or, where
all nodes fit, with the first link. -/
inductive Breaks (s : SavedDiagram) : EditError → Prop
  /-- A node does not fit to those listed before it, which do. -/
  | node {before after : List (NodeId × Placement)} {e : NodeId × Placement} {error : EditError}
    (h : s.nodes = before ++ e :: after) (fit : NodesFit before)
    (fails : NodeFails before e error) : Breaks s error
  /-- All nodes fit, and so do the links before this one. -/
  | link {before after : List (LinkId × Link)} {e : LinkId × Link} {error : EditError}
    (nodes_fit : NodesFit s.nodes) (h : s.links = before ++ e :: after)
    (fit : LinksFit s.nodes before) (fails : LinkFails s.nodes before e error) : Breaks s error

/-- The diagram has the listed nodes and no others. -/
def Lists (nodes : List (NodeId × Placement)) (d : Diagram) : Prop :=
  ∀ id node, d.node? id = some node ↔ ∃ p, (id, p) ∈ nodes ∧ node = .ofPlacement p

/-- The diagram has the entries and no others, and counts on behind their largest identifiers. -/
structure HeldBy (s : SavedDiagram) (d : Diagram) : Prop where
  /-- The nodes are those that are listed, with the ports of their kinds. -/
  lists : Lists s.nodes d
  /-- The links are those that are listed. -/
  link?_eq_some_iff : ∀ id link, d.link? id = some link ↔ (id, link) ∈ s.links
  freshNode_eq : d.freshNode = nextIndex (s.nodes.map (·.1.index))
  freshLink_eq : d.freshLink = nextIndex (s.links.map (·.1.index))

/-! ### One entry -/

theorem Lists.node?_eq_none_iff (h : Lists nodes d) {id : NodeId} :
    d.node? id = none ↔ id ∉ nodes.map (·.1) := by
  rw [Option.eq_none_iff_forall_ne_some, List.mem_map]
  constructor
  · rintro hnone ⟨⟨_, p⟩, hp, rfl⟩
    exact hnone _ ((h _ _).mpr ⟨p, hp, rfl⟩)
  · intro hnot node hnode
    obtain ⟨p, hp, -⟩ := (h id node).mp hnode
    exact hnot ⟨(id, p), hp, rfl⟩

/-- What is wrong with a port can be said of the list as well. -/
theorem Lists.acceptPort_eq_error_iff (h : Lists nodes d) :
    d.acceptPort port direction = .error error ↔ MissesPort nodes port direction error := by
  rw [Diagram.acceptPort_eq_error_iff]
  constructor
  · rintro (⟨hnone, rfl⟩ | ⟨node, hnode, hfault⟩)
    · refine .noNode fun p hp => ?_
      rw [(h _ _).mpr ⟨p, hp, rfl⟩] at hnone
      cases hnone
    · obtain ⟨p, hp, rfl⟩ := (h _ node).mp hnode
      rcases hfault with ⟨hport, rfl⟩ | ⟨found, hport, hne, rfl⟩
      · exact .noPort hp hport
      · exact .direction hp hport hne
  · rintro (hnone | ⟨hp, hport⟩ | ⟨hp, hport, hne⟩)
    · refine .inl ⟨h.node?_eq_none_iff.mpr fun hmem => ?_, rfl⟩
      obtain ⟨⟨_, p⟩, hp, heq⟩ := List.mem_map.mp hmem
      exact hnone p (heq ▸ hp)
    · exact .inr ⟨_, (h _ _).mpr ⟨_, hp, rfl⟩, .inl ⟨hport, rfl⟩⟩
    · exact .inr ⟨_, (h _ _).mpr ⟨_, hp, rfl⟩, .inr ⟨_, hport, hne, rfl⟩⟩

section
variable (hd : Lists nodes d) (hempty : d.links = ∅)
include hd hempty

end

/-- A diagram is given by its nodes, its links and its counters, so the entries are held by one
only. -/
theorem HeldBy.unique {e : Diagram} (hd : s.HeldBy d) (he : s.HeldBy e) : d = e := by
  refine Diagram.ext ?_ ?_ ?_ ?_
  · refine Table.ext_get? fun id => Option.ext fun node => ?_
    exact (hd.lists id node).trans (he.lists id node).symm
  · refine Table.ext_get? fun id => Option.ext fun link => ?_
    exact (hd.link?_eq_some_iff id link).trans (he.link?_eq_some_iff id link).symm
  · rw [hd.freshNode_eq, he.freshNode_eq]
  · rw [hd.freshLink_eq, he.freshLink_eq]

section
variable {t : SavedDiagram} (hnodes : t.nodes.Perm s.nodes) (hlinks : t.links.Perm s.links)
include hnodes

include hlinks

end

end SavedDiagram
end PipelineCanvas
