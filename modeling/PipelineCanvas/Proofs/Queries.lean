import Mathlib.Data.List.Sort
import PipelineCanvas.Proofs.Linking
/-! # Links by node and links by port

Links are asked for in two ways, by the node and by the port where they end. A chain asks by node
for the links to follow, and by port for those that it may have to refuse. On a well-formed diagram
both are the same question: the links at a node all end at its ports in their direction, and a node
has one such port at most (`Diagram.WellFormed.eq_port_iff`). So either way one is given all links
at the node, once each and in ascending order (`Diagram.Enumerates`).

What an answer has to be is said without the function that gives it: a list in ascending order of
identifiers with just the links that meet a condition. There is only one such list
(`Enumerates.unique`), so two queries agree as soon as their conditions do. The empty answers are
the ones where the two ways could come apart. A node without a port in the direction has no links
there, and a port that does not exist, or that has the other direction, has none either.

What the walk makes of the answer is stated along with it: the next node depends on whether the list
has no link, one or several, and the count of links that enter a node is its length. -/
namespace PipelineCanvas
namespace Diagram
variable {d : Diagram} {id : NodeId} {port : PortAddress} {direction : Direction}
  {links : List (LinkId × Link)} {P Q : Link → Prop}

/-- The list holds the links that satisfy the condition, all of them and in ascending order. -/
structure Enumerates (d : Diagram) (P : Link → Prop) (links : List (LinkId × Link)) : Prop where
  /-- The order is that of the identifiers, and no identifier stands twice. -/
  ascending : links.Pairwise fun a b => a.1.index < b.1.index
  /-- It has the links that meet the condition, and no others. -/
  mem_iff : ∀ {i link}, (i, link) ∈ links ↔ d.link? i = some link ∧ P link

/-- The links that leave the node, as they are found in each way. -/
structure Exits (d : Diagram) (id : NodeId) (links : List (LinkId × Link)) : Prop where
  /-- These are the links that leave the node, by whichever of its ports. -/
  enumerates : d.Enumerates (·.source.node = id) links
  /-- Asking by the node finds them in the same order, without their identifiers. -/
  by_node : d.linksLeavingNode id = links.map (·.2)
  /-- Asking by the port of the node finds the same links, with their identifiers. -/
  by_port : ∀ {port}, d.port? id .output = some port → d.linksLeaving port = links
  /-- A node that cannot send has no links to leave it. -/
  without_port : d.port? id .output = none → links = []
  /-- A chain goes on from the node just if it is one link. -/
  successor_eq : d.successor id = match links with
    | [] => .error .unterminated
    | [(_, link)] => .ok link.target.node
    | _ => .error .fork

/-- The links that enter the node, as they are found by port. -/
structure Entrances (d : Diagram) (id : NodeId) (links : List (LinkId × Link)) : Prop where
  /-- These are the links that enter the node, by whichever of its ports. -/
  enumerates : d.Enumerates (·.target.node = id) links
  by_port : ∀ {port}, d.port? id .input = some port → d.linksEntering port = links
  /-- A node that takes nothing in has no links to enter it. -/
  without_port : d.port? id .input = none → links = []
  /-- All of them count towards a merge. -/
  fanIn_eq : d.fanIn id = links.length

/-! ### Lists of links -/

/-- Filtering the table keeps its order, and every link stands in it once. -/
theorem enumerates_linksWhere (d : Diagram) (p : Link → Bool) :
    d.Enumerates (p · = true) (d.linksWhere p) where
  ascending := (d.links.ascending.filter _).imp fun hlt => Nat.compare_eq_lt.mp hlt
  mem_iff {i link} := by
    rw [linksWhere, List.mem_filter, ← Table.get?_eq_some_iff]
    exact Iff.rfl

/-- Two conditions that are the same for the stored links are satisfied by the same links. -/
theorem Enumerates.congr (h : d.Enumerates P links)
    (hiff : ∀ {i link}, d.link? i = some link → (P link ↔ Q link)) : d.Enumerates Q links where
  ascending := h.ascending
  mem_iff := h.mem_iff.trans (and_congr_right hiff)

/-- A list in strictly ascending order is given by what stands in it. -/
theorem Enumerates.unique {others : List (LinkId × Link)} (h : d.Enumerates P links)
    (hothers : d.Enumerates P others) : links = others := by
  have irrefl : Std.Irrefl fun a b : LinkId × Link => a.1.index < b.1.index :=
    ⟨fun a => Nat.lt_irrefl a.1.index⟩
  have asymm : Std.Asymm fun a b : LinkId × Link => a.1.index < b.1.index :=
    ⟨fun _ _ => Nat.lt_asymm⟩
  exact h.ascending.eq_of_mem_iff hothers.ascending fun ⟨i, link⟩ =>
    h.mem_iff.trans hothers.mem_iff.symm

theorem Enumerates.eq_nil (h : d.Enumerates P links)
    (hnot : ∀ {i link}, d.link? i = some link → ¬ P link) : links = [] := by
  refine List.eq_nil_iff_forall_not_mem.mpr fun ⟨i, link⟩ hmem => ?_
  obtain ⟨hlink, hP⟩ := h.mem_iff.mp hmem
  exact hnot hlink hP

/-! ### Links at a port and links at its node -/

/-- What ends at the node ends at the port that the node has in the direction. -/
theorem WellFormed.eq_port_iff (h : d.WellFormed) (hport : d.port? id direction = some port)
    {other : PortAddress} (hother : d.HasPort other direction) :
    other = port ↔ other.node = id := by
  have only := h.onlyPort hport
  constructor
  · rintro rfl
    exact only.node_eq
  · exact fun hnode => only.only hnode hother

theorem WellFormed.port?_ne_none (h : d.WellFormed) (hport : d.HasPort port direction) :
    d.port? port.node direction ≠ none := by
  rw [h.port?_eq_some hport]
  exact nofun

/-- The links that a filter by node finds are what all the other queries come to. -/
theorem WellFormed.exits (h : d.WellFormed) (id : NodeId) :
    d.Exits id (d.linksWhere fun l => l.source.node == id) where
  enumerates := (d.enumerates_linksWhere _).congr fun _ => beq_iff_eq
  by_node := rfl
  by_port hport := by
    refine (d.enumerates_linksWhere _).unique ((d.enumerates_linksWhere _).congr fun hlink => ?_)
    rw [beq_iff_eq, beq_iff_eq]
    exact (h.eq_port_iff hport (h.source_fits hlink)).symm
  without_port hnone := by
    refine (d.enumerates_linksWhere _).eq_nil fun hlink hsource => ?_
    obtain rfl := beq_iff_eq.mp hsource
    exact h.port?_ne_none (h.source_fits hlink) hnone
  successor_eq := by
    unfold successor linksLeavingNode
    match d.linksWhere fun l => l.source.node == id with
    | [] => rfl
    | [_] => rfl
    | _ :: _ :: _ => rfl

theorem WellFormed.entrances (h : d.WellFormed) (id : NodeId) :
    d.Entrances id (d.linksWhere fun l => l.target.node == id) := by
  have by_port : ∀ {port}, d.port? id .input = some port →
      d.linksEntering port = d.linksWhere fun l => l.target.node == id := by
    intro port hport
    refine (d.enumerates_linksWhere _).unique ((d.enumerates_linksWhere _).congr fun hlink => ?_)
    rw [beq_iff_eq, beq_iff_eq]
    exact (h.eq_port_iff hport (h.target_fits hlink)).symm
  have without_port : d.port? id .input = none →
      (d.linksWhere fun l => l.target.node == id) = [] := by
    intro hnone
    refine (d.enumerates_linksWhere _).eq_nil fun hlink htarget => ?_
    obtain rfl := beq_iff_eq.mp htarget
    exact h.port?_ne_none (h.target_fits hlink) hnone
  refine ⟨(d.enumerates_linksWhere _).congr fun _ => beq_iff_eq, by_port, without_port, ?_⟩
  unfold fanIn
  cases hport : d.port? id .input with
  | none => rw [without_port hport, List.length_nil]
  | some port => rw [← by_port hport]

/-- **Links are the same by node and by port.** By either question about a node one is given all
links that leave it, and by its in-port all that enter it; at a port that does not exist or has the
other direction there are none. -/
theorem Obtainable.exits_entrances (h : d.Obtainable) :
    (∀ id, (∃ links, d.Exits id links) ∧ ∃ links, d.Entrances id links) ∧
      ∀ port, (¬ d.HasPort port .output → d.linksLeaving port = []) ∧
        (¬ d.HasPort port .input → d.linksEntering port = []) := by
  have well := h.wellFormed
  refine ⟨fun id => ⟨⟨_, well.exits id⟩, _, well.entrances id⟩,
    fun port => ⟨fun hnot => ?_, fun hnot => ?_⟩⟩
  · refine (d.enumerates_linksWhere _).eq_nil fun hlink hsource => hnot ?_
    exact beq_iff_eq.mp hsource ▸ well.source_fits hlink
  · refine (d.enumerates_linksWhere _).eq_nil fun hlink htarget => hnot ?_
    exact beq_iff_eq.mp htarget ▸ well.target_fits hlink

/-- In the pipeline of the samples the node in the middle is left by one link, and the first is
entered by none; ports without links and ports that are not there have none. -/
theorem exits_entrances_sample : (run ∅ sampleEdits).Obtainable ∧
    (∃ links, (run ∅ sampleEdits).Exits ⟨1⟩ links ∧ links = [(⟨1⟩, ⟨⟨⟨1⟩, 1⟩, ⟨⟨2⟩, 0⟩⟩)]) ∧
    (∃ links, (run ∅ sampleEdits).Entrances ⟨0⟩ links ∧ links = []) ∧
    (run ∅ sampleEdits).linksLeaving ⟨⟨1⟩, 0⟩ = [] ∧
    (run ∅ sampleEdits).linksEntering ⟨⟨1⟩, 7⟩ = [] := by
  have h : (run ∅ sampleEdits).Obtainable := .run .empty sampleEdits_built
  obtain ⟨hnodes, hports⟩ := h.exits_entrances
  obtain ⟨⟨exits, hexits⟩, -⟩ := hnodes ⟨1⟩
  obtain ⟨-, entrances, hentrances⟩ := hnodes ⟨0⟩
  refine ⟨h, ⟨exits, hexits, ?_⟩, ⟨entrances, hentrances, hentrances.without_port rfl⟩,
    (hports _).1 ?_, (hports _).2 ?_⟩
  · exact (hexits.by_port rfl).symm
  · rintro ⟨node, hnode, hport⟩
    cases hnode
    cases hport
  · rintro ⟨node, hnode, hport⟩
    cases hnode
    cases hport

end Diagram
end PipelineCanvas
