import PipelineCanvas.Diagram.Saved
import PipelineCanvas.Proofs.Edits
/-! # Loading saved diagrams

The entries of a saved diagram are **valid** when each identifier occurs once and is not too large,
and every link fits the ports of the listed nodes. Valid entries are loaded, as the diagram that
holds them with its counters behind the largest identifiers, and no others are
(`Diagram.load_eq_ok_iff`).

Loading is two loops, over the nodes and over the links, and each step of a loop checks one entry
and stores it. What a loop leaves is computed without the checks, by `withNode` and `withLink`, so
that it can be said what the diagram is before it is known that the loop comes to its end
(`SavedDiagram.diagram`). The checks of the second loop are asked of the diagram that the first one
has left; links add no nodes, so they may as well be asked of the diagram at the end, which is how
`Valid` states them.

Of the faults only one is followed further here, that an identifier is too large. It is the one that
a diagram can get into by edits, as all others are excluded by its being well formed. -/
namespace PipelineCanvas

/-- The index behind the largest of some, and 0 where there are none. -/
def nextIndex (indices : List Nat) : Nat := (indices.max?.map (· + 1)).getD 0

/-- A counter that is moved ahead of one identifier after the other ends up ahead of all of them. -/
theorem foldl_max_succ (indices : List Nat) (n : Nat) :
    indices.foldl (fun n i => max n (i + 1)) n = max n (nextIndex indices) := by
  induction indices generalizing n with
  | nil => simp [nextIndex]
  | cons i indices ih =>
    rw [List.foldl_cons, ih]
    unfold nextIndex
    rw [List.max?_cons]
    cases indices.max? with
    | none =>
      simp only [Option.map_none, Option.getD_none, Option.elim_none, Option.map_some,
        Option.getD_some]
      omega
    | some m =>
      simp only [Option.elim_some, Option.map_some, Option.getD_some]
      omega

theorem nextIndex_le {indices : List Nat} {n : Nat} (h : ∀ i ∈ indices, i ≤ n) :
    nextIndex indices ≤ n + 1 := by
  unfold nextIndex
  cases hmax : indices.max? with
  | none => exact Nat.zero_le _
  | some m => exact Nat.succ_le_succ (h m (List.max?_mem hmax))

namespace Diagram
variable {d e : Diagram}

/-! ### One entry -/

/-- The diagram with a saved node in it. -/
def withNode (d : Diagram) (e : NodeId × Placement) : Diagram := { d with
  nodes := d.nodes.insert e.1 (.ofPlacement e.2)
  freshNode := max d.freshNode (e.1.index + 1) }

/-- The diagram with a saved link in it. -/
def withLink (d : Diagram) (e : LinkId × Link) : Diagram := { d with
  links := d.links.insert e.1 e.2
  freshLink := max d.freshLink (e.1.index + 1) }

/-- The link fits the nodes of the diagram, and its identifier is not too large. -/
structure Accepts (d : Diagram) (e : LinkId × Link) : Prop where
  /-- The link leaves a node that is listed, by a port for sending. -/
  source_fits : d.HasPort e.2.source .output
  /-- It enters a node that is listed, by a port for taking in. -/
  target_fits : d.HasPort e.2.target .input
  /-- The number after this one still fits into the counter. -/
  id_le : e.1.index ≤ greatestSavedId

/-- Which ports there are is a question of the nodes alone. -/
theorem HasPort.congr_nodes {port : PortAddress} {direction : Direction}
    (h : d.HasPort port direction) (hnodes : e.nodes = d.nodes) : e.HasPort port direction := by
  obtain ⟨node, hnode, hport⟩ := h
  refine ⟨node, ?_, hport⟩
  rwa [node?, hnodes]

theorem Accepts.congr_nodes {p : LinkId × Link} (h : d.Accepts p) (hnodes : e.nodes = d.nodes) :
    e.Accepts p :=
  ⟨h.source_fits.congr_nodes hnodes, h.target_fits.congr_nodes hnodes, h.id_le⟩

/-- The counter is moved only forward, and not beyond the largest number. -/
theorem countFrom_eq_ok_iff {counter index n : Nat} : countFrom counter index = .ok n ↔
    index ≤ greatestSavedId ∧ n = max counter (index + 1) := by
  unfold countFrom
  split
  · next h => simp [h, pure, Except.pure, eq_comm]
  · next h => simp [h, throw, throwThe, MonadExceptOf.throw]

/-- A node is loaded under an identifier that is new and not too large. Nothing else about it can be
wrong. -/
theorem loadNode_eq_ok_iff {id : NodeId} {p : Placement} : d.loadNode id p = .ok e ↔
    d.node? id = none ∧ id.index ≤ greatestSavedId ∧ e = d.withNode (id, p) := by
  unfold loadNode
  cases hid : d.nodes.contains id with
  | true =>
    obtain ⟨n, hn⟩ := Table.contains_iff.mp hid
    simp [node?, hn, bind, Except.bind, throw, throwThe, MonadExceptOf.throw]
  | false =>
    have free : d.node? id = none := Table.not_contains_iff.mp hid
    simp only [Bool.false_eq_true, if_false, bind_eq_ok_iff, countFrom_eq_ok_iff]
    constructor
    · rintro ⟨n, ⟨hle, rfl⟩, h⟩
      cases h
      exact ⟨free, hle, rfl⟩
    · rintro ⟨-, hle, rfl⟩
      exact ⟨_, ⟨hle, rfl⟩, rfl⟩

/-- A link is loaded if it is new and the nodes so far accept it. -/
theorem loadLink_eq_ok_iff {id : LinkId} {link : Link} : d.loadLink id link = .ok e ↔
    d.link? id = none ∧ d.Accepts (id, link) ∧ e = d.withLink (id, link) := by
  simp only [loadLink, bind_eq_ok_iff, storeLink_eq_ok_iff, countFrom_eq_ok_iff]
  constructor
  · rintro ⟨_, ⟨hid, hs, ht, rfl⟩, n, ⟨hle, rfl⟩, h⟩
    cases h
    exact ⟨hid, ⟨hs, ht, hle⟩, rfl⟩
  · rintro ⟨hid, ⟨hs, ht, hle⟩, rfl⟩
    exact ⟨_, ⟨hid, hs, ht, rfl⟩, _, ⟨hle, rfl⟩, rfl⟩

theorem loadNode_eq_error {id : NodeId} (free : d.node? id = none)
    (hid : greatestSavedId < id.index) (p : Placement) :
    d.loadNode id p = .error (.idTooLarge id.index) := by
  have hcontains : d.nodes.contains id = false := Table.not_contains_iff.mpr free
  simp only [loadNode, hcontains, Bool.false_eq_true, if_false, countFrom,
    if_neg (Nat.not_le.mpr hid)]
  rfl

theorem loadLink_eq_error {id : LinkId} {link : Link} (free : d.link? id = none)
    (hs : d.HasPort link.source .output) (ht : d.HasPort link.target .input)
    (hid : greatestSavedId < id.index) : d.loadLink id link = .error (.idTooLarge id.index) := by
  have hstore := storeLink_eq_ok_iff.mpr ⟨free, hs, ht, rfl⟩
  rw [loadLink, hstore]
  simp only [countFrom, if_neg (Nat.not_le.mpr hid)]
  rfl

/-! ### All entries -/

/-- The loop over the nodes. That identifiers are new one after the other is that none occurs twice.
-/
theorem foldlM_loadNode_eq_ok_iff {entries : List (NodeId × Placement)} :
    entries.foldlM (fun d e => d.loadNode e.1 e.2) d = .ok e ↔
      (∀ p ∈ entries, d.node? p.1 = none) ∧ (entries.map (·.1)).Nodup ∧
        (∀ p ∈ entries, p.1.index ≤ greatestSavedId) ∧ e = entries.foldl withNode d :=
  foldlM_insert_eq_ok_iff nodes (·.1) (fun p => .ofPlacement p.2)
    (fun _ p => p.1.index ≤ greatestSavedId) withNode loadNode_eq_ok_iff (fun _ _ => rfl)
    fun _ _ _ => Iff.rfl

/-- The loop over the links, each of which is checked against the nodes that are there already. -/
theorem foldlM_loadLink_eq_ok_iff {entries : List (LinkId × Link)} :
    entries.foldlM (fun d e => d.loadLink e.1 e.2) d = .ok e ↔
      (∀ p ∈ entries, d.link? p.1 = none) ∧ (entries.map (·.1)).Nodup ∧
        (∀ p ∈ entries, d.Accepts p) ∧ e = entries.foldl withLink d :=
  foldlM_insert_eq_ok_iff links (·.1) (·.2) Accepts withLink loadLink_eq_ok_iff (fun _ _ => rfl)
    fun _ _ _ => ⟨fun h => h.congr_nodes rfl, fun h => h.congr_nodes rfl⟩

/-- Of entries that are told apart the first with too large an identifier is at fault. -/
theorem foldlM_loadNode_eq_error {entries : List (NodeId × Placement)}
    (free : ∀ p ∈ entries, d.node? p.1 = none) (nodup : (entries.map (·.1)).Nodup)
    {p : NodeId × Placement}
    (hp : entries.find? (fun p => greatestSavedId < p.1.index) = some p) :
    entries.foldlM (fun d e => d.loadNode e.1 e.2) d = .error (.idTooLarge p.1.index) := by
  refine foldlM_eq_error_of_find? (g := fun p => EditError.idTooLarge p.1.index)
    (P := fun (d : Diagram) entries => (∀ p ∈ entries, d.node? p.1 = none) ∧
      (entries.map (·.1)).Nodup) ?_ ?_ ⟨free, nodup⟩ hp
  · rintro d p entries ⟨free, nodup⟩ hid
    obtain ⟨hp, hfree⟩ := List.forall_mem_cons.mp free
    obtain ⟨hnew, hnodup⟩ := List.nodup_cons.mp nodup
    have hle : p.1.index ≤ greatestSavedId := by simpa using hid
    refine ⟨d.withNode p, loadNode_eq_ok_iff.mpr ⟨hp, hle, rfl⟩, fun q hq => ?_, hnodup⟩
    have hne : q.1 ≠ p.1 := fun heq => hnew (List.mem_map.mpr ⟨q, hq, heq⟩)
    exact (Table.get?_insert_of_ne _ hne _).trans (hfree q hq)
  · rintro d p entries ⟨free, -⟩ hid
    exact loadNode_eq_error (free p List.mem_cons_self) (by simpa using hid) p.2

/-- Where only the size of identifiers is wrong, the first that is too large is the one reported. -/
theorem foldlM_loadLink_eq_error {entries : List (LinkId × Link)}
    (free : ∀ p ∈ entries, d.link? p.1 = none) (nodup : (entries.map (·.1)).Nodup)
    (fits : ∀ p ∈ entries, d.HasPort p.2.source .output ∧ d.HasPort p.2.target .input)
    {p : LinkId × Link} (hp : entries.find? (fun p => greatestSavedId < p.1.index) = some p) :
    entries.foldlM (fun d e => d.loadLink e.1 e.2) d = .error (.idTooLarge p.1.index) := by
  refine foldlM_eq_error_of_find? (g := fun p => EditError.idTooLarge p.1.index)
    (P := fun (d : Diagram) entries => (∀ p ∈ entries, d.link? p.1 = none) ∧
      (entries.map (·.1)).Nodup ∧
        ∀ p ∈ entries, d.HasPort p.2.source .output ∧ d.HasPort p.2.target .input)
    ?_ ?_ ⟨free, nodup, fits⟩ hp
  · rintro d p entries ⟨free, nodup, fits⟩ hid
    obtain ⟨hp, hfree⟩ := List.forall_mem_cons.mp free
    obtain ⟨hnew, hnodup⟩ := List.nodup_cons.mp nodup
    obtain ⟨⟨hs, ht⟩, hfits⟩ := List.forall_mem_cons.mp fits
    have hle : p.1.index ≤ greatestSavedId := by simpa using hid
    refine ⟨d.withLink p, loadLink_eq_ok_iff.mpr ⟨hp, ⟨hs, ht, hle⟩, rfl⟩, fun q hq => ?_, hnodup,
      fun q hq => ⟨(hfits q hq).1.congr_nodes rfl, (hfits q hq).2.congr_nodes rfl⟩⟩
    have hne : q.1 ≠ p.1 := fun heq => hnew (List.mem_map.mpr ⟨q, hq, heq⟩)
    exact (Table.get?_insert_of_ne _ hne _).trans (hfree q hq)
  · rintro d p entries ⟨free, -, fits⟩ hid
    obtain ⟨hs, ht⟩ := fits p List.mem_cons_self
    exact loadLink_eq_error (free p List.mem_cons_self) hs ht (by simpa using hid)

/-- What the first loop leaves, part by part: the table of nodes, and the counter ahead of them. -/
theorem foldl_withNode (entries : List (NodeId × Placement)) (d : Diagram) :
    entries.foldl withNode d = { d with
      nodes := entries.foldl (fun t e => t.insert e.1 (.ofPlacement e.2)) d.nodes
      freshNode := max d.freshNode (nextIndex (entries.map (·.1.index))) } := by
  rw [← foldl_max_succ, List.foldl_map]
  induction entries generalizing d with
  | nil => rfl
  | cons e entries ih => exact ih (d.withNode e)

theorem foldl_withLink (entries : List (LinkId × Link)) (d : Diagram) :
    entries.foldl withLink d = { d with
      links := entries.foldl (fun t e => t.insert e.1 e.2) d.links
      freshLink := max d.freshLink (nextIndex (entries.map (·.1.index))) } := by
  rw [← foldl_max_succ, List.foldl_map]
  induction entries generalizing d with
  | nil => rfl
  | cons e entries ih => exact ih (d.withLink e)

end Diagram

namespace SavedDiagram

/-- The diagram that holds the entries. -/
def diagram (s : SavedDiagram) : Diagram where
  nodes := .ofList (s.nodes.map fun e => (e.1, .ofPlacement e.2))
  links := .ofList s.links
  freshNode := nextIndex (s.nodes.map (·.1.index))
  freshLink := nextIndex (s.links.map (·.1.index))

/-- The entries make a diagram. -/
structure Valid (s : SavedDiagram) : Prop where
  nodes_nodup : (s.nodes.map (·.1)).Nodup
  links_nodup : (s.links.map (·.1)).Nodup
  node_le : ∀ e ∈ s.nodes, e.1.index ≤ Diagram.greatestSavedId
  /-- The ports are those of all listed nodes, wherever in the list they stand. -/
  accepts : ∀ e ∈ s.links, s.diagram.Accepts e

theorem nodes_foldl_withNode (s : SavedDiagram) :
    (s.nodes.foldl Diagram.withNode ∅).nodes = s.diagram.nodes := by
  rw [Diagram.foldl_withNode, diagram, Table.ofList, List.foldl_map]
  rfl

/-- Both loops together leave the diagram of the entries. -/
theorem foldl_withLink_withNode (s : SavedDiagram) :
    s.links.foldl Diagram.withLink (s.nodes.foldl Diagram.withNode ∅) = s.diagram := by
  have hnodes := s.nodes_foldl_withNode
  rw [Diagram.foldl_withLink]
  rw [Diagram.foldl_withNode] at hnodes ⊢
  exact Diagram.ext hnodes rfl (Nat.zero_max _) (Nat.zero_max _)

end SavedDiagram

/-- **Exactly the valid entries are loaded**, and they give the diagram that holds them. -/
theorem Diagram.load_eq_ok_iff {s : SavedDiagram} {d : Diagram} :
    load s = .ok d ↔ s.Valid ∧ d = s.diagram := by
  have hlinks : (s.nodes.foldl withNode ∅).links = ∅ := by
    rw [foldl_withNode]
    rfl
  simp only [load, bind_eq_ok_iff, foldlM_loadNode_eq_ok_iff, foldlM_loadLink_eq_ok_iff]
  constructor
  · rintro ⟨_, ⟨-, hnodup, hle, rfl⟩, -, hnodup', haccepts, rfl⟩
    exact ⟨⟨hnodup, hnodup', hle,
      fun p hp => (haccepts p hp).congr_nodes s.nodes_foldl_withNode.symm⟩,
      s.foldl_withLink_withNode⟩
  · rintro ⟨h, rfl⟩
    refine ⟨_, ⟨fun _ _ => rfl, h.nodes_nodup, h.node_le, rfl⟩, fun p _ => ?_, h.links_nodup,
      fun p hp => (h.accepts p hp).congr_nodes s.nodes_foldl_withNode,
      s.foldl_withLink_withNode.symm⟩
    rw [link?, hlinks]
    rfl

/-- Nodes with too large an identifier are refused before links are looked at. -/
theorem Diagram.load_eq_error_of_node {s : SavedDiagram} (nodup : (s.nodes.map (·.1)).Nodup)
    {p : NodeId × Placement}
    (hp : s.nodes.find? (fun p => greatestSavedId < p.1.index) = some p) :
    load s = .error (.idTooLarge p.1.index) := by
  rw [load, foldlM_loadNode_eq_error (fun _ _ => rfl) nodup hp]
  rfl

/-- With all nodes in order it is the first link with too large an identifier that is refused. -/
theorem Diagram.load_eq_error_of_link {s : SavedDiagram} (nodes_nodup : (s.nodes.map (·.1)).Nodup)
    (node_le : ∀ e ∈ s.nodes, e.1.index ≤ greatestSavedId) (nodup : (s.links.map (·.1)).Nodup)
    (fits : ∀ e ∈ s.links,
      s.diagram.HasPort e.2.source .output ∧ s.diagram.HasPort e.2.target .input)
    {p : LinkId × Link} (hp : s.links.find? (fun p => greatestSavedId < p.1.index) = some p) :
    load s = .error (.idTooLarge p.1.index) := by
  have hnodes : s.nodes.foldlM (fun (d : Diagram) e => d.loadNode e.1 e.2) ∅ =
      .ok (s.nodes.foldl withNode ∅) :=
    foldlM_loadNode_eq_ok_iff.mpr ⟨fun _ _ => rfl, nodes_nodup, node_le, rfl⟩
  have hlinks : (s.nodes.foldl withNode ∅).links = ∅ := by
    rw [foldl_withNode]
    rfl
  rw [load, hnodes]
  refine foldlM_loadLink_eq_error (fun q _ => ?_) nodup (fun q hq => ?_) hp
  · rw [link?, hlinks]
    rfl
  · obtain ⟨hs, ht⟩ := fits q hq
    exact ⟨hs.congr_nodes s.nodes_foldl_withNode, ht.congr_nodes s.nodes_foldl_withNode⟩

/-- A diagram is read when its entries are read and loaded. -/
theorem Diagram.load_of_ofText {text : String} {d : Diagram} (h : ofText text = .ok d) :
    ∃ s rest, SavedDiagram.record.shape.read Json.maxDepth text.toList = .ok (s, rest) ∧
      load s = .ok d := by
  obtain ⟨⟨s, rest⟩, hread, h⟩ := bind_eq_ok_iff.mp h
  obtain ⟨e, hload, h⟩ := bind_eq_ok_iff.mp h
  obtain ⟨_, -, h⟩ := bind_eq_ok_iff.mp h
  cases h
  exact ⟨s, rest, mapError_eq_ok_iff.mp hread, mapError_eq_ok_iff.mp hload⟩

/-- What has been read goes on numbering from `2 ^ 63` at most. -/
theorem Diagram.fresh_le_of_ofText {text : String} {d : Diagram} (h : ofText text = .ok d) :
    d.freshNode ≤ greatestSavedId + 1 ∧ d.freshLink ≤ greatestSavedId + 1 := by
  obtain ⟨s, -, -, hload⟩ := load_of_ofText h
  obtain ⟨hvalid, rfl⟩ := load_eq_ok_iff.mp hload
  constructor
  · refine nextIndex_le fun i hi => ?_
    obtain ⟨e, he, rfl⟩ := List.mem_map.mp hi
    exact hvalid.node_le e he
  · refine nextIndex_le fun i hi => ?_
    obtain ⟨e, he, rfl⟩ := List.mem_map.mp hi
    exact (hvalid.accepts e he).id_le

end PipelineCanvas
