import Mathlib.Data.Set.Function
import PipelineCanvas.Proofs.Merges
/-! # Chains do not depend on numbers

A **renumbering** takes the nodes and links of one diagram to those of another: it gives them other
identifiers and leaves everything else as it is. Nodes and links are kept in the order of their
identifiers, so it may change the order in which they are looked at.

The walks in the two diagrams keep in step (`Diagram.InStep`): what is met in one under an
identifier is met in the other under the new one. That goes for the only producer, for the only link
that leaves a node, for the number of links that enter one, and for having been visited, as a
renumbering keeps different nodes apart.

`InStep` is stated for more than renumberings. The nodes that the walk may meet are a parameter of
it, and so is what becomes of a node, so the same lemma serves diagrams that agree on a part only,
or whose nodes have been changed where the walk does not look. What is asked for is little: that the
nodes are there and of the same kinds, that the map keeps them apart, that the walk does not leave
them, and that it finds the same next node. The walk itself is gone through once, in
`InStep.walk_eq`.

That two nodes or two links are never given one identifier is not a condition of its own: the
identifiers of one diagram are taken one to one to all identifiers of the other. -/
namespace PipelineCanvas

/-- The link between the same ports of other nodes. -/
def Link.renumbered (l : Link) (node : NodeId → NodeId) : Link where
  source := ⟨node l.source.node, l.source.port⟩
  target := ⟨node l.target.node, l.target.port⟩

namespace Diagram
variable {d e : Diagram}

/-- The second diagram is the first under other identifiers. Nodes keep their names, kinds,
properties and positions, and links their ports. -/
structure Renumbering (d e : Diagram) where
  /-- The new identifier of each node, and anything for an identifier that no node has. -/
  node : NodeId → NodeId
  link : LinkId → LinkId
  /-- The nodes of one diagram are taken one to one to those of the other. -/
  node_bij : Set.BijOn node {id | id ∈ d.nodes.keys} {id | id ∈ e.nodes.keys}
  link_bij : Set.BijOn link {id | id ∈ d.links.keys} {id | id ∈ e.links.keys}
  /-- Name, kind, properties and position stay as they are. -/
  node_eq : ∀ {id m n}, d.node? id = some m → e.node? (node id) = some n →
    n.toPlacement = m.toPlacement
  /-- A link runs between the same ports of the renumbered nodes. -/
  link_eq : ∀ {id k l}, d.link? id = some k → e.link? (link id) = some l → l = k.renumbered node

/-! ### Walks in step -/

/-- The nodes of the first diagram that satisfy the condition stand in the second under other
identifiers, told apart, and can be left and entered alike. -/
structure InStep (d e : Diagram) (refuse : Bool) (rename : NodeId → NodeId) (image : Stop → Node)
    (Met : NodeId → Prop) : Prop where
  /-- What may be met is there on both sides, with the same kind. -/
  stored : ∀ {id}, Met id → ∃ node, d.node? id = some node ∧
    e.node? (rename id) = some (image (id, node)) ∧ (image (id, node)).kind = node.kind
  /-- Nodes that are different stay different. -/
  injective : ∀ {a b}, Met a → Met b → rename a = rename b → a = b
  /-- The walk does not leave what may be met. -/
  closed : ∀ {id next}, Met id → d.successor id = .ok next → Met next
  /-- The next node is found, or the same thing is wrong with looking for it. -/
  successor_eq : ∀ {id}, Met id → e.successor (rename id) = rename <$> d.successor id
  /-- Where merges are refused, the same nodes are merges. -/
  merge_iff : refuse = true → ∀ {id}, Met id → (1 < e.fanIn (rename id) ↔ 1 < d.fanIn id)

namespace InStep
variable {refuse : Bool} {rename : NodeId → NodeId} {image : Stop → Node} {Met : NodeId → Prop}
  {visited : List NodeId} {current : NodeId}

/-- A stop of the walk in the first diagram, as it is met in the second. -/
def stop (rename : NodeId → NodeId) (image : Stop → Node) (s : Stop) : Stop :=
  (rename s.1, image s)

/-- Whether a node has been visited can be asked on either side. -/
theorem mem_map_iff (h : d.InStep e refuse rename image Met) (hvisited : ∀ id ∈ visited, Met id)
    {id : NodeId} (hid : Met id) : rename id ∈ visited.map rename ↔ id ∈ visited := by
  refine ⟨fun hmem => ?_, List.mem_map_of_mem⟩
  obtain ⟨other, hother, heq⟩ := List.mem_map.mp hmem
  exact h.injective (hvisited other hother) hid heq ▸ hother

/-- One pass of the walk, which reads nothing but what `InStep` compares. -/
theorem following_eq (h : d.InStep e refuse rename image Met) (hvisited : ∀ id ∈ visited, Met id)
    (hcurrent : Met current) : e.following refuse (visited.map rename) (rename current) =
      rename <$> d.following refuse visited current := by
  have hsuccessor := h.successor_eq hcurrent
  cases hs : d.successor current with
  | error error =>
    rw [hs] at hsuccessor
    rw [following_of_successor_error hs, following_of_successor_error hsuccessor]
    rfl
  | ok next =>
    rw [hs] at hsuccessor
    have hnext : Met next := h.closed hcurrent hs
    have hmerge : (refuse = true ∧ 1 < e.fanIn (rename next)) ↔
        (refuse = true ∧ 1 < d.fanIn next) :=
      and_congr_right fun hrefuse => h.merge_iff hrefuse hnext
    have hmem := h.mem_map_iff hvisited hnext
    rw [following_of_successor hs, following_of_successor hsuccessor]
    simp only [hmerge, hmem]
    split
    · rfl
    · split <;> rfl

theorem met_of_following (h : d.InStep e refuse rename image Met) (hcurrent : Met current)
    {next : NodeId} (hfollow : d.following refuse visited current = .ok next) : Met next :=
  h.closed hcurrent (successor_of_leadsOnly (leadsOnly_of_following hfollow).1)

/-- By induction on the steps that are left, for all nodes that may be met. The stops are compared
and not the walks, as a step that is made and then leads into a fault leaves nothing behind. -/
theorem walk_eq (h : d.InStep e refuse rename image Met) (hvisited : ∀ id ∈ visited, Met id)
    (hcurrent : Met current) (stepsLeft : Nat) :
    (e.walk refuse stepsLeft (visited.map rename) (rename current)).stops =
      List.map (stop rename image) <$> (d.walk refuse stepsLeft visited current).stops := by
  induction stepsLeft using Nat.strong_induction_on generalizing visited current with
  | _ stepsLeft ih =>
    have hfollowing := h.following_eq hvisited hcurrent
    rcases d.walk_cases refuse stepsLeft visited current with
      ⟨error, hfollow, hwalk⟩ | ⟨next, hfollow, rfl, hwalk⟩ |
      ⟨next, left, hfollow, rfl, hnode, hwalk⟩ |
      ⟨next, node, left, hfollow, rfl, hnode, hwalk⟩
    · rw [hfollow] at hfollowing
      rw [hwalk, walk_halts hfollowing]
      rfl
    · rw [hfollow] at hfollowing
      rw [hwalk, walk_zero hfollowing]
      rfl
    · -- what is met is stored
      obtain ⟨node, hstored, -⟩ := h.stored (h.met_of_following hcurrent hfollow)
      rw [hnode] at hstored
      cases hstored
    · have hnext : Met next := h.met_of_following hcurrent hfollow
      obtain ⟨_, hstored, himage, hkind⟩ := h.stored hnext
      rw [hnode] at hstored
      cases hstored
      rw [hfollow] at hfollowing
      rw [hwalk, walk_succ hfollowing himage, hkind, Walk.stops_step, Walk.stops_step]
      by_cases hconsumer : node.kind = .consumer
      · rw [if_pos hconsumer, if_pos hconsumer]
        rfl
      · rw [if_neg hconsumer, if_neg hconsumer, ← List.map_cons,
          ih left (Nat.lt_succ_self left) (List.forall_mem_cons.mpr ⟨hnext, hvisited⟩) hnext]
        cases (d.walk refuse left (next :: visited) next).stops <;> rfl

/-- Chains are the same under other identifiers where they start in step. -/
theorem chain_eq (h : d.InStep e refuse rename image Met) {producer : Stop}
    (hd : d.start = .ok producer) (he : e.start = .ok (stop rename image producer))
    (hproducer : Met producer.1) (limit : Nat) :
    e.chain limit refuse = List.map (stop rename image) <$> d.chain limit refuse := by
  have hwalk := h.walk_eq (List.forall_mem_singleton.mpr hproducer) hproducer limit
  rw [chain_of_start hd, chain_of_start he]
  show _ <$> (e.walk refuse limit ([producer.1].map rename) (rename producer.1)).stops = _
  rw [hwalk]
  cases (d.walk refuse limit [producer.1] producer.1).stops <;> rfl

end InStep

/-! ### A renumbering keeps walks in step -/

namespace Renumbering

/-- On well-formed diagrams ports come with the kind, so a renumbered node is the same node. -/
theorem node?_eq (r : Renumbering d e) (hd : d.WellFormed) (he : e.WellFormed) {id : NodeId}
    {node : Node} (hnode : d.node? id = some node) : e.node? (r.node id) = some node := by
  obtain ⟨image, himage⟩ :=
    Table.mem_keys_iff.mp (r.node_bij.mapsTo (Table.mem_keys_iff.mpr ⟨node, hnode⟩))
  have hplacement := r.node_eq hnode himage
  -- the ports of both are those of the kind
  have hports := (he.ofPlacement_toPlacement himage).symm.trans
    ((congrArg Node.ofPlacement hplacement).trans (hd.ofPlacement_toPlacement hnode))
  exact hports ▸ himage

theorem link?_eq (r : Renumbering d e) {id : LinkId} {link : Link}
    (hlink : d.link? id = some link) : e.link? (r.link id) = some (link.renumbered r.node) := by
  obtain ⟨image, himage⟩ :=
    Table.mem_keys_iff.mp (r.link_bij.mapsTo (Table.mem_keys_iff.mpr ⟨link, hlink⟩))
  exact r.link_eq hlink himage ▸ himage

/-- Every node of the second diagram has been a node of the first one. -/
theorem exists_node (r : Renumbering d e) (hd : d.WellFormed) (he : e.WellFormed) {id : NodeId}
    {node : Node} (hnode : e.node? id = some node) :
    ∃ old, r.node old = id ∧ d.node? old = some node := by
  obtain ⟨old, hold, rfl⟩ := r.node_bij.surjOn (Table.mem_keys_iff.mpr ⟨node, hnode⟩)
  obtain ⟨n, hn⟩ := Table.mem_keys_iff.mp hold
  have himage := r.node?_eq hd he hn
  rw [hnode] at himage
  cases himage
  exact ⟨old, rfl, hn⟩

theorem node_inj (r : Renumbering d e) {a b : NodeId} (ha : (d.node? a).isSome)
    (hb : (d.node? b).isSome) (heq : r.node a = r.node b) : a = b :=
  r.node_bij.injOn (Table.mem_keys_iff.mpr (Option.isSome_iff_exists.mp ha))
    (Table.mem_keys_iff.mpr (Option.isSome_iff_exists.mp hb)) heq

theorem link_inj (r : Renumbering d e) {i j : LinkId} {k l : Link} (hi : d.link? i = some k)
    (hj : d.link? j = some l) (heq : r.link i = r.link j) : i = j :=
  r.link_bij.injOn (Table.mem_keys_iff.mpr ⟨k, hi⟩) (Table.mem_keys_iff.mpr ⟨l, hj⟩) heq

/-- A link of the second diagram is the image of one of the first, which has its ends at the nodes
that the ends of the image are the images of. -/
theorem exists_link (r : Renumbering d e) (hd : d.WellFormed) {id : LinkId} {link : Link}
    (hlink : e.link? id = some link) :
    ∃ old before, r.link old = id ∧ d.link? old = some before ∧
      (∀ {a}, (d.node? a).isSome → link.source.node = r.node a → before.source.node = a) ∧
      ∀ {a}, (d.node? a).isSome → link.target.node = r.node a → before.target.node = a := by
  obtain ⟨old, hold, rfl⟩ := r.link_bij.surjOn (Table.mem_keys_iff.mpr ⟨link, hlink⟩)
  obtain ⟨before, hbefore⟩ := Table.mem_keys_iff.mp hold
  obtain rfl := r.link_eq hbefore hlink
  exact ⟨old, before, rfl, hbefore,
    fun ha heq => r.node_inj (hd.source_fits hbefore).stored ha heq,
    fun ha heq => r.node_inj (hd.target_fits hbefore).stored ha heq⟩

/-- There is one producer on both sides or on neither. Looking for it goes by ascending identifier,
which does not matter where only one is accepted. -/
theorem start_eq (r : Renumbering d e) (hd : d.WellFormed) (he : e.WellFormed) :
    e.start = (fun s : Stop => (r.node s.1, s.2)) <$> d.start := by
  have hasKind : ∀ {id kind}, d.HasKind id kind → e.HasKind (r.node id) kind := by
    rintro id kind ⟨node, hnode, hkind⟩
    exact ⟨node, r.node?_eq hd he hnode, hkind⟩
  -- every node of `e` is one of `d` under its other identifier
  have hadKind : ∀ {id kind}, e.HasKind id kind → ∃ old, r.node old = id ∧ d.HasKind old kind := by
    rintro id kind ⟨node, hnode, hkind⟩
    obtain ⟨old, hold, hn⟩ := r.exists_node hd he hnode
    exact ⟨old, hold, node, hn, hkind⟩
  rcases d.start_cases with
    ⟨hstart, hnone⟩ | ⟨id, node, hstart, hnode, honly⟩ | ⟨hstart, a, b, hne, ha, hb⟩
  · rw [hstart]
    refine start_of_noProducer fun id hid => ?_
    obtain ⟨old, -, hold⟩ := hadKind hid
    exact hnone old hold
  · rw [hstart]
    have honly' : e.OnlyProducer (r.node id) := by
      refine ⟨hasKind honly.1, fun other hother => ?_⟩
      obtain ⟨old, rfl, hold⟩ := hadKind hother
      rw [honly.2 old hold]
    obtain ⟨image, hstart', himage⟩ := start_of_onlyProducer honly'
    rw [r.node?_eq hd he hnode] at himage
    cases himage
    exact hstart'
  · rw [hstart]
    refine start_of_producers (fun heq => hne ?_) (hasKind ha) (hasKind hb)
    obtain ⟨m, hm, -⟩ := ha
    obtain ⟨n, hn, -⟩ := hb
    exact r.node_inj (Option.isSome_of_mem hm) (Option.isSome_of_mem hn) heq

section
variable {id : NodeId}

/-- The links that leave a node are renumbered one to one, so there are as many. -/
theorem successor_eq (r : Renumbering d e) (hd : d.WellFormed) (hid : (d.node? id).isSome) :
    e.successor (r.node id) = r.node <$> d.successor id := by
  rcases d.successor_cases id with
    ⟨hs, hdead⟩ | ⟨next, hs, i, link, hi, hsource, htarget, hall⟩ |
    ⟨hs, i, j, link, other, hne, hi, hsi, hj, hsj⟩
  · rw [hs]
    refine successor_of_deadEnd fun i link hi hsource => ?_
    obtain ⟨old, before, -, hbefore, source_eq, -⟩ := r.exists_link hd hi
    exact hdead old before hbefore (source_eq hid hsource)
  · rw [hs]
    refine successor_of_leadsOnly ⟨r.link i, _, r.link?_eq hi, congrArg r.node hsource,
      congrArg r.node htarget, fun j other hj hsj => ?_⟩
    obtain ⟨old, before, rfl, hbefore, source_eq, -⟩ := r.exists_link hd hj
    rw [hall old before hbefore (source_eq hid hsj)]
  · rw [hs]
    exact successor_of_forks ⟨r.link i, r.link j, _, _, fun heq => hne (r.link_inj hi hj heq),
      r.link?_eq hi, congrArg r.node hsi, r.link?_eq hj, congrArg r.node hsj⟩

/-- The links that enter a node are renumbered one to one as well. -/
theorem soleEntry_iff (r : Renumbering d e) (hd : d.WellFormed) (hid : (d.node? id).isSome) :
    e.SoleEntry (r.node id) ↔ d.SoleEntry id := by
  constructor
  · intro sole i j link other hi hti hj htj
    exact r.link_inj hi hj (sole _ _ _ _ (r.link?_eq hi) (congrArg r.node hti) (r.link?_eq hj)
      (congrArg r.node htj))
  · intro sole i j link other hi hti hj htj
    obtain ⟨a, before, rfl, ha, -, target_eq⟩ := r.exists_link hd hi
    obtain ⟨b, before', rfl, hb, -, target_eq'⟩ := r.exists_link hd hj
    rw [sole a b before before' ha (target_eq hid hti) hb (target_eq' hid htj)]

end

/-- The walks keep in step from any node that is stored. -/
theorem inStep (r : Renumbering d e) (hd : d.WellFormed) (he : e.WellFormed) (refuse : Bool) :
    d.InStep e refuse r.node Prod.snd fun id => (d.node? id).isSome where
  stored hid := by
    obtain ⟨node, hnode⟩ := Option.isSome_iff_exists.mp hid
    exact ⟨node, hnode, r.node?_eq hd he hnode, rfl⟩
  injective ha hb heq := r.node_inj ha hb heq
  closed _ hs := Option.isSome_iff_exists.mpr ((leadsOnly_of_successor hs).exists_node hd)
  successor_eq hid := r.successor_eq hd hid
  merge_iff _ {id} hid := by
    rw [← Nat.not_le, ← Nat.not_le, he.fanIn_le_one_iff, hd.fanIn_le_one_iff,
      r.soleEntry_iff hd hid]

/-- The walks keep in step, and so the chains are the same but for the numbers. -/
theorem chain_eq (r : Renumbering d e) (hd : d.WellFormed) (he : e.WellFormed) (limit : Nat)
    (refuse : Bool) : e.chain limit refuse =
      List.map (fun s : Stop => (r.node s.1, s.2)) <$> d.chain limit refuse := by
  have hstart := r.start_eq hd he
  cases hd' : d.start with
  | error error =>
    rw [hd'] at hstart
    rw [chain_of_start_error hd', chain_of_start_error hstart]
    rfl
  | ok producer =>
    rw [hd'] at hstart
    exact (r.inStep hd he refuse).chain_eq hd' hstart
      (Option.isSome_of_mem (onlyProducer_of_start hd').1) limit

/-- **Numbers do not matter.** Under a renumbering every rule finds the same chain, under the other
identifiers, or reports the same error, and the source is the same, whatever writes its stages. -/
theorem chainIds_eq (r : Renumbering d e) (hd : d.Obtainable) (he : e.Obtainable)
    (rules : SourceRules) :
    rules.chainIds e = List.map r.node <$> rules.chainIds d ∧ rules.source e = rules.source d := by
  have hchain := r.chain_eq hd.wellFormed he.wellFormed rules.stepLimit rules.refuseMerges
  rw [rules.chainIds_eq_map, rules.chainIds_eq_map, rules.source_eq_map, rules.source_eq_map,
    hchain]
  cases d.chain rules.stepLimit rules.refuseMerges with
  | error error => exact ⟨rfl, rfl⟩
  | ok stops =>
    refine ⟨congrArg Except.ok ?_, congrArg Except.ok ?_⟩
    · simp
    · exact congrArg stageSeparator.intercalate List.map_map

end Renumbering

/-- A source and a sink, the sink placed last. -/
def sourceFirst : List Edit :=
  [.place (.new "source" .producer), .place (.new "sink" .consumer), .join ⟨0⟩ ⟨1⟩]

/-- A source and a sink, the sink placed first. -/
def sinkFirst : List Edit :=
  [.place (.new "sink" .consumer), .place (.new "source" .producer), .join ⟨1⟩ ⟨0⟩]

/-- The nodes change places. -/
def sampleRenumbering : Renumbering (run ∅ sourceFirst) (run ∅ sinkFirst) where
  node id := ⟨1 - id.index⟩
  link := id
  node_bij := by
    let swap (id : NodeId) : NodeId := ⟨1 - id.index⟩
    have maps : ∀ id ∈ (run ∅ sourceFirst).nodes.keys, swap id ∈ (run ∅ sinkFirst).nodes.keys := by
      decide
    have inj : ∀ a ∈ (run ∅ sourceFirst).nodes.keys, ∀ b ∈ (run ∅ sourceFirst).nodes.keys,
        swap a = swap b → a = b := by decide
    have surj : ∀ b ∈ (run ∅ sinkFirst).nodes.keys,
        ∃ a ∈ (run ∅ sourceFirst).nodes.keys, swap a = b := by decide
    exact ⟨maps, fun a ha b hb => inj a ha b hb, surj⟩
  link_bij := Set.bijOn_id {id | id ∈ (run ∅ sourceFirst).links.keys}
  node_eq {id m n} hm hn := by
    have image : ∀ p ∈ (run ∅ sourceFirst).nodes.entries,
        ((run ∅ sinkFirst).node? ⟨1 - p.1.index⟩).map Node.toPlacement = some p.2.toPlacement :=
      List.forall_mem_cons.mpr ⟨rfl, List.forall_mem_singleton.mpr rfl⟩
    have himage := image _ (Table.get?_eq_some_iff.mp hm)
    rw [hn] at himage
    exact Option.some.inj himage
  link_eq {id k l} hk hl := by
    have image : ∀ p ∈ (run ∅ sourceFirst).links.entries,
        (run ∅ sinkFirst).link? p.1 = some (p.2.renumbered fun id => ⟨1 - id.index⟩) := by decide
    have himage := image _ (Table.get?_eq_some_iff.mp hk)
    rw [show (run ∅ sinkFirst).link? id = some l from hl] at himage
    exact Option.some.inj himage

theorem sourceFirst_built : ∀ edit ∈ sourceFirst, edit.Built := by
  simp only [sourceFirst, List.forall_mem_cons]
  exact ⟨.new _ _, .new _ _, trivial, List.forall_mem_nil _⟩

theorem sinkFirst_built : ∀ edit ∈ sinkFirst, edit.Built := by
  simp only [sinkFirst, List.forall_mem_cons]
  exact ⟨.new _ _, .new _ _, trivial, List.forall_mem_nil _⟩

/-- Two nodes that are placed in one order or the other have each other's identifiers. The chains
are different, and the source is the same. -/
theorem chainIds_eq_sample : (run ∅ sourceFirst).Obtainable ∧ (run ∅ sinkFirst).Obtainable ∧
    ({} : SourceRules).chainIds (run ∅ sourceFirst) = .ok [⟨0⟩, ⟨1⟩] ∧
      ({} : SourceRules).chainIds (run ∅ sinkFirst) = .ok [⟨1⟩, ⟨0⟩] ∧
      ({} : SourceRules).source (run ∅ sinkFirst) =
        ({} : SourceRules).source (run ∅ sourceFirst) := by
  have hd : (run ∅ sourceFirst).Obtainable := .run .empty sourceFirst_built
  have he : (run ∅ sinkFirst).Obtainable := .run .empty sinkFirst_built
  have hfound : ({} : SourceRules).chainIds (run ∅ sourceFirst) = .ok [⟨0⟩, ⟨1⟩] := rfl
  obtain ⟨hids, hsource⟩ := sampleRenumbering.chainIds_eq hd he {}
  rw [hfound] at hids
  exact ⟨hd, he, hfound, hids, hsource⟩

end Diagram
end PipelineCanvas
