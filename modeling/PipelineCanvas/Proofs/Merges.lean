import Mathlib.Logic.Relation
import PipelineCanvas.Proofs.Pipelines
/-! # Refusing merges

A **merge** is a node that two or more links enter. Where merges are refused, the walk of
`Diagram.chain` goes the same way, up to the first merge that it comes to: `chain_refusing_cases`
compares the two ways to look for the chain.

Coming back to a node is coming to a merge. All nodes that have been visited, but for the producer,
have been entered by the link that was followed to them, and the link that leads back is another
one; the producer cannot be entered. So where merges are refused no cycle is ever reported, and a
chain that is found is a component of the diagram (`Diagram.StandsAlone`).

The invariant behind this is `Entered`: of every visited node it says how the walk came to it, by a
link from another visited node that is not the current one. It is what makes a link from the current
node to a visited one a second link. Nothing like it is needed where merges are admitted, as there
visited nodes are asked for directly.

That a chain stands alone is stated with the links of the whole diagram, so it also excludes links
from nodes that the walk never comes to. These would enter a node of the chain, and make a merge of
it; that is the one place where a link that does not start in the chain matters. -/
namespace PipelineCanvas

namespace SourceRules

/-- The rules, with merges refused. -/
def refusing (r : SourceRules) : SourceRules := { r with refuseMerges := true }

/-- The rules, with merges admitted. -/
def admitting (r : SourceRules) : SourceRules := { r with refuseMerges := false }

end SourceRules

/-- Nodes have one port in a direction at most. -/
theorem BlockKind.findIdx?_ports {kind : BlockKind} {direction : Direction} {index : Nat}
    (h : kind.ports[index]? = some ⟨direction⟩) :
    kind.ports.findIdx? (fun p => p.direction == direction) = some index := by
  match kind, direction, index with
  | .producer, .output, 0 => rfl
  | .consumer, .input, 0 => rfl
  | .transformer, .input, 0 => rfl
  | .transformer, .output, 1 => rfl
  | .producer, .input, 0 | .producer, _, _ + 1 => simp [ports] at h
  | .consumer, .output, 0 | .consumer, _, _ + 1 => simp [ports] at h
  | .transformer, .output, 0 | .transformer, .input, 1 | .transformer, _, _ + 2 =>
    simp [ports] at h

theorem BlockKind.hasPort_of_mem_ports {kind : BlockKind} {direction : Direction}
    (h : ⟨direction⟩ ∈ kind.ports) : kind.hasPort direction = true := by
  cases kind <;> cases direction <;> first | rfl | simp [ports] at h

namespace Diagram
variable {d : Diagram} {limit : Nat} {ids : List NodeId}

/-- At most one link enters the node. -/
def SoleEntry (d : Diagram) (id : NodeId) : Prop :=
  ∀ i j link other, d.link? i = some link → link.target.node = id →
    d.link? j = some other → other.target.node = id → i = j

/-- A link runs between the nodes, one way or the other. -/
def Joined (d : Diagram) (a b : NodeId) : Prop :=
  ∃ i link, d.link? i = some link ∧
    (link.source.node = a ∧ link.target.node = b ∨ link.source.node = b ∧ link.target.node = a)

/-- The nodes of the list stand in a row by themselves. -/
structure StandsAlone (d : Diagram) (ids : List NodeId) : Prop where
  /-- No node stands in the chain twice. -/
  nodup : ids.Nodup
  /-- A link at one of the nodes runs from that node to the next, or to it from the one before. -/
  between : ∀ {i link}, d.link? i = some link →
    link.source.node ∈ ids ∨ link.target.node ∈ ids → [link.source.node, link.target.node] <:+: ids
  /-- One link runs from each node to the next. -/
  one_link : ∀ {a b}, [a, b] <:+: ids →
    ∃! i, ∃ link, d.link? i = some link ∧ link.source.node = a ∧ link.target.node = b
  /-- From one of the nodes links lead to the others and nowhere else. -/
  component : ∀ {a}, a ∈ ids → ∀ b, Relation.ReflTransGen d.Joined a b ↔ b ∈ ids

/-! ### Links that enter a node -/

/-- As no kind has two ports in one direction, a port that exists is the one that is found. -/
theorem WellFormed.port?_eq_some (h : d.WellFormed) {port : PortAddress} {direction : Direction}
    (hport : d.HasPort port direction) : d.port? port.node direction = some port := by
  obtain ⟨node, hnode, hport⟩ := hport
  have hindex : node.portIndex? direction = some port.port := by
    rw [h.ports_eq hnode] at hport
    rw [Node.portIndex?, h.ports_eq hnode]
    exact BlockKind.findIdx?_ports hport
  simp [port?, hnode, hindex]

theorem node_of_port? {id : NodeId} {direction : Direction} {port : PortAddress}
    (h : d.port? id direction = some port) : port.node = id := by
  obtain ⟨node, -, hindex⟩ := Option.bind_eq_some_iff.mp h
  obtain ⟨index, -, hport⟩ := Option.bind_eq_some_iff.mp hindex
  cases hport
  rfl

/-- The links that enter a node do so through its in-port, so the fan-in counts them all. -/
theorem WellFormed.fanIn_le_one_iff (h : d.WellFormed) {id : NodeId} :
    d.fanIn id ≤ 1 ↔ d.SoleEntry id := by
  have in_port : ∀ {i link}, d.link? i = some link → link.target.node = id →
      d.port? id .input = some link.target := by
    rintro i link hlink rfl
    exact h.port?_eq_some (h.target_fits hlink)
  unfold fanIn
  cases hport : d.port? id .input with
  | none =>
    refine ⟨fun _ i _ link _ hi ht _ _ => ?_, fun _ => Nat.zero_le _⟩
    rw [in_port hi ht] at hport
    cases hport
  | some port =>
    have enters : ∀ {i link}, d.link? i = some link →
        ((link.target == port) = true ↔ link.target.node = id) := by
      intro i link hi
      rw [beq_iff_eq]
      refine ⟨fun ht => ht ▸ node_of_port? hport, fun ht => ?_⟩
      exact Option.some.inj ((in_port hi ht).symm.trans hport)
    have hcount : (d.linksEntering port).length ≤ 1 ↔ _ :=
      Table.length_filter_entries_le_one_iff (t := d.links) (p := fun l => l.target == port)
    refine hcount.trans ⟨?_, ?_⟩
    · intro hone i j link other hi ht hj hto
      exact hone i j link other hi ((enters hi).mpr ht) hj ((enters hj).mpr hto)
    · intro hsole i j link other hi ht hj hto
      exact hsole i j link other hi ((enters hi).mp ht) hj ((enters hj).mp hto)

/-- A node with a port in the direction is of a kind that has one. -/
theorem WellFormed.kind_hasPort (h : d.WellFormed) {port : PortAddress} {direction : Direction}
    (hport : d.HasPort port direction) {kind : BlockKind} (hkind : d.HasKind port.node kind) :
    kind.hasPort direction = true := by
  obtain ⟨node, hnode, hport⟩ := hport
  obtain ⟨n, hn, rfl⟩ := hkind
  rw [hnode] at hn
  cases hn
  rw [h.ports_eq hnode] at hport
  exact BlockKind.hasPort_of_mem_ports (List.mem_of_getElem? hport)

/-- A producer is not entered. -/
theorem WellFormed.not_entered (h : d.WellFormed) {id : NodeId} (hid : d.HasKind id .producer)
    {i : LinkId} {link : Link} (hlink : d.link? i = some link) : link.target.node ≠ id := by
  rintro rfl
  cases h.kind_hasPort (h.target_fits hlink) hid

/-- A consumer is not left. -/
theorem WellFormed.deadEnd (h : d.WellFormed) {id : NodeId} (hid : d.HasKind id .consumer) :
    d.DeadEnd id := by
  rintro i link hlink rfl
  cases h.kind_hasPort (h.source_fits hlink) hid

/-- A producer has no port to take anything in, so no link enters it and it is no merge. -/
theorem WellFormed.soleEntry_of_producer (h : d.WellFormed) {id : NodeId}
    (hid : d.HasKind id .producer) : d.SoleEntry id :=
  fun _ _ _ _ hi ht _ _ => absurd ht (h.not_entered hid hi)

/-! ### The walk with merges refused and admitted -/

section Walks
variable {visited : List NodeId} {current next : NodeId} {stepsLeft : Nat}

/-- Where merges are refused, the way on is the same unless it leads to a merge. -/
theorem following_refusing_cases (d : Diagram) (visited : List NodeId) (current : NodeId) :
    (d.following true visited current = .error .merge ∧
      ∀ next, d.following false visited current = .ok next → 1 < d.fanIn next) ∨
    (d.following true visited current = d.following false visited current ∧
      ∀ next, d.following false visited current = .ok next → d.fanIn next ≤ 1) := by
  cases hs : d.successor current with
  | error error =>
    refine .inr ?_
    simp [following_of_successor_error hs]
  | ok next =>
    simp only [following_of_successor hs, true_and, Bool.false_eq_true, false_and, if_false]
    -- where the way on is admitted, it leads to the successor
    have only : ∀ other,
        (if next ∈ visited then .error .cycle else .ok next : Except ChainError NodeId) =
          .ok other → other = next := by
      intro other h
      split at h
      · cases h
      · cases h
        rfl
    by_cases hmerge : 1 < d.fanIn next
    · exact .inl ⟨if_pos hmerge, fun other h => (only other h).symm ▸ hmerge⟩
    · exact .inr ⟨if_neg hmerge, fun other h => (only other h).symm ▸ Nat.not_lt.mp hmerge⟩

/-- A walk that ends well has made a step, so the node it came to first is among its stops. -/
theorem exists_stop_of_stops {refuse : Bool} {stops : List Stop}
    (h : (d.walk refuse stepsLeft visited current).stops = .ok stops) :
    ∃ next node, d.following refuse visited current = .ok next ∧ (next, node) ∈ stops := by
  rcases d.walk_cases refuse stepsLeft visited current with
    ⟨_, -, hwalk⟩ | ⟨_, -, -, hwalk⟩ | ⟨_, _, -, -, -, hwalk⟩ |
    ⟨next, node, _, hfollow, -, -, hwalk⟩
  · rw [hwalk] at h
    cases h
  · rw [hwalk] at h
    cases h
  · rw [hwalk] at h
    cases h
  · rw [hwalk] at h
    obtain ⟨behind, -, rfl⟩ := Walk.stops_step_eq_ok_iff.mp h
    exact ⟨next, node, hfollow, List.mem_cons_self⟩

/-- So is the walk, up to the first merge. -/
theorem walk_refusing_cases (d : Diagram) (stepsLeft : Nat) (visited : List NodeId)
    (current : NodeId) :
    ((d.walk true stepsLeft visited current).stops = .error .merge ∧
      ∀ stops, (d.walk false stepsLeft visited current).stops = .ok stops →
        ∃ stop ∈ stops, 1 < d.fanIn stop.1) ∨
    (d.walk true stepsLeft visited current = d.walk false stepsLeft visited current ∧
      ∀ stops, (d.walk false stepsLeft visited current).stops = .ok stops →
        ∀ stop ∈ stops, d.fanIn stop.1 ≤ 1) := by
  induction stepsLeft using Nat.strong_induction_on generalizing visited current with
  | _ stepsLeft ih =>
    rcases d.following_refusing_cases visited current with ⟨hmerge, hfan⟩ | ⟨hsame, hfan⟩
    · -- the walk with merges admitted may go on, but then it stops at the merge first
      refine .inl ⟨by rw [walk_halts hmerge]; rfl, fun stops hstops => ?_⟩
      obtain ⟨next, node, hfollow, hmem⟩ := exists_stop_of_stops hstops
      exact ⟨(next, node), hmem, hfan next hfollow⟩
    · rcases d.walk_cases false stepsLeft visited current with
        ⟨error, hfollow, hwalk⟩ | ⟨next, hfollow, rfl, hwalk⟩ |
        ⟨next, left, hfollow, rfl, hnode, hwalk⟩ |
        ⟨next, node, left, hfollow, rfl, hnode, hwalk⟩
      · rw [hwalk, walk_halts (hsame.trans hfollow)]
        exact .inr ⟨rfl, nofun⟩
      · rw [hwalk, walk_zero (hsame.trans hfollow)]
        exact .inr ⟨rfl, nofun⟩
      · rw [hwalk, walk_dangling (hsame.trans hfollow) hnode]
        exact .inr ⟨rfl, nofun⟩
      · rw [hwalk, walk_succ (hsame.trans hfollow) hnode]
        by_cases hkind : node.kind = .consumer
        · rw [if_pos hkind, if_pos hkind]
          refine .inr ⟨rfl, ?_⟩
          rintro _ ⟨⟩
          exact List.forall_mem_singleton.mpr (hfan next hfollow)
        · rw [if_neg hkind, if_neg hkind]
          rcases ih left (Nat.lt_succ_self left) (next :: visited) next with
            ⟨hstops, hmerge⟩ | ⟨heq, hsole⟩
          · refine .inl ⟨Walk.stops_step_eq_error_iff.mpr hstops, fun stops h => ?_⟩
            obtain ⟨behind, hbehind, rfl⟩ := Walk.stops_step_eq_ok_iff.mp h
            obtain ⟨stop, hmem, hlt⟩ := hmerge behind hbehind
            exact ⟨stop, List.mem_cons_of_mem _ hmem, hlt⟩
          · refine .inr ⟨by rw [heq], fun stops h => ?_⟩
            obtain ⟨behind, hbehind, rfl⟩ := Walk.stops_step_eq_ok_iff.mp h
            exact List.forall_mem_cons.mpr ⟨hfan next hfollow, hsole behind hbehind⟩

end Walks

/-- Looking for the chain is the same where merges are refused, up to the first merge. -/
theorem WellFormed.chain_refusing_cases (h : d.WellFormed) (limit : Nat) :
    (d.chain limit true = .error .merge ∧
      ∀ stops, d.chain limit false = .ok stops → ∃ stop ∈ stops, ¬ d.SoleEntry stop.1) ∨
    (d.chain limit true = d.chain limit false ∧
      ∀ stops, d.chain limit false = .ok stops → ∀ stop ∈ stops, d.SoleEntry stop.1) := by
  rcases d.start_cases with ⟨hstart, -⟩ | ⟨id, node, hstart, -, honly⟩ | ⟨hstart, -⟩
  · simp only [chain_of_start_error hstart]
    exact .inr ⟨trivial, nofun⟩
  · simp only [chain_of_start hstart]
    have hfirst : d.SoleEntry id := h.soleEntry_of_producer honly.1
    rcases d.walk_refusing_cases limit [id] id with ⟨hstops, hmerge⟩ | ⟨heq, hsole⟩
    · refine .inl ⟨map_eq_error_iff.mpr hstops, fun stops hchain => ?_⟩
      obtain ⟨behind, hbehind, rfl⟩ := map_eq_ok_iff.mp hchain
      obtain ⟨stop, hmem, hlt⟩ := hmerge behind hbehind
      exact ⟨stop, List.mem_cons_of_mem _ hmem, mt h.fanIn_le_one_iff.mpr (Nat.not_le.mpr hlt)⟩
    · refine .inr ⟨by rw [heq], fun stops hchain => ?_⟩
      obtain ⟨behind, hbehind, rfl⟩ := map_eq_ok_iff.mp hchain
      exact List.forall_mem_cons.mpr
        ⟨hfirst, fun stop hmem => h.fanIn_le_one_iff.mp (hsole behind hbehind stop hmem)⟩
  · simp only [chain_of_start_error hstart]
    exact .inr ⟨trivial, nofun⟩

/-! ### Coming back is coming to a merge -/

/-- The nodes that have been visited have been entered from others of them, but for those that
cannot be entered. The node that the walk stands at has not been left yet. -/
structure Entered (d : Diagram) (visited : List NodeId) (current : NodeId) : Prop where
  current_mem : current ∈ visited
  /-- A visited node is entered by no link at all, or by one from a visited node that has been left
  behind. -/
  entered : ∀ id ∈ visited, (∀ i link, d.link? i = some link → link.target.node ≠ id) ∨
    ∃ i link, d.link? i = some link ∧ link.target.node = id ∧ link.source.node ∈ visited ∧
      link.source.node ≠ current

section
variable {visited : List NodeId} {current next : NodeId} {stepsLeft : Nat}

/-- At the start only the producer has been visited, which nothing can enter. -/
theorem WellFormed.entered (h : d.WellFormed) {id : NodeId} (hid : d.HasKind id .producer) :
    d.Entered [id] id where
  current_mem := List.mem_singleton_self id
  entered := List.forall_mem_singleton.mpr (.inl fun _ _ hl => h.not_entered hid hl)

/-- The step of the walk. The current node is left behind, so its link may now be the one by which
the next node has been entered. -/
theorem Entered.step (h : d.Entered visited current) (leads : d.LeadsOnly current next)
    (fresh : next ∉ visited) : d.Entered (next :: visited) next where
  current_mem := List.mem_cons_self
  entered := by
    have ne_next : ∀ {id}, id ∈ visited → id ≠ next := fun hid heq => fresh (heq ▸ hid)
    refine List.forall_mem_cons.mpr ⟨.inr ?_, fun id hid => ?_⟩
    · obtain ⟨i, link, hi, rfl, ht, -⟩ := leads
      exact ⟨i, link, hi, ht, List.mem_cons_of_mem _ h.current_mem, ne_next h.current_mem⟩
    · rcases h.entered id hid with hnone | ⟨i, link, hi, ht, hs, -⟩
      · exact .inl hnone
      · exact .inr ⟨i, link, hi, ht, List.mem_cons_of_mem _ hs, ne_next hs⟩

/-- A node that has been visited and is led to has two links that enter it. -/
theorem Entered.not_soleEntry (h : d.Entered visited current) (leads : d.LeadsOnly current next)
    (hnext : next ∈ visited) : ¬ d.SoleEntry next := by
  intro sole
  obtain ⟨j, other, hj, hs, ht, -⟩ := leads
  rcases h.entered next hnext with hnone | ⟨i, link, hi, hti, -, hne⟩
  · exact hnone j other hj ht
  · obtain rfl := sole i j link other hi hti hj ht
    rw [hi] at hj
    cases hj
    exact hne hs

/-- A visited node that is come to again is refused as a merge before it is seen that it has been
visited. -/
theorem Entered.following_ne_cycle (he : d.Entered visited current) (h : d.WellFormed) :
    d.following true visited current ≠ .error .cycle := by
  rcases d.successor_cases current with ⟨hs, -⟩ | ⟨next, hs, leads⟩ | ⟨hs, -⟩
  · rw [following_of_successor_error hs]
    exact nofun
  · rw [following_of_successor hs]
    by_cases hmem : next ∈ visited
    · have hmerge : 1 < d.fanIn next :=
        Nat.not_le.mp (mt h.fanIn_le_one_iff.mp (he.not_soleEntry leads hmem))
      rw [if_pos ⟨rfl, hmerge⟩]
      exact nofun
    · rw [if_neg hmem]
      split <;> exact nofun
  · rw [following_of_successor_error hs]
    exact nofun

/-- By induction on the steps that are left, with the invariant carried from node to node. -/
theorem Entered.walk_ne_cycle (he : d.Entered visited current) (h : d.WellFormed) :
    (d.walk true stepsLeft visited current).stops ≠ .error .cycle := by
  induction stepsLeft using Nat.strong_induction_on generalizing visited current with
  | _ stepsLeft ih =>
    rcases d.walk_cases true stepsLeft visited current with
      ⟨error, hfollow, hwalk⟩ | ⟨next, hfollow, rfl, hwalk⟩ |
      ⟨next, left, hfollow, rfl, hnode, hwalk⟩ |
      ⟨next, node, left, hfollow, rfl, hnode, hwalk⟩
    · rw [hwalk]
      rintro ⟨⟩
      exact he.following_ne_cycle h hfollow
    · rw [hwalk]
      exact nofun
    · rw [hwalk]
      exact nofun
    · rw [hwalk]
      split
      · exact nofun
      · intro hcycle
        obtain ⟨leads, fresh⟩ := leadsOnly_of_following hfollow
        exact ih left (Nat.lt_succ_self left) (he.step leads fresh)
          (Walk.stops_step_eq_error_iff.mp hcycle)

end

/-- Where merges are refused, no cycle is reported. -/
theorem WellFormed.chain_ne_cycle (h : d.WellFormed) (limit : Nat) :
    d.chain limit true ≠ .error .cycle := by
  rcases d.start_cases with ⟨hstart, -⟩ | ⟨id, node, hstart, -, honly⟩ | ⟨hstart, -⟩
  · rw [chain_of_start_error hstart]
    exact nofun
  · rw [chain_of_start hstart]
    exact mt map_eq_error_iff.mp ((h.entered honly.1).walk_ne_cycle h)
  · rw [chain_of_start_error hstart]
    exact nofun

/-! ### Chains without merges -/

/-- Every item of a list but the last has one behind it. -/
theorem infix_of_mem_of_getLast? {ids : List NodeId} {a last : NodeId} (ha : a ∈ ids)
    (hlast : ids.getLast? = some last) (hne : a ≠ last) : ∃ b, [a, b] <:+: ids := by
  obtain ⟨before, behind, rfl⟩ := List.append_of_mem ha
  cases behind with
  | nil =>
    rw [List.getLast?_append] at hlast
    cases hlast
    exact absurd rfl hne
  | cons b behind => exact ⟨b, before, behind, by simp⟩

/-- Every item but the first has one before it. -/
theorem infix_of_mem_of_head? {ids : List NodeId} {b first : NodeId} (hb : b ∈ ids)
    (hfirst : ids.head? = some first) (hne : b ≠ first) : ∃ a, [a, b] <:+: ids := by
  obtain ⟨before, behind, rfl⟩ := List.append_of_mem hb
  rcases List.eq_nil_or_concat before with rfl | ⟨before, a, rfl⟩
  · cases hfirst
    exact absurd rfl hne
  · exact ⟨a, before, behind, by simp⟩

instance (d : Diagram) : Std.Symm d.Joined where
  symm _ _ := by
    rintro ⟨i, link, hi, hends⟩
    exact ⟨i, link, hi, hends.symm⟩

/-- The only link that leaves a node joins it to the next one. -/
theorem LeadsOnly.joined {a b : NodeId} (leads : d.LeadsOnly a b) : d.Joined a b := by
  obtain ⟨i, link, hi, hs, ht, -⟩ := leads
  exact ⟨i, link, hi, .inl ⟨hs, ht⟩⟩

/-- A pipeline that is entered by no other links stands alone. -/
theorem IsPipeline.standsAlone (hp : d.IsPipeline limit ids) (h : d.WellFormed)
    (sole : ∀ id ∈ ids, d.SoleEntry id) : d.StandsAlone ids := by
  obtain ⟨first, inner, last, hids, -, hnodup, honly, -, hlast, hlinked⟩ := hp
  have leads : ∀ {a b}, [a, b] <:+: ids → d.LeadsOnly a b :=
    fun hab => List.isChain_pair.mp <| List.IsChain.infix hlinked hab
  -- a node that a link leaves is not the last, so the chain goes on behind it, along its only link
  have from_source : ∀ {i link}, d.link? i = some link → link.source.node ∈ ids →
      [link.source.node, link.target.node] <:+: ids := by
    intro i link hi hs
    have hne : link.source.node ≠ last := h.deadEnd hlast i link hi
    obtain ⟨b, hab⟩ := infix_of_mem_of_getLast? hs (hids ▸ List.getLast?_concat) hne
    obtain ⟨j, other, hj, -, rfl, hall⟩ := leads hab
    obtain rfl := hall i link hi rfl
    rw [hi] at hj
    cases hj
    exact hab
  -- a node that a link enters is not the first, and no other link enters it
  have from_target : ∀ {i link}, d.link? i = some link → link.target.node ∈ ids →
      [link.source.node, link.target.node] <:+: ids := by
    intro i link hi ht
    have hne : link.target.node ≠ first := h.not_entered honly.1 hi
    obtain ⟨a, hab⟩ := infix_of_mem_of_head? ht (hids ▸ rfl) hne
    obtain ⟨j, other, hj, rfl, hto, -⟩ := leads hab
    obtain rfl := sole _ ht i j link other hi rfl hj hto
    rw [hi] at hj
    cases hj
    exact hab
  have between : ∀ {i link}, d.link? i = some link →
      link.source.node ∈ ids ∨ link.target.node ∈ ids →
        [link.source.node, link.target.node] <:+: ids :=
    fun hi hends => hends.elim (from_source hi) (from_target hi)
  refine ⟨hnodup, between, fun hab => ?_, fun {a} ha b => ⟨fun hpath => ?_, fun hb => ?_⟩⟩
  · obtain ⟨i, link, hi, hs, ht, hall⟩ := leads hab
    refine ⟨i, ⟨link, hi, hs, ht⟩, ?_⟩
    rintro j ⟨other, hj, hjs, -⟩
    exact hall j other hj hjs
  · induction hpath with
    | refl => exact ha
    | tail _ hjoined ih =>
      obtain ⟨i, link, hi, ⟨rfl, rfl⟩ | ⟨rfl, rfl⟩⟩ := hjoined
      · exact (between hi (.inl ih)).subset (by simp)
      · exact (between hi (.inr ih)).subset (by simp)
  · have hchain : ids.IsChain (Relation.ReflTransGen d.Joined) :=
      hlinked.imp fun _ _ hab => .single hab.joined
    exact (List.isChain_iff_pairwise.mp hchain).forall_of_forall (fun _ _ => .refl) ha hb

/-- **Refusing merges changes nothing but where there is one.** Unless a merge is reported, the
outcome is that with merges admitted; a chain without merges is found in both cases; no cycle is
reported, as a merge is found in its place; and a chain that is found stands alone. -/
theorem Obtainable.chainIds_refusing (h : d.Obtainable) (rules : SourceRules) :
    (rules.refusing.chainIds d ≠ .error .merge →
      rules.admitting.chainIds d = rules.refusing.chainIds d ∧
        rules.admitting.source d = rules.refusing.source d) ∧
      (∀ ids, rules.admitting.chainIds d = .ok ids → (∀ id ∈ ids, d.SoleEntry id) →
        rules.refusing.chainIds d = .ok ids) ∧
      rules.refusing.chainIds d ≠ .error .cycle ∧
      (rules.admitting.chainIds d = .error .cycle →
        rules.refusing.chainIds d = .error .merge) ∧
      ∀ ids, rules.refusing.chainIds d = .ok ids → d.StandsAlone ids := by
  have hrefusing : rules.refusing.chainIds d =
      List.map Prod.fst <$> d.chain rules.stepLimit true := rules.refusing.chainIds_eq_map d
  have hadmitting : rules.admitting.chainIds d =
      List.map Prod.fst <$> d.chain rules.stepLimit false := rules.admitting.chainIds_eq_map d
  rcases h.wellFormed.chain_refusing_cases rules.stepLimit with ⟨hmerge, hfar⟩ | ⟨heq, hsole⟩
  · have herror : rules.refusing.chainIds d = .error .merge := by
      rw [hrefusing, hmerge]
      rfl
    refine ⟨absurd herror, fun ids hids sole => ?_, ?_, fun _ => herror, fun ids hids => ?_⟩
    · rw [hadmitting] at hids
      obtain ⟨stops, hstops, rfl⟩ := map_eq_ok_iff.mp hids
      obtain ⟨stop, hmem, hnot⟩ := hfar stops hstops
      exact absurd (sole stop.1 (List.mem_map_of_mem hmem)) hnot
    · rw [herror]
      exact nofun
    · rw [herror] at hids
      cases hids
  · -- no merge is met, and the two rules do the same
    have hsame : rules.admitting.chainIds d = rules.refusing.chainIds d := by
      rw [hadmitting, hrefusing, heq]
    have hsource : rules.admitting.source d = rules.refusing.source d := by
      rw [SourceRules.source_eq_map, SourceRules.source_eq_map]
      exact congrArg _ heq.symm
    have hcycle : rules.refusing.chainIds d ≠ .error .cycle := by
      rw [hrefusing]
      exact mt map_eq_error_iff.mp (h.wellFormed.chain_ne_cycle rules.stepLimit)
    refine ⟨fun _ => ⟨hsame, hsource⟩, fun ids hids _ => hsame.symm.trans hids, hcycle,
      fun herror => absurd (hsame.symm.trans herror) hcycle, fun ids hids => ?_⟩
    have hfound : rules.admitting.chainIds d = .ok ids := hsame.trans hids
    have hp : d.IsPipeline rules.admitting.stepLimit ids :=
      (chainIds_eq_iff h.wellFormed rfl (.ok ids)).mp hfound
    refine hp.standsAlone h.wellFormed fun id hid => ?_
    rw [hadmitting] at hfound
    obtain ⟨stops, hstops, rfl⟩ := map_eq_ok_iff.mp hfound
    obtain ⟨stop, hmem, rfl⟩ := List.mem_map.mp hid
    exact hsole stops hstops stop hmem

/-- The pipeline of the samples stands by itself, so it is found also where merges are refused. -/
theorem chainIds_refusing_sample : (run ∅ sampleEdits).Obtainable ∧
    ({} : SourceRules).refusing.chainIds (run ∅ sampleEdits) = .ok [⟨0⟩, ⟨1⟩, ⟨2⟩] ∧
      (run ∅ sampleEdits).StandsAlone [⟨0⟩, ⟨1⟩, ⟨2⟩] := by
  have h : (run ∅ sampleEdits).Obtainable := .run .empty sampleEdits_built
  obtain ⟨-, -, -, -, alone⟩ := h.chainIds_refusing {}
  have hfound : ({} : SourceRules).refusing.chainIds (run ∅ sampleEdits) =
      .ok [⟨0⟩, ⟨1⟩, ⟨2⟩] := rfl
  exact ⟨h, hfound, alone _ hfound⟩

end Diagram
end PipelineCanvas
