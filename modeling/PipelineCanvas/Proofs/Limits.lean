import Mathlib.Data.List.Perm.Subperm
import PipelineCanvas.Proofs.Merges
/-! # The limit on steps is a threshold

The walk of `Diagram.chain` looks at the limit only to see whether there is a step left. So walks
with different limits go the same way for as many steps as both may take: with more steps the
outcome is the same, unless the walk was too long (`walk_cases_of_le`), and a chain is found as soon
as there are as many steps as it has links (`stops_of_stops`).

On a well-formed diagram every step leads to a node that is stored and has not been visited. With as
many steps as there are nodes besides the producer, the walk is never too long
(`WellFormed.walk_ne_tooLong`).

The limit is there to stop a walk that does not end, and the three facts together say that it does
nothing else. Raising it never changes a chain that has been found nor an error that was not about
the length, and raising it to the number of nodes makes that error go away for good. The bound is
sharp: the chain through all nodes of a diagram has one link less than the diagram has nodes, so a
limit that is one less refuses it.

Only the last fact needs well-formed diagrams. Where a link may lead to a node that is not there, a
walk can still not be longer, but to see this the count of visited nodes has to be replaced by that
of passes, which is done for the loop itself and not for the walk. -/
namespace PipelineCanvas

/-- Different keys that are all found in a table are no more than its entries. -/
theorem Table.length_le_size {K V : Type} [Ord K] [Std.TransOrd K] [Std.LawfulEqOrd K]
    {t : Table K V} {keys : List K} (nodup : keys.Nodup)
    (stored : ∀ k ∈ keys, ∃ v, t.get? k = some v) : keys.length ≤ t.size := by
  have hsub : keys ⊆ t.keys := fun k hk => Table.mem_keys_iff.mpr (stored k hk)
  have hle : keys.length ≤ t.keys.length := (nodup.subperm hsub).length_le
  rwa [Table.keys, List.length_map] at hle

/-- The rules, with another limit on the number of steps. -/
def SourceRules.within (r : SourceRules) (limit : Nat) : SourceRules :=
  { r with stepLimit := limit }

namespace Diagram
variable {d : Diagram} {refuse : Bool} {visited : List NodeId} {current next : NodeId}

/-! ### Walks with different limits -/

/-- Looking for the next node does not look at the limit. -/
theorem following_ne_tooLong : d.following refuse visited current ≠ .error .tooLong := by
  rcases d.successor_cases current with ⟨hs, -⟩ | ⟨next, hs, -⟩ | ⟨hs, -⟩
  · rw [following_of_successor_error hs]
    exact nofun
  · rw [following_of_successor hs]
    split
    · exact nofun
    · split <;> exact nofun
  · rw [following_of_successor_error hs]
    exact nofun

/-- With more steps the walk is the same, unless it was too long. -/
theorem walk_cases_of_le (d : Diagram) (refuse : Bool) (visited : List NodeId) (current : NodeId)
    {less more : Nat} (hle : less ≤ more) :
    (d.walk refuse less visited current).stops = .error .tooLong ∨
      d.walk refuse more visited current = d.walk refuse less visited current := by
  induction less generalizing more visited current with
  | zero =>
    rcases d.walk_cases refuse 0 visited current with
      ⟨error, hfollow, hwalk⟩ | ⟨next, -, -, hwalk⟩ | ⟨_, _, -, hleft, -⟩ | ⟨_, _, _, -, hleft, -⟩
    · exact .inr (by rw [hwalk, walk_halts hfollow])
    · exact .inl (by rw [hwalk]; rfl)
    · omega
    · omega
  | succ less ih =>
    -- both have a step left and take the same one
    obtain ⟨more, rfl⟩ : ∃ m, more = m + 1 := ⟨more - 1, by omega⟩
    cases hfollow : d.following refuse visited current with
    | error error => exact .inr (by rw [walk_halts hfollow, walk_halts hfollow])
    | ok next =>
      cases hnode : d.node? next with
      | none => exact .inr (by rw [walk_dangling hfollow hnode, walk_dangling hfollow hnode])
      | some node =>
        rw [walk_succ hfollow hnode, walk_succ hfollow hnode, Walk.stops_step_eq_error_iff]
        by_cases hkind : node.kind = .consumer
        · exact .inr (by rw [if_pos hkind, if_pos hkind])
        · rw [if_neg hkind, if_neg hkind]
          rcases ih (next :: visited) next (Nat.le_of_succ_le_succ hle) with hlong | hsame
          · exact .inl hlong
          · exact .inr (by rw [hsame])

/-- A walk that arrives does so just if it may take that many steps. -/
theorem stops_of_stops {limit : Nat} {stops : List Stop}
    (h : (d.walk refuse limit visited current).stops = .ok stops) (other : Nat) :
    (d.walk refuse other visited current).stops =
      if stops.length ≤ other then .ok stops else .error .tooLong := by
  induction other generalizing limit visited current stops with
  | zero =>
    -- a walk that arrives takes a step at least, and there is none to take
    obtain ⟨next, node, hfollow, hmem⟩ := exists_stop_of_stops h
    have hlength : 0 < stops.length := List.length_pos_of_mem hmem
    rw [walk_zero hfollow, if_neg (by omega)]
    rfl
  | succ other ih =>
    rcases d.walk_cases refuse limit visited current with
      ⟨_, -, hwalk⟩ | ⟨_, -, -, hwalk⟩ | ⟨_, _, -, -, -, hwalk⟩ |
      ⟨next, node, left, hfollow, -, hnode, hwalk⟩
    · rw [hwalk] at h
      cases h
    · rw [hwalk] at h
      cases h
    · rw [hwalk] at h
      cases h
    · rw [hwalk] at h
      obtain ⟨behind, hbehind, rfl⟩ := Walk.stops_step_eq_ok_iff.mp h
      rw [walk_succ hfollow hnode, Walk.stops_step]
      by_cases hkind : node.kind = .consumer
      · rw [if_pos hkind] at hbehind ⊢
        cases hbehind
        rw [if_pos (by simp)]
        rfl
      · rw [if_neg hkind] at hbehind ⊢
        rw [ih hbehind, List.length_cons]
        by_cases hle : behind.length ≤ other
        · rw [if_pos hle, if_pos (Nat.succ_le_succ hle)]
          rfl
        · rw [if_neg hle, if_neg (fun h => hle (Nat.le_of_succ_le_succ h))]
          rfl

/-- As many steps as there are nodes left to visit are never too few. -/
theorem WellFormed.walk_ne_tooLong (h : d.WellFormed) {stepsLeft : Nat} (nodup : visited.Nodup)
    (stored : ∀ id ∈ visited, ∃ node, d.node? id = some node)
    (hsize : d.nodes.size ≤ visited.length + stepsLeft) :
    (d.walk refuse stepsLeft visited current).stops ≠ .error .tooLong := by
  induction stepsLeft generalizing visited current with
  | zero =>
    rcases d.walk_cases refuse 0 visited current with
      ⟨error, hfollow, hwalk⟩ | ⟨next, hfollow, -, -⟩ | ⟨_, _, -, hleft, -⟩ | ⟨_, _, _, -, hleft, -⟩
    · rw [hwalk]
      rintro ⟨⟩
      exact following_ne_tooLong hfollow
    · -- all nodes have been visited, so there is none to go on to
      obtain ⟨leads, fresh⟩ := leadsOnly_of_following hfollow
      have hle : (next :: visited).length ≤ d.nodes.size :=
        Table.length_le_size (List.nodup_cons.mpr ⟨fresh, nodup⟩)
          (List.forall_mem_cons.mpr ⟨leads.exists_node h, stored⟩)
      rw [List.length_cons] at hle
      omega
    · omega
    · omega
  | succ left ih =>
    cases hfollow : d.following refuse visited current with
    | error error =>
      rw [walk_halts hfollow]
      rintro ⟨⟩
      exact following_ne_tooLong hfollow
    | ok next =>
      obtain ⟨leads, fresh⟩ := leadsOnly_of_following hfollow
      obtain ⟨node, hnode⟩ := leads.exists_node h
      rw [walk_succ hfollow hnode, Ne, Walk.stops_step_eq_error_iff]
      by_cases hkind : node.kind = .consumer
      · rw [if_pos hkind]
        exact nofun
      · rw [if_neg hkind]
        -- one node more has been visited and one step less is left
        refine ih (List.nodup_cons.mpr ⟨fresh, nodup⟩)
          (List.forall_mem_cons.mpr ⟨⟨node, hnode⟩, stored⟩) ?_
        rw [List.length_cons]
        omega

/-! ### Chains with different limits -/

/-- What the search for a chain comes to depends on the limit as the walk does. -/
theorem chain_cases_of_le (d : Diagram) (refuse : Bool) {less more : Nat} (hle : less ≤ more) :
    d.chain less refuse = .error .tooLong ∨ d.chain more refuse = d.chain less refuse := by
  rcases d.start_cases with ⟨hstart, -⟩ | ⟨id, node, hstart, -⟩ | ⟨hstart, -⟩
  · exact .inr (by rw [chain_of_start_error hstart, chain_of_start_error hstart])
  · rw [chain_of_start hstart, chain_of_start hstart]
    rcases d.walk_cases_of_le refuse [id] id hle with hlong | hsame
    · exact .inl (map_eq_error_iff.mpr hlong)
    · exact .inr (by rw [hsame])
  · exact .inr (by rw [chain_of_start_error hstart, chain_of_start_error hstart])

/-- Under any other limit the chain is found or too long, depending on the number of its links
alone. -/
theorem chain_of_chain {limit : Nat} {stops : List Stop} (h : d.chain limit refuse = .ok stops)
    (other : Nat) : d.chain other refuse =
      if stops.length - 1 ≤ other then .ok stops else .error .tooLong := by
  obtain ⟨producer, hstart, hrest⟩ := bind_eq_ok_iff.mp h
  obtain ⟨behind, hbehind, hstops⟩ := bind_eq_ok_iff.mp hrest
  cases hstops
  rw [chain_of_start hstart, stops_of_stops hbehind, List.length_cons, Nat.add_sub_cancel]
  split <;> rfl

/-- The visited nodes are all different, so the steps run out no sooner than the nodes. -/
theorem WellFormed.chain_ne_tooLong (h : d.WellFormed) {limit : Nat}
    (hlimit : d.nodes.size - 1 ≤ limit) : d.chain limit refuse ≠ .error .tooLong := by
  rcases d.start_cases with ⟨hstart, -⟩ | ⟨id, node, hstart, hnode, -⟩ | ⟨hstart, -⟩
  · rw [chain_of_start_error hstart]
    exact nofun
  · rw [chain_of_start hstart, Ne, map_eq_error_iff]
    refine h.walk_ne_tooLong (List.pairwise_singleton _ id)
      (List.forall_mem_singleton.mpr ⟨node, hnode⟩) ?_
    rw [List.length_singleton]
    omega
  · rw [chain_of_start_error hstart]
    exact nofun

/-! ### The threshold -/

/-- How the outcome of looking for the chain depends on the limit, all other rules being equal. -/
structure Threshold (d : Diagram) (rules : SourceRules) : Prop where
  /-- An outcome other than that the walk is too long stays with every greater limit. -/
  stays : ∀ {less more}, less ≤ more → (rules.within less).chainIds d ≠ .error .tooLong →
    (rules.within more).chainIds d = (rules.within less).chainIds d ∧
      (rules.within more).source d = (rules.within less).source d
  /-- What is too long for a limit is too long for every smaller one. -/
  tooLong_of_le : ∀ {less more}, less ≤ more → (rules.within more).chainIds d = .error .tooLong →
    (rules.within less).chainIds d = .error .tooLong
  /-- With a step for every node but the producer, the limit makes no difference any more. -/
  enough : ∀ {limit}, d.nodes.size - 1 ≤ limit →
    (rules.within limit).chainIds d ≠ .error .tooLong ∧ ∀ more, limit ≤ more →
      (rules.within more).chainIds d = (rules.within limit).chainIds d ∧
        (rules.within more).source d = (rules.within limit).source d
  /-- A chain that is found with some limit is found with those that admit its links. -/
  found_iff : ∀ {bound ids}, (rules.within bound).chainIds d = .ok ids → ∀ limit,
    (rules.within limit).chainIds d = .ok ids ↔ ids.length - 1 ≤ limit
  /-- Below the length of the chain it is the length that is reported, and no other fault. -/
  tooLong_iff : ∀ {bound ids}, (rules.within bound).chainIds d = .ok ids → ∀ limit,
    (rules.within limit).chainIds d = .error .tooLong ↔ limit < ids.length - 1

/-- Another limit takes the place of the one in the rules, and nothing else in them is read. -/
theorem chainIds_within (rules : SourceRules) (limit : Nat) : (rules.within limit).chainIds d =
    List.map Prod.fst <$> d.chain limit rules.refuseMerges :=
  (rules.within limit).chainIds_eq_map d

/-- What is found, is found with every limit that admits its links, and is too long with others. -/
theorem chainIds_of_chainIds {rules : SourceRules} {bound : Nat} {ids : List NodeId}
    (h : (rules.within bound).chainIds d = .ok ids) (limit : Nat) :
    (rules.within limit).chainIds d =
      if ids.length - 1 ≤ limit then .ok ids else .error .tooLong := by
  rw [chainIds_within] at h ⊢
  obtain ⟨stops, hstops, rfl⟩ := map_eq_ok_iff.mp h
  rw [chain_of_chain hstops, List.length_map]
  split <;> rfl

/-- **The limit is a threshold.** Below it the walk is too long, and from it on the outcome is
always the same; no diagram needs a limit greater than the number of its nodes but one. -/
theorem Obtainable.threshold (h : d.Obtainable) (rules : SourceRules) : d.Threshold rules := by
  have same : ∀ {less more}, less ≤ more → (rules.within less).chainIds d ≠ .error .tooLong →
      (rules.within more).chainIds d = (rules.within less).chainIds d ∧
        (rules.within more).source d = (rules.within less).source d := by
    intro less more hle hne
    have hchain : d.chain more rules.refuseMerges = d.chain less rules.refuseMerges := by
      refine (d.chain_cases_of_le rules.refuseMerges hle).resolve_left fun hlong => hne ?_
      rw [chainIds_within]
      exact map_eq_error_iff.mpr hlong
    rw [chainIds_within, chainIds_within, SourceRules.source_eq_map, SourceRules.source_eq_map]
    exact ⟨congrArg _ hchain, congrArg _ hchain⟩
  have enough : ∀ {limit}, d.nodes.size - 1 ≤ limit →
      (rules.within limit).chainIds d ≠ .error .tooLong := by
    intro limit hlimit
    rw [chainIds_within]
    exact mt map_eq_error_iff.mp (h.wellFormed.chain_ne_tooLong hlimit)
  constructor
  · exact same
  · intro less more hle hlong
    by_contra hne
    rw [(same hle hne).1] at hlong
    exact hne hlong
  · exact fun hlimit => ⟨enough hlimit, fun more hle => same hle (enough hlimit)⟩
  · intro bound ids hfound limit
    rw [chainIds_of_chainIds hfound limit]
    by_cases hle : ids.length - 1 ≤ limit
    · simp [hle]
    · simp [hle]
  · intro bound ids hfound limit
    rw [chainIds_of_chainIds hfound limit]
    by_cases hle : ids.length - 1 ≤ limit
    · simp [hle]
    · simp [hle, Nat.lt_of_not_le hle]

/-- A chain of three nodes is found with two steps and not with one. -/
theorem threshold_sample : (run ∅ sampleEdits).Obtainable ∧
    (({} : SourceRules).within 50).chainIds (run ∅ sampleEdits) = .ok [⟨0⟩, ⟨1⟩, ⟨2⟩] ∧
      (({} : SourceRules).within 1).chainIds (run ∅ sampleEdits) = .error .tooLong ∧
      (({} : SourceRules).within 2).chainIds (run ∅ sampleEdits) = .ok [⟨0⟩, ⟨1⟩, ⟨2⟩] := by
  have h : (run ∅ sampleEdits).Obtainable := .run .empty sampleEdits_built
  have hfound : (({} : SourceRules).within 50).chainIds (run ∅ sampleEdits) =
      .ok [⟨0⟩, ⟨1⟩, ⟨2⟩] := rfl
  exact ⟨h, hfound, ((h.threshold {}).tooLong_iff hfound 1).mpr (by decide),
    ((h.threshold {}).found_iff hfound 2).mpr (by decide)⟩

end Diagram
end PipelineCanvas
