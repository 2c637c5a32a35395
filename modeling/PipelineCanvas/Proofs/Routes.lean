import PipelineCanvas.SourceRules
import PipelineCanvas.Proofs.Results
/-! # Where one can go from a node

The nodes that data starts from and the links that leave a node are found by a search through a
table; here the three answers of such a search, nothing, one entry or several, are said in terms of
what the diagram holds. For the start these are no producer, the only one (`OnlyProducer`) and two
of them, and for the way on they are `DeadEnd`, `LeadsOnly` and `Forks`.

The three cases exclude each other and one of them always holds, so each is the answer of the search
exactly if its condition holds. That is shown once for the search through any table, and then used
for nodes and for links; no later proof looks at the list that is searched. -/
namespace PipelineCanvas

namespace Table
variable {K V : Type} [Ord K] [Std.TransOrd K] [Std.LawfulEqOrd K]

omit [Std.TransOrd K] in
theorem key_ne_of_lt {k l : K} (h : compare k l = .lt) : k ≠ l := by
  rintro rfl
  rw [Std.ReflOrd.compare_self] at h
  cases h

/-- A search through a table finds nothing, exactly one entry, or two under different keys. -/
theorem filter_entries_cases (t : Table K V) (p : V → Bool) :
    (t.entries.filter (fun e => p e.2) = [] ∧ ∀ k v, t.get? k = some v → p v = false) ∨
    (∃ k v, t.entries.filter (fun e => p e.2) = [(k, v)] ∧ t.get? k = some v ∧ p v = true ∧
      ∀ l w, t.get? l = some w → p w = true → l = k) ∨
    (∃ k v l w rest, t.entries.filter (fun e => p e.2) = (k, v) :: (l, w) :: rest ∧ k ≠ l ∧
      t.get? k = some v ∧ p v = true ∧ t.get? l = some w ∧ p w = true) := by
  have mem : ∀ k v, (k, v) ∈ t.entries.filter (fun e => p e.2) ↔
      t.get? k = some v ∧ p v = true := by
    intro k v
    rw [List.mem_filter, get?_eq_some_iff]
  have ascending := t.ascending.filter (fun e => p e.2)
  match hfound : t.entries.filter (fun e => p e.2) with
  | [] =>
    refine .inl ⟨hfound, fun k v hk => ?_⟩
    have hnot := mt (mem k v).mpr (by simp [hfound])
    simpa [hk] using hnot
  | [(k, v)] =>
    obtain ⟨hk, hv⟩ := (mem k v).mp (by simp [hfound])
    refine .inr (.inl ⟨k, v, hfound, hk, hv, fun l w hl hw => ?_⟩)
    have hmem := (mem l w).mpr ⟨hl, hw⟩
    rw [hfound, List.mem_singleton] at hmem
    exact congrArg Prod.fst hmem
  | (k, v) :: (l, w) :: rest =>
    obtain ⟨hk, hv⟩ := (mem k v).mp (by simp [hfound])
    obtain ⟨hl, hw⟩ := (mem l w).mp (by simp [hfound])
    rw [hfound] at ascending
    -- entries stand in the order of their keys, so the first two have different ones
    have hlt := List.rel_of_pairwise_cons ascending List.mem_cons_self
    exact .inr (.inr ⟨k, v, l, w, rest, hfound, key_ne_of_lt hlt, hk, hv, hl, hw⟩)

/-- A search finds one entry at most just if any two that meet the condition have the same key. -/
theorem length_filter_entries_le_one_iff {t : Table K V} {p : V → Bool} :
    (t.entries.filter fun e => p e.2).length ≤ 1 ↔ ∀ k l v w, t.get? k = some v → p v = true →
      t.get? l = some w → p w = true → k = l := by
  rcases t.filter_entries_cases p with
    ⟨hfound, hnone⟩ | ⟨i, v, hfound, -, -, hall⟩ | ⟨i, v, j, w, rest, hfound, hne, hi, hv, hj, hw⟩
  · rw [hfound]
    refine ⟨fun _ k _ v _ hk hv _ _ => ?_, fun _ => Nat.zero_le _⟩
    rw [hnone k v hk] at hv
    cases hv
  · rw [hfound]
    refine ⟨fun _ k l v w hk hv hl hw => ?_, fun _ => Nat.le_refl _⟩
    rw [hall k v hk hv, hall l w hl hw]
  · rw [hfound]
    refine ⟨fun hle => ?_, fun hone => absurd (hone i j v w hi hv hj hw) hne⟩
    simp at hle

end Table

namespace Walk

theorem stops_step (stop : Stop) (rest : Walk) :
    (step stop rest).stops = (stop :: ·) <$> rest.stops :=
  bind_pure_comp _ _

theorem stops_step_eq_ok_iff {stop : Stop} {rest : Walk} {found : List Stop} :
    (step stop rest).stops = .ok found ↔ ∃ behind, rest.stops = .ok behind ∧
      stop :: behind = found := by
  rw [stops_step, map_eq_ok_iff]

theorem stops_step_eq_error_iff {stop : Stop} {rest : Walk} {error : ChainError} :
    (step stop rest).stops = .error error ↔ rest.stops = .error error := by
  rw [stops_step, map_eq_error_iff]

end Walk

namespace Diagram
variable {d : Diagram}

/-- The diagram holds a node of the kind under the identifier. -/
def HasKind (d : Diagram) (id : NodeId) (kind : BlockKind) : Prop :=
  ∃ node, d.node? id = some node ∧ node.kind = kind

/-- The node is the only producer of the diagram. -/
def OnlyProducer (d : Diagram) (id : NodeId) : Prop :=
  d.HasKind id .producer ∧ ∀ other, d.HasKind other .producer → other = id

/-- No link leaves the node. -/
def DeadEnd (d : Diagram) (id : NodeId) : Prop :=
  ∀ i link, d.link? i = some link → link.source.node ≠ id

/-- Exactly one link leaves the first node, and it goes to the second. -/
def LeadsOnly (d : Diagram) (source target : NodeId) : Prop :=
  ∃ i link, d.link? i = some link ∧ link.source.node = source ∧ link.target.node = target ∧
    ∀ j other, d.link? j = some other → other.source.node = source → j = i

/-- Two or more links leave the node, be it to one and the same node. -/
def Forks (d : Diagram) (id : NodeId) : Prop :=
  ∃ i j link other, i ≠ j ∧ d.link? i = some link ∧ link.source.node = id ∧
    d.link? j = some other ∧ other.source.node = id

/-! ### The start -/

/-- One of the three answers is given, and its condition holds. -/
theorem start_cases (d : Diagram) :
    (d.start = .error .noStart ∧ ∀ id, ¬ d.HasKind id .producer) ∨
    (∃ id node, d.start = .ok (id, node) ∧ d.node? id = some node ∧ d.OnlyProducer id) ∨
    (d.start = .error .manyStarts ∧
      ∃ a b, a ≠ b ∧ d.HasKind a .producer ∧ d.HasKind b .producer) := by
  unfold start producers
  rcases d.nodes.filter_entries_cases (fun n => n.kind == .producer) with
    ⟨hfound, hnone⟩ | ⟨id, node, hfound, hid, hkind, hall⟩ |
    ⟨a, m, b, n, rest, hfound, hne, ha, hm, hb, hn⟩
  · rw [hfound]
    refine .inl ⟨rfl, ?_⟩
    rintro id ⟨node, hnode, hkind⟩
    simpa [hkind] using hnone id node hnode
  · rw [hfound]
    refine .inr (.inl ⟨id, node, rfl, hid, ⟨node, hid, by simpa using hkind⟩, ?_⟩)
    rintro other ⟨n, hn, hk⟩
    exact hall other n hn (by simpa using hk)
  · rw [hfound]
    exact .inr (.inr ⟨rfl, a, b, hne, ⟨m, ha, by simpa using hm⟩, ⟨n, hb, by simpa using hn⟩⟩)

/-- The other two answers would contradict that there is one producer and no other. -/
theorem start_of_onlyProducer {id : NodeId} (h : d.OnlyProducer id) :
    ∃ node, d.start = .ok (id, node) ∧ d.node? id = some node := by
  rcases d.start_cases with
    ⟨-, hnone⟩ | ⟨other, node, hstart, hnode, honly⟩ | ⟨-, a, b, hne, ha, hb⟩
  · exact absurd h.1 (hnone id)
  · obtain rfl := honly.2 id h.1
    exact ⟨node, hstart, hnode⟩
  · exact absurd ((h.2 a ha).trans (h.2 b hb).symm) hne

theorem start_of_noProducer (h : ∀ id, ¬ d.HasKind id .producer) :
    d.start = .error .noStart := by
  rcases d.start_cases with ⟨hstart, -⟩ | ⟨id, -, -, -, honly⟩ | ⟨-, a, -, -, ha, -⟩
  · exact hstart
  · exact absurd honly.1 (h id)
  · exact absurd ha (h a)

theorem start_of_producers {a b : NodeId} (hne : a ≠ b) (ha : d.HasKind a .producer)
    (hb : d.HasKind b .producer) : d.start = .error .manyStarts := by
  rcases d.start_cases with ⟨-, hnone⟩ | ⟨id, -, -, -, honly⟩ | ⟨hstart, -⟩
  · exact absurd ha (hnone a)
  · exact absurd ((honly.2 a ha).trans (honly.2 b hb).symm) hne
  · exact hstart

/-- Read backwards: whatever is found is the only producer. -/
theorem onlyProducer_of_start {id : NodeId} {node : Node} (h : d.start = .ok (id, node)) :
    d.node? id = some node ∧ d.OnlyProducer id := by
  rcases d.start_cases with ⟨hstart, -⟩ | ⟨_, _, hstart, hnode, honly⟩ | ⟨hstart, -⟩
  · rw [h] at hstart
    cases hstart
  · rw [h] at hstart
    cases hstart
    exact ⟨hnode, honly⟩
  · rw [h] at hstart
    cases hstart

theorem chain_of_start_error {error : ChainError} (h : d.start = .error error) (limit : Nat)
    (refuse : Bool) : d.chain limit refuse = .error error := by
  rw [chain, h]
  rfl

/-- Behind the producer the chain is what the walk stops at. -/
theorem chain_of_start {producer : Stop} (h : d.start = .ok producer) (limit : Nat)
    (refuse : Bool) : d.chain limit refuse =
      (producer :: ·) <$> (d.walk refuse limit [producer.1] producer.1).stops := by
  rw [chain, h]
  rfl

/-! ### The way on -/

/-- One of the three answers is given, and its condition holds. -/
theorem successor_cases (d : Diagram) (id : NodeId) :
    (d.successor id = .error .unterminated ∧ d.DeadEnd id) ∨
    (∃ target, d.successor id = .ok target ∧ d.LeadsOnly id target) ∨
    (d.successor id = .error .fork ∧ d.Forks id) := by
  unfold successor linksLeavingNode linksWhere
  rcases d.links.filter_entries_cases (fun l => l.source.node == id) with
    ⟨hfound, hnone⟩ | ⟨i, link, hfound, hi, hs, hall⟩ |
    ⟨i, link, j, other, rest, hfound, hne, hi, hs, hj, ht⟩
  · rw [hfound]
    refine .inl ⟨rfl, fun i link hi hs => ?_⟩
    simpa [hs] using hnone i link hi
  · rw [hfound]
    refine .inr (.inl ⟨link.target.node, rfl, i, link, hi, by simpa using hs, rfl, ?_⟩)
    exact fun j other hj ht => hall j other hj (by simpa using ht)
  · rw [hfound]
    exact .inr (.inr ⟨rfl, i, j, link, other, hne, hi, by simpa using hs, hj, by simpa using ht⟩)

theorem LeadsOnly.not_deadEnd {a b : NodeId} (h : d.LeadsOnly a b) : ¬ d.DeadEnd a := by
  obtain ⟨i, link, hi, hs, -, -⟩ := h
  exact fun hdead => hdead i link hi hs

theorem Forks.not_deadEnd {id : NodeId} (h : d.Forks id) : ¬ d.DeadEnd id := by
  obtain ⟨i, j, link, other, -, hi, hs, -, -⟩ := h
  exact fun hdead => hdead i link hi hs

theorem Forks.not_leadsOnly {a b : NodeId} (h : d.Forks a) : ¬ d.LeadsOnly a b := by
  obtain ⟨i, j, link, other, hne, hi, hs, hj, ht⟩ := h
  rintro ⟨k, -, -, -, -, hall⟩
  exact hne ((hall i link hi hs).trans (hall j other hj ht).symm)

theorem LeadsOnly.unique {a b c : NodeId} (hb : d.LeadsOnly a b) (hc : d.LeadsOnly a c) :
    b = c := by
  obtain ⟨i, link, hi, hs, rfl, -⟩ := hb
  obtain ⟨j, other, hj, -, rfl, hall⟩ := hc
  obtain rfl := hall i link hi hs
  rw [hi] at hj
  cases hj
  rfl

/-- One link leaves the node, so the node at its end is what is found. -/
theorem successor_of_leadsOnly {a b : NodeId} (h : d.LeadsOnly a b) : d.successor a = .ok b := by
  rcases d.successor_cases a with ⟨-, hdead⟩ | ⟨c, hc, hleads⟩ | ⟨-, hforks⟩
  · exact absurd hdead h.not_deadEnd
  · rw [hc, h.unique hleads]
  · exact absurd h hforks.not_leadsOnly

/-- Read backwards: what is found is the end of the only link. -/
theorem leadsOnly_of_successor {a b : NodeId} (h : d.successor a = .ok b) : d.LeadsOnly a b := by
  rcases d.successor_cases a with ⟨hs, -⟩ | ⟨c, hs, leads⟩ | ⟨hs, -⟩
  · rw [h] at hs
    cases hs
  · rw [h] at hs
    cases hs
    exact leads
  · rw [h] at hs
    cases hs

theorem successor_of_deadEnd {id : NodeId} (h : d.DeadEnd id) :
    d.successor id = .error .unterminated := by
  rcases d.successor_cases id with ⟨hs, -⟩ | ⟨c, -, hleads⟩ | ⟨-, hforks⟩
  · exact hs
  · exact absurd h hleads.not_deadEnd
  · exact absurd h hforks.not_deadEnd

theorem successor_of_forks {id : NodeId} (h : d.Forks id) : d.successor id = .error .fork := by
  rcases d.successor_cases id with ⟨-, hdead⟩ | ⟨c, -, hleads⟩ | ⟨hs, -⟩
  · exact absurd hdead h.not_deadEnd
  · exact absurd hleads h.not_leadsOnly
  · exact hs

/-! ### What a route depends on -/

/-- The way on depends on nodes and links, and not on the counters. -/
theorem following_congr {e : Diagram} (hnodes : e.nodes = d.nodes) (hlinks : e.links = d.links)
    (refuse : Bool) (visited : List NodeId) (current : NodeId) :
    e.following refuse visited current = d.following refuse visited current := by
  simp only [following, successor, linksLeavingNode, linksWhere, fanIn, port?, node?,
    linksEntering, hnodes, hlinks]

/-- So does the walk, step by step. -/
theorem walk_congr {e : Diagram} (hnodes : e.nodes = d.nodes) (hlinks : e.links = d.links)
    (refuse : Bool) (stepsLeft : Nat) (visited : List NodeId) (current : NodeId) :
    e.walk refuse stepsLeft visited current = d.walk refuse stepsLeft visited current := by
  induction stepsLeft generalizing visited current with
  | zero =>
    unfold walk
    rw [following_congr hnodes hlinks]
    cases d.following refuse visited current <;> rfl
  | succ stepsLeft ih =>
    unfold walk
    rw [following_congr hnodes hlinks]
    cases d.following refuse visited current with
    | error error => rfl
    | ok next => simp only [node?, hnodes, ih]

/-- Chains are the same where nodes and links are. -/
theorem chain_congr {e : Diagram} (hnodes : e.nodes = d.nodes) (hlinks : e.links = d.links)
    (limit : Nat) (refuse : Bool) : e.chain limit refuse = d.chain limit refuse := by
  have hstart : e.start = d.start := by simp only [start, producers, hnodes]
  simp only [chain, hstart, walk_congr hnodes hlinks]

end Diagram

namespace SourceRules

theorem chainIds_eq_map (r : SourceRules) (d : Diagram) :
    r.chainIds d = List.map Prod.fst <$> d.chain r.stepLimit r.refuseMerges :=
  bind_pure_comp _ _

/-- The source is written of the nodes on the chain, one stage for each. -/
theorem source_eq_map (r : SourceRules) (d : Diagram) : r.source d =
    (fun chain => stageSeparator.intercalate (chain.map fun stop => r.stage stop.2)) <$>
      d.chain r.stepLimit r.refuseMerges :=
  bind_pure_comp _ _

/-- Where a chain is found under other identifiers, its own are these. -/
theorem chainIds_eq_of_chain {r : SourceRules} {d e : Diagram} {rename : NodeId → NodeId}
    {image : Stop → Node} (h : e.chain r.stepLimit r.refuseMerges =
      List.map (fun s => (rename s.1, image s)) <$> d.chain r.stepLimit r.refuseMerges) :
    r.chainIds e = List.map rename <$> r.chainIds d := by
  rw [chainIds_eq_map, chainIds_eq_map, h]
  cases d.chain r.stepLimit r.refuseMerges with
  | error error => rfl
  | ok stops => exact congrArg Except.ok (by simp)

/-- The source is that of the nodes, whatever their identifiers are. -/
theorem source_eq_of_chain {r : SourceRules} {d e : Diagram} {rename : NodeId → NodeId}
    (h : e.chain r.stepLimit r.refuseMerges =
      List.map (fun s => (rename s.1, s.2)) <$> d.chain r.stepLimit r.refuseMerges) :
    r.source e = r.source d := by
  rw [source_eq_map, source_eq_map, h]
  cases d.chain r.stepLimit r.refuseMerges with
  | error error => rfl
  | ok stops => exact congrArg Except.ok (congrArg stageSeparator.intercalate List.map_map)

end SourceRules
end PipelineCanvas
