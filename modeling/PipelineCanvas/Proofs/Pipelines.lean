import Mathlib.Data.List.Chain
import PipelineCanvas.Proofs.Routes
import PipelineCanvas.Proofs.WellFormed
/-! # When a diagram is a pipeline

A **trail** is a way from the only producer of a diagram along links that are the only ones to leave
their nodes, on which no node is met twice and no consumer is passed. A **pipeline** is a trail with
a consumer behind it. The walk of `Diagram.chain` follows the trail, so its outcome is read off the
last node of the trail that it comes to: `chainIds_eq_iff` gives each outcome by a condition on the
diagram, and `exists_outcome` says that one of the conditions holds.

The walk is a recursion on the steps that are left, and carries the nodes that it has visited in
reverse. A trail is stated without either. The two are brought together by one lemma, that after any
trail the walk goes on from its last node with the steps that are left (`chain_of_trail`): the
induction is on the trail, one node at its end at a time. Every outcome is then one more step from
some trail, by the equation of the walk for that step.

The other direction needs no induction on the walk at all. Of the conditions one holds, so the walk
has the outcome of that one, and as it has only one outcome no other condition can hold. The
existence comes from extending a trail as long as it can be: no node is met twice, so a trail that
is longer than the limit is reached, or something stops it before. -/
namespace PipelineCanvas
namespace Diagram
variable {d : Diagram}

/-! ### Trails and pipelines -/

/-- A way from the only producer to `last`, on which every link is the only one to leave its node,
no node occurs twice, and none is a consumer. -/
structure Trail (d : Diagram) (ids : List NodeId) (last : NodeId) : Prop where
  /-- It begins at the producer, and there is no other one in the diagram. -/
  first : ∃ id ∈ ids.head?, d.OnlyProducer id
  last_eq : ids.getLast? = some last
  /-- No node is met twice. -/
  nodup : ids.Nodup
  /-- All nodes of it are there, and none is a consumer, at which it would end. -/
  passed : ∀ id ∈ ids, ∃ node, d.node? id = some node ∧ node.kind ≠ .consumer
  /-- From each node there is just one link, and it leads to the next. -/
  linked : ids.IsChain d.LeadsOnly

/-- A way of at most `limit` links from the only producer over nodes that take in and emit data to
a consumer, on which every link is the only one to leave its node and no node occurs twice. -/
def IsPipeline (d : Diagram) (limit : Nat) (ids : List NodeId) : Prop :=
  ∃ first inner last, ids = first :: inner ++ [last] ∧ inner.length + 1 ≤ limit ∧ ids.Nodup ∧
    d.OnlyProducer first ∧ (∀ id ∈ inner, d.HasKind id .transformer) ∧
    d.HasKind last .consumer ∧ ids.IsChain d.LeadsOnly

/-- What is wrong with a diagram for which the error is reported, when at most `limit` links may be
followed and merges are not refused. -/
def Breaks (d : Diagram) (limit : Nat) : ChainError → Prop
  | .noStart => ∀ id, ¬ d.HasKind id .producer
  | .manyStarts => ∃ a b, a ≠ b ∧ d.HasKind a .producer ∧ d.HasKind b .producer
  | .unterminated => ∃ ids last, d.Trail ids last ∧ ids.length ≤ limit + 1 ∧ d.DeadEnd last
  | .fork => ∃ ids last, d.Trail ids last ∧ ids.length ≤ limit + 1 ∧ d.Forks last
  | .cycle => ∃ ids last next, d.Trail ids last ∧ ids.length ≤ limit + 1 ∧
      d.LeadsOnly last next ∧ next ∈ ids
  | .tooLong => ∃ ids last next, d.Trail ids last ∧ ids.length = limit + 1 ∧
      d.LeadsOnly last next ∧ next ∉ ids
  | .merge => False
  | .dangling _ => False

/-- The condition for each outcome of looking for the chain. -/
def Outcome (d : Diagram) (limit : Nat) : Except ChainError (List NodeId) → Prop
  | .ok ids => d.IsPipeline limit ids
  | .error error => d.Breaks limit error

/-! ### Trails grow at the end -/

/-- The shortest trail. A producer is no consumer, so it may be passed. -/
theorem OnlyProducer.trail {id : NodeId} (h : d.OnlyProducer id) : d.Trail [id] id where
  first := ⟨id, rfl, h⟩
  last_eq := rfl
  nodup := List.pairwise_singleton _ id
  passed := by
    intro i hi
    rw [List.mem_singleton] at hi
    subst i
    obtain ⟨⟨node, hnode, hkind⟩, -⟩ := h
    exact ⟨node, hnode, by simp [hkind]⟩
  linked := .singleton id

theorem Trail.ne_nil {ids : List NodeId} {last : NodeId} (t : d.Trail ids last) : ids ≠ [] := by
  rintro rfl
  cases t.last_eq

theorem Trail.last_mem {ids : List NodeId} {last : NodeId} (t : d.Trail ids last) : last ∈ ids :=
  List.mem_of_getLast? t.last_eq

theorem Trail.nodup_snoc {ids : List NodeId} {last next : NodeId} (t : d.Trail ids last)
    (fresh : next ∉ ids) : (ids ++ [next]).Nodup := by
  refine List.nodup_append.mpr ⟨t.nodup, List.pairwise_singleton _ next, ?_⟩
  rintro a ha b hb rfl
  rw [List.mem_singleton] at hb
  exact fresh (hb ▸ ha)

theorem Trail.linked_snoc {ids : List NodeId} {last next : NodeId} (t : d.Trail ids last)
    (leads : d.LeadsOnly last next) : (ids ++ [next]).IsChain d.LeadsOnly := by
  refine List.isChain_append.mpr ⟨t.linked, .singleton next, ?_⟩
  intro a ha b hb
  rw [t.last_eq] at ha
  cases ha
  cases hb
  exact leads

/-- Trails grow at the end, as the walk does. -/
theorem Trail.snoc {ids : List NodeId} {last next : NodeId} {node : Node} (t : d.Trail ids last)
    (leads : d.LeadsOnly last next) (fresh : next ∉ ids) (hnode : d.node? next = some node)
    (hkind : node.kind ≠ .consumer) : d.Trail (ids ++ [next]) next where
  first := by
    obtain ⟨id, hid, honly⟩ := t.first
    exact ⟨id, by simp [List.head?_append, Option.mem_def.mp hid], honly⟩
  last_eq := by simp
  nodup := t.nodup_snoc fresh
  passed := by
    intro id hid
    rcases List.mem_append.mp hid with hid | hid
    · exact t.passed id hid
    · rw [List.mem_singleton] at hid
      exact ⟨node, hid ▸ hnode, hkind⟩
  linked := t.linked_snoc leads

/-- A trail is a producer alone, or a shorter trail and a link from its last node. -/
theorem Trail.cases_last {ids : List NodeId} {last : NodeId} (t : d.Trail ids last) :
    (ids = [last] ∧ d.OnlyProducer last) ∨
    ∃ init previous, ids = init ++ [last] ∧ d.Trail init previous ∧
      d.LeadsOnly previous last ∧ last ∉ init := by
  obtain ⟨init, rfl⟩ : ∃ init, ids = init ++ [last] := by
    obtain ⟨init, hinit⟩ := List.getLast?_eq_some_iff.mp t.last_eq
    exact ⟨init, hinit⟩
  obtain ⟨hinit, -, hlast⟩ := List.isChain_append.mp t.linked
  obtain ⟨nodup, -, hne⟩ := List.nodup_append.mp t.nodup
  cases hprevious : init.getLast? with
  | none =>
    rw [List.getLast?_eq_none_iff] at hprevious
    subst init
    obtain ⟨id, hid, honly⟩ := t.first
    cases hid
    exact .inl ⟨rfl, honly⟩
  | some previous =>
    have hnil : init ≠ [] := by
      rintro rfl
      cases hprevious
    refine .inr ⟨init, previous, rfl, ⟨?_, hprevious, nodup, ?_, hinit⟩, ?_, ?_⟩
    · obtain ⟨id, hid, honly⟩ := t.first
      rw [List.head?_append_of_ne_nil _ hnil] at hid
      exact ⟨id, hid, honly⟩
    · exact fun id hid => t.passed id (List.mem_append_left _ hid)
    · exact hlast previous hprevious last rfl
    · exact fun hmem => hne last hmem last (List.mem_singleton_self last) rfl

/-- The inner nodes of a trail take in and emit data: they are not passed as consumers, and only
the first is a producer. -/
theorem Trail.exists_inner {ids : List NodeId} {last : NodeId} (t : d.Trail ids last) :
    ∃ first inner, ids = first :: inner ∧ d.OnlyProducer first ∧
      ∀ id ∈ inner, d.HasKind id .transformer := by
  obtain ⟨first, hfirst, honly⟩ := t.first
  obtain ⟨inner, rfl⟩ := List.head?_eq_some_iff.mp hfirst
  refine ⟨first, inner, rfl, honly, fun id hid => ?_⟩
  obtain ⟨node, hnode, hkind⟩ := t.passed id (List.mem_cons_of_mem _ hid)
  refine ⟨node, hnode, ?_⟩
  cases hk : node.kind with
  | producer =>
    have hid' := honly.2 id ⟨node, hnode, hk⟩
    exact absurd (hid' ▸ hid) (List.nodup_cons.mp t.nodup).1
  | consumer => exact absurd hk hkind
  | transformer => rfl

/-- Behind a trail stands a consumer: this is a pipeline. -/
theorem Trail.isPipeline {ids : List NodeId} {last next : NodeId} {limit : Nat}
    (t : d.Trail ids last) (leads : d.LeadsOnly last next) (fresh : next ∉ ids)
    (hnext : d.HasKind next .consumer) (hlimit : ids.length ≤ limit) :
    d.IsPipeline limit (ids ++ [next]) := by
  obtain ⟨first, inner, rfl, honly, hinner⟩ := t.exists_inner
  exact ⟨first, inner, next, rfl, hlimit, t.nodup_snoc fresh, honly, hinner, hnext,
    t.linked_snoc leads⟩

/-- A pipeline is a trail with a consumer behind it. -/
theorem IsPipeline.exists_trail {ids : List NodeId} {limit : Nat} (h : d.IsPipeline limit ids) :
    ∃ init last next, ids = init ++ [next] ∧ d.Trail init last ∧ init.length ≤ limit ∧
      d.LeadsOnly last next ∧ next ∉ init ∧ d.HasKind next .consumer := by
  obtain ⟨first, inner, next, rfl, hlimit, hnodup, honly, hinner, hnext, hlinked⟩ := h
  obtain ⟨hinit, -, hlast⟩ := List.isChain_append.mp hlinked
  obtain ⟨nodup, -, hne⟩ := List.nodup_append.mp hnodup
  obtain ⟨last, hlast_eq⟩ : ∃ last, (first :: inner).getLast? = some last :=
    ⟨_, List.getLast?_eq_some_getLast (List.cons_ne_nil _ _)⟩
  refine ⟨first :: inner, last, next, rfl, ⟨⟨first, rfl, honly⟩, hlast_eq, nodup, ?_, hinit⟩,
    hlimit, hlast last hlast_eq next rfl, ?_, hnext⟩
  · intro id hid
    rcases List.mem_cons.mp hid with rfl | hid
    · obtain ⟨node, hnode, hkind⟩ := honly.1
      exact ⟨node, hnode, by simp [hkind]⟩
    · obtain ⟨node, hnode, hkind⟩ := hinner id hid
      exact ⟨node, hnode, by simp [hkind]⟩
  · exact fun hmem => hne next hmem next (List.mem_singleton_self next) rfl

/-- What is short enough stays short enough. -/
theorem IsPipeline.mono {ids : List NodeId} {limit greater : Nat} (h : d.IsPipeline limit ids)
    (hle : limit ≤ greater) : d.IsPipeline greater ids := by
  obtain ⟨first, inner, last, hids, hlimit, rest⟩ := h
  exact ⟨first, inner, last, hids, Nat.le_trans hlimit hle, rest⟩

/-! ### One pass of the walk -/

section Pass
variable {visited : List NodeId} {current next : NodeId} {node : Node} {stepsLeft : Nat}
  {refuse : Bool}

/-- Once the next node is found two things are left to ask: whether it is a merge and whether it has
been visited, in this order. -/
theorem following_of_successor (h : d.successor current = .ok next) :
    d.following refuse visited current =
      if refuse = true ∧ 1 < d.fanIn next then .error .merge
      else if next ∈ visited then .error .cycle else .ok next := by
  simp only [following, h]
  by_cases hmerge : refuse = true ∧ 1 < d.fanIn next
  · simp [hmerge, bind, Except.bind, throw, throwThe, MonadExceptOf.throw]
  · by_cases hmem : next ∈ visited
    · simp [hmerge, hmem, bind, Except.bind, throw, throwThe, MonadExceptOf.throw]
    · simp [hmerge, hmem, bind, Except.bind, pure, Except.pure]

/-- Where merges are admitted only the second question is asked. -/
theorem following_of_leadsOnly (leads : d.LeadsOnly current next) :
    d.following false visited current =
      if next ∈ visited then .error .cycle else .ok next := by
  rw [following_of_successor (successor_of_leadsOnly leads), if_neg (by simp)]

/-- That there is no next node, or more than one, is found before anything else. -/
theorem following_of_successor_error {error : ChainError}
    (h : d.successor current = .error error) :
    d.following refuse visited current = .error error := by
  simp [following, h, bind, Except.bind]

/-- The walk goes on along the only link that leaves a node, to a node that is new. -/
theorem leadsOnly_of_following (h : d.following refuse visited current = .ok next) :
    d.LeadsOnly current next ∧ next ∉ visited := by
  cases hs : d.successor current with
  | error error =>
    rw [following_of_successor_error hs] at h
    cases h
  | ok target =>
    rw [following_of_successor hs] at h
    split at h
    · cases h
    · split at h
      · cases h
      · next fresh =>
        cases h
        exact ⟨leadsOnly_of_successor hs, fresh⟩

/-- The walk stops at a node that it cannot go on from, however many steps are left. -/
theorem walk_halts {error : ChainError} (h : d.following refuse visited current = .error error) :
    d.walk refuse stepsLeft visited current = .halted error := by
  unfold walk
  rw [h]

/-- The limit is looked at only once it is known where the walk would go on. -/
theorem walk_zero (h : d.following refuse visited current = .ok next) :
    d.walk refuse 0 visited current = .halted .tooLong := by
  unfold walk
  rw [h]

/-- A node that is a consumer ends the walk; from any other it goes on with one step less. -/
theorem walk_succ (h : d.following refuse visited current = .ok next)
    (hnode : d.node? next = some node) :
    d.walk refuse (stepsLeft + 1) visited current = .step (next, node)
      (if node.kind = .consumer then .arrived
        else d.walk refuse stepsLeft (next :: visited) next) := by
  conv_lhs => unfold walk
  rw [h]
  simp [hnode]

/-- A link into nowhere stops the walk. On a well-formed diagram there is none. -/
theorem walk_dangling (h : d.following refuse visited current = .ok next)
    (hnode : d.node? next = none) :
    d.walk refuse (stepsLeft + 1) visited current = .halted (.dangling current) := by
  unfold walk
  rw [h]
  simp [hnode]

/-- A pass halts the walk, or takes it to a node where it arrives or goes on. -/
theorem walk_cases (d : Diagram) (refuse : Bool) (stepsLeft : Nat) (visited : List NodeId)
    (current : NodeId) :
    (∃ error, d.following refuse visited current = .error error ∧
      d.walk refuse stepsLeft visited current = .halted error) ∨
    (∃ next, d.following refuse visited current = .ok next ∧ stepsLeft = 0 ∧
      d.walk refuse stepsLeft visited current = .halted .tooLong) ∨
    (∃ next left, d.following refuse visited current = .ok next ∧ stepsLeft = left + 1 ∧
      d.node? next = none ∧
        d.walk refuse stepsLeft visited current = .halted (.dangling current)) ∨
    ∃ next node left, d.following refuse visited current = .ok next ∧ stepsLeft = left + 1 ∧
      d.node? next = some node ∧ d.walk refuse stepsLeft visited current = .step (next, node)
        (if node.kind = .consumer then .arrived
          else d.walk refuse left (next :: visited) next) := by
  cases hfollow : d.following refuse visited current with
  | error error => exact .inl ⟨error, rfl, walk_halts hfollow⟩
  | ok next =>
    cases stepsLeft with
    | zero => exact .inr (.inl ⟨next, rfl, rfl, walk_zero hfollow⟩)
    | succ left =>
      cases hnode : d.node? next with
      | none => exact .inr (.inr (.inl ⟨next, left, rfl, rfl, hnode, walk_dangling hfollow hnode⟩))
      | some node =>
        exact .inr (.inr (.inr ⟨next, node, left, rfl, rfl, hnode, walk_succ hfollow hnode⟩))

end Pass

/-! ### The walk follows the trail -/

/-- What the walk has still to find, when it has come to the end of a trail. -/
theorem chain_of_trail {ids : List NodeId} {last : NodeId}
    (t : d.Trail ids last) {limit stepsLeft : Nat} (hsteps : ids.length + stepsLeft = limit + 1) :
    ∃ passed : List Stop, passed.map Prod.fst = ids ∧
      d.chain limit false = (passed ++ ·) <$> (d.walk false stepsLeft ids.reverse last).stops := by
  -- the trail is taken back node by node, and each gives the walk before it one step more
  induction hlen : ids.length generalizing ids last stepsLeft with
  | zero => exact absurd (List.length_eq_zero_iff.mp hlen) t.ne_nil
  | succ n ih =>
    rcases t.cases_last with ⟨rfl, honly⟩ | ⟨init, previous, rfl, tinit, leads, fresh⟩
    · obtain ⟨node, hstart, -⟩ := start_of_onlyProducer honly
      have hleft : stepsLeft = limit := by
        simp only [List.length_singleton] at hsteps
        omega
      exact ⟨[(last, node)], rfl, hleft ▸ chain_of_start hstart limit false⟩
    · obtain ⟨node, hnode, hkind⟩ := t.passed last t.last_mem
      simp only [List.length_append, List.length_singleton] at hlen hsteps
      obtain ⟨passed, rfl, hchain⟩ := ih tinit
        (show init.length + (stepsLeft + 1) = limit + 1 by omega) (by omega)
      refine ⟨passed ++ [(last, node)], by simp, ?_⟩
      have hfollow : d.following false (passed.map Prod.fst).reverse previous = .ok last := by
        rw [following_of_leadsOnly leads, if_neg (by rwa [List.mem_reverse])]
      rw [hchain, walk_succ hfollow hnode, if_neg hkind, List.reverse_append]
      cases hstops : (d.walk false stepsLeft (last :: (passed.map Prod.fst).reverse) last).stops <;>
        simp [Walk.stops, hstops, bind, Except.bind, Functor.map, Except.map, pure, Except.pure]

theorem chain_of_trail_of_halted {ids : List NodeId} {last : NodeId}
    (t : d.Trail ids last) {limit stepsLeft : Nat} {error : ChainError}
    (hsteps : ids.length + stepsLeft = limit + 1)
    (hwalk : d.walk false stepsLeft ids.reverse last = .halted error) :
    d.chain limit false = .error error := by
  obtain ⟨passed, -, hchain⟩ := chain_of_trail t hsteps
  rw [hchain, hwalk]
  rfl

/-- The walk comes to the last inner node of the pipeline, and from there to the consumer. -/
theorem chain_of_isPipeline {ids : List NodeId} {limit : Nat}
    (hp : d.IsPipeline limit ids) :
    ∃ stops : List Stop, stops.map Prod.fst = ids ∧ d.chain limit false = .ok stops := by
  obtain ⟨init, last, next, rfl, t, hlimit, leads, fresh, node, hnode, hkind⟩ := hp.exists_trail
  obtain ⟨stepsLeft, hsteps⟩ : ∃ n, init.length + (n + 1) = limit + 1 :=
    ⟨limit - init.length, by omega⟩
  obtain ⟨passed, rfl, hchain⟩ := chain_of_trail t hsteps
  refine ⟨passed ++ [(next, node)], by simp, ?_⟩
  have hfollow : d.following false (passed.map Prod.fst).reverse last = .ok next := by
    rw [following_of_leadsOnly leads, if_neg (by rwa [List.mem_reverse])]
  rw [hchain, walk_succ hfollow hnode, if_pos hkind]
  rfl

/-- Each fault is what the walk meets behind some trail. -/
theorem chain_of_breaks {limit : Nat} {error : ChainError} (hb : d.Breaks limit error) :
    d.chain limit false = .error error := by
  cases error with
  | noStart => exact chain_of_start_error (start_of_noProducer hb) limit false
  | manyStarts =>
    obtain ⟨a, b, hne, ha, hb⟩ := hb
    exact chain_of_start_error (start_of_producers hne ha hb) limit false
  | unterminated =>
    obtain ⟨ids, last, t, hlen, hdead⟩ := hb
    exact chain_of_trail_of_halted t (Nat.add_sub_cancel' hlen)
      (walk_halts (following_of_successor_error (successor_of_deadEnd hdead)))
  | fork =>
    obtain ⟨ids, last, t, hlen, hforks⟩ := hb
    exact chain_of_trail_of_halted t (Nat.add_sub_cancel' hlen)
      (walk_halts (following_of_successor_error (successor_of_forks hforks)))
  | cycle =>
    obtain ⟨ids, last, next, t, hlen, leads, hmem⟩ := hb
    refine chain_of_trail_of_halted t (Nat.add_sub_cancel' hlen) (walk_halts ?_)
    rw [following_of_leadsOnly leads, if_pos (by rwa [List.mem_reverse])]
  | tooLong =>
    obtain ⟨ids, last, next, t, hlen, leads, fresh⟩ := hb
    have hfollow : d.following false ids.reverse last = .ok next := by
      rw [following_of_leadsOnly leads, if_neg (by rwa [List.mem_reverse])]
    exact chain_of_trail_of_halted t (show ids.length + 0 = limit + 1 from hlen)
      (walk_zero hfollow)
  | merge => exact hb.elim
  | dangling node => exact hb.elim

/-! ### One of the outcomes holds -/

/-- The end of a trail decides the outcome, or leads to a node that is not on the trail. -/
theorem Trail.outcome_or_leadsOnly {ids : List NodeId} {last : NodeId} (t : d.Trail ids last)
    {limit : Nat} (hlen : ids.length ≤ limit + 1) :
    (∃ result, d.Outcome limit result) ∨ ∃ next, next ∉ ids ∧ d.LeadsOnly last next := by
  rcases d.successor_cases last with ⟨-, hdead⟩ | ⟨next, -, leads⟩ | ⟨-, hforks⟩
  · exact .inl ⟨.error .unterminated, ids, last, t, hlen, hdead⟩
  · by_cases hmem : next ∈ ids
    · exact .inl ⟨.error .cycle, ids, last, next, t, hlen, leads, hmem⟩
    · exact .inr ⟨next, hmem, leads⟩
  · exact .inl ⟨.error .fork, ids, last, t, hlen, hforks⟩

/-- A link does not dangle: it leads to a node that is there. -/
theorem LeadsOnly.exists_node (h : d.WellFormed) {a b : NodeId} (leads : d.LeadsOnly a b) :
    ∃ node, d.node? b = some node := by
  obtain ⟨i, link, hlink, -, rfl, -⟩ := leads
  obtain ⟨node, hnode, -⟩ := h.target_fits hlink
  exact ⟨node, hnode⟩

/-- A trail that is not too long yet can be followed to one of the outcomes. -/
theorem Trail.exists_outcome (h : d.WellFormed) {ids : List NodeId} {last : NodeId}
    (t : d.Trail ids last) {limit stepsLeft : Nat} (hsteps : ids.length + stepsLeft = limit + 1) :
    ∃ result, d.Outcome limit result := by
  -- each step that is left lengthens the trail by one node, so `hsteps` goes on to hold
  induction stepsLeft generalizing ids last with
  | zero =>
    rcases t.outcome_or_leadsOnly (Nat.le_of_eq hsteps) with hout | ⟨next, hmem, leads⟩
    · exact hout
    · exact ⟨.error .tooLong, ids, last, next, t, hsteps, leads, hmem⟩
  | succ stepsLeft ih =>
    rcases t.outcome_or_leadsOnly (show ids.length ≤ limit + 1 by omega) with
      hout | ⟨next, hmem, leads⟩
    · exact hout
    · obtain ⟨node, hnode⟩ := leads.exists_node h
      by_cases hkind : node.kind = .consumer
      · exact ⟨.ok _, t.isPipeline leads hmem ⟨node, hnode, hkind⟩ (by omega)⟩
      · refine ih (t.snoc leads hmem hnode hkind) ?_
        simp only [List.length_append, List.length_singleton]
        omega

/-- A trail is extended until something stops it. It stops for certain, as a longer one than the
limit is an outcome itself. -/
theorem exists_outcome (h : d.WellFormed) (limit : Nat) : ∃ result, d.Outcome limit result := by
  rcases d.start_cases with ⟨-, hnone⟩ | ⟨id, node, -, -, honly⟩ | ⟨-, hmany⟩
  · exact ⟨.error .noStart, hnone⟩
  · exact honly.trail.exists_outcome h (Nat.add_comm 1 limit)
  · exact ⟨.error .manyStarts, hmany⟩

/-- **The conditions on a diagram decide the outcome.** -/
theorem chainIds_eq_iff (h : d.WellFormed) {rules : SourceRules}
    (hrules : rules.refuseMerges = false) (result : Except ChainError (List NodeId)) :
    rules.chainIds d = result ↔ d.Outcome rules.stepLimit result := by
  have of_outcome : ∀ {result}, d.Outcome rules.stepLimit result → rules.chainIds d = result := by
    intro result hout
    unfold SourceRules.chainIds
    rw [hrules]
    cases result with
    | ok ids =>
      obtain ⟨stops, rfl, hchain⟩ := chain_of_isPipeline hout
      rw [hchain]
      rfl
    | error error =>
      rw [chain_of_breaks hout]
      rfl
  constructor
  · rintro rfl
    obtain ⟨result, hout⟩ := exists_outcome h rules.stepLimit
    rw [of_outcome hout]
    exact hout
  · exact of_outcome

/-- **The chain is the pipeline.**  Where merges are not refused, a chain is found exactly if it is
a pipeline within the limit, and a diagram has at most one pipeline, whatever the limit. -/
theorem Obtainable.chainIds_eq_ok_iff (h : d.Obtainable) {rules : SourceRules}
    (hrules : rules.refuseMerges = false) :
    (∀ ids, rules.chainIds d = .ok ids ↔ d.IsPipeline rules.stepLimit ids) ∧
      ∀ limit limit' ids ids', d.IsPipeline limit ids → d.IsPipeline limit' ids' → ids = ids' := by
  refine ⟨fun ids => chainIds_eq_iff h.wellFormed hrules (.ok ids), ?_⟩
  intro limit limit' ids ids' hids hids'
  have found : ∀ {i}, d.IsPipeline (max limit limit') i →
      ({ stepLimit := max limit limit' } : SourceRules).chainIds d = .ok i := fun hi =>
    (chainIds_eq_iff h.wellFormed rfl (.ok _)).mpr hi
  exact Except.ok.inj ((found (hids.mono (Nat.le_max_left _ _))).symm.trans
    (found (hids'.mono (Nat.le_max_right _ _))))

/-- The pipeline of the samples is one also where no more than two steps are allowed. -/
theorem chainIds_eq_ok_iff_sample :
    (run ∅ sampleEdits).Obtainable ∧ ({ stepLimit := 2 } : SourceRules).refuseMerges = false ∧
      ({ stepLimit := 2 } : SourceRules).chainIds (run ∅ sampleEdits) = .ok [⟨0⟩, ⟨1⟩, ⟨2⟩] ∧
      (run ∅ sampleEdits).IsPipeline 2 [⟨0⟩, ⟨1⟩, ⟨2⟩] :=
  ⟨.run .empty sampleEdits_built, rfl, rfl,
    ((Obtainable.chainIds_eq_ok_iff (.run .empty sampleEdits_built) rfl).1 _).mp
      (show ({ stepLimit := 2 } : SourceRules).chainIds _ = _ from rfl)⟩

/-- **The error is that of the end of the trail.**  Where merges are not refused, every error is
reported exactly under its condition; exactly one outcome has its condition fulfilled; and a link
to a missing node is never met. -/
theorem Obtainable.chainIds_eq_error_iff (h : d.Obtainable) {rules : SourceRules}
    (hrules : rules.refuseMerges = false) :
    (∀ error, rules.chainIds d = .error error ↔ d.Breaks rules.stepLimit error) ∧
      (∃! result, d.Outcome rules.stepLimit result) ∧
      ∀ node, rules.chainIds d ≠ .error (.dangling node) := by
  refine ⟨fun error => chainIds_eq_iff h.wellFormed hrules (.error error), ?_, ?_⟩
  · refine ⟨rules.chainIds d, (chainIds_eq_iff h.wellFormed hrules _).mp rfl, ?_⟩
    exact fun result hout => ((chainIds_eq_iff h.wellFormed hrules result).mpr hout).symm
  · exact fun node hd => (chainIds_eq_iff h.wellFormed hrules (.error (.dangling node))).mp hd

/-- It is too long where one step is allowed. -/
theorem chainIds_eq_error_iff_sample :
    (run ∅ sampleEdits).Obtainable ∧ ({ stepLimit := 1 } : SourceRules).refuseMerges = false ∧
      ({ stepLimit := 1 } : SourceRules).chainIds (run ∅ sampleEdits) = .error .tooLong ∧
      (run ∅ sampleEdits).Breaks 1 .tooLong :=
  ⟨.run .empty sampleEdits_built, rfl, rfl,
    ((Obtainable.chainIds_eq_error_iff (.run .empty sampleEdits_built) rfl).1 _).mp
      (show ({ stepLimit := 1 } : SourceRules).chainIds _ = _ from rfl)⟩

end Diagram
end PipelineCanvas
