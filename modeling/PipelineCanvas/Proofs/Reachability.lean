import PipelineCanvas.Proofs.Renumbering
/-! # Chains depend on what can be reached

A node is **reached** when one can come to it from a producer along links. The walk of
`Diagram.chain` looks at no other nodes, and at no links but those that leave a reached node; where
merges are refused, it also counts the links that enter one. So diagrams in which the same nodes are
reached, with links to the same nodes, have the same chain (`Diagram.AgreesOnReached.chain_eq`).

An edit is **aside** when it adds a node that is no producer, or is about a node that is not reached
or a link that does not leave a reached one. It may make a loop of such nodes, or link them to the
chain. No number of edits aside changes what is reached (`Diagram.Untouched.run`).

Producers are all counted, whether or not anything leaves them. A second producer is never out of
reach: it is what makes the chain ambiguous, so an edit that adds or takes away one is not aside.

The links that leave a node are compared by where they lead, up to order, and not by their
identifiers. It follows that links may be taken out and drawn again, and in another order. Where
merges are refused, a link from a node that is not reached matters after all if it enters one that
is, and then the number of arrivals has to agree, too. That is a condition of the statement, as no
property of the reached nodes alone can give it. -/
namespace PipelineCanvas
namespace Diagram
variable {d e f : Diagram}

/-- A link runs from the first node to the second. -/
def Linked (d : Diagram) (a b : NodeId) : Prop :=
  ∃ i link, d.link? i = some link ∧ link.source.node = a ∧ link.target.node = b

/-- One can come to the node from a producer along links. -/
def Reached (d : Diagram) (id : NodeId) : Prop :=
  ∃ producer, d.HasKind producer .producer ∧ Relation.ReflTransGen d.Linked producer id

/-- The nodes that the links from a node lead to, one for each link. -/
def targets (d : Diagram) (id : NodeId) : List NodeId :=
  (d.linksLeavingNode id).map (·.target.node)

/-- The number of links that enter the node. -/
def arrivals (d : Diagram) (id : NodeId) : Nat :=
  (d.linksWhere fun l => l.target.node == id).length

/-- The second diagram has the same producers as the first. What is reached in the first is stored
in both with the same kind, and links lead from it to the same nodes. -/
structure AgreesOnReached (d e : Diagram) : Prop where
  /-- All producers count, and not only those that something leaves. -/
  producer_iff : ∀ id, e.HasKind id .producer ↔ d.HasKind id .producer
  /-- The reached nodes are there on both sides and have the same kinds. -/
  stored : ∀ {id}, d.Reached id →
    ∃ m n, d.node? id = some m ∧ e.node? id = some n ∧ n.kind = m.kind
  /-- From each of them the same nodes are linked, as many times each. -/
  targets_perm : ∀ {id}, d.Reached id → (e.targets id).Perm (d.targets id)

/-! ### What is reached -/

/-- Every producer is where a way may begin. -/
theorem reached_of_producer {id : NodeId} (h : d.HasKind id .producer) : d.Reached id :=
  ⟨id, h, .refl⟩

theorem Reached.linked {a b : NodeId} (h : d.Reached a) (hab : d.Linked a b) : d.Reached b := by
  obtain ⟨producer, hp, hpath⟩ := h
  exact ⟨producer, hp, hpath.tail hab⟩

theorem LeadsOnly.linked {a b : NodeId} (leads : d.LeadsOnly a b) : d.Linked a b := by
  obtain ⟨i, link, hi, hs, ht, -⟩ := leads
  exact ⟨i, link, hi, hs, ht⟩

/-- Links lead to nodes that are there, so what is reached is stored. -/
theorem Reached.exists_node (h : d.WellFormed) {id : NodeId} (hid : d.Reached id) :
    ∃ node, d.node? id = some node := by
  obtain ⟨producer, ⟨node, hnode, -⟩, hpath⟩ := hid
  rcases hpath.cases_tail with rfl | ⟨_, -, i, link, hi, -, rfl⟩
  · exact ⟨node, hnode⟩
  · exact Option.isSome_iff_exists.mp (h.target_fits hi).stored

/-! ### Walks read nothing else -/

/-- The next node depends on the targets of the links alone. -/
theorem successor_eq_targets (d : Diagram) (id : NodeId) :
    d.successor id = match d.targets id with
      | [] => .error .unterminated
      | [next] => .ok next
      | _ => .error .fork := by
  unfold successor targets
  match d.linksLeavingNode id with
  | [] => rfl
  | [_] => rfl
  | _ :: _ :: _ => rfl

/-- The order of the links that leave a node does not matter. -/
theorem successor_eq_of_perm {id : NodeId} (h : (e.targets id).Perm (d.targets id)) :
    e.successor id = d.successor id := by
  rw [successor_eq_targets, successor_eq_targets]
  generalize e.targets id = reordered at h ⊢
  match d.targets id, h with
  | [], h => rw [h.eq_nil]
  | [next], h => rw [List.perm_singleton.mp h]
  | a :: b :: rest, h =>
    match reordered, h.length_eq with
    | _ :: _ :: _, _ => rfl

/-- Counting links by node or by port finds the same merges. -/
theorem WellFormed.arrivals_le_one_iff (h : d.WellFormed) {id : NodeId} :
    d.arrivals id ≤ 1 ↔ d.fanIn id ≤ 1 := by
  have hcount := Table.length_filter_entries_le_one_iff (t := d.links)
    (p := fun l => l.target.node == id)
  simp only [beq_iff_eq] at hcount
  rw [h.fanIn_le_one_iff]
  exact hcount

namespace AgreesOnReached
variable {refuse : Bool} {image : Stop → Node}

/-- The walks keep in step from any node that is reached. -/
theorem inStep (h : d.AgreesOnReached e) (hd : d.WellFormed) (he : e.WellFormed)
    (himage : ∀ {id node}, d.Reached id → d.node? id = some node →
      e.node? id = some (image (id, node)))
    (harrivals : refuse = true → ∀ {id}, d.Reached id → e.arrivals id = d.arrivals id) :
    d.InStep e refuse id image d.Reached where
  stored {id} hid := by
    obtain ⟨m, n, hm, hn, hkind⟩ := h.stored hid
    have hn' := himage hid hm
    rw [hn] at hn'
    cases hn'
    exact ⟨m, hm, hn, hkind⟩
  injective _ _ heq := heq
  closed hid hs := hid.linked (leadsOnly_of_successor hs).linked
  successor_eq hid := by
    rw [id_map]
    exact successor_eq_of_perm (h.targets_perm hid)
  merge_iff hrefuse {id} hid := by
    show 1 < e.fanIn id ↔ _
    rw [← Nat.not_le, ← Nat.not_le, ← he.arrivals_le_one_iff, ← hd.arrivals_le_one_iff,
      harrivals hrefuse hid]

/-- The walks keep in step on the reached nodes, each under its own identifier. -/
theorem chain_eq (h : d.AgreesOnReached e) (hd : d.WellFormed) (he : e.WellFormed)
    (himage : ∀ {id node}, d.Reached id → d.node? id = some node →
      e.node? id = some (image (id, node)))
    (harrivals : refuse = true → ∀ {id}, d.Reached id → e.arrivals id = d.arrivals id)
    (limit : Nat) :
    e.chain limit refuse = List.map (fun s => (s.1, image s)) <$> d.chain limit refuse := by
  rcases d.start_cases with
    ⟨hstart, hnone⟩ | ⟨id, node, hstart, hnode, honly⟩ | ⟨hstart, a, b, hne, ha, hb⟩
  · have hstart' : e.start = .error .noStart :=
      start_of_noProducer fun id hid => hnone id ((h.producer_iff id).mp hid)
    rw [chain_of_start_error hstart, chain_of_start_error hstart']
    rfl
  · have honly' : e.OnlyProducer id :=
      ⟨(h.producer_iff id).mpr honly.1,
        fun other hother => honly.2 other ((h.producer_iff other).mp hother)⟩
    have hid : d.Reached id := reached_of_producer honly.1
    obtain ⟨n, hstart', hn⟩ := start_of_onlyProducer honly'
    rw [himage hid hnode] at hn
    cases hn
    exact (h.inStep hd he himage harrivals).chain_eq hstart hstart' hid limit
  · have hstart' : e.start = .error .manyStarts :=
      start_of_producers hne ((h.producer_iff a).mpr ha) ((h.producer_iff b).mpr hb)
    rw [chain_of_start_error hstart, chain_of_start_error hstart']
    rfl

/-- The chain as it is told to a client has the identifiers only. -/
theorem chainIds_congr (h : d.AgreesOnReached e) (hd : d.WellFormed) (he : e.WellFormed)
    {rules : SourceRules} (harrivals : rules.refuseMerges = true →
      ∀ {id}, d.Reached id → e.arrivals id = d.arrivals id) :
    rules.chainIds e = rules.chainIds d := by
  have himage : ∀ {id node}, d.Reached id → d.node? id = some node →
      e.node? id = some ((e.node? id).getD node) := by
    intro id node hid _
    obtain ⟨_, n, -, hn, -⟩ := h.stored hid
    rw [hn]
    rfl
  have hchain : e.chain rules.stepLimit rules.refuseMerges =
      List.map (fun s => (id s.1, (e.node? s.1).getD s.2)) <$>
        d.chain rules.stepLimit rules.refuseMerges :=
    h.chain_eq hd he himage harrivals rules.stepLimit
  rw [SourceRules.chainIds_eq_of_chain hchain, List.map_id_fun, id_map]

/-- For the source the reached nodes have to be the same with their names and properties. -/
theorem source_congr (h : d.AgreesOnReached e) (hd : d.WellFormed) (he : e.WellFormed)
    {rules : SourceRules} (harrivals : rules.refuseMerges = true →
      ∀ {id}, d.Reached id → e.arrivals id = d.arrivals id)
    (hnodes : ∀ {id}, d.Reached id → e.node? id = d.node? id) :
    rules.source e = rules.source d := by
  have hchain : e.chain rules.stepLimit rules.refuseMerges =
      List.map (fun s => (id s.1, s.2)) <$> d.chain rules.stepLimit rules.refuseMerges :=
    h.chain_eq hd he (fun hid hnode => (hnodes hid).trans hnode) harrivals rules.stepLimit
  exact SourceRules.source_eq_of_chain hchain

end AgreesOnReached

/-! ### Edits aside -/

/-- The links that satisfy a test are the same where each of them is stored in both diagrams. -/
theorem linksWhere_congr {p : Link → Bool}
    (h : ∀ {i link}, p link = true → (e.link? i = some link ↔ d.link? i = some link)) :
    e.linksWhere p = d.linksWhere p := by
  have hfilter : e.links.filter (fun _ => p) = d.links.filter fun _ => p := by
    refine Table.ext_get? fun i => Option.ext fun link => ?_
    simp only [Table.get?_filter, Option.filter_eq_some_iff]
    exact and_congr_left h
  exact congrArg Table.entries hfilter

/-- The edit is about what is not reached, and brings no producer. -/
def Aside (d : Diagram) : Edit → Prop
  | .place node => node.kind ≠ .producer
  | .remove id => ¬ d.Reached id
  | .attach source _ => ¬ d.Reached source.node
  | .join source _ => ¬ d.Reached source
  | .detach id => ∀ link, d.link? id = some link → ¬ d.Reached link.source.node
  | .configure id _ => ¬ d.Reached id
  | .move id _ => ¬ d.Reached id

/-- The second diagram has no other producers than the first; the nodes that are reached in the
first and the links that leave these are in it as they were. -/
structure Untouched (d e : Diagram) : Prop where
  /-- No producer has been added. -/
  producer : ∀ {id}, e.HasKind id .producer → d.HasKind id .producer
  /-- The reached nodes are as they were. -/
  node?_eq : ∀ {id}, d.Reached id → e.node? id = d.node? id
  /-- So are the links that leave them, under their identifiers. -/
  link?_iff : ∀ {i link}, d.Reached link.source.node →
    (e.link? i = some link ↔ d.link? i = some link)

namespace Untouched

theorem refl (d : Diagram) : d.Untouched d where
  producer h := h
  node?_eq _ := rfl
  link?_iff _ := Iff.rfl

/-- A link that leaves no reached node is stored under a free identifier. -/
theorem linked (h : d.Untouched e) {link : Link} (free : e.link? ⟨e.freshLink⟩ = none)
    (hs : ¬ d.Reached link.source.node) : d.Untouched (e.linked link) where
  producer := h.producer
  node?_eq := h.node?_eq
  link?_iff {i other} hother := by
    refine Iff.trans ⟨fun hi => ?_, fun hi => ?_⟩ (h.link?_iff hother)
    · rcases Table.get?_insert_cases hi with ⟨-, rfl⟩ | hi
      · exact absurd hother hs
      · exact hi
    · have hne : i ≠ ⟨e.freshLink⟩ := by
        rintro rfl
        rw [free] at hi
        cases hi
      exact (Table.get?_insert_of_ne _ hne _).trans hi

/-- A node that is not reached may be changed as long as it keeps its kind. -/
theorem modify (h : d.Untouched e) {id : NodeId} {g : Node → Node} (hid : ¬ d.Reached id)
    (hkind : ∀ n, (g n).kind = n.kind) :
    d.Untouched { e with nodes := e.nodes.modify id g } where
  producer {other} hother := by
    obtain ⟨n, hn, hk⟩ := hother
    simp only [node?, Table.get?_modify] at hn
    split at hn
    · obtain ⟨m, hm, rfl⟩ := Option.map_eq_some_iff.mp hn
      exact h.producer ⟨m, hm, (hkind m).symm.trans hk⟩
    · exact h.producer ⟨n, hn, hk⟩
  node?_eq {other} hother := by
    have hne : other ≠ id := fun heq => hid (heq ▸ hother)
    exact (Table.get?_modify_of_ne _ hne g).trans (h.node?_eq hother)
  link?_iff := h.link?_iff

/-- The identifier of a new node is free, so no reached node has it. -/
theorem place (h : d.Untouched e) (hd : d.WellFormed) (he : e.WellFormed) {node : Node}
    (hkind : node.kind ≠ .producer) : d.Untouched (e.place node).2 where
  producer {id} hid := by
    obtain ⟨n, hn, hk⟩ := hid
    rcases Table.get?_insert_cases hn with ⟨-, rfl⟩ | hn
    · exact absurd hk hkind
    · exact h.producer ⟨n, hn, hk⟩
  node?_eq {id} hid := by
    obtain ⟨n, hn⟩ := hid.exists_node hd
    have hne : id ≠ ⟨e.freshNode⟩ := by
      rintro rfl
      rw [← h.node?_eq hid, he.node_fresh] at hn
      cases hn
    exact (Table.get?_insert_of_ne _ hne _).trans (h.node?_eq hid)
  link?_iff := h.link?_iff

/-- With a node that is not reached go no links between reached ones. -/
theorem remove (h : d.Untouched e) {id : NodeId} (hid : ¬ d.Reached id) :
    d.Untouched { e with
      nodes := e.nodes.erase id, links := e.links.filter fun _ l => !l.touches id } where
  producer := by
    rintro other ⟨n, hn, hk⟩
    exact h.producer ⟨n, Table.get?_of_get?_erase hn, hk⟩
  node?_eq {other} hother := by
    have hne : other ≠ id := fun heq => hid (heq ▸ hother)
    exact (Table.get?_erase_of_ne _ hne).trans (h.node?_eq hother)
  link?_iff {i link} hlink := by
    refine get?_filter_touches.trans ?_
    rw [h.link?_iff hlink]
    refine ⟨And.left, fun hi => ⟨hi, fun heq => hid (heq ▸ hlink), fun heq => ?_⟩⟩
    exact hid (heq ▸ hlink.linked ⟨i, link, hi, rfl, rfl⟩)

/-- A link that leaves no reached node is not one that is compared. -/
theorem detach (h : d.Untouched e) {id : LinkId}
    (hid : ∀ link, d.link? id = some link → ¬ d.Reached link.source.node) :
    d.Untouched { e with links := e.links.erase id } where
  producer := h.producer
  node?_eq := h.node?_eq
  link?_iff {i link} hlink := by
    rw [← h.link?_iff hlink]
    refine ⟨Table.get?_of_get?_erase, fun hi => ?_⟩
    have hne : i ≠ id := by
      rintro rfl
      exact hid link ((h.link?_iff hlink).mp hi) hlink
    exact (Table.get?_erase_of_ne _ hne).trans hi

/-- **An edit aside leaves what is reached untouched.** -/
theorem perform (h : d.Untouched e) (hd : d.WellFormed) (he : e.WellFormed) {edit : Edit}
    (aside : d.Aside edit) {answer : Edit.Answer} (hp : e.perform edit = .ok (answer, f)) :
    d.Untouched f := by
  cases edit with
  | join a b =>
    -- a change does not say at which nodes the ports of its link are
    obtain ⟨⟨_, _⟩, hjoin, hp⟩ := bind_eq_ok_iff.mp hp
    obtain ⟨s, t, hs, -, hattach⟩ := join_eq_ok_iff.mp hjoin
    obtain ⟨free, -, -, heq⟩ := attach_eq_ok_iff.mp hattach
    cases heq
    cases hp
    have hlinked : d.Untouched (e.linked ⟨s, t⟩) :=
      h.linked free fun hreached => aside (node_of_port? hs ▸ hreached)
    exact hlinked
  | place node =>
    cases change_of_perform hp
    exact h.place hd he aside
  | remove id =>
    cases change_of_perform hp
    exact h.remove aside
  | attach source target =>
    cases change_of_perform hp with
    | attach free _ _ => exact h.linked free aside
  | detach id =>
    cases change_of_perform hp
    exact h.detach aside
  | configure id properties =>
    cases change_of_perform hp
    exact h.modify aside fun _ => rfl
  | move id position =>
    cases change_of_perform hp
    exact h.modify aside fun _ => rfl

/-- So does any number of them, those that are refused included. -/
theorem run (h : d.Untouched e) (hd : d.WellFormed) (he : e.WellFormed) {edits : List Edit}
    (built : ∀ edit ∈ edits, edit.Built) (aside : ∀ edit ∈ edits, d.Aside edit) :
    d.Untouched (e.run edits) := by
  induction edits generalizing e with
  | nil => exact h
  | cons edit edits ih =>
    obtain ⟨hbuilt, built⟩ := List.forall_mem_cons.mp built
    obtain ⟨haside, aside⟩ := List.forall_mem_cons.mp aside
    have hafter : d.Untouched (e.after edit) := by
      rcases e.after_cases edit with ⟨answer, hp⟩ | hsame
      · exact h.perform hd he haside hp
      · rw [hsame]
        exact h
    exact ih hafter (he.after hbuilt) built aside

/-- The links that leave a reached node are the same list, so their targets are. -/
theorem targets_perm (h : d.Untouched e) {id : NodeId} (hid : d.Reached id) :
    (e.targets id).Perm (d.targets id) := by
  have hlinks : e.linksWhere (·.source.node == id) = d.linksWhere (·.source.node == id) :=
    linksWhere_congr fun hsource => h.link?_iff (beq_iff_eq.mp hsource ▸ hid)
  rw [targets, targets, linksLeavingNode, linksLeavingNode, hlinks]

/-- What is left untouched agrees. The reached nodes of the edited diagram need not be looked at. -/
theorem agreesOnReached (h : d.Untouched e) (hd : d.WellFormed) : d.AgreesOnReached e where
  producer_iff id := by
    refine ⟨h.producer, fun hid => ?_⟩
    obtain ⟨node, hnode, hkind⟩ := hid
    exact ⟨node, (h.node?_eq (reached_of_producer ⟨node, hnode, hkind⟩)).trans hnode, hkind⟩
  stored hid := by
    obtain ⟨node, hnode⟩ := hid.exists_node hd
    exact ⟨node, node, hnode, (h.node?_eq hid).trans hnode, rfl⟩
  targets_perm hid := h.targets_perm hid

end Untouched

/-! ### The same chain -/

/-- **Only what is reached matters.** A diagram that agrees with another on what is reached there
has the same chain under all rules, or the same error, and the same source if the nodes themselves
are the same; where merges are refused, as many links have to enter each of the nodes. So edits
aside change nothing, however many there are. -/
theorem Obtainable.chainIds_eq_of_reached (hd : d.Obtainable) (rules : SourceRules) :
    (∀ {e : Diagram}, e.Obtainable → d.AgreesOnReached e →
      (rules.refuseMerges = true → ∀ {id}, d.Reached id → e.arrivals id = d.arrivals id) →
        rules.chainIds e = rules.chainIds d ∧
          ((∀ {id}, d.Reached id → e.node? id = d.node? id) →
            rules.source e = rules.source d)) ∧
      ∀ edits : List Edit, (∀ edit ∈ edits, edit.Built) → (∀ edit ∈ edits, d.Aside edit) →
        (rules.refuseMerges = true →
          ∀ {id}, d.Reached id → (d.run edits).arrivals id = d.arrivals id) →
        rules.chainIds (d.run edits) = rules.chainIds d ∧
          rules.source (d.run edits) = rules.source d := by
  have hwell : d.WellFormed := hd.wellFormed
  constructor
  · intro e he hagrees harrivals
    have hwell' : e.WellFormed := he.wellFormed
    exact ⟨hagrees.chainIds_congr hwell hwell' harrivals,
      hagrees.source_congr hwell hwell' harrivals⟩
  · intro edits built aside harrivals
    have hwell' : (d.run edits).WellFormed := (hd.run built).wellFormed
    have huntouched : d.Untouched (d.run edits) := (Untouched.refl d).run hwell hwell built aside
    have hagrees : d.AgreesOnReached (d.run edits) := huntouched.agreesOnReached hwell
    exact ⟨hagrees.chainIds_congr hwell hwell' harrivals,
      hagrees.source_congr hwell hwell' harrivals huntouched.node?_eq⟩

/-- A source and a sink, their link taken out and put in again. -/
def relinked : List Edit := sourceFirst ++ [.detach ⟨0⟩, .join ⟨0⟩ ⟨1⟩]

/-- A third node, linked to itself and to the sink. -/
def strayLoop : List Edit :=
  [.place (.new "stray" .transformer), .join ⟨2⟩ ⟨2⟩, .join ⟨2⟩ ⟨1⟩]

theorem relinked_built : ∀ edit ∈ relinked, edit.Built := by
  rw [relinked, List.forall_mem_append]
  exact ⟨sourceFirst_built,
    List.forall_mem_cons.mpr ⟨trivial, List.forall_mem_singleton.mpr trivial⟩⟩

theorem strayLoop_built : ∀ edit ∈ strayLoop, edit.Built := by
  simp only [strayLoop, List.forall_mem_cons]
  exact ⟨.new _ _, trivial, trivial, List.forall_mem_nil _⟩

/-- Another link in the place of the one that was there is another identifier and the same chain;
and a loop beside the pipeline does not show in it at all. -/
theorem chainIds_eq_of_reached_sample : (run ∅ sourceFirst).Obtainable ∧
    (run ∅ relinked).Obtainable ∧ (run ∅ relinked).links.keys = [⟨1⟩] ∧
    (run ∅ sourceFirst).links.keys = [⟨0⟩] ∧
    (run ∅ sourceFirst).AgreesOnReached (run ∅ relinked) ∧
    (∀ edit ∈ strayLoop, (run ∅ sourceFirst).Aside edit) ∧
    ({} : SourceRules).chainIds (run ∅ relinked) = .ok [⟨0⟩, ⟨1⟩] ∧
    ({} : SourceRules).source (run ∅ relinked) = ({} : SourceRules).source (run ∅ sourceFirst) ∧
    ((run ∅ sourceFirst).run strayLoop).links.size = 3 ∧
    ({} : SourceRules).chainIds ((run ∅ sourceFirst).run strayLoop) = .ok [⟨0⟩, ⟨1⟩] := by
  have hd : (run ∅ sourceFirst).Obtainable := .run .empty sourceFirst_built
  have he : (run ∅ relinked).Obtainable := .run .empty relinked_built
  have hnodes : (run ∅ relinked).nodes = (run ∅ sourceFirst).nodes := rfl
  have reached : ∀ {id}, (run ∅ sourceFirst).Reached id → id ∈ (run ∅ sourceFirst).nodes.keys :=
    fun hid => Table.mem_keys_iff.mpr (hid.exists_node hd.wellFormed)
  have targets_eq : ∀ id ∈ (run ∅ sourceFirst).nodes.keys,
      (run ∅ relinked).targets id = (run ∅ sourceFirst).targets id := by decide
  have hagrees : (run ∅ sourceFirst).AgreesOnReached (run ∅ relinked) := by
    refine ⟨fun id => by simp only [HasKind, node?, hnodes], fun hid => ?_, fun hid => ?_⟩
    · obtain ⟨node, hnode⟩ := hid.exists_node hd.wellFormed
      exact ⟨node, node, hnode, hnode, rfl⟩
    · rw [targets_eq _ (reached hid)]
  have haside : ∀ edit ∈ strayLoop, (run ∅ sourceFirst).Aside edit := by
    have hstray : ¬ (run ∅ sourceFirst).Reached ⟨2⟩ := fun hid =>
      absurd (reached hid) (by decide)
    simp only [strayLoop, List.forall_mem_cons]
    have hkind : BlockKind.transformer ≠ .producer := by decide
    exact ⟨hkind, hstray, hstray, List.forall_mem_nil _⟩
  have hfound : ({} : SourceRules).chainIds (run ∅ sourceFirst) = .ok [⟨0⟩, ⟨1⟩] := rfl
  obtain ⟨hsame, hedited⟩ := hd.chainIds_eq_of_reached {}
  have allowed : ({} : SourceRules).refuseMerges ≠ true := Bool.false_ne_true
  obtain ⟨hids, hsource⟩ := hsame he hagrees fun h => absurd h allowed
  obtain ⟨hids', -⟩ := hedited strayLoop strayLoop_built haside fun h => absurd h allowed
  exact ⟨hd, he, by decide, by decide, hagrees, haside, hids.trans hfound,
    hsource fun _ => rfl, by decide, hids'.trans hfound⟩

end Diagram
end PipelineCanvas
