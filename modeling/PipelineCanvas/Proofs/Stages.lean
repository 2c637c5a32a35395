import PipelineCanvas.Proofs.Json.Canonical
import PipelineCanvas.Proofs.Pipelines
import PipelineCanvas.Proofs.Text.Pieces
/-! # Stages of a source

A source is the stages of the nodes of the chain with a separator between each two
(`SourceRules.exists_nodes_of_source`). It falls into its stages again when it is split, unless the
name of a block has a separator in it or brings one about with what follows the name
(`Node.Undivided`); properties never do, as they are written on one line and begin with a brace
(`SourceRules.split_source_eq_iff`). A name without a space ends where the first space of the stage
is, and properties are told by their text, so that a source tells which pipeline it is of
(`SourceRules.nodes_eq_of_source_eq`).

A separator is a line feed, a bar and a space. Only a name can have a line feed, for in the text of
properties it is escaped. So a separator lies in the name or begins in it; and it can begin in the
name and end behind it in one way only, with a name that ends in a line feed and a bar, followed by
the space in front of the properties. A node without properties has no such space, and its name may
end like that.

The two results ask for different things of names. To be split, a source needs names without
separators, and these may well have spaces. To tell its pipeline it needs names without spaces, and
these cannot have separators. -/
namespace PipelineCanvas

/-! ### The nodes of a chain -/

namespace Diagram
variable {d : Diagram}

/-- What is walked to is stored. -/
theorem node?_of_mem_stops {refuse : Bool} {stepsLeft : Nat} {visited : List NodeId}
    {current : NodeId} {stops : List Stop}
    (h : (d.walk refuse stepsLeft visited current).stops = .ok stops) :
    ∀ stop ∈ stops, d.node? stop.1 = some stop.2 := by
  induction stepsLeft using Nat.strong_induction_on generalizing visited current stops with
  | _ stepsLeft ih =>
    rcases d.walk_cases refuse stepsLeft visited current with
      ⟨error, -, hwalk⟩ | ⟨next, -, -, hwalk⟩ | ⟨next, left, -, -, -, hwalk⟩ |
      ⟨next, node, left, -, rfl, hnode, hwalk⟩
    · rw [hwalk] at h
      cases h
    · rw [hwalk] at h
      cases h
    · rw [hwalk] at h
      cases h
    · rw [hwalk, Walk.stops_step_eq_ok_iff] at h
      obtain ⟨behind, hbehind, rfl⟩ := h
      refine List.forall_mem_cons.mpr ⟨hnode, ?_⟩
      by_cases hconsumer : node.kind = .consumer
      · rw [if_pos hconsumer] at hbehind
        cases hbehind
        exact List.forall_mem_nil _
      · rw [if_neg hconsumer] at hbehind
        exact ih left (Nat.lt_succ_self left) hbehind

/-- A chain is not empty, and has the nodes that are stored under its identifiers. -/
theorem node?_of_mem_chain {limit : Nat} {refuse : Bool} {stops : List Stop}
    (h : d.chain limit refuse = .ok stops) :
    stops ≠ [] ∧ ∀ stop ∈ stops, d.node? stop.1 = some stop.2 := by
  obtain ⟨producer, hstart, h⟩ := bind_eq_ok_iff.mp h
  obtain ⟨behind, hbehind, h⟩ := bind_eq_ok_iff.mp h
  cases h
  exact ⟨List.cons_ne_nil _ _,
    List.forall_mem_cons.mpr ⟨(onlyProducer_of_start hstart).1, node?_of_mem_stops hbehind⟩⟩

end Diagram

/-- The nodes of a chain are stored. -/
theorem SourceRules.exists_node_of_chainIds (r : SourceRules) {d : Diagram} {ids : List NodeId}
    (h : r.chainIds d = .ok ids) {id : NodeId} (hid : id ∈ ids) :
    ∃ node, d.node? id = some node := by
  rw [chainIds_eq_map, map_eq_ok_iff] at h
  obtain ⟨stops, hchain, rfl⟩ := h
  obtain ⟨stop, hstop, rfl⟩ := List.mem_map.mp hid
  exact ⟨stop.2, (Diagram.node?_of_mem_chain hchain).2 stop hstop⟩

/-- A source is written of the nodes under the identifiers of the chain. -/
theorem SourceRules.exists_nodes_of_source {r : SourceRules} {d : Diagram} {text : String}
    (h : r.source d = .ok text) : ∃ ids nodes, r.chainIds d = .ok ids ∧
      ids.map d.node? = nodes.map some ∧ nodes ≠ [] ∧
      text = stageSeparator.intercalate (nodes.map r.stage) := by
  rw [source_eq_map, map_eq_ok_iff] at h
  obtain ⟨stops, hchain, rfl⟩ := h
  obtain ⟨hne, hstored⟩ := Diagram.node?_of_mem_chain hchain
  refine ⟨stops.map Prod.fst, stops.map Prod.snd, ?_, ?_, mt List.map_eq_nil_iff.mp hne, ?_⟩
  · rw [chainIds_eq_map, hchain]
    rfl
  · rw [List.map_map, List.map_map]
    exact List.map_congr_left hstored
  · rw [List.map_map]
    rfl

/-! ### The stage of a node -/

theorem toList_stageSeparator : stageSeparator.toList = '\n' :: ['|', ' '] := rfl

theorem newline_not_mem : '\n' ∉ ['|', ' '] := by decide

namespace Node

/-- What a stage begins with whatever the properties are. -/
def heading (n : Node) : String := if n.properties.isEmpty then n.name else n.name ++ " "

/-- The name of the block has no separator in it, and does not begin one that the space before
properties ends. -/
def Undivided (n : Node) : Prop :=
  ¬ stageSeparator.toList <:+: n.name.toList ∧
    (n.properties.isEmpty = false → ¬ "\n|".toList <:+ n.name.toList)

theorem toList_stage (n : Node) : n.stage.toList = n.heading.toList ++
    (if n.properties.isEmpty then [] else n.properties.canonical.toList) := by
  unfold stage heading
  cases n.properties.isEmpty <;> simp

/-- A name and the space behind it hold a separator just if the stage is not undivided. -/
theorem separator_infix_heading_iff {n : Node} :
    stageSeparator.toList <:+: n.heading.toList ↔ ¬ n.Undivided := by
  have hsuffix : stageSeparator.toList <:+ n.name.toList ++ [' '] ↔
      "\n|".toList <:+ n.name.toList := by
    have hlast : stageSeparator.toList = "\n|".toList ++ [' '] := rfl
    rw [List.suffix_concat_iff, hlast]
    constructor
    · rintro (hnil | ⟨t, ht, hsuffix⟩)
      · cases hnil
      · rw [List.append_cancel_right ht]
        exact hsuffix
    · exact fun hsuffix => .inr ⟨_, rfl, hsuffix⟩
  unfold Undivided heading
  cases n.properties.isEmpty with
  | true => simp
  | false =>
    have hspace : (n.name ++ " ").toList = n.name.toList ++ [' '] := String.toList_append
    rw [if_neg Bool.false_ne_true, hspace, List.infix_concat_iff, hsuffix]
    tauto

/-- Properties add no separator to what stands before them. -/
theorem length_split_stage (n : Node) :
    (Text.split stageSeparator n.stage).length = (Text.split stageSeparator n.heading).length := by
  rw [Text.split, Text.split, List.length_map, List.length_map, toList_stage]
  by_cases hnone : n.properties.isEmpty = true
  · rw [if_pos hnone, List.append_nil]
  · rw [if_neg hnone]
    refine Text.length_pieces_append (fun c hc => ?_) fun hwithin => ?_
    · rw [Properties.toList_canonical] at hc
      obtain rfl : '\x7b' = c := Option.some.inj hc
      decide
    · exact n.properties.not_newline_mem_canonical (hwithin.subset List.mem_cons_self)

/-- Properties add none, as there is no line feed in them and they do not begin with a space. -/
theorem separator_infix_stage_iff {n : Node} :
    stageSeparator.toList <:+: n.stage.toList ↔ ¬ n.Undivided := by
  have hcut {text : String} : 1 < (Text.split stageSeparator text).length ↔
      stageSeparator.toList <:+: text.toList :=
    Text.one_lt_length_split_iff toList_stageSeparator newline_not_mem
  rw [← separator_infix_heading_iff, ← hcut, ← hcut, length_split_stage]

/-- A name without a space is what stands before the first one. -/
theorem takeWhile_stage {n : Node} (h : ' ' ∉ n.name.toList) :
    n.stage.toList.takeWhile (· != ' ') = n.name.toList := by
  have hname : ∀ c ∈ n.name.toList, (c != ' ') = true := by
    intro c hc
    refine bne_iff_ne.mpr ?_
    rintro rfl
    exact h hc
  unfold stage
  cases n.properties.isEmpty with
  | true =>
    rw [if_pos rfl]
    exact List.takeWhile_eq_self_iff.mpr hname
  | false =>
    have hspace : (n.name ++ " " ++ n.properties.canonical).toList =
        n.name.toList ++ ' ' :: n.properties.canonical.toList := by
      simp
    rw [if_neg Bool.false_ne_true, hspace, List.takeWhile_append_of_pos hname,
      List.takeWhile_cons_of_neg (by decide), List.append_nil]

/-- Nodes with one name have one stage just if they have the same properties. -/
theorem stage_eq_iff {m n : Node} (hname : m.name = n.name) :
    m.stage = n.stage ↔ m.properties = n.properties := by
  constructor
  · intro h
    have hlist := congrArg String.toList h
    unfold stage at hlist
    cases hm : m.properties.isEmpty <;> cases hn : n.properties.isEmpty
    · simpa [hm, hn, hname, String.toList_inj, Properties.canonical_inj] using hlist
    · simp [hm, hn, hname] at hlist
    · simp [hm, hn, hname] at hlist
    · have hempty {p : Properties} (hp : p.isEmpty = true) : p = ∅ :=
        Table.ext (List.isEmpty_iff.mp hp)
      rw [hempty hm, hempty hn]
  · intro h
    rw [stage, stage, hname, h]

/-- A name without spaces is what stands before the first space. -/
theorem name_eq_of_stage {m n : Node} (hm : ' ' ∉ m.name.toList) (hn : ' ' ∉ n.name.toList)
    (h : m.stage = n.stage) : m.name = n.name := by
  rw [← String.toList_inj, ← takeWhile_stage hm, h, takeWhile_stage hn]

theorem undivided_of_not_mem {n : Node} (h : '\n' ∉ n.name.toList) : n.Undivided :=
  ⟨fun hwithin => h (hwithin.subset List.mem_cons_self),
    fun _ hends => h (hends.subset List.mem_cons_self)⟩

end Node

/-- Without writers of their own all blocks have their stages written the same way. -/
theorem SourceRules.stage_of_no_writers {r : SourceRules} (h : r.writers = ∅) :
    r.stage = Node.stage := by
  funext n
  rw [stage, h, Table.get?_empty]

/-! ### Sources split into stages -/

/-- **A source splits into its stages** just if no name of the chain has a separator in it or ends
like one. Whatever the names are, there are as many pieces as the headings alone have, so
properties add none. -/
theorem SourceRules.split_source_eq_iff {r : SourceRules} (plain : r.writers = ∅) {d : Diagram}
    {text : String} {ids : List NodeId} (hsource : r.source d = .ok text)
    (hids : r.chainIds d = .ok ids) :
    ∃ nodes : List Node, ids.map d.node? = nodes.map some ∧
      (Text.split stageSeparator text = nodes.map Node.stage ↔ ∀ node ∈ nodes, node.Undivided) ∧
      (Text.split stageSeparator text).length =
        (nodes.map fun node => (Text.split stageSeparator node.heading).length).sum := by
  obtain ⟨ids', nodes, hids', hnodes, hne, rfl⟩ := exists_nodes_of_source hsource
  obtain rfl : ids' = ids := Except.ok.inj (hids'.symm.trans hids)
  have hstages : nodes.map Node.stage ≠ [] := mt List.map_eq_nil_iff.mp hne
  rw [stage_of_no_writers plain]
  refine ⟨nodes, hnodes, ?_, ?_⟩
  · rw [Text.split_intercalate_eq_iff toList_stageSeparator newline_not_mem hstages,
      List.forall_mem_map]
    simp only [Node.separator_infix_stage_iff, not_not]
  · rw [Text.length_split_intercalate toList_stageSeparator newline_not_mem hstages,
      List.map_map]
    exact congrArg List.sum (List.map_congr_left fun n _ => n.length_split_stage)

/-- A source with a note that has the separator in it, and a sink. -/
def noted (name : String) : Diagram := Diagram.run ∅
  [.place ((Node.new name .producer).withProperties (.ofMembers [("note", .string "\n| drop")])),
    .place (.new "sink" .consumer), .join ⟨0⟩ ⟨1⟩]

/-- A separator in the properties is escaped, so the source comes apart into its stages. With a name
that ends in the beginning of one, it does not. -/
theorem split_source_eq_iff_sample :
    (({} : SourceRules).source (noted "source") =
        .ok "source \x7b\"note\":\"\\n| drop\"\x7d\n| sink" ∧
      Text.split stageSeparator "source \x7b\"note\":\"\\n| drop\"\x7d\n| sink" =
        (noted "source").nodes.entries.map (·.2.stage)) ∧
    ({} : SourceRules).source (noted "source\n|") =
        .ok "source\n| \x7b\"note\":\"\\n| drop\"\x7d\n| sink" ∧
      Text.split stageSeparator "source\n| \x7b\"note\":\"\\n| drop\"\x7d\n| sink" ≠
        (noted "source\n|").nodes.entries.map (·.2.stage) := by
  have hids (name : String) : ({} : SourceRules).chainIds (noted name) = .ok [⟨0⟩, ⟨1⟩] := rfl
  have hsource : ({} : SourceRules).source (noted "source") =
      .ok "source \x7b\"note\":\"\\n| drop\"\x7d\n| sink" := rfl
  have hsource' : ({} : SourceRules).source (noted "source\n|") =
      .ok "source\n| \x7b\"note\":\"\\n| drop\"\x7d\n| sink" := rfl
  obtain ⟨nodes, hnodes, hsplit, -⟩ := SourceRules.split_source_eq_iff rfl hsource (hids "source")
  obtain ⟨nodes', hnodes', hsplit', -⟩ :=
    SourceRules.split_source_eq_iff rfl hsource' (hids "source\n|")
  have hfound : nodes = (noted "source").nodes.entries.map (·.2) :=
    List.map_injective_iff.mpr (Option.some_injective _) hnodes.symm
  have hfound' : nodes' = (noted "source\n|").nodes.entries.map (·.2) :=
    List.map_injective_iff.mpr (Option.some_injective _) hnodes'.symm
  subst nodes nodes'
  have hundivided : ∀ node ∈ (noted "source").nodes.entries.map (·.2), node.Undivided := by
    refine List.forall_mem_cons.mpr ⟨⟨by decide, fun _ => by decide⟩, ?_⟩
    exact List.forall_mem_singleton.mpr ⟨by decide, fun _ => by decide⟩
  refine ⟨⟨hsource, hsplit.mpr hundivided⟩, hsource', fun h => ?_⟩
  have hnode := hsplit'.mp h _ List.mem_cons_self
  exact hnode.2 rfl (by decide)

/-! ### The pipeline that a source is of -/

/-- What is told by one function of each of the items, item by item, is told by the whole list. -/
theorem map_eq_map_of_told {α β γ : Type} {f : α → β} {g : α → γ} {as bs : List α}
    (told : ∀ a ∈ as, ∀ b ∈ bs, f a = f b → g a = g b) (h : as.map f = bs.map f) :
    as.map g = bs.map g := by
  induction as generalizing bs with
  | nil =>
    rw [List.map_eq_nil_iff.mp h.symm]
  | cons a as ih =>
    obtain ⟨b, bs, rfl, hab, h⟩ := List.map_eq_cons_iff.mp h.symm
    rw [List.map_cons, List.map_cons,
      told a List.mem_cons_self b List.mem_cons_self hab.symm,
      ih (fun a ha b hb => told a (List.mem_cons_of_mem _ ha) b (List.mem_cons_of_mem _ hb)) h.symm]

/-- **A source tells which pipeline it is of**, as long as no name has a space or a line break in
it. Of nodes with one name, whatever it is, the stages tell the properties. -/
theorem SourceRules.nodes_eq_of_source_eq {r : SourceRules} (plain : r.writers = ∅) :
    (∀ {d e : Diagram} {text : String}, r.source d = .ok text → r.source e = .ok text →
      ∃ (ids ids' : List NodeId) (nodes nodes' : List Node),
        r.chainIds d = .ok ids ∧ r.chainIds e = .ok ids' ∧
        ids.map d.node? = nodes.map some ∧ ids'.map e.node? = nodes'.map some ∧
        ((∀ node ∈ nodes ++ nodes', ' ' ∉ node.name.toList ∧ '\n' ∉ node.name.toList) →
          ids.length = ids'.length ∧
            nodes.map (fun n => (n.name, n.properties)) =
              nodes'.map fun n => (n.name, n.properties))) ∧
      ∀ {m n : Node}, m.name = n.name → (r.stage m = r.stage n ↔ m.properties = n.properties) := by
  refine ⟨fun {d e text} hd he => ?_, fun hname => ?_⟩
  · obtain ⟨ids, -, hids, -⟩ := exists_nodes_of_source hd
    obtain ⟨ids', -, hids', -⟩ := exists_nodes_of_source he
    obtain ⟨nodes, hnodes, hsplit, -⟩ := split_source_eq_iff plain hd hids
    obtain ⟨nodes', hnodes', hsplit', -⟩ := split_source_eq_iff plain he hids'
    refine ⟨ids, ids', nodes, nodes', hids, hids', hnodes, hnodes', fun hnames => ?_⟩
    obtain ⟨hnames, hnames'⟩ := List.forall_mem_append.mp hnames
    -- no name divides its stage, so both lists of stages are what the text splits into
    have hstages : nodes.map Node.stage = nodes'.map Node.stage := by
      rw [← hsplit.mpr fun n hn => Node.undivided_of_not_mem (hnames n hn).2,
        ← hsplit'.mpr fun n hn => Node.undivided_of_not_mem (hnames' n hn).2]
    have hlength := congrArg List.length hnodes
    have hlength' := congrArg List.length hnodes'
    have hcount := congrArg List.length hstages
    simp only [List.length_map] at hlength hlength' hcount
    refine ⟨by rw [hlength, hlength', hcount], map_eq_map_of_told ?_ hstages⟩
    intro m hm n hn hstage
    have hname : m.name = n.name :=
      Node.name_eq_of_stage (hnames m hm).1 (hnames' n hn).1 hstage
    rw [hname, (Node.stage_eq_iff hname).mp hstage]
  · rw [stage_of_no_writers plain]
    exact Node.stage_eq_iff hname

/-- The same pipeline, its sink placed first. -/
def notedSinkFirst (name : String) : Diagram := Diagram.run ∅
  [.place (.new "sink" .consumer),
    .place ((Node.new name .producer).withProperties (.ofMembers [("note", .string "\n| drop")])),
    .join ⟨1⟩ ⟨0⟩]

/-- Two diagrams that are numbered the other way round have one source. A name with a blank in it is
told from a name with properties. -/
theorem nodes_eq_of_source_eq_sample :
    (∃ text, ({} : SourceRules).source (noted "source") = .ok text ∧
      ({} : SourceRules).source (notedSinkFirst "source") = .ok text) ∧
    ((noted "source").nodes.entries.map fun e => (e.2.name, e.2.properties)) =
      ((notedSinkFirst "source").nodes.entries.reverse.map fun e => (e.2.name, e.2.properties)) ∧
    ({} : SourceRules).stage (.new "a b" .producer) ≠ ({} : SourceRules).stage
      ((Node.new "a b" .producer).withProperties (.ofMembers [("k", .null)])) := by
  obtain ⟨htold, hstage⟩ := SourceRules.nodes_eq_of_source_eq rfl (r := {})
  have hd : ({} : SourceRules).source (noted "source") =
      .ok "source \x7b\"note\":\"\\n| drop\"\x7d\n| sink" := rfl
  have he : ({} : SourceRules).source (notedSinkFirst "source") =
      .ok "source \x7b\"note\":\"\\n| drop\"\x7d\n| sink" := rfl
  obtain ⟨ids, ids', nodes, nodes', hids, hids', hnodes, hnodes', hsame⟩ := htold hd he
  obtain rfl : [⟨0⟩, ⟨1⟩] = ids := Except.ok.inj hids
  obtain rfl : [⟨1⟩, ⟨0⟩] = ids' := Except.ok.inj hids'
  have hfound : nodes = (noted "source").nodes.entries.map (·.2) :=
    List.map_injective_iff.mpr (Option.some_injective _) hnodes.symm
  have hfound' : nodes' = (notedSinkFirst "source").nodes.entries.reverse.map (·.2) :=
    List.map_injective_iff.mpr (Option.some_injective _) hnodes'.symm
  subst nodes nodes'
  have hplain : ∀ name ∈ ["source", "sink", "source", "sink"],
      ' ' ∉ name.toList ∧ '\n' ∉ name.toList := by decide
  have hnames := List.forall_mem_map.mp (show ∀ name ∈
    ((noted "source").nodes.entries.map (·.2) ++
      (notedSinkFirst "source").nodes.entries.reverse.map (·.2)).map (·.name), _ from hplain)
  refine ⟨⟨_, hd, he⟩, (hsame hnames).2, fun h => ?_⟩
  have hproperties := (hstage (by rfl)).mp h
  exact absurd (congrArg Table.size hproperties) (by decide)

end PipelineCanvas
