import PipelineCanvas.Proofs.Gestures
import PipelineCanvas.Proofs.Palettes
import PipelineCanvas.Session
/-! # Catalogs and the canvas

Of the clients in a session those are **kin** to the workbench that come, by any number of clonings,
from the client with its palette. The events alone say which they are, and which catalog one of them
has published last (`Offer`). The palette of the workbench is always the one of that catalog
(`Shows.run`): its number is held by its kin and by no one else, and there is nothing to do with a
palette but to put another in its place.

What a gesture finds in the palette is the last block of a name in that catalog. It is looked up
with each gesture, so it does not matter what a block was when a node was made of it
(`Workbench.Consults`). A node that was a producer when it was dropped is inspected by the schema
that its name has now, be it that of a consumer, and stays a producer.

The other way round there is no influence at all: publishing changes neither the diagram nor the
rules of the source (`Refreshed`). The two statements are proved apart, the first from what the
palette is at the end of a run, the second by induction on the events, and only the last theorem
brings them together. -/
namespace PipelineCanvas
open Workbench Catalog

/-! ### What a gesture finds in a catalog -/

namespace Workbench
variable {w : Workbench} {catalog : List Block} {id : NodeId} {node : Node}

/-- What comes of a gesture that needs a block, in terms of a catalog. Kinds of nodes that are there
already make no difference. -/
structure Consults (w : Workbench) (catalog : List Block) : Prop where
  /-- A node is made of the last block of the name, with its kind, and the reply is its identifier.
  -/
  drop_of_last : ∀ {name position block}, LastOf catalog name block →
    w.handle (.drop name position) = (.ok (.placed ⟨w.diagram.freshNode⟩), { w with
      diagram := (w.diagram.place ((Node.new name block.kind).withPosition position)).2 })
  /-- Without a block of the name nothing changes. -/
  drop_of_none : ∀ {name position}, (∀ block ∈ catalog, block.name ≠ name) →
    w.handle (.drop name position) = (.error (.block ⟨name⟩), w)
  /-- So a drop succeeds just if the name stands in the catalog, wherever it does. -/
  dropped_iff : ∀ {name position}, (∃ reply, (w.handle (.drop name position)).1 = .ok reply) ↔
    ∃ block ∈ catalog, block.name = name
  /-- The settings of a node are refused for one reason only, that there is no such node. -/
  refused_iff : ∀ {id refusal}, (w.handle (.inspect id)).1 = .error refusal ↔
    w.diagram.node? id = none ∧ refusal = .edit (.noSuchNode id)
  /-- A form shows the schema that the block has now, and the properties of the node. -/
  form_iff : ∀ {id shown schema properties},
    (w.handle (.inspect id)).1 = .ok (.form shown schema properties) ↔
      shown = id ∧ ∃ node block, w.diagram.node? id = some node ∧
        LastOf catalog node.name block ∧ block.HasSettings ∧
        schema = block.schema ∧ properties = node.properties
  /-- Nothing is shown where the last block of the name has no settings, or there is none. -/
  nothing_iff : ∀ {id}, (w.handle (.inspect id)).1 = .ok .nothing ↔
    ∃ node, w.diagram.node? id = some node ∧
      ∀ block, LastOf catalog node.name block → ¬ block.HasSettings

/-- The new node has the kind of the block, and no properties. The block itself is not kept. -/
theorem handle_drop_of_lastOf (hp : w.palette = .ofCatalog catalog) {name : String} {block : Block}
    (h : LastOf catalog name block) (position : Position) :
    w.handle (.drop name position) = (.ok (.placed ⟨w.diagram.freshNode⟩), { w with
      diagram := (w.diagram.place ((Node.new name block.kind).withPosition position)).2 }) := by
  rw [handle_of_asks (.drop (hp ▸ Palette.instantiate_of_lastOf h))]
  rfl

/-- A name that is not in the catalog is the only thing that can be wrong with a drop. -/
theorem handle_drop_of_none (hp : w.palette = .ofCatalog catalog) {name : String}
    (h : ∀ block ∈ catalog, block.name ≠ name) (position : Position) :
    w.handle (.drop name position) = (.error (.block ⟨name⟩), w) :=
  handle_drop_of_error (hp ▸ Palette.instantiate_of_forall_ne h)

theorem inspect_of_none (h : w.diagram.node? id = none) :
    (w.handle (.inspect id)).1 = .error (.edit (.noSuchNode id)) := by
  rw [handle_inspect, inspect, h]
  rfl

/-- A form is made from the schema of the last block of the name, whatever its kind. -/
theorem inspect_of_hasSettings (hp : w.palette = .ofCatalog catalog)
    (hnode : w.diagram.node? id = some node) {block : Block}
    (hlast : LastOf catalog node.name block) (h : block.HasSettings) :
    (w.handle (.inspect id)).1 = .ok (.form id block.schema node.properties) := by
  rw [handle_inspect, inspect]
  simp only [hnode, hp, Palette.block?_ofCatalog_eq_some_iff.mpr hlast,
    Block.isConfigurable_iff.mpr h]
  rfl

theorem inspect_of_not_hasSettings (hp : w.palette = .ofCatalog catalog)
    (hnode : w.diagram.node? id = some node)
    (h : ∀ block, LastOf catalog node.name block → ¬ block.HasSettings) :
    (w.handle (.inspect id)).1 = .ok .nothing := by
  rw [handle_inspect, inspect]
  simp only [hnode, hp]
  cases hblock : (Palette.ofCatalog catalog).block? node.name with
  | none => rfl
  | some block =>
    have hlast : LastOf catalog node.name block := Palette.block?_ofCatalog_eq_some_iff.mp hblock
    have hset : block.isConfigurable = false :=
      Bool.eq_false_iff.mpr fun hset => h block hlast (Block.isConfigurable_iff.mp hset)
    simp only [hset]
    rfl

/-- There are three replies to the question for settings. -/
theorem inspect_cases (hp : w.palette = .ofCatalog catalog) (id : NodeId) :
    (w.diagram.node? id = none ∧ (w.handle (.inspect id)).1 = .error (.edit (.noSuchNode id))) ∨
    (∃ node block, w.diagram.node? id = some node ∧ LastOf catalog node.name block ∧
      block.HasSettings ∧
      (w.handle (.inspect id)).1 = .ok (.form id block.schema node.properties)) ∨
    (∃ node, w.diagram.node? id = some node ∧
      (∀ block, LastOf catalog node.name block → ¬ block.HasSettings) ∧
      (w.handle (.inspect id)).1 = .ok .nothing) := by
  cases hnode : w.diagram.node? id with
  | none => exact .inl ⟨rfl, inspect_of_none hnode⟩
  | some node =>
    by_cases h : ∃ block, LastOf catalog node.name block ∧ block.HasSettings
    · obtain ⟨block, hlast, hset⟩ := h
      exact .inr (.inl ⟨node, block, rfl, hlast, hset, inspect_of_hasSettings hp hnode hlast hset⟩)
    · have hnot : ∀ block, LastOf catalog node.name block → ¬ block.HasSettings :=
        fun block hlast hset => h ⟨block, hlast, hset⟩
      exact .inr (.inr ⟨node, rfl, hnot, inspect_of_not_hasSettings hp hnode hnot⟩)

/-- A workbench consults the catalog that its palette was made of, whatever its nodes are. -/
theorem consults_of_palette (hp : w.palette = .ofCatalog catalog) : w.Consults catalog where
  drop_of_last h := handle_drop_of_lastOf hp h _
  drop_of_none h := handle_drop_of_none hp h _
  dropped_iff {name position} := by
    constructor
    · rintro ⟨reply, hreply⟩
      by_cases hlisted : ∃ block ∈ catalog, block.name = name
      · exact hlisted
      · have hnone : ∀ block ∈ catalog, block.name ≠ name :=
          fun block hblock hname => hlisted ⟨block, hblock, hname⟩
        rw [handle_drop_of_none hp hnone] at hreply
        cases hreply
    · intro hlisted
      obtain ⟨block, hlast⟩ := Palette.exists_lastOf_iff.mpr hlisted
      exact ⟨_, congrArg Prod.fst (handle_drop_of_lastOf hp hlast position)⟩
  refused_iff {id refusal} := by
    constructor
    · intro h
      -- of the three cases only the one with this reply is possible, and so below
      rcases inspect_cases hp id with ⟨hnone, he⟩ | ⟨_, _, _, _, _, he⟩ | ⟨_, _, _, he⟩
      · cases he.symm.trans h
        exact ⟨hnone, rfl⟩
      · cases he.symm.trans h
      · cases he.symm.trans h
    · rintro ⟨hnone, rfl⟩
      exact inspect_of_none hnone
  form_iff {id shown schema properties} := by
    constructor
    · intro h
      rcases inspect_cases hp id with
        ⟨_, he⟩ | ⟨node, block, hnode, hlast, hset, he⟩ | ⟨_, _, _, he⟩
      · cases he.symm.trans h
      · cases he.symm.trans h
        exact ⟨rfl, node, block, hnode, hlast, hset, rfl, rfl⟩
      · cases he.symm.trans h
    · rintro ⟨rfl, node, block, hnode, hlast, hset, rfl, rfl⟩
      exact inspect_of_hasSettings hp hnode hlast hset
  nothing_iff {id} := by
    constructor
    · intro h
      rcases inspect_cases hp id with ⟨_, he⟩ | ⟨_, _, _, _, _, he⟩ | ⟨node, hnode, hnot, -⟩
      · cases he.symm.trans h
      · cases he.symm.trans h
      · exact ⟨node, hnode, hnot⟩
    · rintro ⟨node, hnode, hnot⟩
      exact inspect_of_not_hasSettings hp hnode hnot

end Workbench

/-! ### Which catalog it is -/

namespace Session
variable {s : Session}

/-- What the events say of the blocks on offer. -/
structure Offer where
  /-- The catalog that the kin of the workbench published last. -/
  catalog : List Block
  /-- For each client whether it is kin to the workbench. -/
  kin : List Bool := [true]

namespace Offer

def after (o : Offer) : Event → Offer
  | .enter _ => { o with kin := o.kin ++ [false] }
  | .clone client => { o with kin := o.kin ++ o.kin[client]?.toList }
  | .publish client blocks => if o.kin[client]? = some true then { o with catalog := blocks } else o
  | .gesture _ => o

end Offer

/-- The catalog that the kin of the workbench published last, or the one at the start. -/
def latest (blocks : List Block) (events : List Event) : List Block :=
  (events.foldl Offer.after { catalog := blocks }).catalog

/-- The session is as the events say. -/
structure Shows (s : Session) (o : Offer) : Prop where
  /-- Kin to the workbench are the clients that hold the number it holds. -/
  kin_eq : o.kin = s.clients.map fun number => number == s.own
  /-- The palette of that number has been made of the catalog on offer. -/
  palette_eq : s.palettes[s.own]? = some (.ofCatalog o.catalog)

theorem Shows.kin?_eq {o : Offer} (h : s.Shows o) (client : Nat) :
    o.kin[client]? = s.clients[client]?.map fun number => number == s.own := by
  rw [h.kin_eq, List.getElem?_map]

theorem shows_start (blocks : List Block) (rules : SourceRules) (d : Diagram) :
    (start blocks rules d).Shows { catalog := blocks } where
  kin_eq := rfl
  palette_eq := rfl

theorem step_publish_of_none {client : Nat} (h : s.clients[client]? = none) (blocks : List Block) :
    s.step (.publish client blocks) = s := by
  simp only [step, h]

/-- Publishing puts a palette in the place of the one of that number, and does nothing else. -/
theorem step_publish {client number : Nat} (h : s.clients[client]? = some number)
    (blocks : List Block) : s.step (.publish client blocks) =
      { s with palettes := s.palettes.set number (.ofCatalog blocks) } := by
  simp only [step, h]

/-- A catalog that is published comes to the workbench just if the client is of its kin. -/
theorem Shows.publish {o : Offer} (h : s.Shows o) (client : Nat) (blocks : List Block) :
    (s.step (.publish client blocks)).Shows (o.after (.publish client blocks)) := by
  have hkin := h.kin?_eq client
  have hlt : s.own < s.palettes.length := (List.getElem?_eq_some_iff.mp h.palette_eq).1
  show (s.step _).Shows (if o.kin[client]? = some true then { o with catalog := blocks } else o)
  cases hclient : s.clients[client]? with
  | none =>
    rw [hclient] at hkin
    rw [step_publish_of_none hclient, if_neg (by simp [hkin])]
    exact h
  | some number =>
    rw [hclient] at hkin
    rw [step_publish hclient]
    by_cases hown : number = s.own
    · rw [if_pos (by simp [hkin, hown])]
      refine ⟨h.kin_eq, ?_⟩
      show (s.palettes.set number (.ofCatalog blocks))[s.own]? = _
      rw [hown]
      exact List.getElem?_set_self hlt
    · rw [if_neg (by simp [hkin, hown])]
      exact ⟨h.kin_eq, (List.getElem?_set_ne hown).trans h.palette_eq⟩

/-- One event keeps the palette of the workbench in step with what has been published. Where a
client publishes, whether it is kin decides if its number is that of the workbench. -/
theorem Shows.step {o : Offer} (h : s.Shows o) (event : Event) :
    (s.step event).Shows (o.after event) := by
  cases event with
  | enter blocks =>
    have hlt : s.own < s.palettes.length := (List.getElem?_eq_some_iff.mp h.palette_eq).1
    have hnew : (s.palettes.length == s.own) = false := beq_eq_false_iff_ne.mpr (by omega)
    refine ⟨?_, (List.getElem?_append_left hlt).trans h.palette_eq⟩
    simp [Session.step, Offer.after, h.kin_eq, hnew]
  | clone client =>
    refine ⟨?_, h.palette_eq⟩
    show o.kin ++ o.kin[client]?.toList =
      (s.clients ++ s.clients[client]?.toList).map fun number => number == s.own
    rw [h.kin?_eq, h.kin_eq, List.map_append, Option.toList_map]
  | publish client blocks => exact h.publish client blocks
  | gesture gesture => exact ⟨h.kin_eq, h.palette_eq⟩

/-- By induction on the events, from the offer of the session at its start. -/
theorem Shows.run {o : Offer} (h : s.Shows o) (events : List Event) :
    (s.run events).Shows (events.foldl Offer.after o) := by
  induction events generalizing s o with
  | nil => exact h
  | cons event events ih => exact ih (h.step event)

/-- What the invariant is for: the palette of the workbench can be replaced by that of a catalog. -/
theorem Shows.workbench_palette {o : Offer} (h : s.Shows o) :
    s.workbench.palette = .ofCatalog o.catalog := by
  show s.palettes[s.own]?.getD ∅ = _
  rw [h.palette_eq]
  rfl

/-- Only a gesture leads to the workbench. -/
theorem step_of_not_isGesture {event : Event} (h : event.isGesture = false) :
    (s.step event).diagram = s.diagram ∧ (s.step event).rules = s.rules := by
  cases event with
  | enter blocks => exact ⟨rfl, rfl⟩
  | clone client => exact ⟨rfl, rfl⟩
  | publish client blocks =>
    cases hclient : s.clients[client]? with
    | none =>
      rw [step_publish_of_none hclient]
      exact ⟨rfl, rfl⟩
    | some number =>
      rw [step_publish hclient]
      exact ⟨rfl, rfl⟩
  | gesture gesture => cases h

/-- As long as there are no gestures the canvas stays as it is. -/
theorem run_of_forall_not_isGesture {events : List Event}
    (h : ∀ event ∈ events, event.isGesture = false) :
    (s.run events).diagram = s.diagram ∧ (s.run events).rules = s.rules := by
  induction events generalizing s with
  | nil => exact ⟨rfl, rfl⟩
  | cons event events ih =>
    obtain ⟨hd, hr⟩ := step_of_not_isGesture (s := s) (h event List.mem_cons_self)
    obtain ⟨hds, hrs⟩ := ih (s := s.step event) fun e he => h e (List.mem_cons_of_mem _ he)
    exact ⟨hds.trans hd, hrs.trans hr⟩

/-- The palette at the workbench is that of the catalog published last. -/
theorem palette_run (blocks : List Block) (rules : SourceRules) (d : Diagram)
    (events : List Event) :
    ((start blocks rules d).run events).workbench.palette = .ofCatalog (latest blocks events) :=
  ((shows_start blocks rules d).run events).workbench_palette

/-- What one session has become of another while there was a new catalog and no gesture. -/
structure Refreshed (s after : Session) (catalog : List Block) : Prop where
  /-- The canvas is as it was, also where the new catalog does not have its blocks. -/
  diagram_eq : after.diagram = s.diagram
  /-- So there is the same source, or the same error. -/
  source_eq : after.rules.source after.diagram = s.rules.source s.diagram
  /-- Nothing but the palette has been changed. -/
  workbench_eq : after.workbench = s.workbench.offer catalog

/-- **At any moment of a session the workbench consults the catalog published last**, the one that
it began with if there has been none. Catalogs leave the canvas alone: after any number of them,
with no gesture among them, the diagram and its source are what they were, and nothing but the
palette has changed. -/
theorem run_consults_latest (blocks : List Block) (rules : SourceRules) (d : Diagram)
    (events : List Event) :
    ((start blocks rules d).run events).workbench.Consults (latest blocks events) ∧
    ∀ refreshes : List Event, (∀ event ∈ refreshes, event.isGesture = false) →
      Refreshed ((start blocks rules d).run events)
        ((start blocks rules d).run (events ++ refreshes))
        (latest blocks (events ++ refreshes)) := by
  refine ⟨consults_of_palette (palette_run blocks rules d events), fun refreshes h => ?_⟩
  have hrun : (start blocks rules d).run (events ++ refreshes) =
      ((start blocks rules d).run events).run refreshes := List.foldl_append
  have hp := palette_run blocks rules d (events ++ refreshes)
  rw [hrun] at hp ⊢
  obtain ⟨hd, hr⟩ := run_of_forall_not_isGesture (s := (start blocks rules d).run events) h
  refine ⟨hd, by rw [hd, hr], ?_⟩
  show Workbench.mk (workbench _).palette (Session.rules _) (Session.diagram _) = _
  rw [hp, hr, hd]
  rfl

/-- A schema with one property. -/
def urlSchema : Value := .ofJson (.object [("properties", .object [("url", .null)])])

/-- A clone of the workbench's client lists a block twice, with other kinds than before, and a
client with a palette of its own lists none. -/
def newCatalogs : List Event :=
  [.clone 0, .enter [], .publish 1 [⟨"read", .transformer, .null⟩, ⟨"read", .consumer, urlSchema⟩],
    .publish 2 []]

/-- With new catalogs a node keeps its block and is shown the settings of the latest one, while what
is dropped is made from that; a block that is no longer on offer is not found. -/
theorem run_consults_latest_sample : ∃ s : Session,
    s = (start [⟨"read", .producer, .null⟩]).run (.gesture (.drop "read" default) :: newCatalogs) ∧
    s.diagram = ((∅ : Diagram).place (.new "read" .producer)).2 ∧
    (s.workbench.handle (.inspect ⟨0⟩)).1 = .ok (.form ⟨0⟩ urlSchema ∅) ∧
    (s.workbench.handle (.inspect ⟨1⟩)).1 = .error (.edit (.noSuchNode ⟨1⟩)) ∧
    (s.workbench.handle (.drop "read" default)).2.diagram.node? ⟨1⟩ = some (.new "read" .consumer) ∧
    (s.workbench.handle (.drop "write" default)).1 = .error (.block ⟨"write"⟩) := by
  obtain ⟨hconsults, -⟩ := run_consults_latest [⟨"read", .producer, .null⟩] {} ∅
    (.gesture (.drop "read" default) :: newCatalogs)
  obtain ⟨-, hrefreshed⟩ := run_consults_latest [⟨"read", .producer, .null⟩] {} ∅
    [.gesture (.drop "read" default)]
  have hd := (hrefreshed newCatalogs (by decide)).diagram_eq
  have hlast : LastOf (latest [⟨"read", .producer, .null⟩]
      (.gesture (.drop "read" default) :: newCatalogs)) "read" ⟨"read", .consumer, urlSchema⟩ :=
    ⟨[⟨"read", .transformer, .null⟩], [], rfl, rfl, nofun⟩
  refine ⟨_, rfl, hd, ?_, hconsults.refused_iff.mpr ⟨rfl, rfl⟩, ?_, ?_⟩
  · refine hconsults.form_iff.mpr ⟨rfl, .new "read" .producer, _, rfl, hlast, ?_, rfl, rfl⟩
    exact ⟨_, _, _, rfl, rfl⟩
  · rw [hconsults.drop_of_last hlast]
    rfl
  · rw [hconsults.drop_of_none (by decide)]

end Session
end PipelineCanvas
