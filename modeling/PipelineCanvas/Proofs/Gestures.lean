import PipelineCanvas.Proofs.InPlace
import PipelineCanvas.Workbench
/-! # Gestures on the workbench

The workbench is a **faithful** front of its diagram. A gesture that asks for an edit leaves the
diagram and gives the answer that the edit itself would, and one that is refused changes nothing. So
gestures that were refused can be left out, and neither the answers to the others nor the diagram in
the end are any different.

The workbench carries out its edits in place, step by step on the one diagram that it has, and an
error in the middle could leave that half changed. So the edits are compared as programs, and the
programs with the functions that hand back a new diagram (`Faithful.settled`). What a gesture has to
do besides is to find the block for a drop, to find the schema for a form and to show a source, of
which only the first comes before an edit.

Which edit a gesture asks for is a relation (`Asks`), since a drop needs a block of the name and
asks for nothing where there is none. Gestures that look at something ask for no edit at all. -/
namespace PipelineCanvas
open InPlace

namespace Workbench

/-- The edit that a gesture asks for. A block is dropped as the node that is made of it. -/
inductive Asks (palette : Palette) : Gesture → Edit → Prop
  /-- The block is found in the palette, and a node is made of it. -/
  | drop {block : String} {position : Position} {node : Node}
    (made : palette.instantiate block position = .ok node) :
    Asks palette (.drop block position) (.place node)
  /-- All other edits are asked for as they are. -/
  | attach (source target : PortAddress) :
    Asks palette (.attach source target) (.attach source target)
  | detach (link : LinkId) : Asks palette (.detach link) (.detach link)
  | remove (node : NodeId) : Asks palette (.remove node) (.remove node)
  | move (node : NodeId) (position : Position) :
    Asks palette (.move node position) (.move node position)
  | configure (node : NodeId) (properties : Properties) :
    Asks palette (.configure node properties) (.configure node properties)

/-- What the front-end is told of an edit. -/
def Reply.ofAnswer : Edit.Answer → Reply
  | .placed id => .placed id
  | .attached id => .attached id
  | _ => .nothing

/-- What the front-end may rely on, whatever the gesture. -/
structure Faithful (w : Workbench) : Prop where
  /-- Handling a gesture in place comes to performing it. -/
  performed : ∀ gesture, w.handle gesture = w.perform gesture
  /-- An edit in place leaves the new diagram, or the one before where it is refused. -/
  settled : ∀ edit, (InPlace.perform edit).on w.diagram = settle w.diagram (w.diagram.perform edit)
  /-- A refusal leaves the workbench as it was, diagram, palette and rules. -/
  refused : ∀ {gesture refusal after}, w.handle gesture = (.error refusal, after) → after = w
  /-- What is answered and what is left are as the edit gives them, on success and on failure. -/
  edited : ∀ {gesture edit}, Asks w.palette gesture edit → w.handle gesture =
    ((((InPlace.perform edit).on w.diagram).1.map Reply.ofAnswer).mapError .edit,
      { w with diagram := ((InPlace.perform edit).on w.diagram).2 })
  /-- Where there is no block of the name the diagram is not even looked at. -/
  unknown : ∀ {block position error}, w.palette.instantiate block position = .error error →
    w.handle (.drop block position) = (.error (.block error), w)
  /-- To look at a node changes nothing. -/
  inspected : ∀ id, (w.handle (.inspect id)).2 = w
  /-- A source can always be asked for, and there is always something to show. -/
  shown : ∃ reply, w.handle .showSource = (.ok reply, w)
  /-- What is shown is the source of the diagram as it is. -/
  source_iff : ∀ {text}, (w.handle .showSource).1 = .ok (.source text) ↔
    w.rules.source w.diagram = .ok text
  /-- Where there is no source the message says why. -/
  alert_iff : ∀ {message}, (w.handle .showSource).1 = .ok (.alert message) ↔
    ∃ error, w.rules.source w.diagram = .error error ∧ message = error.message

/-- The gestures that are not refused when all are carried out in turn. -/
def accepted (w : Workbench) (gestures : List Gesture) : List Gesture :=
  ((gestures.zip (w.handleAll gestures).1).filter fun e => e.2.isOk).map (·.1)

/-- A gesture in place is all or nothing. -/
theorem program_on (w : Workbench) (gesture : Gesture) :
    (w.program gesture).on w.diagram = settle w.diagram (w.respond gesture) := by
  cases gesture with
  | drop block position => exact on_liftExcept_bind fun _ => rfl
  | attach source target =>
    exact on_bind_of_settle
      (adapt_on_of_settle Refusal.edit (attach_on source target _)) fun _ => rfl
  | detach link =>
    exact on_bind_of_settle (adapt_on_of_settle Refusal.edit (detach_on link _)) fun _ => rfl
  | remove node =>
    exact on_bind_of_settle (adapt_on_of_settle Refusal.edit (remove_on node _)) fun _ => rfl
  | move node position =>
    exact on_bind_of_store (adapt_on_of_store Refusal.edit (modifyNode_on node _ _)) fun _ => rfl
  | inspect node => exact (on_look _ _).trans (settle_look _ _).symm
  | configure node properties =>
    exact on_bind_of_store (adapt_on_of_store Refusal.edit (modifyNode_on node _ _)) fun _ => rfl
  | showSource => rfl

/-- Gesture by gesture, as each program comes to its function. -/
theorem handle_eq_perform (w : Workbench) (gesture : Gesture) :
    w.handle gesture = w.perform gesture := by
  unfold handle perform
  rw [program_on]
  cases w.respond gesture <;> rfl

/-- A refused gesture leaves the workbench as it was, with the identifiers that are to come. -/
theorem handle_of_error {w after : Workbench} {gesture : Gesture} {refusal : Refusal}
    (h : w.handle gesture = (.error refusal, after)) : after = w := by
  rcases hon : (w.program gesture).on w.diagram with ⟨answer, d⟩
  rw [handle, hon] at h
  cases h
  have hd : d = w.diagram := settle_of_error ((w.program_on gesture).symm.trans hon)
  rw [hd]

theorem answer_of_outcome {α : Type} (x : Except EditError α) (finish : α → Edit.Answer × Diagram) :
    (x.mapError Refusal.edit >>= fun a => .ok (Reply.ofAnswer (finish a).1, (finish a).2)) =
      ((x >>= fun a => .ok (finish a)).map fun r => (Reply.ofAnswer r.1, r.2)).mapError .edit := by
  cases x <;> rfl

/-- The reply to a gesture that asks for an edit is the answer to the edit. -/
theorem respond_of_asks {w : Workbench} {gesture : Gesture} {edit : Edit}
    (h : Asks w.palette gesture edit) : w.respond gesture =
      ((w.diagram.perform edit).map fun r => (Reply.ofAnswer r.1, r.2)).mapError .edit := by
  cases h with
  | drop made =>
    unfold respond
    simp only [made]
    rfl
  | attach source target => exact answer_of_outcome _ fun (id, e) => (.attached id, e)
  | detach link => exact answer_of_outcome _ fun (link, e) => (.detached link, e)
  | remove node => exact answer_of_outcome _ fun (node, e) => (.removed node, e)
  | move node position => exact answer_of_outcome _ fun e => (.done, e)
  | configure node properties => exact answer_of_outcome _ fun e => (.done, e)

/-- A gesture that asks for an edit does to the workbench what the edit does to the diagram. -/
theorem handle_of_asks {w : Workbench} {gesture : Gesture} {edit : Edit}
    (h : Asks w.palette gesture edit) : w.handle gesture =
      ((((InPlace.perform edit).on w.diagram).1.map Reply.ofAnswer).mapError .edit,
        { w with diagram := ((InPlace.perform edit).on w.diagram).2 }) := by
  rw [handle_eq_perform, perform_on, perform, respond_of_asks h]
  cases w.diagram.perform edit <;> rfl

theorem handle_inspect (w : Workbench) (id : NodeId) :
    w.handle (.inspect id) = ((w.inspect id).mapError .edit, w) := by
  unfold handle program
  simp only [on_look]

theorem handle_drop_of_error {w : Workbench} {block : String} {position : Position}
    {error : NoSuchBlock} (h : w.palette.instantiate block position = .error error) :
    w.handle (.drop block position) = (.error (.block error), w) := by
  rw [handle_eq_perform, perform, respond]
  simp only [h]
  rfl

theorem faithful (w : Workbench) : w.Faithful where
  performed := w.handle_eq_perform
  settled edit := perform_on edit w.diagram
  refused := handle_of_error
  edited := handle_of_asks
  unknown := handle_drop_of_error
  inspected id := congrArg Prod.snd (w.handle_inspect id)
  shown := ⟨w.showSource, rfl⟩
  source_iff {text} := by
    show (Except.ok w.showSource : Except Refusal Reply) = _ ↔ _
    unfold showSource
    cases w.rules.source w.diagram <;> simp
  alert_iff {message} := by
    show (Except.ok w.showSource : Except Refusal Reply) = _ ↔ _
    unfold showSource
    cases w.rules.source w.diagram <;> simp [eq_comm]

/-! ### Gestures one after the other -/

/-- A gesture that is accepted is kept, and the rest is looked at from the workbench behind it. -/
theorem accepted_cons_of_ok {w after : Workbench} {gesture : Gesture} {reply : Reply}
    (h : w.handle gesture = (.ok reply, after)) (gestures : List Gesture) :
    w.accepted (gesture :: gestures) = gesture :: after.accepted gestures := by
  unfold accepted
  rw [handleAll, h]
  rfl

/-- One that is refused is left out, and the rest is looked at from the same workbench. -/
theorem accepted_cons_of_error {w after : Workbench} {gesture : Gesture} {refusal : Refusal}
    (h : w.handle gesture = (.error refusal, after)) (gestures : List Gesture) :
    w.accepted (gesture :: gestures) = after.accepted gestures := by
  unfold accepted
  rw [handleAll, h]
  rfl

/-- The induction goes along the gestures, with any workbench to begin with: a gesture that is
carried out is kept, and what comes next begins with the workbench it leaves; one that is refused
leaves the workbench with which it began. -/
theorem handleAll_accepted (w : Workbench) (gestures : List Gesture) :
    w.handleAll (w.accepted gestures) =
      ((w.handleAll gestures).1.filter fun answer => answer.isOk, (w.handleAll gestures).2) := by
  induction gestures generalizing w with
  | nil => rfl
  | cons gesture gestures ih =>
    rcases h : w.handle gesture with ⟨answer, after⟩
    cases answer with
    | ok reply =>
      rw [accepted_cons_of_ok h, handleAll, handleAll, h]
      simp only [ih after]
      rfl
    | error refusal =>
      obtain rfl := handle_of_error h
      rw [accepted_cons_of_error h, ih, handleAll, h]
      rfl

/-- **The workbench is a faithful front.** What a gesture does is what the edit of the diagram does,
with its answer or its error in the words of the workbench, and a gesture that is refused changes
nothing. So in any row of gestures those that are refused can be left out: the others are answered
as they were, and the same workbench comes of it. -/
theorem faithful_handleAll_accepted (w : Workbench) : w.Faithful ∧ ∀ gestures,
    w.handleAll (w.accepted gestures) =
      ((w.handleAll gestures).1.filter fun answer => answer.isOk, (w.handleAll gestures).2) :=
  ⟨w.faithful, w.handleAll_accepted⟩

/-- A workbench with two blocks on offer and nothing on the canvas. -/
def trialBench : Workbench where
  palette := .ofCatalog [⟨"source", .producer, .null⟩, ⟨"sink", .consumer, .null⟩]

/-- Gestures of which three are refused: a block that is not on offer, a link into an out-port, and
a link that is not there. -/
def trialGestures : List Gesture :=
  [.drop "filter" default, .drop "source" default, .drop "sink" default,
    .attach ⟨⟨0⟩, 0⟩ ⟨⟨0⟩, 0⟩, .attach ⟨⟨0⟩, 0⟩ ⟨⟨1⟩, 0⟩, .detach ⟨7⟩, .showSource]

/-- Four of the gestures are accepted, and by themselves they are answered as they were among the
others. -/
theorem faithful_handleAll_accepted_sample :
    trialBench.accepted trialGestures = [.drop "source" default, .drop "sink" default,
      .attach ⟨⟨0⟩, 0⟩ ⟨⟨1⟩, 0⟩, .showSource] ∧
    (trialBench.handleAll (trialBench.accepted trialGestures)).1 =
      [.ok (.placed ⟨0⟩), .ok (.placed ⟨1⟩), .ok (.attached ⟨0⟩),
        .ok (.source "source\n| sink")] := by
  refine ⟨rfl, ?_⟩
  rw [(faithful_handleAll_accepted trialBench).2]
  rfl

end Workbench
end PipelineCanvas
