import PipelineCanvas.Proofs.Elements
import PipelineCanvas.Proofs.Json.BrokenRecords
import PipelineCanvas.Proofs.Reachability
import PipelineCanvas.Proofs.Registrations
import PipelineCanvas.Proofs.Saving
/-! # Files that break off

A diagram is saved by writing over the file that is there, and so is a registration. Where the
program is stopped in the middle of that, the file is left with no more than the beginning of the
text, which may be nothing at all. What is left is never taken for a complete file
(`fault_of_breaksOff`), and the fault is that the text has ended, unless the whole text could not be
read either because it is nested too deeply.

Both texts end with the brace that closes their object, so this brace is lost wherever they break
off. The proof is one about records, `Record.exists_fault_of_breaksOff`: it asks of every field that
the worst its reader does is to stop where the text ends. What is added here is that this holds of
the fields of both files, and that the whole text is one that is read. For diagrams the second part
takes a detour, as the ids of a diagram may be of any size here and those in a text are of 64 bits:
a diagram is written like the one with its numbers capped (`capped`), and that one is read back. -/
namespace PipelineCanvas
open Json Reader

/-! ### Diagrams -/

/-- The number as it is written, which is the greatest of 64 bits for a greater one. -/
def capped (n : Nat) : Nat := min n 0xffffffffffffffff

theorem capped_fits (n : Nat) : FitsWord (capped n) := by
  unfold capped
  omega

/-- A number and its cap are written alike. -/
theorem ofNat_capped (n : Nat) : Json.ofNat (capped n) = Json.ofNat n := by
  simp [Json.ofNat, Whole.ofNat, capped]

namespace PortAddress

/-- The address in numbers of 64 bits. -/
def written (r : PortAddress) : PortAddress := ⟨⟨capped r.node.index⟩, capped r.port⟩

theorem toJson_written (r : PortAddress) : record.shape.toJson r.written = record.shape.toJson r :=
  congrArg₂ (fun node port => Json.object [("node", node), ("port", port)])
    (ofNat_capped r.node.index) (ofNat_capped r.port)

end PortAddress

namespace Link

/-- The link in numbers of 64 bits. -/
def written (l : Link) : Link := ⟨l.source.written, l.target.written⟩

theorem written_fits (l : Link) : l.written.Fits :=
  ⟨capped_fits _, capped_fits _, capped_fits _, capped_fits _⟩

end Link

namespace SavedDiagram

/-- The entries in numbers of 64 bits. -/
def written (s : SavedDiagram) : SavedDiagram where
  nodes := s.nodes.map fun e => (⟨capped e.1.index⟩, e.2)
  links := s.links.map fun e => (⟨capped e.1.index⟩, e.2.written)

/-- With finite positions, the entries in numbers of 64 bits are among those that are read back. -/
theorem fits_written {s : SavedDiagram} (h : ∀ e ∈ s.nodes, e.2.position.IsFinite) :
    s.written.Fits where
  nodes := List.forall_mem_map.mpr fun e he => ⟨capped_fits _, h e he⟩
  links := List.forall_mem_map.mpr fun e _ => ⟨capped_fits _, e.2.written_fits⟩

/-- Numbers of more than 64 bits do not show in the text. -/
theorem toJson_written (s : SavedDiagram) :
    record.shape.toJson s.written = record.shape.toJson s := by
  have hnode : ∀ e : NodeId × Placement,
      savedNode.toJson (⟨capped e.1.index⟩, e.2) = savedNode.toJson e := fun e =>
    congrArg (fun id => Json.object (("id", id) :: Placement.record.fields.toMembers
      (Placement.record.parts e.2))) (ofNat_capped e.1.index)
  have hlink : ∀ e : LinkId × Link,
      savedLink.toJson (⟨capped e.1.index⟩, e.2.written) = savedLink.toJson e := by
    intro e
    have hentry : ∀ e : LinkId × Link, savedLink.toJson e = .object
        [("id", LinkId.shape.toJson e.1), ("source", PortAddress.record.shape.toJson e.2.source),
          ("target", PortAddress.record.shape.toJson e.2.target)] := fun _ => rfl
    have hid : LinkId.shape.toJson ⟨capped e.1.index⟩ = LinkId.shape.toJson e.1 :=
      ofNat_capped e.1.index
    rw [hentry, hentry, hid, Link.written, PortAddress.toJson_written, PortAddress.toJson_written]
  have hnodes : s.written.nodes.map savedNode.toJson = s.nodes.map savedNode.toJson :=
    List.map_map.trans (List.map_congr_left fun e _ => hnode e)
  have hlinks : s.written.links.map savedLink.toJson = s.links.map savedLink.toJson :=
    List.map_map.trans (List.map_congr_left fun e _ => hlink e)
  exact congrArg₂ (fun nodes links => Json.object
    [("nodes", .array nodes), ("links", .array links)]) hnodes hlinks

/-- The readers of the two lists do nothing worse than to stop where the text ends. -/
theorem allLoose_fields (lost : List Char) : record.fields.AllLoose lost := by
  have hnode : ∀ depth, Loose lost (savedNode.read depth) := fun depth =>
    (Record.firm_entry (Shape.loose_imap (Shape.loose_natural _) _ _) _ _ _ depth).robust
  have hlink : ∀ depth, Loose lost (savedLink.read depth) := fun depth =>
    (Record.firm_entry (Shape.loose_imap (Shape.loose_natural _) _ _) _ _ _ depth).robust
  exact ⟨fun depth => (Shape.firm_list hnode depth).robust,
    fun depth => (Shape.firm_list hlink depth).robust, trivial⟩

end SavedDiagram

namespace Diagram

/-- What is left of the text of a diagram with finite positions is not read, and if the whole text
is not nested too deeply, this is because the text has ended. -/
theorem ofText_of_breaksOff {d : Diagram} (hfinite : ∀ id node, d.node? id = some node →
    node.position.IsFinite) {left : String} (h : BreaksOff left d.toText) :
    ∃ fault, ofText left = .error (.text fault) ∧
      ((SavedDiagram.record.shape.toJson d.saved).depth ≤ maxDepth → fault = .ended) := by
  have hclosed : ∃ init, d.toText.toList = init ++ ['\x7d'] := by
    rw [toText, Shape.toText, compact, String.toList_ofList]
    exact compactChars_object _
  obtain ⟨fault, hfault, hended⟩ := Record.exists_fault_of_breaksOff SavedDiagram.decide_fields
    SavedDiagram.allLoose_fields (spaced_compact _) hclosed h maxDepth
  refine ⟨fault, ?_, fun hdepth => ?_⟩
  · rw [ofText, hfault]
    rfl
  -- the whole text is read as the diagram with its numbers capped
  · have hfits : d.saved.written.Fits := SavedDiagram.fits_written fun e he => by
      obtain ⟨⟨id, node⟩, hnode, rfl⟩ := List.mem_map.mp he
      exact hfinite id node (Table.get?_eq_some_iff.mpr hnode)
    have hread := SavedDiagram.read_toText hfits (d.saved.toJson_written ▸ hdepth)
    rw [Shape.toText, SavedDiagram.toJson_written] at hread
    exact hended _ hread

end Diagram

/-! ### Registrations -/

namespace Registration

theorem decide_fields : record.fields.Decide :=
  ⟨Shape.decides_string, Shape.decides_string, Shape.decides_string,
    Shape.decides_value.optional, trivial⟩

/-- A registration has three strings and a schema, and none of the four does worse than to stop
where the text ends. -/
theorem allLoose_fields (lost : List Char) : record.fields.AllLoose lost :=
  ⟨fun depth => (Shape.firm_string depth).robust, fun depth => (Shape.firm_string depth).robust,
    fun depth => (Shape.firm_string depth).robust, Shape.loose_optional Shape.loose_value, trivial⟩

/-- What is left of the text of a registration is not read, and if the whole text is not nested too
deeply, this is because the text has ended. -/
theorem ofText_of_breaksOff (r : Registration) {left : String} (h : BreaksOff left r.toText) :
    ∃ fault, ofText left = .error fault ∧
      ((record.shape.toJson r).depth ≤ maxDepth → fault = .ended) := by
  have hclosed : ∃ init, r.toText.toList = init ++ ['\x7d'] := by
    rw [toText, pretty, String.toList_ofList]
    exact prettyChars_object _
  obtain ⟨fault, hfault, hended⟩ := Record.exists_fault_of_breaksOff decide_fields
    allLoose_fields r.spaced_toText hclosed h maxDepth
  refine ⟨fault, readAll_of_error hfault, fun hdepth => ?_⟩
  -- the whole text is read as the echo of the registration, whatever its doubles are
  obtain ⟨rest, htree, -⟩ := tree_of_spaced hdepth r.spaced_toText
  rw [← toJson_echo] at htree
  exact hended _ (r.echo.agrees maxDepth htree r.echo.view_toJson)

end Registration

/-! ### Files -/

/-- **What is left of a file is never taken for a complete one.** Of the text of a diagram with
finite positions, and of that of a registration, nothing that it may break off to is read, be it
empty. The fault is that the text has ended, if the whole text is not nested too deeply. -/
theorem fault_of_breaksOff :
    (∀ d : Diagram, (∀ id node, d.node? id = some node → node.position.IsFinite) →
      ∀ left, BreaksOff left d.toText → ∃ fault, Diagram.ofText left = .error (.text fault) ∧
        ((SavedDiagram.record.shape.toJson d.saved).depth ≤ maxDepth → fault = .ended)) ∧
    ∀ r : Registration, ∀ left, BreaksOff left r.toText →
      ∃ fault, Registration.ofText left = .error fault ∧
        (∀ read path, read path = .ok left →
          Registration.load read path = .error (.text fault)) ∧
        ((Registration.record.shape.toJson r).depth ≤ maxDepth → fault = .ended) := by
  refine ⟨fun d hfinite left => Diagram.ofText_of_breaksOff hfinite, fun r left h => ?_⟩
  obtain ⟨fault, hread, hended⟩ := r.ofText_of_breaksOff h
  refine ⟨fault, hread, fun read path hpath => ?_, hended⟩
  rw [Registration.load, hpath]
  show (Registration.ofText left).mapError _ = _
  rw [hread]
  rfl

/-- A diagram that breaks off behind a digit, and a registration that does so within an escape. -/
theorem fault_of_breaksOff_sample :
    (∀ id node, (Diagram.run ∅ Diagram.sampleEdits).node? id = some node →
      node.position.IsFinite) ∧
    BreaksOff "\x7b\"nodes\":[\x7b\"id\":0" (Diagram.run ∅ Diagram.sampleEdits).toText ∧
    Diagram.ofText "\x7b\"nodes\":[\x7b\"id\":0" = .error (.text .ended) ∧
    BreaksOff "\x7b\n  \"name\": \"water \\" Registration.nullSchema.toText ∧
    Registration.load (fun _ => .ok "\x7b\n  \"name\": \"water \\") "p" =
      .error (.text .ended) := by
  have hnodes : ∀ e ∈ (Diagram.run ∅ Diagram.sampleEdits).nodes.entries,
      e.2.position.IsFinite := by decide
  have hfinite : ∀ id node, (Diagram.run ∅ Diagram.sampleEdits).node? id = some node →
      node.position.IsFinite := fun _ _ hnode => hnodes _ (Table.get?_eq_some_iff.mp hnode)
  have hdiagram : BreaksOff "\x7b\"nodes\":[\x7b\"id\":0"
      (Diagram.run ∅ Diagram.sampleEdits).toText := .of_chars (by decide) (by decide)
  have hregistration : BreaksOff "\x7b\n  \"name\": \"water \\"
      Registration.nullSchema.toText := .of_chars (by decide) (by decide)
  obtain ⟨fault, hread, hended⟩ := fault_of_breaksOff.1 _ hfinite _ hdiagram
  obtain ⟨fault', -, hload, hended'⟩ := fault_of_breaksOff.2 _ _ hregistration
  rw [hended (by decide)] at hread
  rw [hended' (by decide)] at hload
  exact ⟨hfinite, hdiagram, hread, hregistration, hload _ "p" rfl⟩

end PipelineCanvas
