import PipelineCanvas.Directory
import PipelineCanvas.Json.Record
/-! A **registration** is what a backend is told of a pipeline: name, description, source and,
where there is one, a schema of the parameters. It is saved as a text over several lines. A schema
that is absent is not written, and one that is `null` is; on reading, a member that is `null` counts
as absent. -/
namespace PipelineCanvas
open Json

/-- A pipeline as the backend knows it. -/
structure Registration where
  name : String
  description : String
  source : String
  /-- A JSON schema of what is needed to start the pipeline. -/
  schema : Option Value := none

/-- Why a registration cannot be saved or loaded. -/
inductive RegistrationError where
  /-- The file at the path cannot be read or written. -/
  | access (path : String) (cause : FileError)
  /-- The text is not that of a registration. -/
  | text (fault : Fault)
deriving DecidableEq

def RegistrationError.message : RegistrationError → String
  | .access path cause => s!"Could not access '{path}': {cause.message}"
  | .text fault => s!"Invalid pipeline registration JSON: {fault.message}"

namespace Registration

def record : Record Registration where
  name := "PipelineRegistration"
  types := [String, String, String, Option Value]
  fields :=
    .cons { name := "name", shape := .string } <|
    .cons { name := "description", shape := .string } <|
    .cons { name := "source", shape := .string } <|
    .cons { name := "schema", shape := .optional .value, absent := some none,
            isWritten := Option.isSome } .nil
  make := fun (name, description, source, schema, _) => { name, description, source, schema }
  parts r := (r.name, r.description, r.source, r.schema, ())

/-- The text that is saved. -/
def toText (r : Registration) : String := (record.shape.toJson r).pretty

def ofText (text : String) : Except Fault Registration := record.shape.ofText text

/-- The directory in which the registration has been saved in a file. -/
def save (r : Registration) (d : Directory) (path : String) :
    Except RegistrationError Directory :=
  (d.write path r.toText).mapError (.access path)

/-- The registration in a file. -/
def load (read : FileReader) (path : String) : Except RegistrationError Registration := do
  let text ← (read path).mapError (.access path)
  (ofText text).mapError .text

/-- Whether two registrations are the same, whatever the signs of zeros. -/
def same (r s : Registration) : Bool :=
  r.name == s.name && r.description == s.description && r.source == s.source &&
    match r.schema, s.schema with
    | none, none => true
    | some v, some w => v.tree.same w.tree
    | _, _ => false

end Registration
end PipelineCanvas
