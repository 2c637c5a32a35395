import PipelineCanvas.Canvas
import PipelineCanvas.CommandLine.Options
import PipelineCanvas.Directory
import PipelineCanvas.Palette
import PipelineCanvas.Registration
import PipelineCanvas.SourceRules
/-! A run of the command line. `product` goes from the saved canvas to what the run makes, reads
the files it needs and stops at the first problem; `Report` is what a run shows. Only a run without
a problem prints a source or writes a file. -/
namespace PipelineCanvas.CommandLine
open Json

/-- What a file is read for. -/
inductive Role where
  | diagram
  | catalog
  | schema
deriving DecidableEq

def Role.text : Role → String
  | .diagram => "diagram"
  | .catalog => "catalog"
  | .schema => "schema"

/-- What stops a run. -/
inductive Problem where
  | unreadable (role : Role) (path : String) (cause : FileError)
  | canvas (error : CanvasError)
  | catalogText (fault : Fault)
  /-- A node is of another kind than its block. -/
  | kindDiffers (id : NodeId) (node : Node) (kind : BlockKind)
  /-- There is no block for a node. -/
  | notInCatalog (id : NodeId) (node : Node)
  | chain (error : ChainError)
  | schemaText (fault : Fault)
  | registration (error : RegistrationError)

def Problem.message : Problem → String
  | .unreadable role path cause => s!"Failed to read {role.text} file '{path}': {cause.message}"
  | .canvas error => s!"Failed to load diagram: {error.message}"
  | .catalogText fault => s!"Failed to parse catalog JSON: {fault.message}"
  | .kindDiffers id node kind =>
    s!"Node '{id.text}' ({node.name}) is declared as {node.kind.text}, " ++
      s!"but the catalog says {kind.text}"
  | .notInCatalog id node =>
    s!"Node '{id.text}' uses block '{node.name}', which is not in the catalog"
  | .chain error => error.message
  | .schemaText fault => s!"Failed to parse schema JSON: {fault.message}"
  | .registration error => error.message

/-- What a run makes. -/
inductive Product where
  /-- A source to print. -/
  | source (text : String)
  /-- A registration to write. -/
  | registration (path : String) (r : Registration)

def readFile (read : FileReader) (role : Role) (path : String) : Except Problem String :=
  (read path).mapError (.unreadable role path)

/-- Finds the block of a node, of the same kind. -/
def checkNode (palette : Palette) (id : NodeId) (node : Node) : Except Problem Unit :=
  match palette.block? node.name with
  | none => throw (.notInCatalog id node)
  | some block => unless block.kind = node.kind do throw (.kindDiffers id node block.kind)

/-- Checks every node of the diagram against a catalog. -/
def checkCatalog (read : FileReader) (d : Diagram) (path : String) : Except Problem Unit := do
  let text ← readFile read .catalog path
  let blocks ← (Catalog.ofText text).mapError .catalogText
  d.nodes.entries.forM fun e => checkNode (.ofCatalog blocks) e.1 e.2

def readSchema (read : FileReader) (path : String) : Except Problem Value := do
  let text ← readFile read .schema path
  (Shape.value.ofText text).mapError .schemaText

/-- Makes a source or a registration of a saved canvas. -/
def product (o : Options) (read : FileReader) : Except Problem Product := do
  let text ← readFile read .diagram o.diagram
  let d ← (Diagram.ofCanvasText text).mapError .canvas
  if let some path := o.catalog then checkCatalog read d path
  let source ← (SourceRules.source { stepLimit := o.stepLimit } d).mapError .chain
  match o.output with
  | none => return .source source
  | some path =>
    -- a source that is only printed has no schema, whatever the options say
    let schema ← o.schema.mapM (readSchema read)
    return .registration path { name := o.name, description := o.description, source, schema }

/-- What a run shows and how it ends. -/
structure Report where
  exitCode : Nat
  output : String := ""
  errors : String := ""
deriving DecidableEq

namespace Report

/-- The arguments are not understood. -/
def usage : Report where
  exitCode := 2
  errors := "usage: DIAGRAM [-c CATALOG] [--max-steps N] [-o OUTPUT] [--name NAME] " ++
    "[--description TEXT] [--schema SCHEMA]\n"

def failure (problem : Problem) : Report where
  exitCode := 1
  errors := s!"\nError: {problem.message}\n"

def printed (source : String) : Report where
  exitCode := 0
  output := source ++ "\n"

/-- The end of a run that writes a file. -/
def saved (path : String) : Except FileError Unit → Report
  | .ok () => { exitCode := 0, errors := s!"Wrote pipeline registration to '{path}'\n" }
  | .error cause => failure (.registration (.access path cause))

end Report

/-- Runs the command line in a directory. -/
def runIn (d : Directory) (args : List String) : Report × Directory :=
  match Options.ofArguments? args with
  | none => (.usage, d)
  | some o =>
    match product o d.read with
    | .error problem => (.failure problem, d)
    | .ok (.source source) => (.printed source, d)
    | .ok (.registration path r) =>
      match d.write path r.toText with
      | .ok d => (.saved path (.ok ()), d)
      | .error cause => (.saved path (.error cause), d)

end PipelineCanvas.CommandLine
