import PipelineCanvas.Diagram.Edit
import PipelineCanvas.Main
import PipelineCanvas.Studio
import PipelineCanvas.Workbench
import PipelineCanvas.Proofs.Edits
import PipelineCanvas.Proofs.WellFormed
import PipelineCanvas.Proofs.Pipelines
import PipelineCanvas.Proofs.Json.Numerals
import PipelineCanvas.Proofs.Json.Strings
import PipelineCanvas.Proofs.Json.Trees
import PipelineCanvas.Proofs.Json.Shapes
import PipelineCanvas.Proofs.Json.Records
import PipelineCanvas.Proofs.Loading
import PipelineCanvas.Proofs.Saving
import PipelineCanvas.Proofs.Identifiers
import PipelineCanvas.Proofs.Json.Origins
import PipelineCanvas.Proofs.Reopening
import PipelineCanvas.Proofs.Merges
import PipelineCanvas.Proofs.Renumbering
import PipelineCanvas.Proofs.Reachability
import PipelineCanvas.Proofs.Json.Canonical
import PipelineCanvas.Proofs.Text.Pieces
import PipelineCanvas.Proofs.Stages
import PipelineCanvas.Proofs.Drawing
import PipelineCanvas.Proofs.Redrawing
import PipelineCanvas.Proofs.Admission
import PipelineCanvas.Proofs.InPlace
import PipelineCanvas.Proofs.Gestures
import PipelineCanvas.Session
import PipelineCanvas.Proofs.Palettes
import PipelineCanvas.Proofs.Sessions
import PipelineCanvas.Chain.InPlace
import PipelineCanvas.Proofs.Limits
import PipelineCanvas.Proofs.Linking
import PipelineCanvas.Proofs.Passes
import PipelineCanvas.Proofs.Runs
import PipelineCanvas.Proofs.Json.Spellings
import PipelineCanvas.Proofs.Queries
import PipelineCanvas.Proofs.CanonicalText
import PipelineCanvas.Proofs.Reordering
import PipelineCanvas.Proofs.Storerooms
import PipelineCanvas.Proofs.Json.Layouts
import PipelineCanvas.Proofs.Registrations
import PipelineCanvas.Proofs.Catalogs
import PipelineCanvas.Proofs.Json.Senses
import PipelineCanvas.Proofs.Json.Skipping
import PipelineCanvas.Proofs.Json.Filling
import PipelineCanvas.Proofs.Elements
import PipelineCanvas.Proofs.Entries
import PipelineCanvas.Proofs.Json.Tolerance
import PipelineCanvas.Proofs.Canvases
import PipelineCanvas.Proofs.Frames
import PipelineCanvas.Proofs.Commuting
import PipelineCanvas.Proofs.Json.BrokenTexts
import PipelineCanvas.Proofs.BrokenFiles
