import PipelineCanvas.Palette
/-! A **studio** is a palette that several clients share. Any of them may publish a new catalog,
which all of them see from then on. A snapshot is the palette of one moment, and later catalogs do
not change it. -/
namespace PipelineCanvas

/-- The palette that all clients share, and the snapshots taken of it, the latest first. -/
structure Studio where
  palette : Palette := ∅
  snapshots : List Palette := []

namespace Studio

/-- What a client can do with the palette. -/
inductive Action where
  | publish (blocks : List Block)
  | takeSnapshot

/-- A client acts. All share one palette, so it makes no difference which of them it is. -/
def act (s : Studio) (_client : Nat) : Action → Studio
  | .publish blocks => { s with palette := .ofCatalog blocks }
  | .takeSnapshot => { s with snapshots := s.palette :: s.snapshots }

end Studio
end PipelineCanvas
