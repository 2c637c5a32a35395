import PipelineCanvas.Workbench
/-! A **session** is a workbench among other clients of palettes. No client has a palette of its
own: it holds the number of one. Who is cloned from a client holds the same number, and so sees what
either of them publishes. The workbench holds a number as well, and looks its palette up with every
gesture. -/
namespace PipelineCanvas

structure Session where
  /-- The palettes, each at its number. -/
  palettes : List Palette
  /-- The number that each client holds. -/
  clients : List Nat
  /-- The number that the workbench holds. -/
  own : Nat
  rules : SourceRules := {}
  diagram : Diagram := ∅

namespace Session
open Workbench

inductive Event where
  /-- There is a new client, with a new palette. -/
  | enter (blocks : List Block)
  /-- There is a new client, cloned from another. -/
  | clone (client : Nat)
  | publish (client : Nat) (blocks : List Block)
  | gesture (gesture : Gesture)

def Event.isGesture : Event → Bool
  | .gesture _ => true
  | _ => false

/-- A session in which the workbench is the only client. -/
def start (blocks : List Block) (rules : SourceRules := {}) (diagram : Diagram := ∅) : Session where
  palettes := [.ofCatalog blocks]
  clients := [0]
  own := 0
  rules
  diagram

/-- The workbench with the palette of the moment. -/
def workbench (s : Session) : Workbench where
  palette := s.palettes[s.own]?.getD ∅
  rules := s.rules
  diagram := s.diagram

/-- What an event leaves behind. A client that is not there does nothing. -/
def step (s : Session) : Event → Session
  | .enter blocks => { s with
      palettes := s.palettes ++ [.ofCatalog blocks]
      clients := s.clients ++ [s.palettes.length] }
  | .clone client => { s with clients := s.clients ++ s.clients[client]?.toList }
  | .publish client blocks =>
    match s.clients[client]? with
    | some number => { s with palettes := s.palettes.set number (.ofCatalog blocks) }
    | none => s
  | .gesture gesture => { s with diagram := (s.workbench.handle gesture).2.diagram }

/-- The session after several events, one after the other. -/
def run (s : Session) (events : List Event) : Session := events.foldl step s

end Session
end PipelineCanvas
