import PipelineCanvas.Json.Tree
import PipelineCanvas.Json.Writer
/-! Shapes of JSON values. A `Shape` says which JSON values stand for the values of a type, in three
ways: how one is read off a text, how one is seen in a tree that has been read already, and which
tree one is written as. Shapes with several parts are in `PipelineCanvas.Json.Record`. -/
namespace PipelineCanvas.Json

/-- How the values of a type stand in JSON. -/
structure Shape (α : Type) where
  /-- Reads a value with so many levels of nesting left. -/
  read : Nat → Reader α
  /-- Takes a value from a tree. -/
  view : Json → Except Fault α
  toJson : α → Json

/-- Fails because a tree is not of the expected type. -/
def viewType {α : Type} (t : Json) (expected : String) : Except Fault α :=
  throw (.unfit (.type t.found expected))

namespace Shape
variable {α β : Type}

/-- Reads a text that holds one value of the shape. -/
def ofText (s : Shape α) (text : String) : Except Fault α := (s.read maxDepth).readAll text

/-- The text of a value without blanks. -/
def toText (s : Shape α) (a : α) : String := (s.toJson a).compact

/-- Another type in the place of the first, whose values go over into one another. -/
def imap (s : Shape α) (f : α → β) (g : β → α) : Shape β where
  read depth := f <$> s.read depth
  view t := f <$> s.view t
  toJson b := s.toJson (g b)

/-- Strings. -/
def string : Shape String where
  read _ := do
    if (← Reader.peekToken) = '"' then Reader.quoted else Reader.failType "a string"
  view
    | .string s => return s
    | t => t.viewType "a string"
  toJson := .string

/-- Numbers that `pick` accepts. -/
def numberWith (expected : String) (pick : Number → Except Fault α) (put : α → Json) :
    Shape α where
  read _ := do
    let c ← Reader.peekToken
    if c = '-' ∨ c.isDigit then pick (← Reader.number) else Reader.failType expected
  view
    | .number n => pick n
    | t => t.viewType expected
  toJson := put

/-- Natural numbers of 64 bits, under the name that a message gives them. -/
def natural (expected : String) : Shape Nat :=
  numberWith expected (fun
    | .whole n =>
      if 0 ≤ n.val then return n.val.toNat
      else throw (.unfit (.value (.number (.whole n)) expected))
    | n => throw (.unfit (.type (.number n) expected))) .ofNat

/-- Doubles; a whole number counts as the double nearest to it. -/
def double : Shape Double :=
  numberWith "f64" (fun n => return n.toDouble) fun x => .number (.double x)

/-- Values of every shape. -/
def value : Shape Value where
  read depth := Value.ofJson <$> Reader.tree depth
  view t := return .ofJson t
  toJson v := v.tree

/-- Objects with values of every shape under any names. -/
def properties : Shape Properties where
  read depth := do
    if (← Reader.peekToken) ≠ '\x7b' then Reader.failType "a map"
    match ← Reader.tree depth with
    | .object members => return .ofMembers members
    | t => t.viewType "a map"
  view
    | .object members => return .ofMembers members
    | t => t.viewType "a map"
  toJson := Properties.toJson

/-- A value, or `null` for none. -/
def optional (s : Shape α) : Shape (Option α) where
  read depth := do
    if (← Reader.peekToken) = 'n' then (fun _ => none) <$> Reader.word ['n', 'u', 'l', 'l']
    else some <$> s.read depth
  view
    | .null => return none
    | t => some <$> s.view t
  toJson
    | none => .null
    | some a => s.toJson a

/-- Arrays with items of one shape. -/
def list (s : Shape α) : Shape (List α) where
  read depth := do
    if (← Reader.peekToken) ≠ '[' then Reader.failType "a sequence"
    match depth with
    | 0 => throw .malformed
    | depth + 1 =>
      Reader.expect '['
      Reader.arrayItems (s.read depth)
  view
    | .array items => items.mapM s.view
    | t => t.viewType "a sequence"
  toJson l := .array (l.map s.toJson)

/-- The choice that has the name. -/
def choose (name : α → String) (choices : List α) (s : String) : Except Fault α :=
  match choices.find? fun a => name a == s with
  | some a => return a
  | none => throw (.unfit (.choice s (choices.map name)))

/-- Nothing but `null`, as the only member of an object that names a choice. -/
def nothing : Reader Unit := do
  if (← Reader.peekToken) = 'n' then Reader.word ['n', 'u', 'l', 'l']
  else Reader.failType "unit"

/-- One of several names: as a string, or as the only key of an object. The key stands for the
choice by itself and has no content: `null`, and in a tree that has been read an empty object. -/
def choice (name : α → String) (choices : List α) : Shape α where
  read depth := do
    match ← Reader.peekToken with
    | '"' => choose name choices (← Reader.quoted)
    | '\x7b' =>
      match depth with
      | 0 => throw .malformed
      | _ + 1 =>
        Reader.expect '\x7b'
        -- a key is a string, and the choice is looked up before what follows it is read
        Reader.skipBlank
        let a ← choose name choices (← Reader.quoted)
        Reader.expectToken ':'
        nothing
        Reader.expectToken '\x7d'
        return a
    | _ => throw .malformed
  view
    | .string s => choose name choices s
    | .object [(key, content)] => do
      let a ← choose name choices key
      match content with
      | .null => return a
      | .object [] => return a
      | t => t.viewType "unit"
    | .object _ => throw (.unfit (.value .map "map with a single key"))
    | t => t.viewType "string or map"
  toJson a := .string (name a)

end Shape
end PipelineCanvas.Json
