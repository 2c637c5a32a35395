import PipelineCanvas.Json.Shape
/-! Records. A `Record` lists the fields of a type with their names, shapes and defaults. It stands
in JSON as an object with its fields as members, in any order and among others, or as the array of
its fields in their order. `Record.entry` is the form of a record inside a listing, where an
identifier stands among the members. -/
namespace PipelineCanvas.Json

/-- A field of a record. -/
structure Field (α : Type) where
  name : String
  shape : Shape α
  /-- Other names under which the field is accepted. -/
  aliases : List String := []
  /-- What the field holds where it does not occur. -/
  absent : Option α := none
  /-- Whether a value is written. -/
  isWritten : α → Bool := fun _ => true

/-- The fields of a record, by their types. -/
inductive Fields : List Type → Type 1 where
  | nil : Fields []
  | cons {α : Type} {αs : List Type} (field : Field α) (fields : Fields αs) : Fields (α :: αs)

/-- A value for each type. -/
@[reducible] def Values : List Type → Type
  | [] => Unit
  | α :: αs => α × Values αs

/-- A place for a value of each type. -/
@[reducible] def Slots : List Type → Type
  | [] => Unit
  | α :: αs => Option α × Slots αs

namespace Field
variable {α : Type}

def answersTo (f : Field α) (key : String) : Bool := f.name == key || f.aliases.contains key

/-- The value of a field that has been read, or its default. -/
def value (f : Field α) : Option α → Except Fault α
  | some a => return a
  | none =>
    match f.absent with
    | some a => return a
    | none => throw (.unfit (.missing f.name))

end Field

namespace Fields

def count : {αs : List Type} → Fields αs → Nat
  | _, .nil => 0
  | _, .cons _ fs => fs.count + 1

/-- No field filled. -/
def empty : {αs : List Type} → Fields αs → Slots αs
  | _, .nil => ()
  | _, .cons _ fs => (none, fs.empty)

/-- Fills the field that answers to the key, if there is one, with what `take` takes in its shape.
A field is filled once. -/
def fill {m : Type → Type} [Monad m] [MonadExceptOf Fault m] (key : String)
    (take : {α : Type} → Shape α → m α) :
    {αs : List Type} → Fields αs → Slots αs → Option (m (Slots αs))
  | _, .nil, _ => none
  | _, .cons f fs, (slot, slots) =>
    if f.answersTo key then
      some do
        -- the second occurrence is refused before its value is looked at
        if slot.isSome then throw (.unfit (.repeated f.name))
        return (some (← take f.shape), slots)
    else
      (fs.fill key take slots).map fun rest => do
        return (slot, ← rest)

/-- The values of all fields; the first that is neither filled nor has a default is missing. -/
def complete : {αs : List Type} → Fields αs → Slots αs → Except Fault (Values αs)
  | _, .nil, _ => return ()
  | _, .cons f fs, (slot, slots) => do
    return (← f.value slot, ← fs.complete slots)

/-- Fills the field that answers to the key of a member that has been read; a member that no field
answers to does not count. -/
def viewMember {αs : List Type} (fs : Fields αs) (slots : Slots αs) (m : String × Json) :
    Except Fault (Slots αs) :=
  (fs.fill m.1 (fun s => s.view m.2) slots).getD (pure slots)

/-- Fills the fields with the members of an object that has been read, in their order. -/
def viewMembers {αs : List Type} (fs : Fields αs) (members : List (String × Json)) :
    Except Fault (Values αs) := do
  let slots ← members.foldlM fs.viewMember fs.empty
  fs.complete slots

/-- Fills the field that answers to the key of a member, from behind the key; the value of a member
that no field answers to is passed over. -/
def readMember {αs : List Type} (fs : Fields αs) (depth : Nat) (slots : Slots αs) (key : String) :
    Reader (Slots αs) :=
  let known := fs.fill key (fun s => do
    Reader.expectToken ':'
    s.read depth) slots
  known.getD do
    Reader.expectToken ':'
    Reader.skip
    return slots

/-- Reads the members of an object from behind its opening brace. -/
def readMembers {αs : List Type} (fs : Fields αs) (depth : Nat) : Reader (Values αs) := do
  let slots ← Reader.members Reader.quoted (fs.readMember depth) fs.empty
  fs.complete slots

/-- What an array must hold for so many fields. -/
def elements (n : Nat) : String := if n = 1 then "1 element" else s!"{n} elements"

/-- Reads the items of an array as the fields in their order, up to the closing bracket. Of the
items that are left out at the end each needs a default. -/
def readItems (expected : String) (depth : Nat) :
    {αs : List Type} → Fields αs → Nat → Reader (Values αs)
  | _, .nil, _ => return ()
  | _, .cons f fs, index => do
    let a ←
      if ← Reader.hasItem (index == 0) then f.shape.read depth
      else
        match f.absent with
        | some a => pure a
        | none => throw (.unfit (.length index expected))
    return (a, ← fs.readItems expected depth (index + 1))

/-- Takes the items of an array that has been read as the fields in their order, and what is left
of them. -/
def viewItems (expected : String) :
    {αs : List Type} → Fields αs → Nat → List Json → Except Fault (Values αs × List Json)
  | _, .nil, _, items => return ((), items)
  | _, .cons f fs, index, items => do
    let (a, items) ←
      match items, f.absent with
      | t :: items, _ => pure (← f.shape.view t, items)
      | [], some a => pure (a, [])
      | [], none => throw (.unfit (.length index expected))
    let (values, items) ← fs.viewItems expected (index + 1) items
    return ((a, values), items)

/-- The members of the object that is written for the values. -/
def toMembers : {αs : List Type} → Fields αs → Values αs → List (String × Json)
  | _, .nil, _ => []
  | _, .cons f fs, (a, values) =>
    if f.isWritten a then (f.name, f.shape.toJson a) :: fs.toMembers values
    else fs.toMembers values

end Fields

/-- A type whose values are records of fields. -/
structure Record (α : Type) where
  name : String
  types : List Type
  fields : Fields types
  make : Values types → α
  parts : α → Values types

namespace Record
variable {α ι : Type}

/-- The record of another type, whose values go over into those of the first. -/
def imap {β : Type} (r : Record α) (f : α → β) (g : β → α) : Record β where
  name := r.name
  types := r.types
  fields := r.fields
  make values := f (r.make values)
  parts b := r.parts (g b)

/-- What a message calls the record. -/
def expected (r : Record α) : String := s!"struct {r.name}"

def expectedItems (r : Record α) : String :=
  s!"{r.expected} with {Fields.elements r.fields.count}"

/-- The record as an object or an array. -/
def shape (r : Record α) : Shape α where
  read depth := do
    match ← Reader.peekToken, depth with
    | '\x7b', depth + 1 =>
      Reader.expect '\x7b'
      r.make <$> r.fields.readMembers depth
    | '[', depth + 1 =>
      Reader.expect '['
      let values ← r.fields.readItems r.expectedItems depth 0
      Reader.expectToken ']'
      return r.make values
    | '\x7b', 0 => throw .malformed
    | '[', 0 => throw .malformed
    | _, _ => Reader.failType r.expected
  view
    | .object members => r.make <$> r.fields.viewMembers members
    | .array items => do
      let (values, left) ← r.fields.viewItems r.expectedItems 0 items
      unless left.isEmpty do
        let expected := s!"{Fields.elements r.fields.count} in sequence"
        throw (.unfit (.length items.length expected))
      return r.make values
    | t => t.viewType r.expected
  toJson a := .object (r.fields.toMembers (r.parts a))

/-- What is known of an entry from some of its members: the identifier, if it is among them, and
the others, the last one first. -/
abbrev EntryParts (ι : Type) := Option ι × List (String × Json)

/-- Sets the identifier apart from the other members of an entry. -/
def splitMember (name : String) (id : Shape ι) (parts : EntryParts ι) (m : String × Json) :
    Except Fault (EntryParts ι) := do
  if m.1 ≠ name then return (parts.1, m :: parts.2)
  else if parts.1.isSome then throw (.unfit (.repeated name))
  else return (some (← id.view m.2), parts.2)

/-- The identifier, which must be there, and the other members in their order. -/
def split (name : String) : EntryParts ι → Except Fault (ι × List (String × Json))
  | (some i, others) => return (i, others.reverse)
  | (none, _) => throw (.unfit (.missing name))

/-- The identifier and the record of an entry, once all its members are known. -/
def ofEntry (r : Record α) (name : String) (parts : EntryParts ι) : Except Fault (ι × α) := do
  let (i, others) ← split name parts
  return (i, r.make (← r.fields.viewMembers others))

/-- Reads a member of an entry from behind its key. Only the identifier is checked at once. -/
def readEntryMember (name : String) (id : Shape ι) (depth : Nat) (parts : EntryParts ι)
    (key : String) : Reader (EntryParts ι) := do
  if key = name then
    if parts.1.isSome then throw (.unfit (.repeated name))
    Reader.expectToken ':'
    return (some (← id.read depth), parts.2)
  else
    Reader.expectToken ':'
    return (parts.1, (key, ← Reader.tree depth) :: parts.2)

/-- An object with an identifier among the members of a record. The whole object is read before
any field of the record is looked at. -/
def entry (r : Record α) (expected : String) (name : String) (id : Shape ι) : Shape (ι × α) where
  read depth := do
    if (← Reader.peekToken) ≠ '\x7b' then Reader.failType expected
    match depth with
    | 0 => throw .malformed
    | depth + 1 =>
      Reader.expect '\x7b'
      let parts ← Reader.members Reader.quoted (readEntryMember name id depth) (none, [])
      r.ofEntry name parts
  view
    | .object members => do
      r.ofEntry name (← members.foldlM (splitMember name id) (none, []))
    | t => t.viewType expected
  toJson e := .object ((name, id.toJson e.1) :: r.fields.toMembers (r.parts e.2))

end Record
end PipelineCanvas.Json
