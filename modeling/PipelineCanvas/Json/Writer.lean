import PipelineCanvas.Json.Quoted
import PipelineCanvas.Json.Value
/-! Writing JSON values. `Json.compact` has no blanks and `Json.pretty` one item or member a line,
both in the order of the tree; `Json.canonical` is compact and puts the members of every object
into ascending order of key itself. -/
namespace PipelineCanvas.Json

/-- A truth value or `null` or a number or a string; nothing for arrays and objects. -/
def scalarChars : Json → List Char
  | .null => "null".toList
  | .bool true => "true".toList
  | .bool false => "false".toList
  | .number n => n.text
  | .string s => quote s
  | _ => []

/-- The parts with a separator between each two. -/
def separated (separator : List Char) : List (List Char) → List Char
  | [] => []
  | [part] => part
  | part :: parts => part ++ separator ++ separated separator parts

mutual

/-- The text of a value without blanks. -/
def compactChars : Json → List Char
  | .array items => '[' :: separated [','] (compactItems items) ++ [']']
  | .object members => '\x7b' :: separated [','] (compactMembers members) ++ ['\x7d']
  | t => scalarChars t

def compactItems : List Json → List (List Char)
  | [] => []
  | t :: ts => compactChars t :: compactItems ts

def compactMembers : List (String × Json) → List (List Char)
  | [] => []
  | (k, t) :: ms => (quote k ++ ':' :: compactChars t) :: compactMembers ms

end

mutual

/-- The text of a value without blanks, the members of every object by ascending key. -/
def canonicalChars : Json → List Char
  | .array items => '[' :: separated [','] (canonicalItems items) ++ [']']
  | .object members =>
    let parts := (Table.ofList (canonicalMembers members)).entries.map fun m =>
      quote m.1 ++ ':' :: m.2
    '\x7b' :: separated [','] parts ++ ['\x7d']
  | t => scalarChars t

def canonicalItems : List Json → List (List Char)
  | [] => []
  | t :: ts => canonicalChars t :: canonicalItems ts

def canonicalMembers : List (String × Json) → List (String × List Char)
  | [] => []
  | (k, t) :: ms => (k, canonicalChars t) :: canonicalMembers ms

end

/-- A line break with the indent of so many levels. -/
def newline (level : Nat) : List Char := '\n' :: List.replicate (2 * level) ' '

/-- Lines between brackets, one level deeper than these; empty brackets stand together. -/
def block (level : Nat) (opening closing : Char) (lines : List (List Char)) : List Char :=
  if lines.isEmpty then [opening, closing]
  else opening :: newline (level + 1) ++ separated (',' :: newline (level + 1)) lines ++
    newline level ++ [closing]

mutual

/-- The text of a value over several lines, at a level of indentation. -/
def prettyChars (level : Nat) : Json → List Char
  | .array items => block level '[' ']' (prettyItems (level + 1) items)
  | .object members => block level '\x7b' '\x7d' (prettyMembers (level + 1) members)
  | t => scalarChars t

def prettyItems (level : Nat) : List Json → List (List Char)
  | [] => []
  | t :: ts => prettyChars level t :: prettyItems level ts

def prettyMembers (level : Nat) : List (String × Json) → List (List Char)
  | [] => []
  | (k, t) :: ms => (quote k ++ ':' :: ' ' :: prettyChars level t) :: prettyMembers level ms

end

def compact (t : Json) : String := String.ofList t.compactChars

def canonical (t : Json) : String := String.ofList t.canonicalChars

def pretty (t : Json) : String := String.ofList (t.prettyChars 0)

end PipelineCanvas.Json

namespace PipelineCanvas.Properties

/-- The one text of these properties, whatever the order they were given in. -/
def canonical (p : Properties) : String := p.toJson.canonical

end PipelineCanvas.Properties
