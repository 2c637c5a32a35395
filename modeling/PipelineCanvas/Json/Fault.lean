import PipelineCanvas.Json.Basic
import PipelineCanvas.Text.Escaped
/-! Why a text cannot be read: it ends too early, it breaks the grammar of JSON, or it is sound but
does not have the shape that is asked for. Only a misfit has a text of its own, in
`Misfit.message`. -/
namespace PipelineCanvas.Json

/-- What stands where something else was expected. -/
inductive Found where
  | null
  | bool (b : Bool)
  | number (n : Number)
  | string (s : String)
  | sequence
  | map
deriving DecidableEq

/-- What a value shows itself as. -/
def found : Json → Found
  | .null => .null
  | .bool b => .bool b
  | .number n => .number n
  | .string s => .string s
  | .array _ => .sequence
  | .object _ => .map

def Found.text : Found → String
  | .null => "null"
  | .bool b => s!"boolean `{b}`"
  | .number (.whole n) => s!"integer `{String.ofList n.text}`"
  | .number (.double x) => s!"floating point `{String.ofList (x.text Number.positional)}`"
  | .string s => s!"string {Text.escaped s}"
  | .sequence => "sequence"
  | .map => "map"

/-- How a sound value misses the shape that is asked for. -/
inductive Misfit where
  /-- The value is of another type. -/
  | type (found : Found) (expected : String)
  /-- The type is right, but not the value. -/
  | value (found : Found) (expected : String)
  /-- A sequence has another number of items. -/
  | length (items : Nat) (expected : String)
  /-- The name is none of the choices. -/
  | choice (name : String) (choices : List String)
  /-- A field occurs twice. -/
  | repeated (field : String)
  /-- A field that has no default does not occur. -/
  | missing (field : String)
deriving DecidableEq

/-- The choices as a message lists them. -/
def listedChoices (choices : List String) : String :=
  let quoted := choices.map fun c => s!"`{c}`"
  match quoted with
  | [a, b] => s!"{a} or {b}"
  | _ => "one of " ++ ", ".intercalate quoted

def Misfit.message : Misfit → String
  | .type found expected => s!"invalid type: {found.text}, expected {expected}"
  | .value found expected => s!"invalid value: {found.text}, expected {expected}"
  | .length items expected => s!"invalid length {items}, expected {expected}"
  | .choice name choices => s!"unknown variant `{name}`, expected {listedChoices choices}"
  | .repeated field => s!"duplicate field `{field}`"
  | .missing field => s!"missing field `{field}`"

/-- The first problem met in reading a text. -/
inductive Fault where
  /-- The text ends inside the value. -/
  | ended
  /-- The text breaks the grammar, or a limit on numbers or nesting. -/
  | malformed
  /-- The value has the wrong shape. -/
  | unfit (misfit : Misfit)
deriving DecidableEq

def Fault.message : Fault → String
  | .ended => "unexpected end of text"
  | .malformed => "malformed text"
  | .unfit misfit => misfit.message

end PipelineCanvas.Json
