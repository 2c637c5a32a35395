/-! The arguments of the command line: one diagram, and options in any order. An option that takes
a value takes it as the next argument, or behind an equals sign; a short one also without it. -/
namespace PipelineCanvas.CommandLine

/-- An option of the command line. -/
inductive Setting where
  | catalog
  | stepLimit
  | output
  | name
  | description
  | schema
deriving DecidableEq

namespace Setting

/-- The setting with a name of several letters. -/
def ofLong? : String → Option Setting
  | "catalog" => some .catalog
  | "max-steps" => some .stepLimit
  | "output" => some .output
  | "name" => some .name
  | "description" => some .description
  | "schema" => some .schema
  | _ => none

/-- The setting with a name of one letter. -/
def ofShort? : Char → Option Setting
  | 'c' => some .catalog
  | 'o' => some .output
  | _ => none

end Setting

/-- Arguments with the values sorted out, in the order given. -/
structure Arguments where
  operands : List String
  settings : List (Setting × String)

namespace Arguments

def addOperand (s : String) (a : Arguments) : Arguments := { a with operands := s :: a.operands }

def addSetting (setting : Setting) (value : String) (a : Arguments) : Arguments :=
  { a with settings := (setting, value) :: a.settings }

/-- Whether an argument can only be the name of an option: a dash with something behind it. -/
def isOption (s : String) : Bool := s.startsWith "-" && s != "-"

/-- An argument that names a setting, with the value that it carries itself. -/
def setting? (s : String) : Option (Setting × Option String) :=
  match s.toList with
  | '-' :: '-' :: long =>
    let name := String.ofList (long.takeWhile (· != '='))
    let value := match long.dropWhile (· != '=') with
      | [] => none
      | _ :: value => some (String.ofList value)
    (Setting.ofLong? name).map (·, value)
  | '-' :: short :: value =>
    let value := match value with
      | [] => none
      | '=' :: value => some (String.ofList value)
      | value => some (String.ofList value)
    (Setting.ofShort? short).map (·, value)
  | _ => none

/-- Sorts out arguments; after `--` all are operands. -/
def ofList? : List String → Option Arguments
  | [] => some ⟨[], []⟩
  | s :: rest =>
    if s = "--" then some ⟨rest, []⟩
    else if !isOption s then (ofList? rest).map (addOperand s)
    else
      match setting? s with
      | none => none
      | some (setting, some value) => (ofList? rest).map (addSetting setting value)
      | some (setting, none) =>
        match rest with
        | [] => none
        | value :: rest =>
          if isOption value then none else (ofList? rest).map (addSetting setting value)

end Arguments

/-- What a run is asked to do. -/
structure Options where
  /-- The path of the saved canvas. -/
  diagram : String
  /-- The path of a catalog that every node must be found in. -/
  catalog : Option String := none
  stepLimit : Nat := 50
  /-- The path where a registration is written, instead of printing the source. -/
  output : Option String := none
  /-- The name in the registration. -/
  name : String := "pipeline"
  /-- The description in the registration. -/
  description : String := ""
  /-- The path of the schema for the registration. -/
  schema : Option String := none
deriving DecidableEq

/-- A count of 64 bits in decimal digits, after a plus sign or none. -/
def count? (s : String) : Option Nat :=
  let ds := match s.toList with
    | '+' :: ds => ds
    | ds => ds
  let n := Nat.ofDigitChars 10 ds 0
  if !ds.isEmpty && ds.all Char.isDigit && n < 0x10000000000000000 then some n else none

namespace Options

/-- Takes over the value of a setting. -/
def set (o : Options) (setting : Setting) (value : String) : Option Options :=
  match setting with
  | .catalog => some { o with catalog := some value }
  | .stepLimit => (count? value).map fun stepLimit => { o with stepLimit }
  | .output => some { o with output := some value }
  | .name => some { o with name := value }
  | .description => some { o with description := value }
  | .schema => some { o with schema := some value }

/-- The options that arguments give: one operand, and no setting twice. -/
def ofArguments? (args : List String) : Option Options := do
  let a ← Arguments.ofList? args
  match a.operands with
  | [diagram] =>
    if (a.settings.map (·.1)).Nodup then
      a.settings.foldlM (fun o e => o.set e.1 e.2) { diagram }
    else none
  | _ => none

end Options
end PipelineCanvas.CommandLine
