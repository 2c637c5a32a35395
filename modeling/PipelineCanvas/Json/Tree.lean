import PipelineCanvas.Json.Numeral
import PipelineCanvas.Json.Quoted
import PipelineCanvas.Json.Value
/-! Reading JSON values whatever their shape. `Reader.tree` reads a value as it stands in the text
under a limit on nesting; `Reader.skip` passes over one and checks no more than its form, so that
numbers that are too great and halves of surrogate pairs do not matter there. Both are one reader
with two sorts of `Leaves`. The reader recurses on the levels that are left, and with none left it
refuses an opening bracket. -/
namespace PipelineCanvas.Json

/-- How many arrays and objects may stand one inside another. -/
def maxDepth : Nat := 127

namespace Reader

/-- Readers for the parts of a value that can be read with more or less care. -/
structure Leaves where
  string : Reader String
  number : Reader Json

/-- Every number must have a value and every string its characters. -/
def Leaves.exact : Leaves := ⟨quoted, Json.number <$> Reader.number⟩

/-- Only the form counts, and what is read stands for nothing. -/
def Leaves.formal : Leaves := ⟨quotedWith codeUnit, (fun _ => .null) <$> anyNumeral⟩

/-- A value that is neither array nor object, by its first character. -/
def scalar (leaves : Leaves) (first : Char) : Reader Json :=
  match first with
  | 'n' => (fun _ => .null) <$> word ['n', 'u', 'l', 'l']
  | 't' => (fun _ => .bool true) <$> word ['t', 'r', 'u', 'e']
  | 'f' => (fun _ => .bool false) <$> word ['f', 'a', 'l', 's', 'e']
  | '"' => .string <$> leaves.string
  | c => if c = '-' ∨ c.isDigit then leaves.number else throw .malformed

/-- Takes an opening bracket or brace and goes one level deeper, where that is allowed. -/
def descend {α β : Type} (inner : Option α) (body : α → Reader β) : Reader β :=
  match inner with
  | none => throw .malformed
  | some a => do
    discard next
    body a

/-- The items of an array, from behind its opening bracket. -/
def arrayItems {α : Type} (item : Reader α) : Reader (List α) := square.collect item

/-- A member of an object. -/
def member {α : Type} (key : Reader String) (value : Reader α) : Reader (String × α) := do
  let k ← key
  expectToken ':'
  return (k, ← value)

/-- The members of an object in text order, from behind its opening brace. -/
def objectMembers {α : Type} (key : Reader String) (value : Reader α) :
    Reader (List (String × α)) :=
  curly.collect (member key value)

/-- A value whose items and members are read by `inner`, or that has none. -/
def treeOver (leaves : Leaves) (inner : Option (Reader Json)) : Reader Json := do
  match ← peekToken with
  | '[' => descend inner fun item => .array <$> arrayItems item
  | '\x7b' => descend inner fun value => .object <$> objectMembers leaves.string value
  | c => scalar leaves c

/-- A value with at most `depth` arrays and objects one inside another. -/
def treeWith (leaves : Leaves) : Nat → Reader Json
  | 0 => treeOver leaves none
  | depth + 1 => treeOver leaves (some (treeWith leaves depth))

def tree (depth : Nat) : Reader Json := treeWith .exact depth

/-- Passes over a value. There is no limit on its levels, as a text has fewer of them than
characters. -/
def skip : Reader Unit := fun cs => discard (treeWith .formal cs.length) cs

/-- What stands next, where another value is expected. A scalar is read to its end; an array or
object is known by its bracket. -/
def found : Reader Found := do
  match ← peekToken with
  | '[' => return .sequence
  | '\x7b' => return .map
  | c => return (← scalar .exact c).found

/-- Fails because the next value is not of the expected type. -/
def failType {α : Type} (expected : String) : Reader α := do
  throw (.unfit (.type (← found) expected))

end Reader

/-- Reads a text as a JSON value. -/
def ofText (text : String) : Except Fault Json := (Reader.tree maxDepth).readAll text

end PipelineCanvas.Json
