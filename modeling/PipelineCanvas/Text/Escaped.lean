import PipelineCanvas.Text.Printable
/-! Text shown between quotes in a message, such as `"a\n"`: one line, with an escape for every
character that would not show. This is for readers of messages and no format that is read back; how
strings stand in a JSON text is another matter, and in `PipelineCanvas.Json.Quoted`. -/
namespace PipelineCanvas.Text

/-- A character as it stands between quotes. -/
def escapedChar (c : Char) : List Char :=
  if c = '"' then ['\\', '"']
  else if c = '\\' then ['\\', '\\']
  else if c = '\n' then ['\\', 'n']
  else if c = '\r' then ['\\', 'r']
  else if c = '\t' then ['\\', 't']
  else if c.toNat = 0 then ['\\', '0']
  else if shows c then [c]
  else ['\\', 'u', '\x7b'] ++ Nat.toDigits 16 c.toNat ++ ['\x7d']

/-- The text between quotes. -/
def escaped (s : String) : String :=
  String.ofList (['"'] ++ s.toList.flatMap escapedChar ++ ['"'])

end PipelineCanvas.Text
