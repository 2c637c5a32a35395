import PipelineCanvas.Json.Reader
/-! Strings as they stand in a JSON text. `quote` escapes what must be escaped and nothing else;
the reader accepts every escape of the grammar. A character beyond the first `2 ^ 16` may be escaped
as two code units, a surrogate pair. Where the characters of a string matter, half of a pair is
refused (`Reader.codePoint`); where a string is only passed over, it is not (`Reader.codeUnit`). -/
namespace PipelineCanvas.Json

/-- The digits of a code point below `2 ^ 16` after `\u`. -/
def hexDigits (n : Nat) : List Char :=
  [n / 4096, n / 256, n / 16, n].map fun d => Nat.digitChar (d % 16)

/-- A character as it stands between quotes. -/
def quotedChar (c : Char) : List Char :=
  if c = '"' then ['\\', '"']
  else if c = '\\' then ['\\', '\\']
  else if c.toNat = 8 then ['\\', 'b']
  else if c.toNat = 12 then ['\\', 'f']
  else if c = '\n' then ['\\', 'n']
  else if c = '\r' then ['\\', 'r']
  else if c = '\t' then ['\\', 't']
  else if c.toNat < 32 then '\\' :: 'u' :: hexDigits c.toNat
  else [c]

/-- A string between quotes. -/
def quote (s : String) : List Char := '"' :: s.toList.flatMap quotedChar ++ ['"']

namespace Reader

def hexValue? (c : Char) : Option Nat :=
  if c.isDigit then some (c.toNat - '0'.toNat)
  else if 'a' ≤ c ∧ c ≤ 'f' then some (c.toNat - 'a'.toNat + 10)
  else if 'A' ≤ c ∧ c ≤ 'F' then some (c.toNat - 'A'.toNat + 10)
  else none

/-- The value of four digits. Fewer than four bytes of text are too few for them; else what stands
there must be digits. -/
def hex4 : Reader Nat := fun cs =>
  match cs.take 4 |>.mapM hexValue? with
  | some [a, b, c, d] => .ok (((a * 16 + b) * 16 + c) * 16 + d, cs.drop 4)
  | _ => .error (if (String.ofList (cs.take 4)).utf8ByteSize < 4 then .ended else .malformed)

/-- The character of an escape, after `\u`: one code unit, or two that are a surrogate pair. -/
def codePoint : Reader Char := do
  let high ← hex4
  if 0xDC00 ≤ high ∧ high ≤ 0xDFFF then throw .malformed
  else if 0xD800 ≤ high ∧ high ≤ 0xDBFF then
    -- the second unit of the pair has to follow at once
    expect '\\'
    expect 'u'
    let low ← hex4
    if 0xDC00 ≤ low ∧ low ≤ 0xDFFF then
      return Char.ofNat ((high - 0xD800) * 0x400 + (low - 0xDC00) + 0x10000)
    else throw .malformed
  else return Char.ofNat high

/-- A code unit after `\u`, of which only the form is checked. -/
def codeUnit : Reader Char := do
  return Char.ofNat (← hex4)

/-- The character of an escape, after the backslash. -/
def escape (unicode : Reader Char) : Reader Char := do
  match ← next with
  | '"' => return '"'
  | '\\' => return '\\'
  | '/' => return '/'
  | 'b' => return Char.ofNat 8
  | 'f' => return Char.ofNat 12
  | 'n' => return '\n'
  | 'r' => return '\r'
  | 't' => return '\t'
  | 'u' => unicode
  | _ => throw .malformed

/-- Takes another character of a string, the last one read at the head, or the closing quote. -/
def stringStep (unicode : Reader Char) (read : List Char) : Reader (List Char ⊕ String) := do
  let c ← next
  if c = '"' then return .inr (String.ofList read.reverse)
  else if c = '\\' then return .inl ((← escape unicode) :: read)
  else if c.toNat < 32 then throw .malformed
  else return .inl (c :: read)

/-- A string from its opening quote to its closing one, with a reader for what follows `\u`. -/
def quotedWith (unicode : Reader Char) : Reader String := do
  expect '"'
  loop (stringStep unicode) []

/-- A string from its opening quote to its closing one. -/
def quoted : Reader String := quotedWith codePoint

end Reader
end PipelineCanvas.Json
