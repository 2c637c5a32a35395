import PipelineCanvas.Json.Reader
/-! Numbers as they stand in a JSON text. A numeral is the parts of a number; what it is read as is
`Numeral.toNumber?`. Whole numbers of 64 bits are read exactly. Of any other number no more digits
count than have room in 64 bits (`Numeral.leading`), and of these the double is computed with more
than one rounding (`Decimal.approximate?`), so it need not be the nearest. -/
namespace PipelineCanvas.Json

/-- The parts of a number in a text. -/
structure Numeral where
  negative : Bool
  /-- The digits before the point. -/
  whole : List Char
  /-- The digits after the point, if there is one. -/
  fraction : Option (List Char)
  exponent : Option Int

namespace Numeral

/-- The digits without the point. -/
def digits (n : Numeral) : List Char := n.whole ++ n.fraction.getD []

/-- The numeral as a decimal, without its sign. -/
def decimal (n : Numeral) : Decimal :=
  ⟨digitsValue n.digits, n.exponent.getD 0 - (n.fraction.getD []).length⟩

/-- Takes digits as long as the number that they make, behind the digits of `value`, has 64 bits.
What is left over stands second. -/
def takeDigits : Nat → List Char → Nat × List Char
  | value, [] => (value, [])
  | value, c :: cs =>
    let more := 10 * value + (c.toNat - '0'.toNat)
    if more < 0x10000000000000000 then takeDigits more cs else (value, c :: cs)

/-- The decimal of as many digits as have room in 64 bits, without the sign. Digits that are left
over before the point count as places, and those after the point do not count. -/
def leading (n : Numeral) : Decimal :=
  let (whole, surplus) := takeDigits 0 n.whole
  let fraction := n.fraction.getD []
  let (digits, rest) := takeDigits whole fraction
  ⟨digits, n.exponent.getD 0 + surplus.length - (fraction.length - rest.length)⟩

/-- The whole number that the digits before the point stand for, with the sign. There is no
negative zero among the whole numbers. -/
def toWhole? (n : Numeral) : Option Whole :=
  let value := digitsValue n.whole
  if n.negative then
    if h : 0 < value ∧ value ≤ 0x8000000000000000 then some ⟨-value, by omega, by omega⟩ else none
  else if h : value < 0x10000000000000000 then some ⟨value, by omega, by omega⟩
  else none

/-- The whole number that the numeral is written as, or else the double. -/
def wholeOr (n : Numeral) (double : Option Double) : Option Number :=
  match n.fraction, n.exponent with
  | none, none =>
    match n.toWhole? with
    | some w => some (.whole w)
    | none => double.map .double
  | _, _ => double.map .double

/-- The number that a numeral is read as, or `none` where that is too great. -/
def toNumber? (n : Numeral) : Option Number := n.wholeOr (n.leading.approximate? n.negative)

end Numeral

namespace Reader

/-- At least one digit. -/
def digits : Reader (List Char) := do
  if (← peek).isDigit then takeWhile Char.isDigit
  else throw .malformed

/-- The digits before the point: a zero stands alone. -/
def wholeDigits : Reader (List Char) := do
  let ds ← digits
  if 1 < ds.length ∧ ds.head? = some '0' then throw .malformed
  return ds

/-- A signed exponent, after the `e`. -/
def exponent : Reader Int := do
  if ← eat ['-'] then return -(digitsValue (← digits))
  else
    discard (eat ['+'])
    return digitsValue (← digits)

/-- The point and the digits after it, if they are there. -/
def fractionPart : Reader (Option (List Char)) := do
  if ← eat ['.'] then some <$> digits else pure none

/-- The `e` and the exponent after it, if they are there. -/
def exponentPart : Reader (Option Int) := do
  if ← eat ['e', 'E'] then some <$> exponent else pure none

def numeral : Reader Numeral := do
  let negative ← eat ['-']
  let whole ← wholeDigits
  let fraction ← fractionPart
  let exponent ← exponentPart
  return { negative, whole, fraction, exponent }

/-- A number that a double can come near to. -/
def number : Reader Number := do
  match (← numeral).toNumber? with
  | some n => return n
  | none => throw .malformed

/-- A numeral of which only the form is checked, and which must be complete. -/
def anyNumeral : Reader Numeral := fun cs =>
  match numeral cs with
  | .error .ended => .error .malformed
  | r => r

end Reader
end PipelineCanvas.Json
