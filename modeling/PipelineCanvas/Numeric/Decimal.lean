import PipelineCanvas.Numeric.Double
/-! Decimal numbers and their text. A double is written as the decimal with the fewest digits that
is nearer to it than to any other double, and of those the one nearest to it.

A decimal goes over into a double in two ways. `Decimal.toDouble?` rounds once, to the nearest
double; the writer is measured by it. `Decimal.approximate?` rounds its digits and the power of ten
first and then their product or quotient; it is quicker, and texts are read with it. The two agree
on most decimals, but not on all, and so a double may be read from its own text as a neighbour. -/
namespace PipelineCanvas

/-- The number `digits * 10 ^ exponent`. -/
structure Decimal where
  digits : Nat
  exponent : Int
deriving DecidableEq

/-- The digits of a number, the greatest first. -/
def decimalDigits (n : Nat) : List Char := Nat.toDigits 10 n

/-- The number that a list of digits stands for. -/
def digitsValue (ds : List Char) : Nat := Nat.ofDigitChars 10 ds 0

namespace Decimal

/-- The exponents that are written without an `e`: those of a first digit between two bounds. -/
structure Positional where
  least : Int
  greatest : Int

/-- The double nearest to the decimal, or `none` where it is too great for one. Far from the range
of doubles the answer is known without the power of ten: with an exponent above 310 every number
but zero is too great, and `10 ^ -k` is less than `2 ^ (-3 * k)`. -/
def toDouble? (negative : Bool) (d : Decimal) : Option Double :=
  if d.digits = 0 then some (.zero negative)
  else match d.exponent with
    | .ofNat e => if 310 < e then none else Double.nearest? negative (d.digits * Nat.pow 10 e) 1
    | .negSucc e =>
      if d.digits.log2 + 1077 < 3 * (e + 1) then some (.zero negative)
      else Double.nearest? negative d.digits (Nat.pow 10 (e + 1))

/-- The double nearest to `10 ^ e`, for an `e` up to 308. -/
def powerOfTen (e : Nat) : Double := (Double.nearest? false (Nat.pow 10 e) 1).getD default

/-- The double times `10 ^ e`, or `none` where that is too great. The greatest power of ten that is
a double is `10 ^ 308`, and with a greater one only zero is not too great. -/
def raise? (x : Double) (e : Nat) : Option Double :=
  if e ≤ 308 then x.times? (powerOfTen e) else if x.significand = 0 then some x else none

/-- The double over `10 ^ 308`, as often as there are rounds, and then over `10 ^ e`. Zero stays
zero without the rounds. -/
def lower? (x : Double) : (rounds e : Nat) → Option Double
  | 0, e => x.over? (powerOfTen e)
  | rounds + 1, e => do
    if x.significand = 0 then return x
    lower? (← x.over? (powerOfTen 308)) rounds e

/-- The double times a power of ten, which may be negative. -/
def shift? (x : Double) : Int → Option Double
  | .ofNat e => raise? x e
  | .negSucc e => lower? x (e / 308) (e % 308 + 1)

/-- A double near the decimal, or `none` where there is a step on the way that is too great for one.
The digits are rounded first, and then their product with the power of ten or their quotient by it,
which is itself rounded. -/
def approximate? (negative : Bool) (d : Decimal) : Option Double := do
  let x ← Double.nearest? false d.digits 1
  let y ← shift? x d.exponent
  return { y with negative }

/-- The two decimals with their last digit at `10 ^ (cut - 1074)` on either side of
`value * 10 ^ -1074`, the nearer first and of two equally near ones the even one. -/
def neighbours (value cut : Nat) : List Decimal :=
  let unit := Nat.pow 10 cut
  let below : Decimal := ⟨value / unit, cut - 1074⟩
  let above : Decimal := ⟨value / unit + 1, cut - 1074⟩
  if roundDiv value unit = below.digits then [below, above] else [above, below]

/-- The decimal of fewest digits to which `x` is the nearest double, and the nearest to `x` of
those. A step is `5 ^ 1074 * 10 ^ -1074`, so every double has an exact decimal; 17 digits always
suffice. -/
def ofDouble (x : Double) : Decimal :=
  let value := x.steps * Nat.pow 5 1074
  let length := (decimalDigits value).length
  let candidates := (List.range 17).flatMap fun n => neighbours value (length - (n + 1))
  -- the exact decimal stands by, but one of the candidates always has `x` as its nearest
  (candidates.find? fun d => d.toDouble? x.negative == some x).getD ⟨value, -1074⟩

/-- Digits with a point after the first `n + 1`, and at least one digit after the point. -/
def pointAfter (n : Nat) (ds : List Char) : List Char :=
  let fraction := ds.drop (n + 1)
  ds.take (n + 1) ++ List.replicate (n + 1 - ds.length) '0' ++
    '.' :: if fraction.isEmpty then ['0'] else fraction

/-- One digit before the point, the point only where digits follow, and a signed exponent. -/
def scientific (ds : List Char) (e : Int) : List Char :=
  let fraction := ds.drop 1
  ds.take 1 ++ (if fraction.isEmpty then [] else '.' :: fraction) ++
    'e' :: (if e < 0 then '-' else '+') :: decimalDigits e.natAbs

/-- The text of a decimal, without zeros at the end of its digits. -/
def text (positional : Positional) (d : Decimal) : List Char :=
  if d.digits = 0 then ['0', '.', '0']
  else
    let all := decimalDigits d.digits
    let ds := (all.reverse.dropWhile (· == '0')).reverse
    let e := d.exponent + all.length - 1
    if positional.least ≤ e ∧ e ≤ positional.greatest then
      match e with
      | .ofNat n => pointAfter n ds
      | .negSucc n => '0' :: '.' :: List.replicate n '0' ++ ds
    else scientific ds e

end Decimal

/-- The text of a double, with its sign. -/
def Double.text (positional : Decimal.Positional) (x : Double) : List Char :=
  (if x.negative then ['-'] else []) ++ (Decimal.ofDouble x).text positional

end PipelineCanvas
