/-! Finite binary numbers of 64 bits. A double is a sign and a whole number of steps,
`significand * 2 ^ scale`, where one step is `2 ^ -1074`, the least positive double. The form is
unique, so equality of doubles is equality of fields and tells the two zeros apart.

There are no infinities. What arithmetic would give as one is `none` here, and whoever asks for a
double has to say what becomes of that. -/
namespace PipelineCanvas

/-- A finite number of the 64-bit binary format: `significand * 2 ^ scale` steps of `2 ^ -1074`,
with a sign. -/
structure Double where
  negative : Bool
  significand : Nat
  scale : Nat
  significand_lt : significand < 1 <<< 53
  scale_le : scale ≤ 2045
  /-- Above the least scale the significand has all its 53 bits. -/
  full : scale = 0 ∨ 1 <<< 52 ≤ significand
deriving DecidableEq

/-- The quotient rounded to the nearest whole number, and to the even one of two that are equally
near. -/
def roundDiv (n d : Nat) : Nat :=
  if 2 * (n % d) < d ∨ (2 * (n % d) = d ∧ n / d % 2 = 0) then n / d else n / d + 1

namespace Double

/-- Zero with a sign. -/
def zero (negative : Bool) : Double :=
  ⟨negative, 0, 0, by decide, by decide, .inl rfl⟩

instance : Inhabited Double := ⟨zero false⟩

/-- The double with these parts, if they are the parts of one. -/
def ofParts? (negative : Bool) (significand scale : Nat) : Option Double :=
  if h : significand < 1 <<< 53 ∧ scale ≤ 2045 ∧ (scale = 0 ∨ 1 <<< 52 ≤ significand) then
    some ⟨negative, significand, scale, h.1, h.2.1, h.2.2⟩
  else none

/-- The double nearest to `n / d`, or `none` where that lies beyond the greatest one. The scale is
the least that leaves at most 53 bits before rounding; rounding up can reach a 54th, which moves
into the scale. -/
def nearest? (negative : Bool) (n d : Nat) : Option Double :=
  let steps := n <<< 1074
  let scale := (steps / d).log2 + 1 - 53
  let significand := roundDiv steps (d <<< scale)
  if significand = 1 <<< 53 then ofParts? negative (1 <<< 52) (scale + 1)
  else ofParts? negative significand scale

/-- The number of steps of `2 ^ -1074`, without the sign. -/
def steps (x : Double) : Nat := x.significand <<< x.scale

/-- The product rounded to the nearest double, or `none` where that lies beyond the greatest one. -/
def times? (x y : Double) : Option Double :=
  nearest? (x.negative != y.negative) (x.steps * y.steps) (1 <<< 2148)

/-- The quotient by a number that is not zero, rounded to the nearest double, or `none` where that
lies beyond the greatest one. -/
def over? (x y : Double) : Option Double :=
  nearest? (x.negative != y.negative) x.steps y.steps

/-- Whether two doubles are the same number: the two zeros are. -/
def same (x y : Double) : Bool := x == y || (x.significand == 0 && y.significand == 0)

theorem same_refl (x : Double) : x.same x = true := by
  simp [same]

end Double
end PipelineCanvas
