import PipelineCanvas.Numeric.Decimal
/-! JSON values as a text spells them. An object keeps its members in text order, repeated keys
included; what such a tree stands for, with ordered keys, is in `PipelineCanvas.Json.Value`.
Whole numbers of 64 bits and doubles are different numbers, `1` is not `1.0`. -/
namespace PipelineCanvas

/-- A whole number of 64 bits, signed or unsigned: from `-2 ^ 63` on and below `2 ^ 64`. -/
structure Whole where
  val : Int
  least_le : -0x8000000000000000 ≤ val
  lt_bound : val < 0x10000000000000000
deriving DecidableEq

/-- A natural number as a whole number. From `2 ^ 64` on it is the greatest one; an identifier
taken from a text never gets there. -/
def Whole.ofNat (n : Nat) : Whole := ⟨min n 0xffffffffffffffff, by omega, by omega⟩

/-- The double nearest to a whole number, which is never too great for one. -/
def Whole.toDouble (n : Whole) : Double :=
  ((Decimal.mk n.val.natAbs 0).toDouble? (n.val < 0)).getD default

/-- The text of a whole number. -/
def Whole.text (n : Whole) : List Char :=
  (if n.val < 0 then ['-'] else []) ++ decimalDigits n.val.natAbs

/-- A number of a JSON text: whole where the text has neither fraction nor exponent and the number
has 64 bits, else a double. -/
inductive Number where
  | whole (n : Whole)
  | double (x : Double)
deriving DecidableEq

namespace Number

/-- Doubles are written without an exponent from `0.00001` up to and without `1e+16`. -/
def positional : Decimal.Positional := ⟨-5, 15⟩

def text : Number → List Char
  | .whole n => n.text
  | .double x => x.text positional

/-- The number as a double. -/
def toDouble : Number → Double
  | .whole n => n.toDouble
  | .double x => x

/-- Whether two numbers of one sort are the same number. -/
def same : Number → Number → Bool
  | .whole m, .whole n => m == n
  | .double x, .double y => x.same y
  | _, _ => false

theorem same_refl (n : Number) : n.same n = true := by
  cases n with
  | whole n => exact beq_self_eq_true n
  | double x => exact x.same_refl

end Number

/-- A JSON value, its object members in text order. -/
inductive Json where
  | null
  | bool (b : Bool)
  | number (n : Number)
  | string (s : String)
  | array (items : List Json)
  | object (members : List (String × Json))

namespace Json

instance : Inhabited Json := ⟨.null⟩

/-- The natural number as a JSON value. -/
def ofNat (n : Nat) : Json := .number (.whole (.ofNat n))

mutual

/-- Whether two values are the same up to the sign of zeros. -/
def same : Json → Json → Bool
  | .null, .null => true
  | .bool a, .bool b => a == b
  | .number m, .number n => m.same n
  | .string s, .string t => s == t
  | .array as, .array bs => sameItems as bs
  | .object as, .object bs => sameMembers as bs
  | _, _ => false

def sameItems : List Json → List Json → Bool
  | [], [] => true
  | a :: as, b :: bs => a.same b && sameItems as bs
  | _, _ => false

def sameMembers : List (String × Json) → List (String × Json) → Bool
  | [], [] => true
  | (k, a) :: as, (l, b) :: bs => k == l && a.same b && sameMembers as bs
  | _, _ => false

end

mutual

theorem same_refl : ∀ t : Json, t.same t = true
  | .null => rfl
  | .bool b => beq_self_eq_true b
  | .number n => n.same_refl
  | .string s => beq_self_eq_true s
  | .array items => sameItems_refl items
  | .object members => sameMembers_refl members

theorem sameItems_refl : ∀ items : List Json, sameItems items items = true
  | [] => rfl
  | t :: ts => by simp [sameItems, same_refl t, sameItems_refl ts]

theorem sameMembers_refl : ∀ members : List (String × Json), sameMembers members members = true
  | [] => rfl
  | (k, t) :: ms => by simp [sameMembers, same_refl t, sameMembers_refl ms]

end

end Json
end PipelineCanvas
