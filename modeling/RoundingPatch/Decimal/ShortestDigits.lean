import RoundingPatch.Decimal.Limbs
import RoundingPatch.Decimal.Shortest
/-!
# Shortest digits and what they leave out

Rounding a number by its shortest digits needs to know how those digits relate to the exact value.
`ShortestDigits` keeps, beside the digits, whether they lie above the exact value and whether they
equal it. Both are decided by multiplying the digits and the mantissa up to whole numbers.
-/

namespace RoundingPatch

/-- The shortest digits of the absolute value of a number. -/
structure ShortestDigits where
  /-- Decimal digits as ASCII, without zeros in front; none for zero. -/
  digits : List UInt8
  /-- The place of the point, counted from the first digit. -/
  decimalAt : Int32
  /-- Whether the digits are above the exact value. -/
  roundedUp : Bool
  /-- Whether the digits are the exact value. -/
  exact : Bool
  deriving DecidableEq

namespace ShortestDigits

/-- The value of some digits. -/
def coefficient (digits : List Char) : Limbs :=
  digits.foldl (fun n c => n.mulAdd 10 (UInt32.ofNat (c.toNat - '0'.toNat))) []

/-- How the number `0.digits * 10 ^ point` compares with `mantissa * 2 ^ exponent`. -/
def compareExact (digits : List Char) (point : Int) (mantissa : Nat) (exponent : Int) : Ordering :=
  let scale := point - digits.length
  let decimal := (coefficient digits).mulPow10 scale.toNat
  let binary := (Limbs.ofUInt64 (UInt64.ofNat mantissa)).mulPow10 (-scale).toNat
  (decimal.mulPow2 (-exponent).toNat).compare (binary.mulPow2 exponent.toNat)

/-- The digits of a number that has none: zero or what is not finite. -/
def none (decimalAt : Int32) (exact : Bool) : ShortestDigits where
  digits := []
  decimalAt
  roundedUp := false
  exact

/-- Digits printed for the number `mantissa * 2 ^ exponent`, and how they compare with it. -/
def ofPrinted (digits : List Char) (point : Int32) (mantissa : Nat) (exponent : Int) :
    ShortestDigits :=
  let order := compareExact digits point.toInt mantissa exponent
  { digits := digits.map fun c => UInt8.ofNat c.toNat
    decimalAt := point
    roundedUp := order == .gt
    exact := order == .eq }

/-- The shortest digits of a number. -/
def of (v : Binary64) : ShortestDigits :=
  match v.unpack with
  | .finite _ 0 _ => none 0 true
  | .finite _ mantissa exponent =>
    let d := BinaryFormat.binary64.shortest mantissa exponent
    ofPrinted d.digits (Int32.ofInt d.point) mantissa exponent
  | _ => none 1 false

end ShortestDigits

end RoundingPatch
