import RoundingPatch.Decimal.Limbs
import RoundingPatch.Decimal.Shortest
/-!
# Floating-point numbers as text

Three ways to write a number: exactly, with all its digits (`Binary64.exactText`); by its shortest
digits as reports show them (`Binary64.shortText`); and by its shortest digits as diagnostics show
constants (`BinaryFormat.debugText`).
-/

namespace RoundingPatch

open Decimal

/-! ### Exact values -/

/-- A mantissa and its exponent with the factors of two moved out of the mantissa, as long as the
exponent is negative and for at most as many steps as it says. -/
def reduceTwos : Nat → Nat → Nat × Nat
  | mantissa, 0 => (mantissa, 0)
  | mantissa, halvings + 1 =>
    if mantissa % 2 = 0 then reduceTwos (mantissa / 2) halvings else (mantissa, halvings + 1)

/-- The exact value of the positive number `mantissa * 2 ^ exponent`. A whole number has its digits
only. A fraction has the fewest digits that make it exact, in scientific notation if its first
digit stands more than six places behind the point. -/
def exactMagnitude (mantissa : Nat) (exponent : Int) : List Char :=
  if 0 ≤ exponent then
    ((Limbs.ofUInt64 (UInt64.ofNat mantissa)).mulPow2 exponent.toNat).decimalDigits
  else
    let (odd, places) := reduceTwos mantissa (-exponent).toNat
    let digits := ((Limbs.ofUInt64 (UInt64.ofNat odd)).mulPow5 places).decimalDigits
    let point : Int := digits.length - places
    if point - 1 < -6 then scientific false 'E' digits point else positional false digits point

/-- The exact value of a number. -/
def Binary64.exactText (v : Binary64) : String :=
  match v.unpack with
  | .nan => "NaN"
  | .infinite negative => signed negative "inf".toList
  | .finite _ 0 _ => "0"
  | .finite negative mantissa exponent => signed negative (exactMagnitude mantissa exponent)

/-! ### Shortest digits -/

/-- The shortest digits of a number in reports: positional from a thousandth on and below ten
million, otherwise scientific, and always with a digit behind the point. -/
def Binary64.shortText (v : Binary64) : String :=
  match v.unpack with
  | .nan => "NaN"
  | .infinite negative => signed negative "Infinity".toList
  | .finite negative 0 _ => signed negative "0.0".toList
  | .finite negative mantissa exponent =>
    let d := BinaryFormat.binary64.shortest mantissa exponent
    let isPositional := -3 < d.point ∧ d.point ≤ 7
    signed negative
      (if isPositional then positional true d.digits d.point
        else scientific true 'E' d.digits d.point)

/-- The shortest digits of a number in diagnostics: positional from a ten-thousandth on and below
`10 ^ 16`, otherwise scientific. -/
def BinaryFormat.debugText (f : BinaryFormat) (bits : Nat) : String :=
  match f.unpack bits with
  | .nan => "NaN"
  | .infinite negative => signed negative "inf".toList
  | .finite negative 0 _ => signed negative "0.0".toList
  | .finite negative mantissa exponent =>
    let d := f.shortest mantissa exponent
    let isPositional := -4 < d.point ∧ d.point ≤ 16
    signed negative
      (if isPositional then positional true d.digits d.point
        else scientific false 'e' d.digits d.point)

end RoundingPatch
