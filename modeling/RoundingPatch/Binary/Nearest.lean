import RoundingPatch.Binary.Basic
/-!
# Nearest floating-point numbers

The number of 64 bits that is nearest to a ratio, with ties going to the even mantissa, and the
sum of two numbers rounded the same way.
-/

namespace RoundingPatch.Binary64

/-- The quotient `a / b` rounded to the nearest natural number; a half goes to the even one. -/
def divToEven (a b : Nat) : Nat :=
  let q := a / b
  match compare (2 * (a % b)) b with
  | .lt => q
  | .gt => q + 1
  | .eq => q + q % 2

/-- The exponent of the last place of numbers as large as `a / b`: the one that leaves a mantissa
of 53 bits, but not below the least one. -/
def exponentOf (a b : Nat) : Int :=
  let guess : Int := (Nat.log2 a : Int) - Nat.log2 b - 52
  let tooLarge := a * Nat.pow 2 (-guess).toNat < Nat.pow 2 52 * (b * Nat.pow 2 guess.toNat)
  max (if tooLarge then guess - 1 else guess) (-1074)

/-- The number nearest to `a / b`. The bits of a number are its mantissa plus a multiple of `2 ^ 52`
for its exponent, so a mantissa that rounds up to 54 bits carries into the exponent. -/
def ofRatio (a b : Nat) : Binary64 :=
  let e := exponentOf a b
  let mantissa := divToEven (a * Nat.pow 2 (-e).toNat) (b * Nat.pow 2 e.toNat)
  let bits := (e + 1074).toNat * Nat.pow 2 52 + mantissa
  ⟨UInt64.ofNat (if a = 0 then 0 else min bits 0x7ff0000000000000)⟩

/-- A finite number that is not negative, in units of the least one. -/
def units (v : Binary64) : Nat :=
  match v.unpack with
  | .finite _ mantissa exponent => mantissa * Nat.pow 2 (exponent + 1074).toNat
  | _ => 0

/-- The sum of two finite numbers that are not negative. -/
def sum (v w : Binary64) : Binary64 :=
  ofRatio (v.units + w.units) (Nat.pow 2 1074)

end RoundingPatch.Binary64
