/-!
# Binary floating-point numbers

A format fixes how many bits hold the fraction and how many the exponent. Bits of a format denote
a number that is not a number, an infinity, or a signed mantissa times a power of two
(`BinaryFormat.unpack`). `Binary64` is the format that values to be formatted come in.
-/

namespace RoundingPatch

/-- How the bits of a floating-point number are divided. -/
structure BinaryFormat where
  fractionBits : Nat
  exponentBits : Nat
  deriving DecidableEq

/-- What a floating-point number stands for. -/
inductive Binary
  | nan
  | infinite (negative : Bool)
  /-- The number `mantissa * 2 ^ exponent`, negated if `negative`. -/
  | finite (negative : Bool) (mantissa : Nat) (exponent : Int)
  deriving DecidableEq

namespace BinaryFormat

/-- Numbers of 32 bits. -/
def binary32 : BinaryFormat := ⟨23, 8⟩

/-- Numbers of 64 bits. -/
def binary64 : BinaryFormat := ⟨52, 11⟩

/-- The least mantissa of a number that is not too small to have a full one. -/
def fullMantissa (f : BinaryFormat) : Nat :=
  Nat.pow 2 f.fractionBits

/-- The exponent of the smallest numbers. -/
def leastExponent (f : BinaryFormat) : Int :=
  2 - Nat.pow 2 (f.exponentBits - 1) - f.fractionBits

/-- The number that some bits denote. -/
def unpack (f : BinaryFormat) (bits : Nat) : Binary :=
  let fraction := bits % f.fullMantissa
  let biased := bits / f.fullMantissa % Nat.pow 2 f.exponentBits
  let negative := bits.testBit (f.fractionBits + f.exponentBits)
  if biased = Nat.pow 2 f.exponentBits - 1 then
    if fraction = 0 then .infinite negative else .nan
  else if biased = 0 then .finite negative fraction f.leastExponent
  else .finite negative (f.fullMantissa + fraction) (f.leastExponent + (biased - 1))

end BinaryFormat

/-! ### Numbers of 64 bits -/

/-- A floating-point number of 64 bits. -/
structure Binary64 where
  bits : UInt64
  deriving DecidableEq

namespace Binary64

/-- What a number stands for. -/
def unpack (v : Binary64) : Binary :=
  BinaryFormat.binary64.unpack v.bits.toNat

/-- The bit of the sign. -/
def signBit : UInt64 := 0x8000000000000000

/-- Whether the sign is a minus, also in front of a zero. -/
def isNegative (v : Binary64) : Bool :=
  v.bits &&& signBit != 0

/-- A number without its sign. -/
def abs (v : Binary64) : Binary64 :=
  ⟨v.bits &&& ~~~signBit⟩

end Binary64

end RoundingPatch
