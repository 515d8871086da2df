/-!
# Natural numbers in limbs

A natural number as a list of digits in base `2 ^ 32`, least significant first. `Limbs.toNat` says
which number a list denotes. Every operation works limb by limb in words of 64 bits, computes the
same as its namesake on natural numbers, and keeps numbers canonical: the last limb is not zero.
Canonical numbers are equal only if their limbs are, and `Limbs.compare` orders them by their
length first and then from the top.
-/

namespace RoundingPatch

/-- A natural number in base `2 ^ 32`, least significant limb first. -/
abbrev Limbs := List UInt32

namespace Limbs

/-- The number that some limbs denote. -/
def toNat : Limbs → Nat
  | [] => 0
  | limb :: rest => limb.toNat + Nat.pow 2 32 * toNat rest

/-- Whether no limb is a leading zero. -/
def IsCanonical (n : Limbs) : Prop :=
  n.getLast? ≠ some 0

/-- A number without its leading zeros. -/
def trim : Limbs → Limbs
  | [] => []
  | limb :: rest =>
    match trim rest with
    | [] => if limb = 0 then [] else [limb]
    | upper => limb :: upper

/-- The limbs of a word of 64 bits. -/
def ofUInt64 (v : UInt64) : Limbs :=
  trim [v.toUInt32, (v >>> 32).toUInt32]

/-! ### Products -/

/-- A carry as the limb above all others. -/
def ofCarry (carry : UInt32) : Limbs :=
  if carry = 0 then [] else [carry]

/-- The limbs of `n * m + carry`, perhaps with leading zeros. -/
def mulAddCarry (m : UInt32) : UInt32 → Limbs → Limbs
  | carry, [] => ofCarry carry
  | carry, limb :: rest =>
    let v := limb.toUInt64 * m.toUInt64 + carry.toUInt64
    v.toUInt32 :: mulAddCarry m (v >>> 32).toUInt32 rest

/-- The number `n * m + add`. -/
def mulAdd (n : Limbs) (m add : UInt32) : Limbs :=
  trim (mulAddCarry m add n)

/-- The exponent of the largest power of five that is a limb. -/
def limbFives : Nat := 13

/-- The number `n * 5 ^ k`, one limb's worth of fives at a time. -/
def mulPow5 (n : Limbs) (k : Nat) : Limbs :=
  let whole := Nat.repeat (mulAdd · (UInt32.ofNat (Nat.pow 5 limbFives)) 0) (k / limbFives) n
  if k % limbFives = 0 then whole else mulAdd whole (UInt32.ofNat (Nat.pow 5 (k % limbFives))) 0

/-- The limbs moved up by fewer than 32 bits, with a carry from below. -/
def shiftCarry (bits : UInt32) : UInt32 → Limbs → Limbs
  | carry, [] => ofCarry carry
  | carry, limb :: rest =>
    ((limb <<< bits) ||| carry) :: shiftCarry bits (limb >>> (32 - bits)) rest

/-- The number `n * 2 ^ k`: whole limbs of zeros below, and the rest of the bits by carries. -/
def mulPow2 (n : Limbs) (k : Nat) : Limbs :=
  if n.isEmpty then []
  else
    let shifted := if k % 32 = 0 then n else shiftCarry (UInt32.ofNat (k % 32)) 0 n
    List.replicate (k / 32) 0 ++ shifted

/-- The number `n * 10 ^ k`. -/
def mulPow10 (n : Limbs) (k : Nat) : Limbs :=
  mulPow2 (mulPow5 n k) k

/-! ### Quotients -/

/-- The quotient, perhaps with leading zeros, and the remainder of a division from the top. -/
def divCarry (d : UInt32) : Limbs → Limbs × UInt64
  | [] => ([], 0)
  | limb :: rest =>
    let (quotient, remainder) := divCarry d rest
    let v := (remainder <<< 32) ||| limb.toUInt64
    ((v / d.toUInt64).toUInt32 :: quotient, v % d.toUInt64)

/-- The quotient `n / d` and the remainder. -/
def divMod (n : Limbs) (d : UInt32) : Limbs × UInt32 :=
  let (quotient, remainder) := divCarry d n
  (trim quotient, remainder.toUInt32)

/-! ### Decimal digits -/

/-- Ten to the ninth, the largest power of ten that is a limb. -/
def billion : UInt32 := 1000000000

/-- The digits in base `10 ^ 9`, least significant first, at most `fuel` of them. -/
def billions : Nat → Limbs → List UInt32
  | 0, _ => []
  | fuel + 1, n =>
    if n.isEmpty then []
    else
      let (quotient, remainder) := divMod n billion
      remainder :: billions fuel quotient

/-- Nine decimal digits, with zeros in front. -/
def nineDigits (v : UInt32) : List Char :=
  let digits := Nat.toDigits 10 v.toNat
  List.replicate (9 - digits.length) '0' ++ digits

/-- The decimal digits of a number, most significant first. Two digits in base `10 ^ 9` are enough
for each limb. -/
def decimalDigits (n : Limbs) : List Char :=
  match (billions (2 * n.length) n).reverse with
  | [] => ['0']
  | top :: rest => Nat.toDigits 10 top.toNat ++ rest.flatMap nineDigits

/-! ### Order -/

/-- The order of canonical numbers: the longer is the larger, and of two equally long ones the
topmost limb that differs decides. -/
def compare : Limbs → Limbs → Ordering
  | [], [] => .eq
  | [], _ :: _ => .lt
  | _ :: _, [] => .gt
  | a :: n, b :: m => (compare n m).then (Ord.compare a b)

end Limbs

end RoundingPatch
