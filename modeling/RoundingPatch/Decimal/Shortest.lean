import RoundingPatch.Binary.Basic
import RoundingPatch.Decimal.Notation
/-!
# Shortest decimals

The decimals that round to a floating-point number form a span around it. The shortest decimal of
a number is the one in its span with the fewest digits; of several it is the nearest, and of two
equally near ones the larger. A grid of decimals with a fixed exponent has a point in the span only
if one of the two neighbours of the number on that grid lies in it, so grids are tried from the
coarsest on until a neighbour does.
-/

namespace RoundingPatch

/-! ### Spans -/

/-- The numbers from `low` to `high`, in units of `2 ^ exponent`, that round to `value`. -/
structure Span where
  low : Nat
  value : Nat
  high : Nat
  exponent : Int
  /-- Whether the ends belong to the span. -/
  closed : Bool
  deriving DecidableEq

/-- The span of the positive number `mantissa * 2 ^ exponent`, in quarters of its last place. Half
a place lies on either side, but only a quarter below a power of two, where numbers are twice as
dense. The ends round to an even mantissa; below the full mantissas they always count as in. -/
def BinaryFormat.span (f : BinaryFormat) (mantissa : Nat) (exponent : Int) : Span where
  low := 4 * mantissa - if mantissa = f.fullMantissa then 1 else 2
  value := 4 * mantissa
  high := 4 * mantissa + 2
  exponent := exponent - 2
  closed := mantissa % 2 == 0 || mantissa < f.fullMantissa

namespace Span

/-- The number of times that a step of the grid `10 ^ p` goes into a place of the span, as the
numerator. -/
def places (s : Span) (p : Int) (n : Nat) : Nat :=
  n * Nat.pow 2 s.exponent.toNat * Nat.pow 10 (-p).toNat

/-- The denominator that belongs to `places`. -/
def step (s : Span) (p : Int) : Nat :=
  Nat.pow 2 (-s.exponent).toNat * Nat.pow 10 p.toNat

/-- Whether `d * 10 ^ p` lies in the span. -/
def contains (s : Span) (d : Nat) (p : Int) : Bool :=
  let n := d * s.step p
  if s.closed then s.places p s.low ≤ n && n ≤ s.places p s.high
  else s.places p s.low < n && n < s.places p s.high

/-- The point of the grid `10 ^ p` in the span that is nearest to the number. -/
def nearest? (s : Span) (p : Int) : Option Nat :=
  let d := s.places p s.value / s.step p
  match s.contains d p, s.contains (d + 1) p with
  -- Both neighbours are in the span: the nearer one, the upper if neither is.
  | true, true =>
    if 2 * s.places p s.value < (2 * d + 1) * s.step p then some d else some (d + 1)
  | true, false => some d
  | false, true => some (d + 1)
  | false, false => none

end Span

/-! ### Decimals -/

/-- The number `coefficient * 10 ^ exponent`. -/
structure Decimal where
  coefficient : Nat
  exponent : Int
  deriving DecidableEq

namespace Decimal

/-- The digits of the coefficient. -/
def digits (d : Decimal) : List Char :=
  Nat.toDigits 10 d.coefficient

/-- The place of the point, counted from the first digit. -/
def point (d : Decimal) : Int :=
  d.digits.length + d.exponent

end Decimal

/-- The exponent of a grid so fine that it has a point in every span. -/
def Span.finest : Int := -343

/-- The nearest point on the coarsest of the grids from `10 ^ (finest + n)` on that has one. -/
def Span.search (s : Span) : Nat → Decimal
  | 0 => ⟨(s.nearest? finest).getD 0, finest⟩
  | n + 1 =>
    match s.nearest? (finest + (n + 1)) with
    | some d => ⟨d, finest + (n + 1)⟩
    | none => s.search n

/-- The exponent of a grid with no point in the span or below it but zero: its step has more digits
than the end of the span. -/
def Span.coarsest (s : Span) : Nat :=
  (Nat.toDigits 10 (s.places 0 s.high / s.step 0)).length

/-- The shortest decimal in a span. -/
def Span.shortest (s : Span) : Decimal :=
  s.search (s.coarsest + finest.natAbs)

/-- The shortest decimal of a positive number of a format. -/
def BinaryFormat.shortest (f : BinaryFormat) (mantissa : Nat) (exponent : Int) : Decimal :=
  (f.span mantissa exponent).shortest

end RoundingPatch
