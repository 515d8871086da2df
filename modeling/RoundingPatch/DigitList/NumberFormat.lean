import RoundingPatch.DigitList.Basic
/-!
# Number formats

Numbers with a limited number of digits behind the point, as readers of English expect them: at
least one digit before the point, commas between groups of three if wanted, and no zeros at the
end. Whether the digits go up at the end is left to whoever answers the question.
-/

namespace RoundingPatch

/-- A number format. -/
structure NumberFormat where
  /-- A negative limit counts as zero. -/
  maximumFractionDigits : Int32 := 3
  /-- Whether there are commas. -/
  grouping : Bool := true
  roundingMode : RoundingMode := .halfEven
  deriving DecidableEq

namespace NumberFormat

/-- The number of digits in a group. -/
def groupSize : Nat := 3

/-- The text for what is not a number. -/
def nan : String := "\uFFFD"

/-- The text for infinity. -/
def infinity : String := "\u221E"

/-- Digits with a comma before every full group, counted from the end. -/
def grouped : List Char → List Char
  | [] => []
  | c :: rest =>
    if rest ≠ [] ∧ rest.length % groupSize = 0 then c :: ',' :: grouped rest else c :: grouped rest

/-- The digits of a list in use. -/
def digitChars (l : DigitList) : List Char :=
  l.significant.map fun d => Char.ofNat d.toNat

/-- The digits before the point. -/
def integerDigits (l : DigitList) : List Char :=
  let width := l.decimalAt.toNatClampNeg
  let digits := (digitChars l).take width
  if width = 0 then ['0'] else digits ++ List.replicate (width - digits.length) '0'

/-- The point and the digits behind it, if there are any. -/
def fractionPart (f : NumberFormat) (l : DigitList) : List Char :=
  match (digitChars l).drop l.decimalAt.toNatClampNeg with
  | [] => []
  | digits =>
    '.' :: (List.replicate (-l.decimalAt).toNatClampNeg '0' ++ digits).take
      f.maximumFractionDigits.toNatClampNeg

/-- A rounded digit list as text. -/
def text (f : NumberFormat) (l : DigitList) : List Char :=
  let whole := integerDigits l
  (if f.grouping then grouped whole else whole) ++ f.fractionPart l

/-- A number as text; `ask` decides whether its digits go up. -/
def format [Monad m] (f : NumberFormat) (ask : RoundingQuestion → m Bool) (v : Binary64) :
    m String :=
  let signed (text : List Char) := Decimal.signed v.isNegative text
  match v.unpack with
  | .nan => pure nan
  | .infinite _ => pure (signed infinity.toList)
  | .finite .. => do
    let l : DigitList := { roundingMode := f.roundingMode }
    let rounding := l.set v.isNegative v.abs (max f.maximumFractionDigits 0) true
    return signed (f.text (← rounding.resolve ask))

end NumberFormat

end RoundingPatch
