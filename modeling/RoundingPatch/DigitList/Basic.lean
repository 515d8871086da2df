import RoundingPatch.Bytes.Basic
import RoundingPatch.Decimal.ShortestDigits
import RoundingPatch.RoundingMode
/-!
# Digit lists

A digit list holds the decimal digits of a number while it is rounded for display. Rounding cuts
digits off and may have to know whether the kept digits go up by one. That is a question to
somebody else: `DigitList.set` either settles the list or asks one question and says what either
answer makes of the list.
-/

namespace RoundingPatch

/-- A number in decimal, `0.d₁d₂… * 10 ^ decimalAt`, where the digits are the first `count` ones. -/
structure DigitList where
  /-- The digits as ASCII; those after the first `count` mean nothing. -/
  digits : Bytes := []
  count : Nat := 0
  decimalAt : Int32 := 0
  isNegative : Bool := false
  roundingMode : RoundingMode
  deriving DecidableEq

/-- Whether the digits before `place` go up by one when those from `place` on are dropped. -/
structure RoundingQuestion where
  list : DigitList
  place : Int32
  /-- Whether the digits lie above the value they stand for. -/
  alreadyRounded : Bool
  /-- Whether the digits are the value they stand for. -/
  exact : Bool
  deriving DecidableEq

/-- What becomes of a list that is rounded. -/
inductive Rounding
  | settled (l : DigitList)
  /-- The answer decides. -/
  | asks (q : RoundingQuestion) (answered : Bool → DigitList)

/-- Puts the question, if there is one, and takes the list that the answer leads to. -/
def Rounding.resolve [Monad m] (ask : RoundingQuestion → m Bool) : Rounding → m DigitList
  | settled l => pure l
  | asks q answered => answered <$> ask q

namespace DigitList

/-- The digit zero. -/
def zeroDigit : UInt8 := 48

/-- The digit one. -/
def oneDigit : UInt8 := 49

/-- The digit five. -/
def fiveDigit : UInt8 := 53

/-- The digit nine. -/
def nineDigit : UInt8 := 57

/-! ### Views -/

/-- The digits in use. -/
def significant (l : DigitList) : Bytes :=
  l.digits.take l.count

/-- Whether all digits in use are zero. -/
def isZero (l : DigitList) : Bool :=
  l.significant.all (· == zeroDigit)

/-! ### Digits -/

/-- The list with the digits of a number. -/
def load (l : DigitList) (isNegative : Bool) (s : ShortestDigits) : DigitList :=
  { l with
    digits := s.digits
    count := s.digits.length
    decimalAt := if s.digits.isEmpty then 0 else s.decimalAt
    isNegative }

/-- The number of digits up to the last one that is not zero, but at least one of them. -/
def trimmedCount (digits : Bytes) : Nat → Nat
  | n + 2 => if digits[n + 1]? = some zeroDigit then trimmedCount digits (n + 1) else n + 2
  | n => n

/-- The list without the zeros at its end; a single zero stays. -/
def trim (l : DigitList) : DigitList :=
  { l with count := trimmedCount l.digits l.count }

/-- The list that is one unit above all digits: a single one, a place further to the left. -/
def carryOut (l : DigitList) : DigitList :=
  { l with
    digits := match l.digits with
      | [] => [oneDigit]
      | _ :: rest => oneDigit :: rest
    count := 1
    decimalAt := l.decimalAt + 1 }

/-- The list cut to its first `n` digits, with one added to the last of them. A nine carries to the
digit before it. -/
def addOne (l : DigitList) : Nat → DigitList
  | 0 => l.carryOut
  | n + 1 =>
    let digit := l.digits[n]?.getD 0 + 1
    let l := { l with digits := l.digits.set n digit }
    if digit ≤ nineDigit then { l with count := n + 1 } else l.addOne n

/-- The list cut to its first `n` digits, gone up by one or not. -/
def cut (l : DigitList) (n : Nat) (up : Bool) : DigitList :=
  (if up then l.addOne n else { l with count := n }).trim

/-! ### Rounding -/

/-- Rounds a list to its first `place` digits. -/
def round (l : DigitList) (place : Int32) (s : ShortestDigits) : Rounding :=
  if place < 0 ∨ l.count ≤ place.toNatClampNeg then .settled l
  else .asks ⟨l, place, s.roundedUp, s.exact⟩ (l.cut place.toNatClampNeg)

/-- Takes a number and rounds it to some digits: behind the point if `fixedPoint`, altogether if
not. A number far below the last place is nothing, and one right below it is nothing or one unit of
the last place. -/
def set (l : DigitList) (isNegative : Bool) (source : Binary64) (maximumDigits : Int32)
    (fixedPoint : Bool) : Rounding :=
  let s := ShortestDigits.of source
  let l := l.load isNegative s
  -- The first digit stands further behind the last place than right behind it.
  if fixedPoint ∧ maximumDigits < -l.decimalAt then .settled { l with count := 0 }
  else if fixedPoint ∧ -l.decimalAt = maximumDigits then
    .asks ⟨l, 0, s.roundedUp, s.exact⟩ fun up => if up then l.carryOut else { l with count := 0 }
  else
    l.trim.round (if fixedPoint then maximumDigits + l.decimalAt else maximumDigits) s

end DigitList

end RoundingPatch
