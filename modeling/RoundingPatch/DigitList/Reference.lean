import RoundingPatch.DigitList.Basic
/-!
# The reference answers

How a correct rounding decision answers, mode by mode. The digits stand for a value that they may
lie above, below or at; only the modes that round to the nearest number look at that, and only when
all that is dropped is a five.
-/

namespace RoundingPatch.Reference

/-- The class of the exception for a number that must not be rounded. -/
def arithmeticException : String := "java.lang.ArithmeticException"

/-- A question about digits that are there: the digits before the place and from the place on. -/
structure Cut where
  kept : Bytes
  /-- The digit at the place. -/
  first : UInt8
  rest : Bytes

/-- The cut that a question is about, if its place is one of the digits. -/
def cut? (q : RoundingQuestion) : Option Cut :=
  if q.place < 0 then none
  else
    let place := q.place.toNatClampNeg
    match q.list.significant.drop place with
    | [] => none
    | first :: rest => some ⟨q.list.significant.take place, first, rest⟩

namespace Cut

/-- Whether something other than zeros is dropped. -/
def dropsValue (c : Cut) : Bool :=
  (c.first :: c.rest).any (· != DigitList.zeroDigit)

/-- Whether the last digit that is kept is odd. -/
def keepsOdd (c : Cut) : Bool :=
  match c.kept.getLast? with
  | some d => (d - DigitList.zeroDigit) % 2 != 0
  | none => false

/-- Rounding to the nearest; `five` says what becomes of a cut that starts with a five. -/
def nearest (c : Cut) (five : Bool) : Bool :=
  if DigitList.fiveDigit < c.first then true
  else if c.first = DigitList.fiveDigit then five
  else false

end Cut

/-- The answer to a question about a cut. -/
def decide (q : RoundingQuestion) (c : Cut) : Except Fault Bool :=
  match q.list.roundingMode with
  | .up => .ok c.dropsValue
  | .down => .ok false
  | .ceiling => .ok (c.dropsValue && !q.list.isNegative)
  | .floor => .ok (c.dropsValue && q.list.isNegative)
  -- A lone five is a tie only if the digits are exact; otherwise it was rounded from above or
  -- below.
  | .halfUp => .ok (c.nearest (!c.rest.isEmpty || q.exact || !q.alreadyRounded))
  | .halfDown => .ok (c.nearest (!c.rest.isEmpty || (!q.exact && !q.alreadyRounded)))
  | .halfEven =>
    .ok (c.nearest
      (if c.rest.isEmpty then !q.alreadyRounded && (!q.exact || c.keepsOdd)
        else c.rest.any (· != DigitList.zeroDigit)))
  | .unnecessary =>
    if c.dropsValue then
      .error (.execution (.uncaught arithmeticException (some RoundingMode.roundingNeeded)))
    else .ok false

/-- The answer to a question. Where nothing is dropped, nothing goes up. -/
def answer (q : RoundingQuestion) : Except Fault Bool :=
  match cut? q with
  | none => .ok false
  | some c => decide q c

end RoundingPatch.Reference
