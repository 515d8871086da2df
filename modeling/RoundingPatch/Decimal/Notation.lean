/-!
# Decimal notation

A number is given by its decimal digits and the place of the point, counted from the first digit:
`0.d₁d₂… * 10 ^ point`. Positional notation fills up with zeros; scientific notation has one digit
before the point and an exponent behind a mark.
-/

namespace RoundingPatch.Decimal

/-- A fraction with its point; nothing if there are no digits, or `.0` if a digit has to stand. -/
def fraction (padded : Bool) (digits : List Char) : List Char :=
  if digits.isEmpty then (if padded then ['.', '0'] else []) else '.' :: digits

/-- Positional notation. -/
def positional (padded : Bool) (digits : List Char) (point : Int) : List Char :=
  if point ≤ 0 then
    '0' :: fraction padded (List.replicate (-point).toNat '0' ++ digits)
  else
    let whole := digits.take point.toNat
    whole ++ List.replicate (point.toNat - whole.length) '0'
      ++ fraction padded (digits.drop point.toNat)

/-- Scientific notation. -/
def scientific (padded : Bool) (mark : Char) (digits : List Char) (point : Int) : List Char :=
  digits.take 1 ++ fraction padded (digits.drop 1) ++ mark :: (toString (point - 1)).toList

/-- A text behind a minus if there is one. -/
def signed (negative : Bool) (text : List Char) : String :=
  String.ofList (if negative then '-' :: text else text)

end RoundingPatch.Decimal
