/-!
# Hexadecimal text

Numbers written in lower-case hexadecimal, padded with zeros to a least width.
-/

namespace RoundingPatch.Text

/-- The digits of `n` in base sixteen, with zeros in front up to `width` digits. -/
def hex (width n : Nat) : String :=
  let digits := Nat.toDigits 16 n
  String.ofList (List.replicate (width - digits.length) '0' ++ digits)

/-- The form diagnostics use: `0x` and at least `width` digits. -/
def hexLiteral (width n : Nat) : String :=
  "0x" ++ hex width n

end RoundingPatch.Text
