import RoundingPatch.Text.Radix
import RoundingPatch.Text.Printable
/-!
# Quoted text

How diagnostics quote a text or a single character: between quotation marks, with the mark
itself, the backslash, the usual control characters and everything without a printed form
written as escapes.
-/

namespace RoundingPatch.Text

/-- One character between marks `mark`. -/
def escaped (mark c : Char) : String :=
  if c = '\x00' then "\\0"
  else if c = '\t' then "\\t"
  else if c = '\r' then "\\r"
  else if c = '\n' then "\\n"
  else if c = '\\' || c = mark then String.ofList ['\\', c]
  else if extendsPrevious c || !hasPrintedForm c then "\\u\x7b" ++ hex 1 c.toNat ++ "\x7d"
  else c.toString

/-- A text between double quotation marks. -/
def quoted (s : String) : String :=
  "\"" ++ String.join (s.toList.map (escaped '"')) ++ "\""

/-- A character between single quotation marks. -/
def quotedChar (c : Char) : String :=
  "'" ++ escaped '\'' c ++ "'"

end RoundingPatch.Text
