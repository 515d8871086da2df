import RoundingPatch.ClassFile.Insn
import RoundingPatch.Decimal.Text
import RoundingPatch.Text.Quoted
/-!
# Constants in diagnostics

A constant is shown as its sort and its value in parentheses.
-/

namespace RoundingPatch.ClassFile

/-- A constant in diagnostics. -/
def Constant.text : Constant → String
  | integer v => s!"Integer({v.toInt})"
  | float bits => s!"Float({BinaryFormat.binary32.debugText bits.toNat})"
  | long v => s!"Long({v.toInt})"
  | double bits => s!"Double({BinaryFormat.binary64.debugText bits.toNat})"
  | string s => "String(" ++ Text.quoted s ++ ")"
  | classRef name => "Class(" ++ Text.quoted name ++ ")"
  | pooled index => s!"Pooled({index.toNat})"

end RoundingPatch.ClassFile
