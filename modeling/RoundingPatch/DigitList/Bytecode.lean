import RoundingPatch.ClassFile.Insn
import RoundingPatch.ClassFile.Access
import RoundingPatch.ClassFile.Code.Layout
import RoundingPatch.RoundingMode
/-!
# Bytecode over digit lists

Short sequences of instructions that the methods of a digit list are put together from. A digit
list keeps its decimal digits as characters in `digits`, of which the first `count` are in use.
Every sequence takes the name of the class that it reads the fields of.
-/

namespace RoundingPatch.DigitList.Bytecode

open ClassFile

/-- The class of digit lists. -/
def className : String := "java/text/DigitList"

/-- The class every class derives from. -/
def objectClass : String := "java/lang/Object"

/-- A descriptor of the class with a name. -/
def classDescriptor (name : String) : String :=
  "L" ++ name ++ ";"

/-! ### Local variables of the rounding decision -/

/-- The position of the digit that decides. -/
def maximumDigits : UInt16 := 1

/-- Whether the digits were rounded up before. -/
def alreadyRounded : UInt16 := 2

/-- Whether the digits are the value exactly. -/
def valueExact : UInt16 := 3

/-- The counter of a loop over digits. -/
def loopIndex : UInt16 := 4

/-! ### Instructions -/

/-- Pushes the receiver. -/
def self : MethodEvent := .insn (.var Opcode.aload 0)

/-- Pushes an integer from a local variable. -/
def load (slot : UInt16) : MethodEvent := .insn (.var Opcode.iload slot)

/-- An instruction without operands. -/
def plain (op : Opcode) : MethodEvent := .insn (.simple op)

/-- A jump. -/
def jump (op : Opcode) (target : Label) : MethodEvent := .insn (.jump op target)

/-- Replaces the receiver on the stack by the value of one of its fields. -/
def getField (owner name descriptor : String) : MethodEvent :=
  .insn (.field Opcode.getfield owner name descriptor)

/-- Pushes a character that is given by its code. -/
def pushChar (code : Int32) : MethodEvent := .insn (.int Opcode.bipush code)

/-- Pushes the character `0`. -/
def zeroChar : MethodEvent := pushChar 48

/-- Pushes the character `5`. -/
def fiveChar : MethodEvent := pushChar 53

/-- Pushes the number of digits. -/
def count (owner : String) : List MethodEvent :=
  [self, getField owner "count" "I"]

/-- Pushes the digit whose position is in a local variable. -/
def digitAt (owner : String) (slot : UInt16) : List MethodEvent :=
  [self, getField owner "digits" "[C", load slot, plain Opcode.caload]

/-- Pushes the position that decides and the position of the last digit. -/
def decisiveAndLast (owner : String) : List MethodEvent :=
  load maximumDigits :: count owner ++ [plain Opcode.iconst1, plain Opcode.isub]

/-- Returns a truth value. -/
def answer (value : Bool) : List MethodEvent :=
  [plain (if value then Opcode.iconst1 else Opcode.iconst0), plain Opcode.ireturn]

/-- A position that a jump goes to, with its stack map frame. -/
def entry (label : Label) (frame : Frame) : List MethodEvent :=
  [.label label, .frame frame]

/-- The constructor, which does nothing but construct the superclass. -/
def constructor : MethodSource where
  access := 0
  name := "<init>"
  descriptor := "()V"
  events := [.code 1 1, self, .insn (.call Opcode.invokespecial objectClass "<init>" "()V"),
    plain Opcode.vreturn]

/-- The entries of the table of local variables for a rounding decision of class `owner`. -/
def decisionLocals (owner : String) (start stop : Label) : List MethodEvent :=
  [(0, "this", classDescriptor owner), (maximumDigits, "maximumDigits", "I"),
    (alreadyRounded, "alreadyRounded", "Z"), (valueExact, "valueExactAsDecimal", "Z")].map
  fun (index, name, descriptor) =>
    .localVariable { table := .descriptors, name, descriptor, start, stop, index }

end RoundingPatch.DigitList.Bytecode
