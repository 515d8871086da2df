/-!
# Opcodes

The numbers of the instructions, the operands each one carries, and the name diagnostics give it.
-/

namespace RoundingPatch.ClassFile

/-- The first byte of an instruction. -/
abbrev Opcode := UInt8

namespace Opcode

/-! ### Numbers -/

def nop : Opcode := 0x00
def aconstNull : Opcode := 0x01
def iconstM1 : Opcode := 0x02
def iconst0 : Opcode := 0x03
def iconst1 : Opcode := 0x04
def iconst2 : Opcode := 0x05
def iconst5 : Opcode := 0x08
def bipush : Opcode := 0x10
def sipush : Opcode := 0x11
def ldc : Opcode := 0x12
def ldcW : Opcode := 0x13
def ldc2W : Opcode := 0x14
def iload : Opcode := 0x15
def lload : Opcode := 0x16
def fload : Opcode := 0x17
def dload : Opcode := 0x18
def aload : Opcode := 0x19
def iload0 : Opcode := 0x1a
def aload3 : Opcode := 0x2d
def iaload : Opcode := 0x2e
def caload : Opcode := 0x34
def istore : Opcode := 0x36
def astore : Opcode := 0x3a
def istore0 : Opcode := 0x3b
def astore3 : Opcode := 0x4e
def iastore : Opcode := 0x4f
def castore : Opcode := 0x55
def pop : Opcode := 0x57
def dup : Opcode := 0x59
def dupX1 : Opcode := 0x5a
def swap : Opcode := 0x5f
def iadd : Opcode := 0x60
def isub : Opcode := 0x64
def imul : Opcode := 0x68
def idiv : Opcode := 0x6c
def irem : Opcode := 0x70
def ineg : Opcode := 0x74
def ishl : Opcode := 0x78
def ishr : Opcode := 0x7a
def iushr : Opcode := 0x7c
def iand : Opcode := 0x7e
def ior : Opcode := 0x80
def ixor : Opcode := 0x82
def iinc : Opcode := 0x84
def i2c : Opcode := 0x92
def ifeq : Opcode := 0x99
def ifne : Opcode := 0x9a
def iflt : Opcode := 0x9b
def ifge : Opcode := 0x9c
def ifgt : Opcode := 0x9d
def ifle : Opcode := 0x9e
def ifIcmpEq : Opcode := 0x9f
def ifIcmpNe : Opcode := 0xa0
def ifIcmpLt : Opcode := 0xa1
def ifIcmpGe : Opcode := 0xa2
def ifIcmpGt : Opcode := 0xa3
def ifIcmpLe : Opcode := 0xa4
def ifAcmpEq : Opcode := 0xa5
def ifAcmpNe : Opcode := 0xa6
def goto : Opcode := 0xa7
def jsr : Opcode := 0xa8
def ret : Opcode := 0xa9
def tableswitch : Opcode := 0xaa
def lookupswitch : Opcode := 0xab
def ireturn : Opcode := 0xac
def lreturn : Opcode := 0xad
def freturn : Opcode := 0xae
def dreturn : Opcode := 0xaf
def areturn : Opcode := 0xb0
def vreturn : Opcode := 0xb1
def getstatic : Opcode := 0xb2
def getfield : Opcode := 0xb4
def putfield : Opcode := 0xb5
def invokevirtual : Opcode := 0xb6
def invokespecial : Opcode := 0xb7
def invokestatic : Opcode := 0xb8
def invokeinterface : Opcode := 0xb9
def invokedynamic : Opcode := 0xba
def new : Opcode := 0xbb
def newarray : Opcode := 0xbc
def arraylength : Opcode := 0xbe
def athrow : Opcode := 0xbf
def checkcast : Opcode := 0xc0
def instanceof : Opcode := 0xc1
def wide : Opcode := 0xc4
def multianewarray : Opcode := 0xc5
def ifnull : Opcode := 0xc6
def ifnonnull : Opcode := 0xc7
def gotoW : Opcode := 0xc8
def jsrW : Opcode := 0xc9

/-- The element code of `newarray` for characters. -/
def charArray : UInt8 := 5

/-- The element code of `newarray` for integers. -/
def intArray : UInt8 := 10

/-- Whether `op` lies between two opcodes, both included. -/
def between (lo hi op : Opcode) : Bool :=
  lo ≤ op && op ≤ hi

/-! ### Classes of instructions -/

/-- An instruction of one byte, without operands. -/
def isSimple (op : Opcode) : Bool :=
  between 0x00 0x0f op || between 0x1a 0x35 op || between 0x3b 0x83 op || between 0x85 0x98 op
    || between 0xac 0xb1 op || op == arraylength || op == athrow || between 0xc2 0xc3 op

/-- A branch, conditional or not, with a single target. -/
def isJump (op : Opcode) : Bool :=
  between 0x99 0xa8 op || between 0xc6 0xc9 op

/-- The long form of an access to a local variable. -/
def isVar (op : Opcode) : Bool :=
  between 0x15 0x19 op || between 0x36 0x3a op || op == ret

/-- What follows an opcode in the code array. -/
inductive Operands
  /-- Nothing. -/
  | none
  /-- Nothing: the opcode holds both the access and the index of a local variable. -/
  | packedLocal (access : Opcode) (index : UInt16)
  | signedByte
  | signedShort
  | elementType
  | constantByte
  | constantShort
  | localByte
  | increment
  | branch
  /-- A branch over four bytes, which reads as its short form. -/
  | wideBranch (short : Opcode)
  | tableSwitch
  | lookupSwitch
  | field
  | method
  | interfaceMethod
  | callSite
  | classRef
  | multiArray
  | widened
  | unknown
  deriving DecidableEq

/-- The operands of each opcode. -/
def operands (op : Opcode) : Operands :=
  if between 0x1a 0x2d op then
    .packedLocal (iload + (op - iload0) / 4) ((op - iload0) % 4).toUInt16
  else if between 0x3b 0x4e op then
    .packedLocal (istore + (op - istore0) / 4) ((op - istore0) % 4).toUInt16
  else if isSimple op then .none
  else if op == bipush then .signedByte
  else if op == sipush then .signedShort
  else if op == newarray then .elementType
  else if op == ldc then .constantByte
  else if op == ldcW || op == ldc2W then .constantShort
  else if isVar op then .localByte
  else if op == iinc then .increment
  else if op == gotoW then .wideBranch goto
  else if op == jsrW then .wideBranch jsr
  else if isJump op then .branch
  else if op == tableswitch then .tableSwitch
  else if op == lookupswitch then .lookupSwitch
  else if between 0xb2 0xb5 op then .field
  else if between 0xb6 0xb8 op then .method
  else if op == invokeinterface then .interfaceMethod
  else if op == invokedynamic then .callSite
  else if op == new || op == 0xbd || op == checkcast || op == instanceof then .classRef
  else if op == multianewarray then .multiArray
  else if op == wide then .widened
  else .unknown

/-! ### Names -/

/-- Names with the range of opcodes each one covers. The first range that fits decides. -/
def names : List (Opcode × Opcode × String) := [
  (0x00, 0x00, "nop"), (0x01, 0x01, "aconst_null"), (0x02, 0x08, "iconst"),
  (0x09, 0x0a, "lconst"), (0x0b, 0x0d, "fconst"), (0x0e, 0x0f, "dconst"),
  (0x10, 0x10, "bipush"), (0x11, 0x11, "sipush"), (0x12, 0x13, "ldc"), (0x14, 0x14, "ldc2_w"),
  (0x15, 0x15, "iload"), (0x16, 0x16, "lload"), (0x17, 0x17, "fload"), (0x18, 0x18, "dload"),
  (0x19, 0x19, "aload"), (0x1a, 0x2d, "load_n"), (0x34, 0x34, "caload"),
  (0x2e, 0x35, "xaload"), (0x36, 0x36, "istore"), (0x37, 0x3a, "store"),
  (0x3b, 0x4e, "store_n"), (0x55, 0x55, "castore"), (0x4f, 0x56, "xastore"),
  (0x57, 0x57, "pop"), (0x58, 0x58, "pop2"), (0x59, 0x59, "dup"), (0x5a, 0x5f, "stack"),
  (0x60, 0x60, "iadd"), (0x64, 0x64, "isub"), (0x68, 0x68, "imul"), (0x6c, 0x6c, "idiv"),
  (0x70, 0x70, "irem"), (0x74, 0x74, "ineg"), (0x7e, 0x7e, "iand"), (0x80, 0x80, "ior"),
  (0x82, 0x82, "ixor"), (0x61, 0x83, "arith"), (0x84, 0x84, "iinc"), (0x85, 0x93, "convert"),
  (0x94, 0x98, "compare"), (0x99, 0x9e, "if"), (0x9f, 0xa4, "if_icmp"), (0xa5, 0xa6, "if_acmp"),
  (0xa7, 0xa7, "goto"), (0xc8, 0xc8, "goto"), (0xa8, 0xa8, "jsr"), (0xc9, 0xc9, "jsr"),
  (0xa9, 0xa9, "ret"), (0xaa, 0xaa, "tableswitch"), (0xab, 0xab, "lookupswitch"),
  (0xac, 0xac, "ireturn"), (0xad, 0xb0, "xreturn"), (0xb1, 0xb1, "return"),
  (0xb2, 0xb2, "getstatic"), (0xb3, 0xb3, "putstatic"), (0xb4, 0xb4, "getfield"),
  (0xb5, 0xb5, "putfield"), (0xb6, 0xb6, "invokevirtual"), (0xb7, 0xb7, "invokespecial"),
  (0xb8, 0xb8, "invokestatic"), (0xb9, 0xb9, "invokeinterface"), (0xba, 0xba, "invokedynamic"),
  (0xbb, 0xbb, "new"), (0xbc, 0xbc, "newarray"), (0xbd, 0xbd, "anewarray"),
  (0xbe, 0xbe, "arraylength"), (0xbf, 0xbf, "athrow"), (0xc0, 0xc0, "checkcast"),
  (0xc1, 0xc1, "instanceof"), (0xc2, 0xc2, "monitorenter"), (0xc3, 0xc3, "monitorexit"),
  (0xc4, 0xc4, "wide"), (0xc5, 0xc5, "multianewarray"), (0xc6, 0xc6, "ifnull"),
  (0xc7, 0xc7, "ifnonnull")]

/-- The name of an opcode in diagnostics. -/
def mnemonic (op : Opcode) : String :=
  match names.find? fun (lo, hi, _) => between lo hi op with
  | some (_, _, name) => name
  | none => "<invalid>"

end Opcode

end RoundingPatch.ClassFile
