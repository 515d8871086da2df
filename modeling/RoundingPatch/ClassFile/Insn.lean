import RoundingPatch.Bytes.Basic
import RoundingPatch.ClassFile.Label
import RoundingPatch.ClassFile.Opcode
/-!
# Instructions and method bodies

Instructions name classes, members and constants directly and refer to other positions by label,
never by offset. A method is a sequence of events: its limits, exception handlers, labels, stack
map frames, line numbers, instructions and local variables in the order they stand in the body.
-/

namespace RoundingPatch.ClassFile

/-! ### Constants -/

/-- What the constant-loading instructions push. -/
inductive Constant
  | integer (value : Int32)
  /-- A number of 32 bits, by its bits. -/
  | float (bits : UInt32)
  | long (value : Int64)
  /-- A number of 64 bits, by its bits. -/
  | double (bits : UInt64)
  | string (text : String)
  | classRef (name : String)
  /-- A constant that stays an index into the pool it was read from. -/
  | pooled (index : UInt16)
  deriving DecidableEq

/-- Whether a constant takes two places on the operand stack. -/
def Constant.isWide : Constant → Bool
  | long _ | double _ => true
  | _ => false

/-! ### Instructions -/

/-- One instruction. -/
inductive Insn
  /-- An instruction without operands. -/
  | simple (op : Opcode)
  /-- `bipush`, `sipush` or `newarray`. -/
  | int (op : Opcode) (operand : Int32)
  /-- An access to a local variable. -/
  | var (op : Opcode) (index : UInt16)
  | iinc (index : UInt16) (delta : Int16)
  /-- `new`, `anewarray`, `checkcast` or `instanceof`. -/
  | type (op : Opcode) (name : String)
  | field (op : Opcode) (owner name descriptor : String)
  | method (op : Opcode) (owner name descriptor : String) (onInterface : Bool)
  /-- A dynamic call site, by its index in the pool it was read from. -/
  | callSite (index : UInt16)
  | ldc (constant : Constant)
  | jump (op : Opcode) (target : Label)
  | tableSwitch (low high : Int32) (default : Label) (targets : List Label)
  | lookupSwitch (default : Label) (pairs : List (Int32 × Label))
  | multiArray (name : String) (dimensions : UInt8)
  deriving DecidableEq

namespace Insn

/-- The shortest instruction that pushes `value`. -/
def pushInt (value : Int32) : Insn :=
  let v := value.toInt
  if -1 ≤ v ∧ v ≤ 5 then .simple (UInt8.ofNat (v + 3).toNat)
  else if -128 ≤ v ∧ v ≤ 127 then .int Opcode.bipush value
  else if -32768 ≤ v ∧ v ≤ 32767 then .int Opcode.sipush value
  else .ldc (.integer value)

/-- A call; only `invokeinterface` goes to an interface. -/
def call (op : Opcode) (owner name descriptor : String) : Insn :=
  .method op owner name descriptor (op == Opcode.invokeinterface)

/-- The opcode of an instruction, in its long form where there is a choice. -/
def opcode : Insn → Opcode
  | simple op | int op _ | var op _ | type op _ | field op _ _ _ | method op _ _ _ _ | jump op _ =>
    op
  | iinc _ _ => Opcode.iinc
  | callSite _ => Opcode.invokedynamic
  | ldc constant => if constant.isWide then Opcode.ldc2W else Opcode.ldc
  | tableSwitch .. => Opcode.tableswitch
  | lookupSwitch .. => Opcode.lookupswitch
  | multiArray _ _ => Opcode.multianewarray

/-- The positions an instruction may go on to, the next instruction apart. -/
def targets : Insn → List Label
  | jump _ target => [target]
  | tableSwitch _ _ default targets => default :: targets
  | lookupSwitch default pairs => default :: pairs.map (·.2)
  | _ => []

end Insn

/-! ### Stack map frames -/

/-- What the verifier knows of a local variable or of a stack entry. -/
inductive VType
  | top
  | integer
  | float
  | double
  | long
  | null
  | uninitializedThis
  /-- An instance of a class or an array. -/
  | object (name : String)
  /-- The result of the `new` at a label, before its constructor ran. -/
  | uninitialized (label : Label)
  deriving DecidableEq

/-- A stack map frame, mostly as a change to the frame before it. -/
inductive Frame
  | same
  | sameWithOne (stack : VType)
  /-- The last locals are gone. -/
  | chop (count : UInt8)
  /-- There are more locals. -/
  | append (locals : List VType)
  | full (locals stack : List VType)
  deriving DecidableEq

/-! ### Tables -/

/-- An exception handler. -/
structure TryCatch where
  start : Label
  stop : Label
  handler : Label
  /-- Absent if everything is caught. -/
  catchType : Option String
  deriving DecidableEq

/-- The table a local variable is listed in. -/
inductive LocalTable
  | descriptors
  | signatures
  deriving DecidableEq

/-- A local variable and the part of the body where it lives. -/
structure LocalVariable where
  table : LocalTable
  name : String
  descriptor : String
  start : Label
  stop : Label
  index : UInt16
  deriving DecidableEq

/-- An attribute that is kept as it is. Its bytes may refer to the pool they were read with. -/
structure RawAttribute where
  name : String
  info : Bytes
  deriving DecidableEq

/-! ### Events -/

/-- One piece of a method. -/
inductive MethodEvent
  | code (maxStack maxLocals : UInt16)
  | attribute (attr : RawAttribute)
  | tryCatch (handler : TryCatch)
  | label (l : Label)
  | frame (f : Frame)
  | line (number : UInt16) (start : Label)
  | insn (i : Insn)
  | localVariable (v : LocalVariable)
  | done
  deriving DecidableEq

/-- The instructions among some events. -/
def MethodEvent.insns (events : List MethodEvent) : List Insn :=
  events.filterMap fun
    | .insn i => some i
    | _ => none

end RoundingPatch.ClassFile
