import RoundingPatch.ClassFile.Constant
import RoundingPatch.ClassFile.Descriptor
import RoundingPatch.Machine.Value
/-!
# Operations

What an instruction asks the machine to do, free of its many encodings: all instructions that push
a constant are one operation, and so are all arithmetic ones. An instruction without an operation
is unsupported.
-/

namespace RoundingPatch.Machine

open ClassFile

/-! ### Arithmetic and tests -/

/-- An operation on two words. -/
inductive Arith
  | add
  | sub
  | mul
  | div
  | rem
  | shiftLeft
  | shiftRight
  /-- A shift to the right that fills up with zeros. -/
  | shiftRightUnsigned
  | and
  | or
  | xor
  deriving DecidableEq

/-- A test that compares two words. -/
inductive Comparison
  | eq
  | ne
  | lt
  | ge
  | gt
  | le
  deriving DecidableEq

/-- Division by zero ends in this. -/
def divisionByZero : Fault :=
  .execution (.uncaught "java.lang.ArithmeticException" (some "/ by zero"))

/-- The result of an operation on words. Results wrap, division goes toward zero, and shifts use
the low five bits of the distance. -/
def Arith.eval (op : Arith) (a b : Int32) : Except Fault Int32 :=
  match op with
  | add => .ok (a + b)
  | sub => .ok (a - b)
  | mul => .ok (a * b)
  | div => if b = 0 then .error divisionByZero else .ok (a / b)
  | rem => if b = 0 then .error divisionByZero else .ok (a % b)
  | shiftLeft => .ok (a <<< (b &&& 31))
  | shiftRight => .ok (a >>> (b &&& 31))
  | shiftRightUnsigned => .ok (a.toUInt32 >>> (b &&& 31).toUInt32).toInt32
  | and => .ok (a &&& b)
  | or => .ok (a ||| b)
  | xor => .ok (a ^^^ b)

/-- Whether two words pass a test. -/
def Comparison.holds (c : Comparison) (a b : Int32) : Bool :=
  match c with
  | eq => a == b
  | ne => a != b
  | lt => a < b
  | ge => b ≤ a
  | gt => b < a
  | le => a ≤ b

/-- When a branch is taken. -/
inductive Condition
  | always
  /-- The word on top of the stack compares with zero like this. -/
  | withZero (c : Comparison)
  /-- The two words on top of the stack compare like this. -/
  | words (c : Comparison)
  /-- The two references on top of the stack are the same, or are not. -/
  | sameObject (expected : Bool)
  /-- The reference on top of the stack is `null`, or is not. -/
  | isNull (expected : Bool)
  deriving DecidableEq

/-! ### Operations -/

/-- How a method is called. -/
inductive CallKind
  | virtual
  | special
  | static
  deriving DecidableEq

/-- What the machine does at an instruction. -/
inductive Operation
  | nothing
  | push (v : Value)
  | pushText (s : String)
  | loadInt (index : UInt16)
  | loadRef (index : UInt16)
  | storeInt (index : UInt16)
  | storeRef (index : UInt16)
  | increment (index : UInt16) (delta : Int16)
  | pop
  | dup
  /-- Puts a copy of the topmost value under the second one. -/
  | dupUnder
  | swap
  | arith (op : Arith)
  | negate
  | toChar
  | branch (condition : Condition) (target : Label)
  | tableSwitch (low high : Int32) (default : Label) (targets : List Label)
  | lookupSwitch (default : Label) (pairs : List (Int32 × Label))
  | newObject (className : String)
  | newArray (element : Int32)
  /-- An array is read or written; the opcode names the instruction in diagnostics. -/
  | arrayLoad (op : Opcode)
  | arrayStore (op : Opcode)
  | arrayLength
  | checkCast
  | instanceOf (className : String)
  | getField (name descriptor : String)
  | putField (name : String)
  | getStatic (owner name descriptor : String)
  | call (kind : CallKind) (owner name descriptor : String)
  | returnInt
  | returnRef
  | returnNothing
  | raise
  deriving DecidableEq

namespace Operation

/-- The operations of instructions without operands. -/
def ofSimple : List (Opcode × Operation) := [
  (Opcode.nop, nothing),
  (Opcode.aconstNull, push .null),
  (Opcode.iconstM1, push (.int (-1))),
  (Opcode.iconst0, push (.int 0)),
  (Opcode.iconst1, push (.int 1)),
  (Opcode.iconst2, push (.int 2)),
  (Opcode.iconst2 + 1, push (.int 3)),
  (Opcode.iconst2 + 2, push (.int 4)),
  (Opcode.iconst5, push (.int 5)),
  (Opcode.iaload, arrayLoad Opcode.iaload),
  (Opcode.caload, arrayLoad Opcode.caload),
  (Opcode.iastore, arrayStore Opcode.iastore),
  (Opcode.castore, arrayStore Opcode.castore),
  (Opcode.pop, pop),
  (Opcode.dup, dup),
  (Opcode.dupX1, dupUnder),
  (Opcode.swap, swap),
  (Opcode.iadd, arith .add),
  (Opcode.isub, arith .sub),
  (Opcode.imul, arith .mul),
  (Opcode.idiv, arith .div),
  (Opcode.irem, arith .rem),
  (Opcode.ineg, negate),
  (Opcode.ishl, arith .shiftLeft),
  (Opcode.ishr, arith .shiftRight),
  (Opcode.iushr, arith .shiftRightUnsigned),
  (Opcode.iand, arith .and),
  (Opcode.ior, arith .or),
  (Opcode.ixor, arith .xor),
  (Opcode.i2c, toChar),
  (Opcode.ireturn, returnInt),
  (Opcode.areturn, returnRef),
  (Opcode.vreturn, returnNothing),
  (Opcode.arraylength, arrayLength),
  (Opcode.athrow, raise)]

/-- The conditions of branches. -/
def conditions : List (Opcode × Condition) := [
  (Opcode.ifeq, .withZero .eq),
  (Opcode.ifne, .withZero .ne),
  (Opcode.iflt, .withZero .lt),
  (Opcode.ifge, .withZero .ge),
  (Opcode.ifgt, .withZero .gt),
  (Opcode.ifle, .withZero .le),
  (Opcode.ifIcmpEq, .words .eq),
  (Opcode.ifIcmpNe, .words .ne),
  (Opcode.ifIcmpLt, .words .lt),
  (Opcode.ifIcmpGe, .words .ge),
  (Opcode.ifIcmpGt, .words .gt),
  (Opcode.ifIcmpLe, .words .le),
  (Opcode.ifAcmpEq, .sameObject true),
  (Opcode.ifAcmpNe, .sameObject false),
  (Opcode.goto, .always),
  (Opcode.gotoW, .always),
  (Opcode.ifnull, .isNull true),
  (Opcode.ifnonnull, .isNull false)]

/-- The operation of an access to a local variable. -/
def ofVar (op : Opcode) (index : UInt16) : Option Operation :=
  if op = Opcode.iload then some (loadInt index)
  else if op = Opcode.aload then some (loadRef index)
  else if op = Opcode.istore then some (storeInt index)
  else if op = Opcode.astore then some (storeRef index)
  else none

/-- The operation of an instruction with a class as its operand. -/
def ofType (op : Opcode) (className : String) : Option Operation :=
  if op = Opcode.new then some (newObject className)
  else if op = Opcode.checkcast then some checkCast
  else if op = Opcode.instanceof then some (instanceOf className)
  else none

/-- The operation of an access to a field. -/
def ofField (op : Opcode) (owner name descriptor : String) : Option Operation :=
  if op = Opcode.getfield then some (getField name descriptor)
  else if op = Opcode.putfield then some (putField name)
  else if op = Opcode.getstatic then some (getStatic owner name descriptor)
  else none

/-- How the call instructions call. -/
def callKind (op : Opcode) : Option CallKind :=
  if op = Opcode.invokestatic then some .static
  else if op = Opcode.invokespecial then some .special
  else if op = Opcode.invokevirtual ∨ op = Opcode.invokeinterface then some .virtual
  else none

/-- The operation of an instruction that loads a constant. -/
def ofConstant : Constant → Except Fault Operation
  | .integer v => .ok (push (.int v))
  | .string s => .ok (pushText s)
  | other => .error (.unsupported (.constantLoad other.text))

/-- The operation of an instruction, if there is one. -/
def ofInsn? : Insn → Option Operation
  | .simple op =>
    match Opcode.operands op with
    | .packedLocal access index => ofVar access index
    | _ => ofSimple.lookup op
  | .int op operand => some (if op = Opcode.newarray then newArray operand else push (.int operand))
  | .var op index => ofVar op index
  | .iinc index delta => some (increment index delta)
  | .type op className => ofType op className
  | .field op owner name descriptor => ofField op owner name descriptor
  | .method op owner name descriptor _ =>
    (callKind op).map fun kind => call kind owner name descriptor
  | .jump op target => (conditions.lookup op).map fun c => branch c target
  | .tableSwitch low high default targets => some (tableSwitch low high default targets)
  | .lookupSwitch default pairs => some (lookupSwitch default pairs)
  | .ldc _ | .callSite _ | .multiArray _ _ => none

/-- The operation of an instruction. -/
def ofInsn (i : Insn) : Except Fault Operation :=
  match i with
  | .ldc constant => ofConstant constant
  | i =>
    match ofInsn? i with
    | some operation => .ok operation
    | none => .error (.unsupported (.opcode i.opcode))

end Operation

end RoundingPatch.Machine
