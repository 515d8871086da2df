import RoundingPatch.ClassFile.Code.Body
import RoundingPatch.ClassFile.Descriptor
import RoundingPatch.ClassFile.Pool.Builder
/-!
# Encoding instructions

An instruction turns into chunks: plain bytes, and distances to labels that stay open until every
label has an offset. The form of an instruction is the shortest that holds its operands; the form
of a branch is the one its opcode stands for.
-/

namespace RoundingPatch.ClassFile

/-- A piece of encoded code. -/
inductive Chunk
  | bytes (bs : Bytes)
  /-- A distance of two bytes. -/
  | near (target : Label)
  /-- A distance of four bytes. -/
  | far (target : Label)
  deriving DecidableEq

namespace Chunk

/-- The number of bytes of a chunk. -/
def size : Chunk → Nat
  | bytes bs => bs.length
  | near _ => 2
  | far _ => 4

end Chunk

/-- The number of bytes of some chunks. -/
def chunksSize (chunks : List Chunk) : Nat :=
  chunks.foldl (fun n chunk => n + chunk.size) 0

namespace Insn

/-- The bytes of an instruction of `newarray` and its kin, whose operand is a small integer. -/
def encodeInt (op : Opcode) (operand : Int32) : Except Fault Bytes :=
  let v := operand.toInt
  if op = Opcode.bipush then
    if -128 ≤ v ∧ v ≤ 127 then .ok [op, operand.toUInt32.toUInt8] else outOfRange "bipush"
  else if op = Opcode.sipush then
    if -32768 ≤ v ∧ v ≤ 32767 then .ok (op :: Bytes.ofU2 operand.toUInt32.toUInt16)
    else outOfRange "sipush"
  else if op = Opcode.newarray then
    if 0 ≤ v ∧ v ≤ 255 then .ok [op, operand.toUInt32.toUInt8] else outOfRange "newarray"
  else .error (.internal (.notIntOperand op))
where
  /-- The fault of an operand that does not fit. -/
  outOfRange (what : String) : Except Fault Bytes :=
    .error (.internal (.operandRange what operand.toInt))

/-- The opcode that accesses local variable 0 in one byte, if the access has such a form. -/
def packedBase (op : Opcode) : Option Opcode :=
  if Opcode.between Opcode.iload Opcode.aload op then
    some (Opcode.iload0 + (op - Opcode.iload) * 4)
  else if Opcode.between Opcode.istore Opcode.astore op then
    some (Opcode.istore0 + (op - Opcode.istore) * 4)
  else none

/-- The bytes of an access to a local variable. -/
def encodeVar (op : Opcode) (index : UInt16) : Except Fault Bytes :=
  if !Opcode.isVar op then .error (.internal (.notLocalAccess op))
  else match packedBase op with
    | some base =>
      if index ≤ 3 then .ok [base + index.toUInt8] else .ok (unpacked op index)
    | none => .ok (unpacked op index)
where
  /-- The forms with an index of their own. -/
  unpacked (op : Opcode) (index : UInt16) : Bytes :=
    if index ≤ 255 then [op, index.toUInt8] else Opcode.wide :: op :: Bytes.ofU2 index

/-- The bytes of an increment. -/
def encodeIinc (index : UInt16) (delta : Int16) : Bytes :=
  if index ≤ 255 ∧ -128 ≤ delta.toInt ∧ delta.toInt ≤ 127 then
    [Opcode.iinc, index.toUInt8, delta.toUInt16.toUInt8]
  else Opcode.wide :: Opcode.iinc :: Bytes.ofU2 index ++ Bytes.ofU2 delta.toUInt16

/-- The bytes that load the constant at an index. -/
def encodeLdc (isWide : Bool) (index : UInt16) : Bytes :=
  if isWide then Opcode.ldc2W :: Bytes.ofU2 index
  else if index ≤ 255 then [Opcode.ldc, index.toUInt8]
  else Opcode.ldcW :: Bytes.ofU2 index

/-- The opcode of a switch at `offset`, with the padding behind it. -/
def switchStart (op : Opcode) (offset : Nat) : Bytes :=
  op :: List.replicate (switchPadding offset) 0

/-- The chunks of an instruction at `offset`. -/
def encode (offset : Nat) : Insn → Pooling (List Chunk)
  | simple op => return [.bytes [op]]
  | int op operand => return [.bytes (← Pooling.lift (encodeInt op operand))]
  | var op index => return [.bytes (← Pooling.lift (encodeVar op index))]
  | iinc index delta => return [.bytes (encodeIinc index delta)]
  | type op name => return [.bytes (op :: Bytes.ofU2 (← Pooling.classRef name))]
  | field op owner name descriptor =>
    return [.bytes (op :: Bytes.ofU2 (← Pooling.field owner name descriptor))]
  | method op owner name descriptor onInterface => do
    let index ← Pooling.method owner name descriptor onInterface
    -- The count is in slots, the receiver's included.
    if op = Opcode.invokeinterface then
      let d ← Pooling.lift (MethodDescriptor.parse descriptor)
      return [.bytes (op :: Bytes.ofU2 index ++ [(d.paramSlots + 1).toUInt8, 0])]
    else return [.bytes (op :: Bytes.ofU2 index)]
  | callSite index => do
    -- The index is of the pool the class was read with, which only grows.
    let pool ← get
    if pool.origin.isNone || pool.next ≤ index.toNat then Pooling.fail (.unsupported .callSite)
    return [.bytes (Opcode.invokedynamic :: Bytes.ofU2 index ++ [0, 0])]
  | ldc constant => return [.bytes (encodeLdc constant.isWide (← Pooling.constant constant))]
  | jump op target =>
    -- The wide forms are kept wide; the others have to fit two bytes.
    if op = Opcode.gotoW ∨ op = Opcode.jsrW then return [.bytes [op], .far target]
    else return [.bytes [op], .near target]
  | tableSwitch low high default targets => do
    if high.toInt - low.toInt + 1 ≠ targets.length then
      Pooling.fail (.internal (.switchTargets low.toInt high.toInt targets.length))
    return [.bytes (switchStart Opcode.tableswitch offset), .far default,
      .bytes (Bytes.ofU4 low.toUInt32 ++ Bytes.ofU4 high.toUInt32)] ++ targets.map .far
  | lookupSwitch default pairs =>
    return [.bytes (switchStart Opcode.lookupswitch offset), .far default,
      .bytes (Bytes.ofU4 (UInt32.ofNat pairs.length))]
      ++ pairs.flatMap fun (key, target) => [.bytes (Bytes.ofU4 key.toUInt32), .far target]
  | multiArray name dimensions =>
    return [.bytes (Opcode.multianewarray :: Bytes.ofU2 (← Pooling.classRef name) ++ [dimensions])]

end Insn

end RoundingPatch.ClassFile
