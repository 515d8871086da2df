import Std.Data.TreeMap
import Std.Data.TreeSet
import RoundingPatch.ClassFile.Basic
/-!
# Method bodies

A body is read in two steps. `Body.parse` decodes the instructions and the tables of a `Code`
attribute and checks that every offset they mention is the start of an instruction or the end of
the code. `Body.events` then lists the body in order: each position that is mentioned anywhere
shows its label, its stack map frame and its line numbers before its instruction, and the local
variables come last.

A failure between two events hides nothing that came before it, so `Member.decode` answers with
the events up to the failure as well as the failure.
-/

namespace RoundingPatch.ClassFile

/-- A decoded `Code` attribute. -/
structure Body where
  maxStack : UInt16
  maxLocals : UInt16
  /-- The number of bytes of code. -/
  length : Nat
  /-- The instructions, each with its offset. -/
  insns : List (Nat × Insn)
  handlers : List TryCatch := []
  /-- The line numbers, each with the offset it starts at. -/
  lines : List (Nat × UInt16) := []
  locals : List LocalVariable := []
  /-- The stack map frames, each with its offset. -/
  frames : List (Nat × Frame) := []

/-- The bytes between the opcode of a switch at `offset` and its first operand. -/
def switchPadding (offset : Nat) : Nat :=
  (4 - (offset + 1) % 4) % 4

namespace Body

/-- The label of an offset. -/
def labelAt (offset : Nat) : Label :=
  Label.atOffset (UInt32.ofNat offset)

/-! ### Instructions -/

/-- The label of a branch from `offset` over `distance` bytes in code of `length` bytes. -/
def branchTarget (length offset : Nat) (distance : Int32) : Read Label :=
  let target := (offset : Int) + distance.toInt
  if 0 ≤ target ∧ target < length then return labelAt target.toNat
  else Read.malformed (.branchOutside offset target)

/-- Reads the operands of a `tableswitch`. -/
def readTableSwitch (length offset : Nat) : Read Insn := do
  Read.skip (switchPadding offset) "switch padding"
  let default ← branchTarget length offset (← Read.i4 "default")
  let low ← Read.i4 "low"
  let high ← Read.i4 "high"
  if high < low then Read.malformed (.switchRange offset high.toInt low.toInt)
  let count := (high.toInt - low.toInt + 1).toNat
  if (← Read.cursor).remaining < count * 4 then Read.malformed (.switchTargets offset count)
  let targets ← Read.many count do branchTarget length offset (← Read.i4 "jump offset")
  return .tableSwitch low high default targets

/-- Reads the operands of a `lookupswitch`. -/
def readLookupSwitch (length offset : Nat) : Read Insn := do
  Read.skip (switchPadding offset) "switch padding"
  let default ← branchTarget length offset (← Read.i4 "default")
  let count ← Read.i4 "npairs"
  if count < 0 ∨ (← Read.cursor).remaining < count.toInt.toNat * 8 then
    Read.malformed (.switchPairs offset count.toInt)
  let pairs ← Read.many count.toInt.toNat do
    let key ← Read.i4 "match"
    return (key, ← branchTarget length offset (← Read.i4 "jump offset"))
  return .lookupSwitch default pairs

/-- Reads what follows the `wide` opcode. -/
def readWidened (offset : Nat) : Read Insn := do
  let op ← Read.u1 "wide opcode"
  if op = Opcode.iinc then
    let index ← Read.u2 "iinc index"
    return .iinc index (← Read.i2 "iinc delta")
  else if Opcode.isVar op then return .var op (← Read.u2 "local index")
  else Read.malformed (.badWide op offset)

/-- Reads the instruction at `offset` in code of `length` bytes. -/
def readInsn (pool : ConstantPool) (length offset : Nat) : Read Insn := do
  let op ← Read.u1 "opcode"
  match Opcode.operands op with
  | .none => return .simple op
  | .packedLocal access index => return .var access index
  | .signedByte => return .int op (← Read.i1 "bipush operand").toInt32
  | .signedShort => return .int op (← Read.i2 "sipush operand").toInt32
  | .elementType => return .int op (← Read.u1 "newarray type").toUInt32.toInt32
  | .constantByte => return .ldc (← Read.lift (pool.loadable (← Read.u1 "ldc index").toUInt16))
  | .constantShort => return .ldc (← Read.lift (pool.loadable (← Read.u2 "ldc index")))
  | .localByte => return .var op (← Read.u1 "local index").toUInt16
  | .increment =>
    let index ← Read.u1 "iinc index"
    return .iinc index.toUInt16 (← Read.i1 "iinc delta").toInt16
  | .branch =>
    let distance ← Read.i2 "branch offset"
    return .jump op (← branchTarget length offset distance.toInt32)
  -- A wide branch is kept as its short form; one that needs more is refused when it is written.
  | .wideBranch short =>
    let distance ← Read.i4 "branch offset"
    return .jump short (← branchTarget length offset distance)
  | .tableSwitch => readTableSwitch length offset
  | .lookupSwitch => readLookupSwitch length offset
  | .field =>
    let ref ← Read.lift (pool.member (← Read.u2 "field index"))
    if ref.kind ≠ .field then Read.malformed (.fieldInsnOnMethod offset)
    return .field op ref.owner ref.name ref.descriptor
  | .method =>
    let ref ← Read.lift (pool.member (← Read.u2 "method index"))
    if ref.kind = .field then Read.malformed (.invokeOnField offset)
    return .method op ref.owner ref.name ref.descriptor (ref.kind == .interfaceMethod)
  -- The count follows from the descriptor, so it is not kept.
  | .interfaceMethod =>
    let ref ← Read.lift (pool.member (← Read.u2 "method index"))
    Read.skip 2 "invokeinterface count"
    return .method op ref.owner ref.name ref.descriptor true
  | .callSite =>
    let index ← Read.u2 "invokedynamic index"
    Read.skip 2 "invokedynamic padding"
    return .callSite index
  | .classRef => return .type op (← Read.lift (pool.className (← Read.u2 "class index")))
  | .multiArray =>
    let name ← Read.lift (pool.className (← Read.u2 "class index"))
    return .multiArray name (← Read.u1 "dimensions")
  | .widened => readWidened offset
  | .unknown => Read.malformed (.unknownOpcode op offset)

/-- Reads instructions to the end of the code, at most `fuel` of them. The instructions read so
far are `done`, the last one first. -/
def readInsns (pool : ConstantPool) (length : Nat) :
    (fuel : Nat) → (done : List (Nat × Insn)) → Read (List (Nat × Insn))
  | 0, done => return done.reverse
  | fuel + 1, done => do
    let c ← Read.cursor
    if c.rest.isEmpty then return done.reverse
    let insn ← readInsn pool length c.pos
    readInsns pool length fuel ((c.pos, insn) :: done)

/-- The instructions of a code array. Each takes at least one byte. -/
def decodeInsns (pool : ConstantPool) (code : Bytes) : Except Fault (List (Nat × Insn)) :=
  Read.runOn (readInsns pool code.length code.length []) code

/-! ### Tables -/

/-- Reads an exception handler. -/
def readHandler (pool : ConstantPool) : Read TryCatch := do
  let start ← Read.u2 "start_pc"
  let stop ← Read.u2 "end_pc"
  let handler ← Read.u2 "handler_pc"
  let catchType ← Read.lift (pool.className? (← Read.u2 "catch_type"))
  return {
    start := labelAt start.toNat, stop := labelAt stop.toNat, handler := labelAt handler.toNat
    catchType }

/-- Reads a table of line numbers. -/
def readLines : Read (List (Nat × UInt16)) := do
  let count ← Read.u2 "line_number_table_length"
  Read.many count.toNat do
    let start ← Read.u2 "start_pc"
    return (start.toNat, ← Read.u2 "line_number")

/-- Reads a table of local variables. -/
def readLocals (pool : ConstantPool) (table : LocalTable) : Read (List LocalVariable) := do
  let count ← Read.u2 "local_variable_table_length"
  Read.many count.toNat do
    let start ← Read.u2 "start_pc"
    let length ← Read.u2 "length"
    let name ← Read.lift (pool.utf8 (← Read.u2 "name_index"))
    let descriptor ← Read.lift (pool.utf8 (← Read.u2 "descriptor_index"))
    let index ← Read.u2 "index"
    return {
      table, name, descriptor, index
      start := labelAt start.toNat, stop := labelAt (start.toNat + length.toNat) }

/-- Reads a verification type. -/
def readVType (pool : ConstantPool) : Read VType := do
  let tag ← Read.u1 "verification type tag"
  match tag.toNat with
  | 0 => return .top
  | 1 => return .integer
  | 2 => return .float
  | 3 => return .double
  | 4 => return .long
  | 5 => return .null
  | 6 => return .uninitializedThis
  | 7 => return .object (← Read.lift (pool.className (← Read.u2 "cpool_index")))
  | 8 => return .uninitialized (labelAt (← Read.u2 "offset").toNat)
  | other => Read.malformed (.unknownTypeTag other)

/-- Reads a stack map frame, with the step from the frame before it. -/
def readFrame (pool : ConstantPool) : Read (Nat × Frame) := do
  let frameType := (← Read.u1 "frame_type").toNat
  -- The first two ranges carry the step in the type itself, the others in the two bytes behind it.
  if frameType ≤ 63 then return (frameType, .same)
  else if frameType ≤ 127 then return (frameType - 64, .sameWithOne (← readVType pool))
  else if frameType < 247 then Read.malformed (.reservedFrame frameType)
  else
    let delta := (← Read.u2 "offset_delta").toNat
    if frameType = 247 then return (delta, .sameWithOne (← readVType pool))
    else if frameType ≤ 250 then return (delta, .chop (UInt8.ofNat (251 - frameType)))
    else if frameType = 251 then return (delta, .same)
    else if frameType ≤ 254 then
      return (delta, .append (← Read.many (frameType - 251) (readVType pool)))
    else
      let localCount ← Read.u2 "number_of_locals"
      let locals ← Read.many localCount.toNat (readVType pool)
      let stackCount ← Read.u2 "number_of_stack_items"
      let stack ← Read.many stackCount.toNat (readVType pool)
      return (delta, .full locals stack)

/-- The offset of a frame that stands `delta` after the frame at `previous`. -/
def frameOffset (previous : Option Nat) (delta : Nat) : Nat :=
  match previous with
  | none => delta
  | some previous => previous + delta + 1

/-- Reads `count` frames that follow the frame at `previous`. -/
def readFrames (pool : ConstantPool) (length : Nat) :
    (count : Nat) → (previous : Option Nat) → Read (List (Nat × Frame))
  | 0, _ => return []
  | count + 1, previous => do
    let (delta, frame) ← readFrame pool
    let offset := frameOffset previous delta
    if length ≤ offset then Read.malformed (.framePastEnd offset)
    let rest ← readFrames pool length count (some offset)
    return (offset, frame) :: rest

/-- Reads a table of stack map frames for code of `length` bytes. -/
def readFrameTable (pool : ConstantPool) (length : Nat) : Read (List (Nat × Frame)) := do
  let count ← Read.u2 "number_of_entries"
  readFrames pool length count.toNat none

/-- Adds the table in one attribute of the code to a body. -/
def addTable (pool : ConstantPool) (body : Body) (attr : RawAttribute) : Except Fault Body := do
  match attr.name with
  -- A body may have several tables of one kind; they are one behind the other.
  | "LineNumberTable" =>
    let lines ← Read.runOn readLines attr.info
    return { body with lines := body.lines ++ lines }
  | "LocalVariableTable" =>
    let locals ← Read.runOn (readLocals pool .descriptors) attr.info
    return { body with locals := body.locals ++ locals }
  | "LocalVariableTypeTable" =>
    let locals ← Read.runOn (readLocals pool .signatures) attr.info
    return { body with locals := body.locals ++ locals }
  | "StackMapTable" =>
    let frames ← Read.runOn (readFrameTable pool body.length) attr.info
    return { body with frames := body.frames ++ frames }
  | other => .error (.unsupported (.codeAttribute other))

/-! ### Offsets that are mentioned -/

/-- The labels in a verification type. -/
def vtypeLabels : VType → List Label
  | .uninitialized label => [label]
  | _ => []

/-- The labels in a stack map frame. -/
def frameLabels : Frame → List Label
  | .same | .chop _ => []
  | .sameWithOne stack => vtypeLabels stack
  | .append locals => locals.flatMap vtypeLabels
  | .full locals stack => locals.flatMap vtypeLabels ++ stack.flatMap vtypeLabels

/-- Every offset the instructions and tables of a body mention. -/
def references (body : Body) : List Nat :=
  (body.insns.flatMap fun (_, insn) => insn.targets.map offsetOf)
    ++ (body.handlers.flatMap fun h => [offsetOf h.start, offsetOf h.stop, offsetOf h.handler])
    ++ body.lines.map (·.1)
    ++ (body.locals.flatMap fun v => [offsetOf v.start, offsetOf v.stop])
    ++ (body.frames.flatMap fun (offset, frame) => offset :: (frameLabels frame).map offsetOf)
where
  /-- The offset behind a label. -/
  offsetOf (label : Label) : Nat :=
    label.id.toNat

/-- Checks that every offset mentioned is an instruction or the end of the code. Of several that are
neither, the first in the order of `references` is reported; which one it is carries no meaning, and
nothing but the text of the fault depends on it. -/
def checkReferences (body : Body) : Except Fault Unit :=
  -- Labels become offsets here, and an offset inside an instruction has no label.
  let starts := Std.TreeSet.ofList (body.insns.map (·.1))
  match body.references.find? fun offset => offset ≠ body.length && !starts.contains offset with
  | some offset => .error (.malformed (.notABoundary offset))
  | none => .ok ()

/-! ### The whole attribute -/

/-- Reads a `Code` attribute. -/
def read (pool : ConstantPool) : Read Body := do
  let maxStack ← Read.u2 "max_stack"
  let maxLocals ← Read.u2 "max_locals"
  let length := (← Read.u4 "code_length").toNat
  if length = 0 ∨ 65536 ≤ length then Read.malformed (.codeLength length)
  let code ← Read.take length "code"
  let insns ← Read.lift (decodeInsns pool code)
  let handlerCount ← Read.u2 "exception_table_length"
  let handlers ← Read.many handlerCount.toNat (readHandler pool)
  -- The tables are checked against the code as a whole, once all of them are read.
  let attributes ← readAttributes pool
  let body ← Read.lift (attributes.foldlM (addTable pool)
    { maxStack, maxLocals, length, insns, handlers })
  Read.lift body.checkReferences
  return body

/-- The body in the bytes of a `Code` attribute. Bytes after its tables are passed over. -/
def parse (pool : ConstantPool) (info : Bytes) : Except Fault Body :=
  Read.runOn (read pool) info

/-! ### Events -/

/-- The line numbers of each offset, in the order of the table. -/
def linesByOffset (body : Body) : Std.TreeMap Nat (List UInt16) :=
  body.lines.foldr
    (fun (offset, line) table => table.insert offset (line :: table.getD offset [])) {}

/-- What stands at an offset: its label, its frame and its lines if it is mentioned, then its
instruction. -/
def eventsAt (mentioned : Std.TreeSet Nat) (frames : Std.TreeMap Nat Frame)
    (lines : Std.TreeMap Nat (List UInt16)) (offset : Nat) (insn : Insn) : List MethodEvent :=
  if mentioned.contains offset then
    .label (labelAt offset)
      :: (frames[offset]?.toList.map .frame)
      ++ ((lines.getD offset []).map fun line => .line line (labelAt offset))
      ++ [.insn insn]
  else [.insn insn]

/-- A body as events. -/
def events (body : Body) : List MethodEvent :=
  let mentioned := Std.TreeSet.ofList body.references
  let frames := Std.TreeMap.ofList body.frames
  let lines := body.linesByOffset
  .code body.maxStack body.maxLocals
    :: body.handlers.map .tryCatch
    ++ (body.insns.flatMap fun (offset, insn) => eventsAt mentioned frames lines offset insn)
    ++ (if mentioned.contains body.length then [.label (labelAt body.length)] else [])
    ++ body.locals.map .localVariable

end Body

/-! ### Methods -/

/-- What decoding a method yields: its events, and the failure that cut them short if there was
one. -/
structure Transcript where
  events : List MethodEvent
  failure : Option Fault := none

/-- Splits the attributes of a method into those that become events and its code. A second `Code`
attribute ends the list. -/
def splitCode (method : String) (code : Option Bytes) :
    List RawAttribute → List MethodEvent × Except Fault (Option Bytes)
  | [] => ([], .ok code)
  | attr :: rest =>
    if attr.name = "Code" then
      if code.isSome then ([], .error (.malformed (.twoCodeAttributes method)))
      else splitCode method (some attr.info) rest
    else
      let (events, answer) := splitCode method code rest
      (.attribute attr :: events, answer)

/-- The events of a method. -/
def Member.decode (pool : ConstantPool) (m : Member) : Transcript :=
  match splitCode m.name none m.attributes with
  | (events, .error fault) => { events, failure := some fault }
  | (events, .ok none) => { events := events ++ [.done] }
  | (events, .ok (some info)) =>
    match Body.parse pool info with
    | .error fault => { events, failure := some fault }
    | .ok body => { events := events ++ body.events ++ [.done] }

/-- Feeds the events of a transcript to `step`; whichever fails first decides. -/
def Transcript.replay (step : σ → MethodEvent → Except Fault σ) (start : σ) (t : Transcript) :
    Except Fault σ := do
  let answer ← t.events.foldlM step start
  match t.failure with
  | none => return answer
  | some fault => .error fault

/-! ### Visitors -/

variable {μ : Type → Type} [Monad μ] {α : Type}

/-- What a visitor of a class does at each part of it: nothing, unless it says otherwise. -/
structure Visitor (μ : Type → Type) [Monad μ] (α : Type) where
  header : Header → μ Unit := fun _ => return
  field : Member → μ Unit := fun _ => return
  /-- At a method it also says what to do with its events, if it wants to see them. -/
  method : Member → μ (Option (Transcript → μ α)) := fun _ => return none
  rawAttribute : RawAttribute → μ Unit := fun _ => return
  done : μ Unit := return

/-- Shows a method to a visitor. It is only decoded if the visitor wants its events. -/
def Visitor.visit (v : Visitor μ α) (pool : ConstantPool) (m : Member) : μ (Option α) := do
  match ← v.method m with
  | none => return none
  | some take => some <$> take (m.decode pool)

/-- Shows a class to a visitor, from its header to its attributes. The answer is what the visitor
made of the methods whose events it took. -/
def accept (c : ClassFile) (v : Visitor μ α) : μ (List α) := do
  v.header c.header
  c.fields.forM v.field
  let taken ← c.methods.filterMapM (v.visit c.pool)
  c.attributes.forM v.rawAttribute
  v.done
  return taken

end RoundingPatch.ClassFile
