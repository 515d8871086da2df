import RoundingPatch.ClassFile.Code.Encode
/-!
# Laying out methods

A method to be written is a header and its events. Laying it out takes two passes: `Layout.place`
gives every label, frame and instruction its offset, and `Layout.code` then fills in the distances
between them. `MethodSource.finish` adds the tables and yields the bytes of the method together
with the offsets of its labels.
-/

namespace RoundingPatch.ClassFile

/-- A method to be written: its header and its events. -/
structure MethodSource where
  access : Access
  name : String
  descriptor : String
  events : List MethodEvent := []

namespace MethodSource

/-- The limits of the body, from the last event that gives them. -/
def limits (m : MethodSource) : Option (UInt16 × UInt16) :=
  m.events.foldl (fun found event =>
    match event with
    | .code maxStack maxLocals => some (maxStack, maxLocals)
    | _ => found) none

/-- The exception handlers, in order. -/
def handlers (m : MethodSource) : List TryCatch :=
  m.events.filterMap fun
    | .tryCatch handler => some handler
    | _ => none

/-- The line numbers, in order. -/
def lines (m : MethodSource) : List (UInt16 × Label) :=
  m.events.filterMap fun
    | .line number start => some (number, start)
    | _ => none

/-- The local variables of one table, in order. -/
def localsIn (m : MethodSource) (table : LocalTable) : List LocalVariable :=
  m.events.filterMap fun
    | .localVariable v => if v.table = table then some v else none
    | _ => none

/-- The attributes of the method itself, in order. -/
def attributes (m : MethodSource) : List RawAttribute :=
  m.events.filterMap fun
    | .attribute attr => some attr
    | _ => none

end MethodSource

/-- The offsets of labels. -/
abbrev Offsets := Std.TreeMap Label Nat

/-- The offset of a label. -/
def offsetIn (offsets : Offsets) (label : Label) : Except Fault Nat :=
  match offsets[label]? with
  | some offset => .ok offset
  | none => .error (.internal (.unboundLabel label))

/-! ### Offsets -/

/-- The part of a method that has its offsets. -/
structure Layout where
  /-- The number of bytes of code. -/
  size : Nat := 0
  /-- The encoded instructions, each with its offset. -/
  placed : Array (Nat × List Chunk) := #[]
  offsets : Offsets := {}
  /-- The stack map frames, each with its offset. -/
  frames : Array (Nat × Frame) := #[]

namespace Layout

/-- The next offset. -/
def next (layout : Layout) : Except Fault Nat :=
  if layout.size ≤ 65535 then .ok layout.size else .error (.unsupported .codeTooLong)

/-- Places the next event of method `method`. -/
def place (method : String) (layout : Layout) : MethodEvent → Pooling Layout
  | .label label => do
    let offset ← Pooling.lift layout.next
    -- A label is bound once and an offset has one frame: whoever makes the events sees to it.
    if layout.offsets.contains label then Pooling.fail (.internal (.boundTwice label method))
    return { layout with offsets := layout.offsets.insert label offset }
  | .frame frame => do
    let offset ← Pooling.lift layout.next
    if layout.frames.back?.any (·.1 == offset) then
      Pooling.fail (.internal (.twoFrames offset method))
    return { layout with frames := layout.frames.push (offset, frame) }
  | .insn insn => do
    let offset ← Pooling.lift layout.next
    let chunks ← insn.encode offset
    return { layout with
      size := offset + chunksSize chunks, placed := layout.placed.push (offset, chunks) }
  | _ => return layout

/-- Places all events of a method. -/
def ofMethod (m : MethodSource) : Pooling Layout :=
  m.events.foldlM (place m.name) {}

/-! ### Distances -/

/-- The bytes of a chunk of the instruction at `offset`. -/
def resolve (offsets : Offsets) (offset : Nat) : Chunk → Except Fault Bytes
  | .bytes bs => .ok bs
  | .near target => do
    let distance := ((← offsetIn offsets target) : Int) - offset
    if -32768 ≤ distance ∧ distance ≤ 32767 then
      return Bytes.ofU2 (Int16.ofInt distance).toUInt16
    else .error (.unsupported (.branchSpan offset distance))
  | .far target => do
    let distance := ((← offsetIn offsets target) : Int) - offset
    return Bytes.ofU4 (Int32.ofInt distance).toUInt32

/-- The code, with every distance filled in. -/
def code (layout : Layout) : Except Fault Bytes := do
  let pieces := layout.placed.toList.flatMap fun (offset, chunks) => chunks.map (offset, ·)
  let resolved ← pieces.mapM fun (offset, chunk) => resolve layout.offsets offset chunk
  return resolved.flatten

/-! ### Tables -/

/-- An offset as a field of two bytes. -/
def offsetU2 (layout : Layout) (label : Label) : Except Fault UInt16 :=
  UInt16.ofNat <$> offsetIn layout.offsets label

/-- The bytes of an attribute. -/
def namedAttribute (name : String) (info : Bytes) : Pooling Bytes := do
  let index ← Pooling.utf8 name
  let length ← Pooling.lift (lengthU4 info.length name)
  return Bytes.ofU2 index ++ Bytes.ofU4 length ++ info

/-- A counted table with the bytes of each of its rows. -/
def table (what : String) (rows : List α) (encode : α → Pooling Bytes) : Pooling Bytes := do
  let count ← Pooling.lift (countU2 rows.length what)
  let encoded ← rows.mapM encode
  return Bytes.ofU2 count ++ encoded.flatten

/-- The bytes of an exception handler. -/
def encodeHandler (layout : Layout) (handler : TryCatch) : Pooling Bytes := do
  let start ← Pooling.lift (layout.offsetU2 handler.start)
  let stop ← Pooling.lift (layout.offsetU2 handler.stop)
  let entry ← Pooling.lift (layout.offsetU2 handler.handler)
  let catchType ← match handler.catchType with
    | some name => Pooling.classRef name
    | none => pure 0
  return Bytes.ofU2 start ++ Bytes.ofU2 stop ++ Bytes.ofU2 entry ++ Bytes.ofU2 catchType

/-- The bytes of a line number. -/
def encodeLine (layout : Layout) (line : UInt16 × Label) : Pooling Bytes := do
  let start ← Pooling.lift (layout.offsetU2 line.2)
  return Bytes.ofU2 start ++ Bytes.ofU2 line.1

/-- The bytes of a local variable. -/
def encodeLocal (layout : Layout) (v : LocalVariable) : Pooling Bytes := do
  let start ← Pooling.lift (layout.offsetU2 v.start)
  let stop ← Pooling.lift (layout.offsetU2 v.stop)
  if stop < start then Pooling.fail (.internal (.localBackwards v.name))
  let name ← Pooling.utf8 v.name
  let descriptor ← Pooling.utf8 v.descriptor
  return Bytes.ofU2 start ++ Bytes.ofU2 (stop - start) ++ Bytes.ofU2 name ++ Bytes.ofU2 descriptor
    ++ Bytes.ofU2 v.index

/-- The bytes of a verification type. -/
def encodeVType (layout : Layout) : VType → Pooling Bytes
  | .top => return [0]
  | .integer => return [1]
  | .float => return [2]
  | .double => return [3]
  | .long => return [4]
  | .null => return [5]
  | .uninitializedThis => return [6]
  | .object name => return 7 :: Bytes.ofU2 (← Pooling.classRef name)
  | .uninitialized label => return 8 :: Bytes.ofU2 (← Pooling.lift (layout.offsetU2 label))

/-- The bytes of a frame that stands `delta` after the frame before it. -/
def encodeFrame (layout : Layout) (delta : Nat) (frame : Frame) : Pooling Bytes := do
  if 65536 ≤ delta then Pooling.fail (.unsupported .frameDelta)
  let wideDelta := Bytes.ofU2 (UInt16.ofNat delta)
  match frame with
  -- The shortest form that holds the step is written.
  | .same => return if delta ≤ 63 then [UInt8.ofNat delta] else 251 :: wideDelta
  | .sameWithOne stack =>
    let start := if delta ≤ 63 then [UInt8.ofNat (64 + delta)] else 247 :: wideDelta
    return start ++ (← encodeVType layout stack)
  | .chop count =>
    if count < 1 ∨ 3 < count then Pooling.fail (.internal (.chopFrame count.toNat))
    return (251 - count) :: wideDelta
  | .append locals =>
    if locals.length < 1 ∨ 3 < locals.length then
      Pooling.fail (.internal (.appendFrame locals.length))
    let types ← locals.mapM (encodeVType layout)
    return UInt8.ofNat (251 + locals.length) :: wideDelta ++ types.flatten
  | .full locals stack =>
    let locals ← table "frame locals" locals (encodeVType layout)
    let stack ← table "frame stack" stack (encodeVType layout)
    return 255 :: wideDelta ++ locals ++ stack

/-- The bytes of frames that follow the frame at `previous`. -/
def encodeFrames (layout : Layout) : (previous : Option Nat) → List (Nat × Frame) → Pooling Bytes
  | _, [] => return []
  | previous, (offset, frame) :: rest => do
    let delta ← match previous with
      | none => pure offset
      | some previous =>
        if previous < offset then pure (offset - previous - 1)
        else Pooling.fail (.internal (.frameOrder offset previous))
    let bytes ← encodeFrame layout delta frame
    return bytes ++ (← encodeFrames layout (some offset) rest)

/-- The bytes of the stack map. -/
def stackMap (layout : Layout) : Pooling Bytes := do
  let count ← Pooling.lift (countU2 layout.frames.size "stack map frames")
  return Bytes.ofU2 count ++ (← encodeFrames layout none layout.frames.toList)

/-- The attribute of a table that is left out if there are no rows. -/
def tableAttribute (name what : String) (rows : List α) (encode : α → Pooling Bytes) :
    Pooling (List Bytes) := do
  if rows.isEmpty then return []
  let info ← table what rows encode
  return [← namedAttribute name info]

/-- The attributes of the code. -/
def codeAttributes (layout : Layout) (m : MethodSource) : Pooling (List Bytes) := do
  let lines ← tableAttribute "LineNumberTable" "line numbers" m.lines layout.encodeLine
  let locals ← tableAttribute "LocalVariableTable" "local variables"
    (m.localsIn .descriptors) layout.encodeLocal
  let signatures ← tableAttribute "LocalVariableTypeTable" "local variables"
    (m.localsIn .signatures) layout.encodeLocal
  let frames ← if layout.frames.isEmpty then pure [] else do
    let info ← layout.stackMap
    pure [← namedAttribute "StackMapTable" info]
  return lines ++ locals ++ signatures ++ frames

/-- The bytes of the `Code` attribute. -/
def codeAttribute (layout : Layout) (m : MethodSource) (limits : UInt16 × UInt16) (code : Bytes) :
    Pooling Bytes := do
  let length ← Pooling.lift (lengthU4 code.length "code")
  let handlers ← table "exception handlers" m.handlers layout.encodeHandler
  let attributes ← layout.codeAttributes m
  let count ← Pooling.lift (countU2 attributes.length "code attributes")
  namedAttribute "Code" (Bytes.ofU2 limits.1 ++ Bytes.ofU2 limits.2 ++ Bytes.ofU4 length ++ code
    ++ handlers ++ Bytes.ofU2 count ++ attributes.flatten)

end Layout

/-! ### Whole methods -/

/-- What is known of a method once it is laid out. -/
structure Emitted where
  name : String
  descriptor : String
  codeLength : Nat := 0
  offsets : Offsets := {}

/-- The offset of a label that is bound in the method. -/
def Emitted.offset? (e : Emitted) (label : Label) : Option Nat :=
  e.offsets[label]?

namespace MethodSource

/-- The `Code` attribute of a body with the given limits, with what is known of it. -/
def emitCode (m : MethodSource) (limits : UInt16 × UInt16) : Pooling (Bytes × Emitted) := do
  let layout ← Layout.ofMethod m
  let code ← Pooling.lift layout.code
  let codeLength ← Pooling.lift layout.next
  if codeLength = 0 then Pooling.fail (.internal (.emptyCode m.name))
  let bytes ← layout.codeAttribute m limits code
  return (bytes,
    { name := m.name, descriptor := m.descriptor, codeLength, offsets := layout.offsets })

/-- The bytes of a method, with what is known of it. -/
def finish (m : MethodSource) : Pooling (Bytes × Emitted) := do
  let name ← Pooling.utf8 m.name
  let descriptor ← Pooling.utf8 m.descriptor
  let (code, emitted) ← match m.limits with
    | some limits => do
      let (bytes, emitted) ← m.emitCode limits
      pure ([bytes], emitted)
    | none => pure ([], { name := m.name, descriptor := m.descriptor })
  -- Raw attributes refer to the pool they were read with.
  if !m.attributes.isEmpty && (← get).origin.isNone then
    Pooling.fail (.unsupported (.rawAttributes m.name))
  let others ← m.attributes.mapM fun attr => Layout.namedAttribute attr.name attr.info
  let attributes := code ++ others
  let count ← Pooling.lift (countU2 attributes.length "method attributes")
  return (Bytes.ofU2 m.access ++ Bytes.ofU2 name ++ Bytes.ofU2 descriptor ++ Bytes.ofU2 count
    ++ attributes.flatten, emitted)

end MethodSource

end RoundingPatch.ClassFile
