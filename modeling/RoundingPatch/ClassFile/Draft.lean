import RoundingPatch.ClassFile.Code.Layout
/-!
# Classes under construction

A draft collects the members of a class file. A draft that starts from a class file keeps its
constant pool, so members of that file can be copied as bytes; new members add what they need to
the pool. `ClassDraft.toBytes` writes the class file.

A step that fails leaves its traces: entries already added to the pool stay there, and the name
and descriptor of a method that could not be laid out stay taken.
-/

namespace RoundingPatch.ClassFile

/-- A class file under construction. -/
structure ClassDraft where
  header : Header
  pool : PoolBuilder := .empty
  fields : Array Bytes := #[]
  /-- The names and descriptors that fields have taken. -/
  fieldKeys : List (String × String) := []
  methods : Array Bytes := #[]
  /-- The names and descriptors that methods have taken. -/
  methodKeys : List (String × String) := []
  attributes : Array RawAttribute := #[]

/-- A step in the construction of a class. Changes made before a failure stay. -/
abbrev Drafting := ExceptT Fault (StateM ClassDraft)

namespace ClassDraft

/-- A draft without members that shares the header and the pool of `c`. -/
def ofClass (c : ClassFile) : ClassDraft where
  header := c.header
  pool := .ofPool c.pool

/-- Whether a field has taken a name and a descriptor. -/
def hasField (draft : ClassDraft) (name descriptor : String) : Bool :=
  draft.fieldKeys.contains (name, descriptor)

/-- Whether a method has taken a name and a descriptor. -/
def hasMethod (draft : ClassDraft) (name descriptor : String) : Bool :=
  draft.methodKeys.contains (name, descriptor)

/-! ### Members -/

/-- Gives up. -/
def fail (fault : Fault) : Drafting α :=
  throw fault

/-- A step that adds entries to the pool of the draft. -/
def pooling (step : Pooling α) : Drafting α :=
  ExceptT.mk fun draft =>
    let (answer, pool) := step.run draft.pool
    (answer, { draft with pool })

/-- Checks that `m`, a member of a class with pool `pool`, can be copied as bytes. -/
def checkOrigin (pool : ConstantPool) (m : Member) : Drafting Unit := do
  if (← get).pool.origin ≠ some pool.fingerprint then
    fail (.internal (.foreignMember m.name m.descriptor))

/-- Takes a name and a descriptor for a method. -/
def takeMethodKey (name descriptor : String) : Drafting Unit := do
  let draft ← get
  if draft.hasMethod name descriptor then fail (.internal (.methodTwice name descriptor))
  set { draft with methodKeys := (name, descriptor) :: draft.methodKeys }

/-- Copies a field of a class with pool `pool`. -/
def copyField (pool : ConstantPool) (m : Member) : Drafting Unit := do
  checkOrigin pool m
  modify fun draft => { draft with
    fields := draft.fields.push m.raw
    fieldKeys := (m.name, m.descriptor) :: draft.fieldKeys }

/-- Copies a method of a class with pool `pool`. -/
def copyMethod (pool : ConstantPool) (m : Member) : Drafting Unit := do
  checkOrigin pool m
  takeMethodKey m.name m.descriptor
  modify fun draft => { draft with methods := draft.methods.push m.raw }

/-- Adds a field without attributes. -/
def addField (access : Access) (name descriptor : String) : Drafting Unit := do
  if (← get).hasField name descriptor then fail (.internal (.fieldTwice name))
  let nameIndex ← pooling (Pooling.utf8 name)
  let descriptorIndex ← pooling (Pooling.utf8 descriptor)
  let bytes := Bytes.ofU2 access ++ Bytes.ofU2 nameIndex ++ Bytes.ofU2 descriptorIndex ++ [0, 0]
  modify fun draft => { draft with
    fields := draft.fields.push bytes
    fieldKeys := (name, descriptor) :: draft.fieldKeys }

/-- Lays out a method and adds it. -/
def commit (m : MethodSource) : Drafting Emitted := do
  takeMethodKey m.name m.descriptor
  let (bytes, emitted) ← pooling m.finish
  modify fun draft => { draft with methods := draft.methods.push bytes }
  return emitted

/-- Changes what the class says about itself. -/
def setHeader (header : Header) : Drafting Unit :=
  modify fun draft => { draft with header }

/-- Adds an attribute of the class. -/
def addAttribute (attr : RawAttribute) : Drafting Unit :=
  modify fun draft => { draft with attributes := draft.attributes.push attr }

/-! ### Writing -/

/-- The bytes of the class file, and what its pool came to. -/
def serialize (draft : ClassDraft) : Pooling Bytes := do
  let thisClass ← Pooling.classRef draft.header.name
  let superClass ← match draft.header.superName with
    | some name => Pooling.classRef name
    | none => pure 0
  let interfaces ← draft.header.interfaces.mapM Pooling.classRef
  if !draft.attributes.isEmpty && (← get).origin.isNone then
    Pooling.fail (.unsupported .rawClassAttributes)
  let attributes ← draft.attributes.toList.mapM fun attr =>
    Layout.namedAttribute attr.name attr.info
  -- All requests are made by now: the pool that is written is complete.
  let pool ← get
  let interfaceCount ← Pooling.lift (countU2 interfaces.length "interfaces")
  let fieldCount ← Pooling.lift (countU2 draft.fields.size "fields")
  let methodCount ← Pooling.lift (countU2 draft.methods.size "methods")
  let attributeCount ← Pooling.lift (countU2 attributes.length "class attributes")
  return Bytes.ofU4 magic
    ++ Bytes.ofU2 draft.header.minor
    ++ Bytes.ofU2 draft.header.major
    ++ Bytes.ofU2 (UInt16.ofNat pool.count) ++ pool.bytes
    ++ Bytes.ofU2 draft.header.access
    ++ Bytes.ofU2 thisClass
    ++ Bytes.ofU2 superClass
    ++ Bytes.ofU2 interfaceCount ++ interfaces.flatMap Bytes.ofU2
    ++ Bytes.ofU2 fieldCount ++ draft.fields.toList.flatten
    ++ Bytes.ofU2 methodCount ++ draft.methods.toList.flatten
    ++ Bytes.ofU2 attributeCount ++ attributes.flatten

/-- The bytes of the class file. -/
def toBytes (draft : ClassDraft) : Except Fault Bytes :=
  (draft.serialize.run draft.pool).1

/-! ### Copying -/

/-- The visitor that copies what it is shown of a class with pool `pool`, with its own way to treat
methods. -/
def copier (pool : ConstantPool) (method : Member → Drafting (Option (Transcript → Drafting α))) :
    Visitor Drafting α where
  header := setHeader
  field := copyField pool
  method := method
  rawAttribute := addAttribute

/-- Copies a method as bytes, and takes none of its events. -/
def passMethod (pool : ConstantPool) (m : Member) :
    Drafting (Option (Transcript → Drafting α)) := do
  copyMethod pool m
  return none

/-- Copies every member and attribute of `c`, of which the draft has to share the pool. -/
def copyAll (c : ClassFile) : Drafting Unit :=
  discard (c.accept (copier c.pool (passMethod c.pool) : Visitor Drafting Unit))

/-- What a construction that starts from `draft` ends with, if no step fails. -/
def build (draft : ClassDraft) (steps : Drafting α) : Except Fault Bytes :=
  match steps.run draft with
  | (.error fault, _) => .error fault
  | (.ok _, draft) => draft.toBytes

end ClassDraft

end RoundingPatch.ClassFile
