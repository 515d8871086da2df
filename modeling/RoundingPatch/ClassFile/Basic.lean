import RoundingPatch.ClassFile.Access
import RoundingPatch.ClassFile.Pool.Basic
/-!
# Class files

A class file is a header, a constant pool, and lists of fields, methods and attributes. Reading
one checks the outer structure and looks up the names it needs; method bodies stay bytes, see
`Member.decode`. Every member keeps the bytes it was read from.
-/

namespace RoundingPatch.ClassFile

/-- What a class says about itself before its members. -/
structure Header where
  minor : UInt16
  major : UInt16
  access : Access
  name : String
  superName : Option String
  interfaces : List String
  deriving DecidableEq

/-- A field or a method. -/
structure Member where
  access : Access
  name : String
  descriptor : String
  /-- All bytes of the member. -/
  raw : Bytes
  attributes : List RawAttribute

end ClassFile

open ClassFile

/-- A class file. -/
structure ClassFile where
  pool : ConstantPool
  header : Header
  fields : List Member
  methods : List Member
  attributes : List RawAttribute

namespace ClassFile

/-! ### Reading -/

/-- The number every class file starts with. -/
def magic : UInt32 := 0xcafebabe

/-- The versions that can be read. -/
def isKnownVersion (major : UInt16) : Bool :=
  45 ≤ major && major ≤ 69

/-- `read` with its faults changed by `f`. -/
def relabel (f : Fault → Fault) (read : Read α) : Read α := fun c =>
  match read c with
  | .ok answer => .ok answer
  | .error fault => .error (f fault)

/-- Reads one attribute. -/
def readAttribute (pool : ConstantPool) : Read RawAttribute := do
  let name ← Read.lift (pool.utf8 (← Read.u2 "attribute_name_index"))
  let length ← Read.u4 "attribute_length"
  return { name, info := ← Read.take length.toNat "attribute info" }

/-- Reads a counted list of attributes. -/
def readAttributes (pool : ConstantPool) : Read (List RawAttribute) := do
  let count ← Read.u2 "attributes_count"
  Read.many count.toNat (readAttribute pool)

/-- Reads one member; `what` says which sort of member it is. -/
def readMember (pool : ConstantPool) (what : String) : Read Member := do
  let start ← Read.cursor
  let access ← Read.u2 "access_flags"
  let name ← Read.lift (pool.utf8 (← Read.u2 "name_index"))
  let descriptor ← Read.lift (pool.utf8 (← Read.u2 "descriptor_index"))
  let attributes ← relabel
    (fun fault => .malformed (.inMember what name descriptor fault.message))
    (readAttributes pool)
  return { access, name, descriptor, attributes, raw := start.upTo (← Read.cursor) }

/-- Reads a counted list of members. -/
def readMembers (pool : ConstantPool) (what : String) : Read (List Member) := do
  let count ← Read.u2 "member count"
  Read.many count.toNat (readMember pool what)

/-- The first method whose name and descriptor an earlier one has. -/
def firstRepeated (seen : List (String × String)) : List Member → Option Member
  | [] => none
  | m :: rest =>
    if seen.contains (m.name, m.descriptor) then some m
    else firstRepeated ((m.name, m.descriptor) :: seen) rest

/-- Reads a class file, which has to end where its bytes end. -/
def read : Read ClassFile := do
  let found ← Read.u4 "magic"
  if found ≠ magic then Read.malformed (.badMagic found.toNat)
  let minor ← Read.u2 "minor_version"
  let major ← Read.u2 "major_version"
  if !isKnownVersion major then throw (.unsupported (.majorVersion major.toNat))
  let pool ← ConstantPool.read
  let access ← Read.u2 "access_flags"
  let name ← Read.lift (pool.className (← Read.u2 "this_class"))
  let superName ← Read.lift (pool.className? (← Read.u2 "super_class"))
  let interfaceCount ← Read.u2 "interfaces_count"
  let interfaces ← Read.many interfaceCount.toNat do
    Read.lift (pool.className (← Read.u2 "interface"))
  let fields ← readMembers pool "field"
  let methods ← readMembers pool "method"
  let attributes ← readAttributes pool
  let left := (← Read.cursor).remaining
  if left ≠ 0 then Read.malformed (.trailingBytes left)
  if let some m := firstRepeated [] methods then
    Read.malformed (.duplicateMethod m.name m.descriptor)
  return {
    pool, fields, methods, attributes
    header := { minor, major, access, name, superName, interfaces } }

/-- The class file with the given bytes. -/
def parse (bytes : Bytes) : Except Fault ClassFile :=
  Read.runOn read bytes

/-! ### Members -/

/-- The internal name of the class. -/
def name (c : ClassFile) : String :=
  c.header.name

/-- Whether a member has a name and a descriptor. -/
def Member.isNamed (name descriptor : String) (m : Member) : Bool :=
  m.name == name && m.descriptor == descriptor

/-- Whether the class declares a field. -/
def hasField (c : ClassFile) (name descriptor : String) : Bool :=
  c.fields.any (·.isNamed name descriptor)

/-- The method with a name and a descriptor. -/
def method? (c : ClassFile) (name descriptor : String) : Option Member :=
  c.methods.find? (·.isNamed name descriptor)

/-- Whether the class declares a method. -/
def hasMethod (c : ClassFile) (name descriptor : String) : Bool :=
  (c.method? name descriptor).isSome

/-- The methods with a name, whatever their descriptors. -/
def methodsNamed (c : ClassFile) (name : String) : List Member :=
  c.methods.filter (·.name == name)

end ClassFile

end RoundingPatch
