import RoundingPatch.ClassFile.Assembly
import RoundingPatch.Listing.Insn
/-!
# Listings of classes

Headers, pools, members and laid-out methods as JSON, and assemblies read from JSON. Parts of an
assembly that are left out have defaults: a class of version 52 without interfaces that derives
from `java/lang/Object`, and methods without flags and events.
-/

namespace RoundingPatch.ClassFile

/-! ### Headers and members -/

/-- A header in a listing. -/
def Header.toJson (h : Header) : Json :=
  .obj [("minor", .nat h.minor.toNat), ("major", .nat h.major.toNat),
    ("access", .nat h.access.toNat), ("name", .str h.name), ("super", .opt .str h.superName),
    ("interfaces", .list .str h.interfaces)]

/-- Reads a header. A superclass that is null is no superclass. -/
def Header.ofJson? (j : Json) : Option Header := do
  return {
    minor := ← j.fieldD "minor" Json.u2? 0
    major := ← j.fieldD "major" Json.u2? 52
    access := ← j.fieldD "access" Json.u2? Access.superFlag
    name := ← j.field? "name" Json.str?
    superName :=
      if j.hasKey "super" then (j.get? "super").bind Json.str? else some "java/lang/Object"
    interfaces := ← j.fieldD "interfaces" (Json.list? Json.str?) [] }

/-- A member in a listing, with its bytes. -/
def Member.toJson (m : Member) : Json :=
  .obj [("access", .nat m.access.toNat), ("name", .str m.name), ("desc", .str m.descriptor),
    ("raw", .hexBytes m.raw)]

/-! ### Pools -/

/-- The word for references to members of a kind. -/
def MemberKind.word : MemberKind → String
  | field => "fieldref"
  | method => "methodref"
  | interfaceMethod => "imethodref"

/-- The kind of member that references of a word are for. -/
def MemberKind.ofWord? : String → Option MemberKind
  | "fieldref" => some field
  | "methodref" => some method
  | "imethodref" => some interfaceMethod
  | _ => none

/-- A pool entry in a listing. -/
def PoolEntry.toJson : PoolEntry → Json
  | utf8 text => .row "utf8" [.str text]
  | integer value => .row "int" [.int value.toInt]
  | float bits => .row "float" [.bits32 bits]
  | long value => .row "long" [.decimal value.toInt]
  | double bits => .row "double" [.bits64 bits]
  | classRef name => .row "class" [index name]
  | string text => .row "string" [index text]
  | member kind owner named => .row kind.word [index owner, index named]
  | nameAndType name descriptor => .row "nat" [index name, index descriptor]
  | methodHandle kind reference => .row "handle" [.nat kind.toNat, index reference]
  | methodType descriptor => .row "methodtype" [index descriptor]
  | dynamic bootstrap named => .row "dynamic" [index bootstrap, index named]
  | callSite bootstrap named => .row "indy" [index bootstrap, index named]
  | module name => .row "module" [index name]
  | package name => .row "package" [index name]
where
  /-- An index into the pool. -/
  index (i : UInt16) : Json :=
    .nat i.toNat

/-- The entries of a pool, each with its index. -/
def ConstantPool.entriesJson (pool : ConstantPool) : Json :=
  .list (fun (index, entry) => .arr [.nat index.toNat, entry.toJson]) pool.entries

/-- A member reference in a listing. -/
def MemberRef.toJson (m : MemberRef) : Json :=
  .row m.kind.word [.str m.owner, .str m.name, .str m.descriptor]

/-! ### Methods and classes to be written -/

/-- What is known of a method that was laid out, with the offsets of some labels. -/
def Emitted.toJson (e : Emitted) (labels : List Label) : Json :=
  .obj [("name", .str e.name), ("desc", .str e.descriptor), ("code_length", .nat e.codeLength),
    ("labels", .list (fun l => .arr [l.toJson, .opt .nat (e.offset? l)]) labels)]

/-- The labels that a method binds, in order. -/
def MethodSource.labels (m : MethodSource) : List Label :=
  m.events.filterMap fun
    | .label l => some l
    | _ => none

/-- Reads a method. -/
def MethodSource.ofJson? (j : Json) : Option MethodSource := do
  return {
    access := ← j.fieldD "access" Json.u2? 0
    name := ← j.field? "name" Json.str?
    descriptor := ← j.field? "desc" Json.str?
    events := ← j.fieldD "events" events? [] }

/-- Reads a field. -/
def FieldSource.ofJson? : Json → Option FieldSource
  | .arr [access, name, descriptor] => do
    return { access := ← access.u2?, name := ← name.str?, descriptor := ← descriptor.str? }
  | _ => none

/-- Reads an assembly. -/
def Assembly.ofJson? (j : Json) : Option Assembly := do
  return {
    header := ← Header.ofJson? j
    fields := ← j.fieldD "fields" (Json.list? FieldSource.ofJson?) []
    methods := ← j.fieldD "methods" (Json.list? MethodSource.ofJson?) [] }

end RoundingPatch.ClassFile
