import RoundingPatch.Bytes.Cursor
import RoundingPatch.Text.ModifiedUtf8
/-!
# Entries of a constant pool

An entry is a tag byte and a payload. Entries refer to one another by index. Numbers with a
fraction are kept as their bits, so that every entry reads back as it was written.
-/

namespace RoundingPatch.ClassFile

/-- The kinds of member a reference may name. -/
inductive MemberKind
  | field
  | method
  | interfaceMethod
  deriving DecidableEq

/-- An entry of a constant pool. -/
inductive PoolEntry
  | utf8 (text : String)
  | integer (value : Int32)
  | float (bits : UInt32)
  | long (value : Int64)
  | double (bits : UInt64)
  | classRef (name : UInt16)
  | string (text : UInt16)
  | member (kind : MemberKind) (owner named : UInt16)
  | nameAndType (name descriptor : UInt16)
  | methodHandle (kind : UInt8) (reference : UInt16)
  | methodType (descriptor : UInt16)
  | dynamic (bootstrap named : UInt16)
  | callSite (bootstrap named : UInt16)
  | module (name : UInt16)
  | package (name : UInt16)
  deriving DecidableEq

namespace PoolEntry

/-- Whether an entry takes two indices. -/
def isWide : PoolEntry → Bool
  | long _ | double _ => true
  | _ => false

/-- The number of indices an entry takes. -/
def slots (e : PoolEntry) : Nat :=
  if e.isWide then 2 else 1

/-! ### Bytes -/

/-- The tag of a member reference. -/
def memberTag : MemberKind → UInt8
  | .field => 9
  | .method => 10
  | .interfaceMethod => 11

/-- The bytes of an entry. -/
def encode : PoolEntry → Bytes
  | utf8 text =>
    let bytes := ModifiedUtf8.encode text
    1 :: Bytes.ofU2 (UInt16.ofNat bytes.length) ++ bytes
  | integer value => 3 :: Bytes.ofU4 value.toUInt32
  | float bits => 4 :: Bytes.ofU4 bits
  | long value => 5 :: Bytes.ofU8 value.toUInt64
  | double bits => 6 :: Bytes.ofU8 bits
  | classRef name => 7 :: Bytes.ofU2 name
  | string text => 8 :: Bytes.ofU2 text
  | member kind owner named => memberTag kind :: Bytes.ofU2 owner ++ Bytes.ofU2 named
  | nameAndType name descriptor => 12 :: Bytes.ofU2 name ++ Bytes.ofU2 descriptor
  | methodHandle kind reference => 15 :: kind :: Bytes.ofU2 reference
  | methodType descriptor => 16 :: Bytes.ofU2 descriptor
  | dynamic bootstrap named => 17 :: Bytes.ofU2 bootstrap ++ Bytes.ofU2 named
  | callSite bootstrap named => 18 :: Bytes.ofU2 bootstrap ++ Bytes.ofU2 named
  | module name => 19 :: Bytes.ofU2 name
  | package name => 20 :: Bytes.ofU2 name

/-- The text entry with the given bytes, as entry number `index`. -/
def ofText (index : Nat) (bytes : Bytes) : Except Fault PoolEntry :=
  match ModifiedUtf8.decode bytes with
  | .ok text => .ok (utf8 text)
  | .error cause => .error (.malformed (.constantText index cause))

/-- Reads entry number `index`. -/
def read (index : Nat) : Read PoolEntry := do
  let tag ← Read.u1 "constant tag"
  -- Tags 2, 13 and 14 are not in use.
  match tag.toNat with
  | 1 =>
    let length ← Read.u2 "utf8 length"
    let bytes ← Read.take length.toNat "utf8 bytes"
    Read.lift (ofText index bytes)
  | 3 => return integer (← Read.i4 "integer constant")
  | 4 => return float (← Read.u4 "float constant")
  | 5 => return long (← Read.u8 "long constant").toInt64
  | 6 => return double (← Read.u8 "double constant")
  | 7 => return classRef (← Read.u2 "class name index")
  | 8 => return string (← Read.u2 "string index")
  | 9 => readMember .field
  | 10 => readMember .method
  | 11 => readMember .interfaceMethod
  | 12 => return nameAndType (← Read.u2 "name index") (← Read.u2 "descriptor index")
  | 15 => return methodHandle (← Read.u1 "reference kind") (← Read.u2 "reference index")
  | 16 => return methodType (← Read.u2 "method type descriptor")
  | 17 => return dynamic (← Read.u2 "bootstrap index") (← Read.u2 "dynamic name_and_type")
  | 18 => return callSite (← Read.u2 "bootstrap index") (← Read.u2 "invokedynamic name_and_type")
  | 19 => return module (← Read.u2 "module name")
  | 20 => return package (← Read.u2 "package name")
  | other => Read.malformed (.unknownTag other index)
where
  /-- The payload of a member reference. -/
  readMember (kind : MemberKind) : Read PoolEntry :=
    return member kind (← Read.u2 "member class index") (← Read.u2 "member name_and_type index")

/-! ### Diagnostics -/

/-- The name of a kind of member in diagnostics. -/
def memberText : MemberKind → String
  | .field => "Field"
  | .method => "Method"
  | .interfaceMethod => "InterfaceMethod"

/-- An entry with named parts: its name and the parts between braces. -/
def withParts (name : String) (parts : List (String × String)) : String :=
  name ++ " \x7b " ++ ", ".intercalate (parts.map fun part => part.1 ++ ": " ++ part.2) ++ " \x7d"

/-- An entry in diagnostics. -/
def text : PoolEntry → String
  | utf8 text => "Utf8(" ++ Text.quoted text ++ ")"
  | integer value => "Integer(" ++ toString value.toInt ++ ")"
  | float bits => "Float(" ++ toString bits.toNat ++ ")"
  | long value => "Long(" ++ toString value.toInt ++ ")"
  | double bits => "Double(" ++ toString bits.toNat ++ ")"
  | classRef name => withParts "Class" [("name", index name)]
  | string text => withParts "String" [("utf8", index text)]
  | member kind owner named =>
    withParts "MemberRef"
      [("kind", memberText kind), ("class", index owner), ("name_and_type", index named)]
  | nameAndType name descriptor =>
    withParts "NameAndType" [("name", index name), ("descriptor", index descriptor)]
  | methodHandle kind reference =>
    withParts "MethodHandle" [("kind", toString kind.toNat), ("reference", index reference)]
  | methodType descriptor => withParts "MethodType" [("descriptor", index descriptor)]
  | dynamic bootstrap named =>
    withParts "Dynamic" [("bootstrap", index bootstrap), ("name_and_type", index named)]
  | callSite bootstrap named =>
    withParts "InvokeDynamic" [("bootstrap", index bootstrap), ("name_and_type", index named)]
  | module name => withParts "Module" [("name", index name)]
  | package name => withParts "Package" [("name", index name)]
where
  /-- An index in decimal. -/
  index (i : UInt16) : String :=
    toString i.toNat

end PoolEntry

end RoundingPatch.ClassFile
