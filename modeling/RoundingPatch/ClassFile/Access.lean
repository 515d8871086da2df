/-!
# Access flags

The flags of classes, fields and methods are sixteen bits each. Bits without a name are kept.
-/

namespace RoundingPatch.ClassFile

/-- The access flags of a class, a field or a method. -/
abbrev Access := UInt16

namespace Access

/-- The flags a class may have, with their names. -/
def classFlags : List (Access × String) := [
  (0x0001, "PUBLIC"), (0x0010, "FINAL"), (0x0020, "SUPER"), (0x0200, "INTERFACE"),
  (0x0400, "ABSTRACT"), (0x1000, "SYNTHETIC"), (0x2000, "ANNOTATION"), (0x4000, "ENUM"),
  (0x8000, "MODULE")]

/-- The flags a field may have, with their names. -/
def fieldFlags : List (Access × String) := [
  (0x0001, "PUBLIC"), (0x0002, "PRIVATE"), (0x0004, "PROTECTED"), (0x0008, "STATIC"),
  (0x0010, "FINAL"), (0x0040, "VOLATILE"), (0x0080, "TRANSIENT"), (0x1000, "SYNTHETIC"),
  (0x4000, "ENUM")]

/-- The flags a method may have, with their names. -/
def methodFlags : List (Access × String) := [
  (0x0001, "PUBLIC"), (0x0002, "PRIVATE"), (0x0004, "PROTECTED"), (0x0008, "STATIC"),
  (0x0010, "FINAL"), (0x0020, "SYNCHRONIZED"), (0x0040, "BRIDGE"), (0x0080, "VARARGS"),
  (0x0100, "NATIVE"), (0x0400, "ABSTRACT"), (0x0800, "STRICT"), (0x1000, "SYNTHETIC")]

/-- The names of the flags that are set. -/
def names (flags : List (Access × String)) (access : Access) : List String :=
  (flags.filter fun flag => access &&& flag.1 != 0).map (·.2)

def publicFlag : Access := 0x0001
def privateFlag : Access := 0x0002
def finalFlag : Access := 0x0010
def superFlag : Access := 0x0020
def abstractFlag : Access := 0x0400

/-- Whether a method is static. -/
def static (access : Access) : Bool :=
  access &&& 0x0008 != 0

/-- Whether a method has a body: it is neither native nor abstract. -/
def hasCode (access : Access) : Bool :=
  access &&& 0x0500 == 0

end Access

end RoundingPatch.ClassFile
