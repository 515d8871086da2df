import RoundingPatch.ClassFile.Draft
/-!
# Assembling classes

An assembly describes a class from nothing: a header, fields and methods. Assembling it adds the
members in order to an empty draft and yields the bytes of the class file together with what is
known of each method.
-/

namespace RoundingPatch.ClassFile

/-- A field without attributes. -/
structure FieldSource where
  access : Access
  name : String
  descriptor : String
  deriving DecidableEq

/-- A class described from nothing. -/
structure Assembly where
  header : Header
  fields : List FieldSource := []
  methods : List MethodSource := []

namespace Assembly

/-- Adds all members in order. -/
def addMembers (a : Assembly) : Drafting (List Emitted) := do
  a.fields.forM fun f => ClassDraft.addField f.access f.name f.descriptor
  a.methods.mapM ClassDraft.commit

/-- The bytes of the class file, with what is known of each method. -/
def assemble (a : Assembly) : Except Fault (Bytes × List Emitted) :=
  match a.addMembers.run { header := a.header } with
  | (.error fault, _) => .error fault
  | (.ok emitted, draft) => return (← draft.toBytes, emitted)

/-- The bytes of the class file. -/
def bytes (a : Assembly) : Except Fault Bytes :=
  (·.1) <$> a.assemble

end Assembly

end RoundingPatch.ClassFile
