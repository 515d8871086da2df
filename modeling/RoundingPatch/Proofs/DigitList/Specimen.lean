import RoundingPatch.DigitList.Specimen
import RoundingPatch.Proofs.ClassFile.Assembled
import RoundingPatch.Proofs.DigitList.Half
import RoundingPatch.Proofs.Machine.Calls
import RoundingPatch.Proofs.Machine.Loading
/-!
# The specimens in index form

What the bytes of a specimen are read as (`Specimen.parse_of_bytes`), and the program of its
rounding decision: in the fixed build it consists of the common parts with the fixed body between
them (`Specimen.exists_program_fixed`).
-/

namespace RoundingPatch

open ClassFile Machine DigitList

namespace Specimen

set_option maxRecDepth 10000 in
/-- Either build's assembly has only methods whose text the parser reads back. -/
theorem checkReadable_methods (s : Specimen) :
    ∀ m ∈ s.assembly.methods, m.checkReadable = true := by
  cases s <;> decide

/-- A class file is a specimen in index form. -/
structure IsReadAs (s : Specimen) (c : ClassFile) : Prop where
  header : c.header = s.assembly.header
  fields : c.fields.map FieldSource.ofMember = s.assembly.fields
  decodes : ∀ m ∈ c.methods, (m.decode c.pool).failure = none
  outlines : c.methods.map (Member.outline c.pool) = s.assembly.methods.map MethodSource.outline

/-- **The bytes of a specimen** are read as the specimen. -/
theorem parse_of_bytes {s : Specimen} {bytes : Bytes} (h : s.bytes = .ok bytes) :
    ∃ c, ClassFile.parse bytes = .ok c ∧ s.IsReadAs c := by
  obtain ⟨c, hparse, hheader, -, hfields, hdecodes, houtlines⟩ :=
    Assembly.parse_of_bytes h (by cases s <;> rfl) s.checkReadable_methods
  exact ⟨c, hparse, hheader, hfields, hdecodes, houtlines⟩

/-- The fixed build is assembled without a fault. -/
theorem exists_bytes_fixed : ∃ bytes, fixed.bytes = .ok bytes := by
  have hok : fixed.bytes.isOk = true := by decide +kernel
  cases h : fixed.bytes with
  | ok bytes => exact ⟨bytes, rfl⟩
  | error f =>
    rw [h] at hok
    cases hok

variable {s : Specimen} {c : ClassFile} {p : Program}

/-- A class read as a build has the name of the digit list. -/
theorem IsReadAs.name (h : s.IsReadAs c) : (LoadedClass.ofClass c).name = Bytecode.className := by
  show c.header.name = _
  rw [h.header]
  rfl

/-- The fields of a new instance. -/
def cells : List (String × Value) := [
  ("decimalAt", .int 0), ("count", .int 0), ("digits", .null), ("roundingMode", .null),
  ("isNegative", .int 0)]

/-- A class read as a build has the fields of the digit list. -/
theorem IsReadAs.cells_eq (h : s.IsReadAs c) : (LoadedClass.ofClass c).cells = cells := by
  have hfold : (LoadedClass.ofClass c).cells = (c.fields.map FieldSource.ofMember).foldl
      (fun cells f => setCell f.name (.default f.descriptor) cells) [] := by
    rw [List.foldl_map]
    rfl
  rw [hfold, h.fields]
  cases s <;> decide

/-- **A build can host the decision**: nothing it calls is redefined. -/
theorem IsReadAs.isHost (h : s.IsReadAs c) : IsHost (LoadedClass.ofClass c) := by
  refine ⟨h.name, ?_, ?_⟩
  all_goals
    rw [LoadedClass.hasMethod_ofClass, h.outlines]
    cases s <;> decide

set_option maxRecDepth 20000 in
/-- The instructions of the fixed build. -/
theorem ofInsn_fixed : (fixed.shouldRoundUp.outline.insns.map Operation.ofInsn)
    = (Decision.front 63 38 ++ Decision.halfFixed 63 (Decision.commonAt 38)
        ++ Decision.back 38).map .ok :=
  rfl

/-- **The program of the fixed build.** -/
theorem exists_program_fixed (h : fixed.IsReadAs c) :
    ∃ p, (LoadedClass.ofClass c).program "shouldRoundUp" "(IZZ)Z" = .ok p ∧ p.isStatic = false ∧
      p.maxLocals = 5 ∧ Decision.StandsIn p 63 38 ∧
      p.Segment 63 (Decision.halfFixed 63 (Decision.commonAt 38)) := by
  have hfind : (c.methods.map (Member.outline c.pool)).find? (·.isNamed "shouldRoundUp" "(IZZ)Z")
      = some fixed.shouldRoundUp.outline := by
    rw [h.outlines]
    rfl
  obtain ⟨p, hp, hfollows⟩ := LoadedClass.exists_program h.decodes hfind rfl rfl
  have hsegment := hfollows.segment ofInsn_fixed
  have hlimits : some ((3 : UInt16), (5 : UInt16)) = some (p.maxStack, p.maxLocals) :=
    hfollows.limits
  obtain ⟨hstack, hlocals⟩ := Prod.mk.inj (Option.some.inj hlimits)
  refine ⟨p, hp, hfollows.isStatic, hlocals.symm,
    ⟨hsegment.left.left, hsegment.right, ?_, by decide⟩,
    hsegment.left.right⟩
  rw [← hstack]
  decide

end Specimen

end RoundingPatch
