import RoundingPatch.Machine.Basic
import RoundingPatch.Proofs.Machine.Programs
/-!
# Loaded classes

What a class that is made ready to run has for a name and a descriptor depends on the outlines of
its methods alone (`hasMethod_ofClass`, `exists_program`).
-/

namespace RoundingPatch

open ClassFile

/-- Whether an outline is that of a method with a name and a descriptor. -/
def ClassFile.Outline.isNamed (o : Outline) (name descriptor : String) : Bool :=
  (name, descriptor) == (o.name, o.descriptor)

namespace Machine.LoadedClass

variable {c : ClassFile} {name descriptor : String} {o : Outline}

/-- The program of a method is that of the first one with its name and descriptor. -/
theorem lookup_programs (key : String × String) (methods : List Member) :
    (methods.map fun m => ((m.name, m.descriptor), Program.ofMember c.pool m)).lookup key
      = (methods.find? fun m => key == (m.name, m.descriptor)).map (Program.ofMember c.pool) := by
  induction methods with
  | nil => rfl
  | cons m methods ih =>
    rw [List.map_cons, List.lookup_cons, List.find?_cons, ih]
    cases key == (m.name, m.descriptor) <;> rfl

theorem find?_methods (methods : List Member) :
    (methods.find? fun m => (name, descriptor) == (m.name, m.descriptor)).map
      (Member.outline c.pool)
      = (methods.map (Member.outline c.pool)).find? (·.isNamed name descriptor) := by
  rw [List.find?_map]
  rfl

theorem program_ofClass : (ofClass c).program name descriptor =
    match c.methods.find? fun m => (name, descriptor) == (m.name, m.descriptor) with
    | some m => Program.ofMember c.pool m
    | none => .error (.execution (.noMethod c.name name descriptor)) := by
  unfold program ofClass
  dsimp only
  rw [lookup_programs]
  cases c.methods.find? fun m => (name, descriptor) == (m.name, m.descriptor) <;> rfl

theorem program_ofClass_eq_ok {p : Program} : (ofClass c).program name descriptor = .ok p ↔
    ∃ m, c.methods.find? (fun m => (name, descriptor) == (m.name, m.descriptor)) = some m ∧
      Program.ofMember c.pool m = .ok p := by
  rw [program_ofClass]
  cases c.methods.find? fun m => (name, descriptor) == (m.name, m.descriptor) with
  | none => simp
  | some m => simp

theorem hasMethod_ofClass_eq_find? : (ofClass c).hasMethod name descriptor
    = (c.methods.find? fun m => (name, descriptor) == (m.name, m.descriptor)).isSome := by
  unfold hasMethod ofClass
  dsimp only
  rw [lookup_programs, Option.isSome_map]

theorem hasMethod_ofClass : (ofClass c).hasMethod name descriptor
    = ((c.methods.map (Member.outline c.pool)).find? (·.isNamed name descriptor)).isSome := by
  rw [hasMethod_ofClass_eq_find?, ← find?_methods, Option.isSome_map]

/-- **A method with code** that handles no exceptions has the program with its outline. -/
theorem exists_program (hdecode : ∀ m ∈ c.methods, (m.decode c.pool).failure = none)
    (ho : (c.methods.map (Member.outline c.pool)).find? (·.isNamed name descriptor) = some o)
    (hhandlers : o.handlers = []) (hlimits : o.limits.isSome = true) :
    ∃ p, (ofClass c).program name descriptor = .ok p ∧ p.Follows o := by
  rw [← find?_methods, Option.map_eq_some_iff] at ho
  obtain ⟨m, hm, rfl⟩ := ho
  obtain ⟨p, hp, hfollows⟩ :=
    Program.exists_ofMember (hdecode m (List.mem_of_find?_eq_some hm)) hhandlers hlimits
  exact ⟨p, program_ofClass_eq_ok.mpr ⟨m, hm, hp⟩, hfollows⟩

end Machine.LoadedClass

end RoundingPatch
