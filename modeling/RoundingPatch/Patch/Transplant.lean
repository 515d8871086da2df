import RoundingPatch.ClassFile.Draft
import RoundingPatch.ClassFile.Descriptor
/-!
# Transplanting a method

A transplant copies one method out of a template class into a class under construction. Every
reference to the template class becomes one to the target class, so the copy reads and calls the
target's own members, which have to exist. Line numbers and the attributes of the method are left
behind: they speak of the template's source and of its pool.
-/

namespace RoundingPatch

open ClassFile

/-- What is copied from where to where. -/
structure Transplant where
  templateClass : String
  targetClass : String
  methodName : String
  descriptor : String

namespace Transplant

/-! ### Renaming -/

/-- A class operand under its new name. -/
def classOperand (t : Transplant) (name : String) : String :=
  renameClass name t.templateClass t.targetClass

/-- A descriptor with the new name. -/
def descriptorText (t : Transplant) (descriptor : String) : String :=
  renameInDescriptor descriptor t.templateClass t.targetClass

/-- A verification type with the new name. -/
def vtype (t : Transplant) : VType → VType
  | .object name => .object (t.classOperand name)
  | other => other

/-- A stack map frame with the new name. -/
def frame (t : Transplant) : Frame → Frame
  | .sameWithOne stack => .sameWithOne (t.vtype stack)
  | .append locals => .append (locals.map t.vtype)
  | .full locals stack => .full (locals.map t.vtype) (stack.map t.vtype)
  | other => other

/-- Whether a method reference names the copy itself. -/
def isSelfCall (t : Transplant) (name descriptor : String) : Bool :=
  name == t.methodName && descriptor == t.descriptor

/-- An instruction with the new name. What it refers to in the target has to be there, and it must
not depend on the pool of the template. -/
def insn (t : Transplant) (target : ClassFile) : Insn → Except Mismatch Insn
  | .field op owner name descriptor =>
    let owner := t.classOperand owner
    let descriptor := t.descriptorText descriptor
    if owner = t.targetClass ∧ !target.hasField name descriptor then
      .error (.noField t.targetClass name descriptor)
    else .ok (.field op owner name descriptor)
  | .method op owner name descriptor onInterface =>
    let owner := t.classOperand owner
    let descriptor := t.descriptorText descriptor
    if owner = t.targetClass ∧ !t.isSelfCall name descriptor ∧ !target.hasMethod name descriptor
    then .error (.noMethod t.targetClass name descriptor)
    else .ok (.method op owner name descriptor onInterface)
  | .type op name => .ok (.type op (t.classOperand name))
  | .multiArray name dimensions => .ok (.multiArray (t.classOperand name) dimensions)
  | .ldc (.classRef name) => .ok (.ldc (.classRef (t.classOperand name)))
  -- An index into the pool of the template means nothing in the target.
  | .ldc (.pooled index) => .error (.pooledConstant index.toNat)
  | .callSite index => .error (.callSite index.toNat)
  | other => .ok other

/-- What becomes of an event in the copy, if anything. -/
def event (t : Transplant) (target : ClassFile) : MethodEvent → Except Mismatch (Option MethodEvent)
  -- Raw attributes belong to the pool of the template, and its lines to another source.
  | .attribute _ | .line .. => .ok none
  | .tryCatch handler =>
    .ok (some (.tryCatch { handler with catchType := handler.catchType.map t.classOperand }))
  | .frame f => .ok (some (.frame (t.frame f)))
  | .insn i => do return some (.insn (← t.insn target i))
  | .localVariable v =>
    .ok (some (.localVariable { v with descriptor := t.descriptorText v.descriptor }))
  | other => .ok (some other)

/-- The events of the copy. -/
def events (t : Transplant) (target : ClassFile) (body : Transcript) :
    Except Fault (List MethodEvent) := do
  let copied ← body.replay (fun (written : Array MethodEvent) e =>
    match t.event target e with
    | .error mismatch => .error (.mismatch mismatch)
    | .ok none => .ok written
    | .ok (some e) => .ok (written.push e)) #[]
  return copied.toList

/-! ### Copying -/

/-- The method of the template that is copied. `source` says where the template comes from. -/
def findMethod (t : Transplant) (source : String) (template : ClassFile) :
    Except TemplateGap Member :=
  if template.name ≠ t.templateClass then
    .error (.otherClass source template.name t.templateClass)
  else match template.method? t.methodName t.descriptor with
    | some m =>
      if m.access.static ∨ !m.access.hasCode then
        .error (.notConcrete t.templateClass t.methodName m.access)
      else .ok m
    | none =>
      -- A method of that name is named in the fault, for its descriptor is what differs.
      match template.methodsNamed t.methodName with
      | m :: _ => .error (.otherDescriptor t.templateClass t.methodName m.descriptor t.descriptor)
      | [] => .error (.noMethod source t.methodName t.descriptor)

/-- A fault of a template: whatever is wrong with it makes it unusable, unless it is all right by
itself and does not fit the target. -/
def ofTemplate (source : String) : Fault → Fault
  | .mismatch cause => .mismatch cause
  | other => .templateGap (.unusable source other.message)

/-- Copies the method from a template with the given bytes into a draft of class `target`. -/
def run (t : Transplant) (target : ClassFile) (source : String) (template : Bytes) :
    Drafting Emitted := do
  let template ← ofExcept ((ClassFile.parse template).mapError (ofTemplate source))
  let m ← ofExcept ((t.findMethod source template).mapError Fault.templateGap)
  if (← get).hasMethod t.methodName t.descriptor then
    throw (.mismatch (.alreadyDeclared t.targetClass t.methodName t.descriptor))
  let events ← ofExcept ((t.events target (m.decode template.pool)).mapError (ofTemplate source))
  ClassDraft.commit { access := m.access, name := t.methodName, descriptor := t.descriptor, events }

end Transplant

end RoundingPatch
