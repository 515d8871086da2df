import RoundingPatch.Patch.Splice
import RoundingPatch.Patch.State
import RoundingPatch.Patch.Template
import RoundingPatch.Patch.Transplant
/-!
# Transforming classes

A transformer is offered the bytes of classes one after the other. Every class but the target
passes untouched. The target class is either patched as a whole or keeps its bytes: whatever goes
wrong inside is an outcome and not a failure.
-/

namespace RoundingPatch

open ClassFile

/-- What became of an offered class. The verdict that a class is modified and the bytes that take
its place are one value, so that there is neither a modified class without bytes nor, as no run
comes to it, the rejection "modified verdict without output". -/
inductive Outcome
  /-- It is another class. -/
  | notTarget
  /-- The patched case now goes to the replacement. -/
  | modified (bytes : Bytes)
  /-- Both cases share one body already. -/
  | alreadyFixed
  /-- The replacement is there already. -/
  | alreadyPatched
  /-- The method or its switch is not there. -/
  | unmatched
  /-- The class or the template is not as expected. -/
  | rejected (cause : Fault)

namespace Outcome

/-- The name of an outcome. -/
def name : Outcome → String
  | notTarget => "not_target"
  | modified _ => "modified"
  | alreadyFixed => "already_fixed"
  | alreadyPatched => "already_patched"
  | unmatched => "unmatched"
  | rejected _ => "rejected"

/-- Why a class was rejected. -/
def detail? : Outcome → Option String
  | rejected cause => some cause.message
  | _ => none

/-- The bytes of a patched class. -/
def bytes? : Outcome → Option Bytes
  | modified bytes => some bytes
  | _ => none

/-- Whether the class needs nothing more. -/
def isSettled : Outcome → Bool
  | modified _ | alreadyFixed | alreadyPatched => true
  | _ => false

end Outcome

/-- The account of one offered class. The bytes that take the place of the offered ones are part of
the outcome (`Outcome.bytes?`) and have no field of their own. -/
structure TransformReport where
  /-- The name under which the class was offered. -/
  className : String
  outcome : Outcome
  /-- The digest of the offered bytes. -/
  inputDigest : String

/-- The digest of the patched class. -/
def TransformReport.outputDigest? (r : TransformReport) : Option String :=
  r.outcome.bytes?.map digestText

/-- A patch with valid settings. -/
structure Transformer where
  settings : PatchSettings
  template : TemplateSource

namespace Transformer

/-- The transformer for some settings and a template. -/
def withTemplate (settings : PatchSettings) (template : TemplateSource) :
    Except Fault Transformer := do
  settings.validate
  return { settings, template }

/-- The transformer for some settings. -/
def ofSettings (disk : Disk) (settings : PatchSettings) : Except Fault Transformer :=
  withTemplate settings (.ofSettings disk settings)

/-! ### Patching a class -/

/-- The visitor that copies a class with pool `pool`, except that the method with the switch gets
its new form. -/
def rewriter (t : Transformer) (forwarding : Forwarding) (pool : ConstantPool) :
    Visitor Drafting Verdict :=
  ClassDraft.copier pool fun m =>
    if m.isNamed t.settings.methodName t.settings.descriptor then
      let decision := Decision.start t.settings.patchedMode t.settings.siblingMode
      return some (Splice.writeMethod forwarding decision m)
    else ClassDraft.passMethod pool m

/-- Writes all members of the class, the method with the switch in its new form. -/
def writeMembers (t : Transformer) (forwarding : Forwarding) (c : ClassFile) :
    Drafting Verdict := do
  return (← c.accept (t.rewriter forwarding c.pool)).getLastD .unmatched

/-- Adds the replacement method. -/
def addReplacement (t : Transformer) (c : ClassFile) : Drafting Unit := do
  let template ← ofExcept t.template.contents
  let transplant : Transplant := {
    templateClass := t.settings.templateClass
    targetClass := t.settings.targetClass
    methodName := t.settings.replacement
    descriptor := t.settings.descriptor }
  discard (transplant.run c t.template.description template)

/-- Checks that a patched class can be read. -/
def checkReadable (bytes : Bytes) : Except Fault Unit :=
  match ClassFile.parse bytes with
  | .ok _ => .ok ()
  | .error fault => .error (.internal (.doesNotParse fault.message))

/-- What becomes of the target class with method `m` in it. -/
def patchMethod (t : Transformer) (c : ClassFile) (m : Member) : Except Fault Outcome := do
  let forwarding ←
    Forwarding.plan t.settings.targetClass t.settings.replacement m.access t.settings.descriptor
  -- The replacement is added only when the method was changed, so no other verdict needs the
  -- template.
  match (t.writeMembers forwarding c).run (ClassDraft.ofClass c) with
  | (.error fault, _) => throw fault
  | (.ok .alreadyFixed, _) => return .alreadyFixed
  | (.ok .unmatched, _) => return .unmatched
  | (.ok .modified, draft) =>
    let bytes ← draft.build (t.addReplacement c)
    checkReadable bytes
    return .modified bytes

/-- What becomes of the target class. -/
def patchClass (t : Transformer) (bytes : Bytes) : Except Fault Outcome := do
  let c ← ClassFile.parse bytes
  if c.name ≠ t.settings.targetClass then
    throw (.violation (.otherClass t.settings.targetClass c.name))
  -- The replacement marks a class that was patched before.
  if c.hasMethod t.settings.replacement t.settings.descriptor then return .alreadyPatched
  match c.method? t.settings.methodName t.settings.descriptor with
  | none => return .unmatched
  | some m => t.patchMethod c m

/-! ### Offering classes -/

/-- What becomes of a class that is offered under a name. -/
def outcome (t : Transformer) (className : String) (bytes : Bytes) : Outcome :=
  if className ≠ t.settings.targetClass then .notTarget
  else match t.patchClass bytes with
    | .ok outcome => outcome
    | .error cause => .rejected cause

/-- What is known of the patch after an outcome. -/
def note (state : PatchState) (className : String) : Outcome → PatchState
  | .modified _ => state.markApplied
  | .rejected cause => (state.recordError s!"failed to patch {className}: {cause.message}").2
  | _ => state

/-- Offers a class. -/
def offer (t : Transformer) (state : PatchState) (className : String) (bytes : Bytes) :
    TransformReport × PatchState :=
  let outcome := t.outcome className bytes
  ({ className, outcome, inputDigest := digestText bytes }, note state className outcome)

end Transformer

end RoundingPatch
