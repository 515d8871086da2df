import RoundingPatch.ClassFile.Descriptor
import RoundingPatch.Disk
import RoundingPatch.RoundingMode
import RoundingPatch.Toml.Document
import RoundingPatch.Toml.Reader
/-!
# Settings of the patch

Which method of which class is patched at which case, and where its replacement comes from. Every
setting has a default; together the defaults describe the patch of the digit list class.
-/

namespace RoundingPatch

open ClassFile

/-- The settings of a patch. -/
structure PatchSettings where
  /-- The class to be patched. -/
  targetClass : String := "java/text/DigitList"
  methodName : String := "shouldRoundUp"
  /-- The descriptor of the method and of its replacement. -/
  descriptor : String := "(IZZ)Z"
  replacement : String := "__patched__shouldRoundUp_HALF_UP"
  /-- The class the replacement comes from. -/
  templateClass : String := "digitfix/template/DigitList"
  /-- The class file of the template; without it the template is the built-in one. -/
  templatePath : Option String := none
  /-- The case that goes to the replacement. -/
  patchedMode : RoundingMode := .halfUp
  /-- The case that shares its body with the patched one in classes that need no patch. -/
  siblingMode : RoundingMode := .halfDown
  deriving DecidableEq

namespace PatchSettings

/-! ### Validity -/

/-- Whether a text can be the internal name of a class or a method. -/
def isInternalName (s : String) : Bool :=
  s ≠ "" && !s.toList.contains '.' && !s.toList.contains ';'

/-- The settings that have to be internal names, with their keys. -/
def internalNames (s : PatchSettings) : List (String × String) := [
  ("target_class", s.targetClass),
  ("method_name", s.methodName),
  ("replacement_method", s.replacement),
  ("template_class", s.templateClass)]

/-- The first thing that is wrong with the settings. -/
def fault? (s : PatchSettings) : Option ConfigFault :=
  match s.internalNames.find? fun entry => !isInternalName entry.2 with
  | some (key, value) => some (.badName key value)
  | none =>
    match MethodDescriptor.parse s.descriptor with
    | .error fault => some (.badDescriptor fault.message)
    | .ok descriptor =>
      if descriptor.result.isNone then some .voidDescriptor
      else if s.replacement = s.methodName then some .sameMethod
      else if s.patchedMode = s.siblingMode then some (.sameModes s.patchedMode.name)
      else if s.targetClass = s.templateClass then some .sameClass
      else none

/-- Checks the settings. -/
def validate (s : PatchSettings) : Except Fault Unit :=
  match s.fault? with
  | some fault => .error (.config fault)
  | none => .ok ()

/-! ### Reading -/

/-- The rounding mode a value names. -/
def mode? (value : Toml.Value) : Option RoundingMode := do
  RoundingMode.ofName? (← value.choice?)

/-- The settings a value holds, whether they are valid or not. -/
def ofValue? (value : Toml.Value) : Option PatchSettings := do
  let defaults : PatchSettings := {}
  let fields ← value.fields?
  let text (position : Nat) (key default : String) := fields.getD position key (·.text?) default
  return {
    targetClass := ← text 0 "target_class" defaults.targetClass
    methodName := ← text 1 "method_name" defaults.methodName
    descriptor := ← text 2 "method_descriptor" defaults.descriptor
    replacement := ← text 3 "replacement_method" defaults.replacement
    templateClass := ← text 4 "template_class" defaults.templateClass
    templatePath := ← fields.getD 5 "template_path" (fun v => some <$> v.text?) none
    patchedMode := ← fields.getD 6 "buggy_mode" mode? defaults.patchedMode
    siblingMode := ← fields.getD 7 "sibling_mode" mode? defaults.siblingMode }

/-- The settings in the text of a file. -/
def parse (text : String) : Except Fault PatchSettings := do
  match (Toml.parse? text).bind fun entries => ofValue? (.table entries) with
  | none => throw (.config (.unreadable "patch config"))
  | some settings =>
    settings.validate
    return settings

/-- The settings in a file. -/
def load (disk : Disk) (path : String) : Except Fault PatchSettings :=
  match disk.readText path with
  | .error fault => .error (.io fault.message)
  | .ok text => parse text

end PatchSettings

end RoundingPatch
