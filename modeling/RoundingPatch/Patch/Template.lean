import RoundingPatch.ClassFile.Assembly
import RoundingPatch.DigitList.Bytecode
import RoundingPatch.Patch.Settings
/-!
# Templates

The replacement method is taken from a compiled class, the template. The built-in template holds
the right decision of `HALF_UP` for the parameters `(maximumDigits, alreadyRounded, valueExact)`:

* a decisive digit above five rounds up and one below five does not;
* a five with more digits behind it rounds up;
* a five at the end rounds up if it is exact or has not been rounded up before.
-/

namespace RoundingPatch

open ClassFile DigitList.Bytecode

/-- Where the bytes of a template come from. -/
structure TemplateSource where
  /-- The origin for readers. -/
  description : String
  contents : Except Fault Bytes

namespace TemplateSource

/-! ### The built-in template -/

/-- The descriptor of the decision the built-in template holds. -/
def decisionDescriptor : String := "(IZZ)Z"

/-- The right decision of `HALF_UP`, as method `name` of class `owner`. -/
def decision (owner name : String) : MethodSource :=
  let start := Label.synthetic 0
  let notAbove := Label.synthetic 1
  let last := Label.synthetic 2
  let inexact := Label.synthetic 3
  let roundDown := Label.synthetic 4
  let stop := Label.synthetic 5
  { access := 0
    name
    descriptor := decisionDescriptor
    events := [.code 3 4, .label start, .line 40 start]
      ++ digitAt owner maximumDigits
      ++ fiveChar :: jump Opcode.ifIcmpLe notAbove :: answer true
      ++ entry notAbove .same
      ++ .line 41 notAbove :: digitAt owner maximumDigits
      ++ fiveChar :: jump Opcode.ifIcmpNe roundDown :: decisiveAndLast owner
      ++ jump Opcode.ifIcmpEq last :: answer true
      ++ entry last .same
      ++ .line 43 last :: load valueExact :: jump Opcode.ifeq inexact :: answer true
      ++ entry inexact (.full [.object owner, .integer, .integer, .integer] [])
      ++ .line 44 inexact :: load alreadyRounded :: jump Opcode.ifne roundDown :: answer true
      ++ entry roundDown .same
      ++ answer false
      ++ .label stop :: decisionLocals owner start stop }

/-- The built-in template as class `owner` with method `name`. -/
def assembly (owner name : String) : Assembly where
  header := {
    minor := 0
    major := 52
    access := Access.superFlag ||| Access.abstractFlag
    name := owner
    superName := some objectClass
    interfaces := [] }
  fields := [⟨0, "digits", "[C"⟩, ⟨0, "count", "I"⟩]
  methods := [constructor, decision owner name]

/-- The built-in template for some settings. It only has a decision of one descriptor. -/
def builtIn (settings : PatchSettings) : TemplateSource where
  description := "built-in " ++ settings.templateClass
  contents :=
    if settings.descriptor = decisionDescriptor then
      (assembly settings.templateClass settings.replacement).bytes
    else .error (.templateGap (.onlyBuiltIn settings.descriptor))

/-! ### Sources -/

/-- A template in a file. -/
def ofFile (disk : Disk) (path : String) : TemplateSource where
  description := path
  contents := match disk.read path with
    | .ok contents => .ok contents
    | .error fault => .error (.templateGap (.unusable path fault.message))

/-- The template that some settings name. -/
def ofSettings (disk : Disk) (settings : PatchSettings) : TemplateSource :=
  match settings.templatePath with
  | some path => ofFile disk path
  | none => builtIn settings

end TemplateSource

end RoundingPatch
