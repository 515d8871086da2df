import RoundingPatch.Json.Value
import RoundingPatch.Listing.Insn
import RoundingPatch.Patch.Transformer
/-!
# Reports of the patch

Settings, decisions and the account of an offered class as JSON.
-/

namespace RoundingPatch

open ClassFile

/-! ### Settings -/

/-- Settings as JSON, under the keys they have in files. -/
def PatchSettings.toJson (s : PatchSettings) : Json :=
  .obj [("target_class", .str s.targetClass), ("method_name", .str s.methodName),
    ("method_descriptor", .str s.descriptor), ("replacement_method", .str s.replacement),
    ("template_class", .str s.templateClass), ("template_path", .opt .str s.templatePath),
    ("buggy_mode", .str s.patchedMode.name), ("sibling_mode", .str s.siblingMode.name)]

/-- Reads a rounding mode by its name. -/
def RoundingMode.ofJson? (j : Json) : Option RoundingMode :=
  j.str?.bind ofName?

/-- Reads settings; whether they are valid is not checked. -/
def PatchSettings.ofJson? (j : Json) : Option PatchSettings := do
  let d : PatchSettings := {}
  return {
    targetClass := ← j.fieldD "target_class" Json.str? d.targetClass
    methodName := ← j.fieldD "method_name" Json.str? d.methodName
    descriptor := ← j.fieldD "method_descriptor" Json.str? d.descriptor
    replacement := ← j.fieldD "replacement_method" Json.str? d.replacement
    templateClass := ← j.fieldD "template_class" Json.str? d.templateClass
    templatePath := ← j.fieldD "template_path" (Json.opt? Json.str?) none
    patchedMode := ← j.fieldD "buggy_mode" RoundingMode.ofJson? d.patchedMode
    siblingMode := ← j.fieldD "sibling_mode" RoundingMode.ofJson? d.siblingMode }

/-! ### Decisions -/

/-- The labels of the two cases. -/
def CaseLabels.toJson (labels : CaseLabels) : Json :=
  .arr [labels.patched.toJson, labels.sibling.toJson]

/-- What a matcher was told. -/
def MatchStep.toJson : MatchStep → Json
  | proceed => .str "continue"
  | captured labels => .row "captured" [labels.toJson]
  | unmatched positions => .row "unmatched" [.nat positions]

/-- How far a decision has come. -/
def Decision.State.toJson : Decision.State → Json
  | scanning => .str "scanning"
  | found labels => .row "found" [labels.toJson]
  | patched labels => .row "patched" [labels.toJson]
  | needed => .str "needed"
  | notNeeded => .str "not_needed"
  | unmatched => .str "unmatched"

/-- The name of a verdict. -/
def Verdict.name : Verdict → String
  | modified => "modified"
  | alreadyFixed => "already_fixed"
  | unmatched => "unmatched"

/-! ### Outcomes -/

/-- What is known of a patch. -/
def PatchState.toJson (s : PatchState) : Json :=
  .obj [("installed", .bool s.installed), ("applied", .bool s.applied),
    ("last_error", .opt .str s.lastError)]

/-- An outcome, with the reason if the class was rejected. -/
def Outcome.toJson (o : Outcome) : Json :=
  .obj (("kind", .str o.name) :: (o.detail?.toList.map fun detail => ("detail", .str detail)))

/-- The account of an offered class. -/
def TransformReport.toJson (r : TransformReport) : Json :=
  .obj [("class_name", .str r.className), ("outcome", r.outcome.toJson),
    ("input_digest", .str r.inputDigest), ("output_digest", .opt .str r.outputDigest?)]

end RoundingPatch
