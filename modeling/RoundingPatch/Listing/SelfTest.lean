import RoundingPatch.Listing.Machine
import RoundingPatch.Listing.Patch
import RoundingPatch.SelfTest.Report
/-!
# Self tests as JSON

Formats, settings and the account of a self test. Floating-point numbers are the hexadecimal digits
of their bits.
-/

namespace RoundingPatch

open Machine

/-! ### Numbers and formats -/

/-- Reads a floating-point number. -/
def Binary64.ofJson? (j : Json) : Option Binary64 := do
  return ⟨UInt64.ofNat (← j.hex?)⟩

/-- Reads a number format; missing keys keep their defaults. -/
def NumberFormat.ofJson? (j : Json) : Option NumberFormat := do
  let d : NumberFormat := {}
  return {
    maximumFractionDigits := ← j.fieldD "max" Json.i4? d.maximumFractionDigits
    grouping := ← j.fieldD "grouping" Json.bool? d.grouping
    roundingMode := ← j.fieldD "mode" RoundingMode.ofJson? d.roundingMode }

/-- ASCII as a text. -/
def asciiJson (bytes : Bytes) : Json :=
  .str (String.ofList (bytes.map fun b => Char.ofNat b.toNat))

/-- A digit list as JSON, with all its digits. -/
def DigitList.toJson (l : DigitList) : Json :=
  .obj [("digits", asciiJson l.digits), ("count", .nat l.count),
    ("decimal_at", .int l.decimalAt.toInt), ("negative", .bool l.isNegative),
    ("significant", asciiJson l.significant), ("zero", .bool l.isZero)]

/-! ### Cases -/

/-- Reads what a case expects. -/
def Expected.ofJson? : Json → Option Expected
  | .str text => some (literal text)
  | j => return control (← NumberFormat.ofJson? j) (← j.field? "input" Binary64.ofJson?)

/-- Reads a case. -/
def Case.ofJson? : Json → Option Case
  | .arr [input, expected] => return ⟨← Binary64.ofJson? input, ← Expected.ofJson? expected⟩
  | _ => none

/-- Reads a group: the position of a standard one, or a group of its own. -/
def CaseGroup.ofJson? (j : Json) : Option CaseGroup :=
  match j with
  | .int (.ofNat n) => Battery.standard[n]?
  | j => do
    return {
      title := ← j.field? "title" Json.str?
      format := ← j.field? "format" NumberFormat.ofJson?
      cases := ← j.field? "cases" (Json.list? Case.ofJson?)
      printActuals := ← j.fieldD "print_actuals" Json.bool? false
      lenientBeforeJava8 := ← j.fieldD "lenient" Json.bool? false }

/-- The result of a case. -/
def CaseResult.toJson (r : CaseResult) : Json :=
  .obj [("input", .str r.input), ("mode", .str r.mode.name), ("actual", .str r.actual),
    ("expected", .str r.expected), ("passed", .bool r.passed),
    ("exact_value", .opt .str r.exactValue)]

/-- The account of a group. -/
def GroupReport.toJson (r : GroupReport) : Json :=
  .obj [("title", .str r.title), ("results", .list CaseResult.toJson r.results),
    ("note", .opt .str r.note?), ("forced_pass", .bool r.forcedPass), ("passed", .bool r.passed)]

/-- The account of a battery. -/
def BatteryReport.toJson (r : BatteryReport) : Json :=
  .obj [("groups", .list GroupReport.toJson r.groups), ("passed", .bool r.passed)]

/-! ### Runtimes and settings -/

/-- A runtime as JSON. -/
def JavaRuntime.toJson (r : JavaRuntime) : Json :=
  .obj [("version", .str r.version), ("vendor", .str r.vendor), ("home", .str r.home)]

/-- Reads a runtime, by the version of its class files or by its parts. -/
def JavaRuntime.ofJson? (j : Json) : Option JavaRuntime := do
  match j.get? "major" with
  | some major => return ofMajor (← major.u2?)
  | none =>
    return {
      version := ← j.field? "version" Json.str?
      vendor := ← j.field? "vendor" Json.str?
      home := ← j.fieldD "home" Json.str? "" }

/-- Settings as JSON, under the keys they have in files. -/
def SelfTestSettings.toJson (s : SelfTestSettings) : Json :=
  .obj [("print_actuals", .bool s.printActuals), ("java_version", .opt .str s.javaVersion),
    ("java_vendor", .opt .str s.javaVendor), ("java_home", .opt .str s.javaHome),
    ("vm", s.limits.toJson)]

/-- Reads settings; missing keys keep their defaults. -/
def SelfTestSettings.ofJson? (j : Json) : Option SelfTestSettings := do
  let text? (key : String) := j.fieldD key (Json.opt? Json.str?) none
  return {
    printActuals := ← j.fieldD "print_actuals" Json.bool? false
    javaVersion := ← text? "java_version"
    javaVendor := ← text? "java_vendor"
    javaHome := ← text? "java_home"
    limits := ← j.fieldD "vm" Limits.ofJson? {} }

/-! ### Reports -/

/-- What a machine has done, with the number of its objects. -/
def Machine.statsJson (m : Machine) : Json :=
  .obj [("steps", .nat m.store.steps), ("heap", .nat m.heap.size),
    ("metrics", m.store.metrics.toJson)]

/-- The account of a self test. -/
def SelfTestReport.toJson (r : SelfTestReport) : Json :=
  .obj [("class_name", .str r.className), ("class_digest", .str r.classDigest),
    ("runtime", r.runtime.toJson), ("java8_or_newer", .bool r.runtime.isJava8OrNewer),
    ("battery", r.battery.toJson), ("patch", r.patch.toJson), ("code", .nat r.code.toNat),
    ("diagnosis", .str r.diagnosis.name), ("result", .str r.result),
    ("metrics", r.metrics.toJson)]

end RoundingPatch
