import RoundingPatch.Machine.Basic
import RoundingPatch.SelfTest.JavaRuntime
import RoundingPatch.Toml.Document
import RoundingPatch.Toml.Reader
/-!
# Settings of the self test

What is reported, which runtime the report is about, and the limits of the machine. Every setting
has a default; what is not said of the runtime is taken from the class.
-/

namespace RoundingPatch

open Machine

/-- The limits a value holds. -/
def Machine.Limits.ofValue? (value : Toml.Value) : Option Limits := do
  let defaults : Limits := {}
  let fields ← value.fields?
  return {
    stepBudget := ← fields.getD 0 "step_budget" (·.natural?) defaults.stepBudget
    maxDepth := ← fields.getD 1 "max_depth" (·.natural?) defaults.maxDepth }

/-- The settings of a self test. -/
structure SelfTestSettings where
  /-- Whether the exact values of all numbers are reported. -/
  printActuals : Bool := false
  javaVersion : Option String := none
  javaVendor : Option String := none
  javaHome : Option String := none
  limits : Limits := {}
  deriving DecidableEq

namespace SelfTestSettings

/-- The settings a value holds. -/
def ofValue? (value : Toml.Value) : Option SelfTestSettings := do
  let fields ← value.fields?
  let text? (position : Nat) (key : String) :=
    fields.getD position key (fun v => some <$> v.text?) none
  return {
    printActuals := ← fields.getD 0 "print_actuals" (·.boolean?) false
    javaVersion := ← text? 1 "java_version"
    javaVendor := ← text? 2 "java_vendor"
    javaHome := ← text? 3 "java_home"
    limits := ← fields.getD 4 "vm" Limits.ofValue? {} }

/-- The settings in the text of a file. -/
def parse (text : String) : Except Fault SelfTestSettings :=
  match (Toml.parse? text).bind fun entries => ofValue? (.table entries) with
  | none => .error (.config (.unreadable "harness config"))
  | some settings => .ok settings

/-- The runtime that a report is about, when the class implies another. -/
def runtime (s : SelfTestSettings) (implied : JavaRuntime) : JavaRuntime where
  version := s.javaVersion.getD implied.version
  vendor := s.javaVendor.getD implied.vendor
  home := s.javaHome.getD implied.home

end SelfTestSettings

end RoundingPatch
