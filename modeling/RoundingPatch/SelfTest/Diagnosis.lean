import RoundingPatch.SelfTest.JavaRuntime
/-!
# Diagnoses

Three facts make a diagnosis: whether the class behaves, whether the patch was applied, and whether
the runtime is one the patch is for. Where they leave open why a class is still wrong, it counts
whether the patch was installed.
-/

namespace RoundingPatch

/-- What is to be said about a runtime. -/
inductive Diagnosis
  /-- Right without the patch. -/
  | noPatchNecessary
  /-- Patched and right, on a runtime that the patch is not for. -/
  | fixedUnexpectedRuntime
  | fixed
  /-- Patched and still wrong. -/
  | badPatch
  /-- Installed on an expected runtime, but the patch did not apply. -/
  | notFixedUnsupported
  /-- Not installed on an expected runtime. -/
  | notFixedExpected
  /-- Wrong and not patched, on a runtime that the patch is not for. -/
  | bad
  deriving DecidableEq

namespace Diagnosis

/-- The three facts as bits, the first the lowest. -/
def code (behaves applied java8 : Bool) : UInt8 :=
  behaves.toUInt8 ||| (applied.toUInt8 <<< 1) ||| (java8.toUInt8 <<< 2)

/-- The diagnosis for a code; bits above the three are ignored. -/
def ofCode (code : UInt8) (installed : Bool) : Diagnosis :=
  let behaves := code &&& 1 != 0
  let applied := code &&& 2 != 0
  let java8 := code &&& 4 != 0
  if applied then
    if behaves then (if java8 then fixed else fixedUnexpectedRuntime) else badPatch
  else if behaves then noPatchNecessary
  else if java8 then (if installed then notFixedUnsupported else notFixedExpected)
  else bad

/-- Whether nothing is left to do. -/
def isSuccess : Diagnosis → Bool
  | noPatchNecessary | fixed => true
  | _ => false

/-- The name of a diagnosis. -/
def name : Diagnosis → String
  | noPatchNecessary => "no_patch_necessary"
  | fixedUnexpectedRuntime => "fixed_unexpected_runtime"
  | fixed => "fixed"
  | badPatch => "bad_patch"
  | notFixedUnsupported => "not_fixed_unsupported"
  | notFixedExpected => "not_fixed_expected"
  | bad => "bad"

/-- The wording of a diagnosis. -/
def message (r : JavaRuntime) : Diagnosis → String
  | noPatchNecessary => "OK (no patch necessary)"
  | fixedUnexpectedRuntime => "FIXED (WARNING: unexpected Java version/vendor)"
  | fixed => "FIXED"
  | badPatch => s!"BAD PATCH (!) on {r.vendor} Java {r.version}"
  | notFixedUnsupported => "NOT FIXED (patch not supported on this Java version/vendor?)"
  | notFixedExpected => "NOT FIXED (expected on Java 1.8 < u40)"
  | bad => "BAD (maybe a different bug in this version of Java?)"

end Diagnosis

end RoundingPatch
