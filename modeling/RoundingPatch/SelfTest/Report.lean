import RoundingPatch.Patch.Host
import RoundingPatch.SelfTest.Battery
import RoundingPatch.SelfTest.Diagnosis
import RoundingPatch.SelfTest.Settings
/-!
# Self tests

A self test defines a class, with the patch installed or not, runs a battery against it and says
what is to be said about the runtime. What is known of the patch carries over from one test to the
next.
-/

namespace RoundingPatch

/-- What to test with. -/
structure SelfTest where
  settings : SelfTestSettings := {}
  /-- The settings of the patch, if it is to be installed. -/
  agent : Option PatchSettings := none
  groups : List CaseGroup := Battery.standard

/-- The account of a self test. -/
structure SelfTestReport where
  className : String
  /-- The digest of the class as it was defined. -/
  classDigest : String
  runtime : JavaRuntime
  battery : BatteryReport
  patch : PatchState
  metrics : Machine.Metrics

namespace SelfTestReport

/-- The three facts of the diagnosis as bits. -/
def code (r : SelfTestReport) : UInt8 :=
  Diagnosis.code r.battery.passed r.patch.applied r.runtime.isJava8OrNewer

/-- What is to be said about the runtime. -/
def diagnosis (r : SelfTestReport) : Diagnosis :=
  .ofCode r.code r.patch.installed

/-- The same in words. -/
def result (r : SelfTestReport) : String :=
  r.diagnosis.message r.runtime

end SelfTestReport

namespace SelfTest

/-- Installs the patch on a new host, if there is one to install. -/
def host (t : SelfTest) (disk : Disk) (state : PatchState) : Except Fault Host :=
  match t.agent with
  | none => .ok []
  | some settings => do return [← Agent.install disk settings state]

/-- What is known of the patch on a host. -/
def stateOf (state : PatchState) : Host → PatchState
  | [] => state
  | agent :: _ => agent.state

/-- Tests a class on a host. -/
def runOn (t : SelfTest) (state : PatchState) (host : Host) (bytes : Bytes) :
    Except Fault SelfTestReport × PatchState :=
  match ClassFile.parse bytes with
  | .error f => (.error f, stateOf state host)
  | .ok c =>
    let runtime := t.settings.runtime (.ofMajor c.header.major)
    let (defined, host) := Host.define c.name bytes host
    let patch := stateOf state host
    match BytecodeOracle.ofBytes defined t.settings.limits with
    | .error f => (.error f, patch)
    | .ok oracle =>
      let (battery, oracle) :=
        (Battery.run runtime t.settings.printActuals t.groups).run (.bytecode oracle)
      (.ok {
        className := c.name
        classDigest := digestText defined
        runtime, battery, patch
        metrics := oracle.machine?.elim {} (·.store.metrics) }, patch)

/-- Tests a class. The patch is installed before the class is looked at. -/
def run (t : SelfTest) (disk : Disk) (state : PatchState) (bytes : Bytes) :
    Except Fault SelfTestReport × PatchState :=
  match t.host disk state with
  | .error f => (.error f, state)
  | .ok host => t.runOn state host bytes

end SelfTest

/-! ### Text -/

/-- A text filled up with blanks in front. -/
def padLeft (width : Nat) (s : String) : String :=
  String.ofList (List.replicate (width - s.length) ' ') ++ s

/-- A text filled up with blanks behind. -/
def padRight (width : Nat) (s : String) : String :=
  s ++ String.ofList (List.replicate (width - s.length) ' ')

/-- The lines for a case. -/
def CaseResult.lines (r : CaseResult) : List String :=
  let actually := r.exactValue.toList.map fun exact =>
    s!"{padLeft 15 r.input} is actually: {exact}"
  let shown := if r.exactValue.isSome then "" else r.input
  let outcome := if r.passed then "OK" else s!"expected: {r.expected}"
  actually ++
    [s!"{padLeft 15 shown} {padRight 8 r.mode.name} --> {padRight 15 r.actual}\t{outcome}"]

/-- The lines for a group. -/
def GroupReport.lines (r : GroupReport) : List String :=
  "" :: r.title :: r.note?.toList ++ r.results.flatMap CaseResult.lines

/-- The account of a self test as text. -/
def SelfTestReport.text (r : SelfTestReport) : String :=
  let lines := [
    "",
    "PATCH SELF TEST:",
    "  java.text.DigitList.shouldRoundUp(int,boolean,boolean)",
    "  HALF_UP case"]
    ++ r.battery.groups.flatMap GroupReport.lines ++ [
    "",
    s!"Above tests used Java {r.runtime.version} ({r.runtime.vendor})",
    s!"installed at {r.runtime.home}",
    "",
    "Agent installed: " ++ (if r.patch.installed then "yes" else "NO (missing --agent?)"),
    "Patch applied  : " ++ (if r.patch.applied then "yes" else "NO"),
    "",
    s!"Overall result : {r.result}"]
  String.join (lines.map (· ++ "\n"))

end RoundingPatch
