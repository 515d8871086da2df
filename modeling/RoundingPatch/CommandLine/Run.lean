import RoundingPatch.CommandLine.Command
import RoundingPatch.CommandLine.Help
import RoundingPatch.Json.Text
import RoundingPatch.Listing.SelfTest
/-!
# Running commands

A command reads from a disk and ends with an exit code, the text it prints and at most one file to
be written. The code is zero if nothing is left to do, one if the class is not as it should be, and
two if the command could not be carried out.
-/

namespace RoundingPatch.CommandLine

/-! ### Files with settings -/

/-- The settings of all parts of the program. -/
structure FileSettings where
  patch : PatchSettings := {}
  selfTest : SelfTestSettings := {}

namespace FileSettings

/-- The settings a value holds, whether they are valid or not. -/
def ofValue? (value : Toml.Value) : Option FileSettings := do
  let fields ← value.fields?
  return {
    patch := ← fields.getD 0 "patch" PatchSettings.ofValue? {}
    selfTest := ← fields.getD 1 "harness" SelfTestSettings.ofValue? {} }

/-- The settings in the text of a file. -/
def parse (text : String) : Except CommandFault FileSettings := do
  match (Toml.parse? text).bind fun entries => ofValue? (.table entries) with
  | none => throw .configContents
  | some settings =>
    settings.patch.validate
    return settings

/-- The settings in a file; without a file all of them have their defaults. -/
def load (disk : Disk) (path : Option String) : Except CommandFault FileSettings :=
  match path with
  | none => .ok {}
  | some path =>
    match disk.readText path with
    | .ok text => parse text
    | .error fault => .error (.configFile path fault.message)

end FileSettings

/-! ### Results -/

/-- How a command that was carried out ends. -/
structure Done where
  /-- Whether nothing is left to do. -/
  settled : Bool := true
  output : String
  /-- A file that is written, with the path as it was given. -/
  file : Option (String × Bytes) := none

/-- How the program ends. -/
structure Finish where
  exitCode : UInt8
  output : String := ""
  errors : String := ""
  file : Option (String × Bytes) := none

/-- The exit codes of a command that was carried out. -/
def Done.exitCode (d : Done) : UInt8 :=
  if d.settled then 0 else 1

/-- A command that could not be carried out. -/
def failure (f : CommandFault) : Finish where
  exitCode := 2
  errors := s!"ERROR digitfix failed: {f.message}\n"

/-- The end of the program, given that of its command. -/
def finish : Except CommandFault Done → Finish
  | .ok d => { exitCode := d.exitCode, output := d.output, file := d.file }
  | .error f => failure f

/-! ### Commands -/

/-- The contents of a file. -/
def readFile (disk : Disk) (path : String) : Except CommandFault Bytes :=
  match disk.read path with
  | .ok contents => .ok contents
  | .error fault => .error (.readFile path fault.message)

/-- Checks that a file can be written. -/
def checkWritable (disk : Disk) (path : String) : Except CommandFault Unit :=
  match disk.target path with
  | .ok _ => .ok ()
  | .error fault => .error (.writeFile path fault.message)

/-- Settings with the template of an option. -/
def withTemplate (template : Option String) (s : PatchSettings) : PatchSettings :=
  match template with
  | some path => { s with templatePath := some path }
  | none => s

/-- The bytes of the class that a self test looks at. -/
def Target.bytes (disk : Disk) : Target → Except CommandFault Bytes
  | file path => readFile disk path
  | specimen s => do s.bytes

/-- The settings of the patch that a self test installs. -/
def SelfTestRequest.agentSettings (r : SelfTestRequest) (disk : Disk) (base : PatchSettings) :
    Except Fault (Option PatchSettings) := do
  if r.agent then
    let settings ← (← AgentArguments.parse r.agentArguments).apply disk base
    return some (withTemplate r.template settings)
  else return none

/-- Tests a class. -/
def runSelfTest (disk : Disk) (r : SelfTestRequest) : Except CommandFault Done := do
  let file ← FileSettings.load disk r.config
  let bytes ← r.target.bytes disk
  let test : SelfTest := {
    settings :=
      { file.selfTest with printActuals := file.selfTest.printActuals || r.printActuals }
    agent := ← r.agentSettings disk file.patch }
  let report ← (test.run disk {} bytes).1
  return {
    settled := report.diagnosis.isSuccess
    output := if r.json then report.toJson.pretty ++ "\n" else report.text }

/-- The account of a patch as text. -/
def outcomeLine (className : String) (o : Outcome) : String :=
  match o.detail? with
  | some detail => s!"{className}: {o.name} ({detail})\n"
  | none => s!"{className}: {o.name}\n"

/-- Patches a class. What is no class is offered under the name of the target. -/
def runPatch (disk : Disk) (r : PatchRequest) : Except CommandFault Done := do
  let settings := withTemplate r.template (← FileSettings.load disk r.config).patch
  let bytes ← readFile disk r.input
  let className :=
    match ClassFile.parse bytes with
    | .ok c => c.name
    | .error _ => settings.targetClass
  let transformer ← Transformer.ofSettings disk settings
  let (report, _) := transformer.offer {} className bytes
  if report.outcome.bytes?.isSome then checkWritable disk r.output
  return {
    settled := report.outcome.isSettled
    output :=
      if r.json then report.toJson.pretty ++ "\n" else outcomeLine className report.outcome
    file := report.outcome.bytes?.map (r.output, ·) }

/-- The bytes of a class that is built in. -/
def Artifact.bytes : Artifact → Except Fault Bytes
  | specimen s => s.bytes
  | template => (TemplateSource.builtIn {}).contents

/-- Writes a class that is built in. -/
def runSpecimen (disk : Disk) (artifact : Artifact) (output : String) :
    Except CommandFault Done := do
  let bytes ← artifact.bytes
  checkWritable disk output
  return {
    output := s!"wrote {output} ({bytes.length} bytes, xxh3 {digestText bytes})\n"
    file := some (output, bytes) }

/-- Carries out a command. -/
def Command.run (disk : Disk) : Command → Except CommandFault Done
  | help => .ok { output := CommandLine.help }
  | selfTest r => runSelfTest disk r
  | patch r => runPatch disk r
  | specimen artifact output => runSpecimen disk artifact output

/-- Runs a command line. -/
def run (disk : Disk) (args : List String) : Finish :=
  finish (do (← Command.parse args).run disk)

end RoundingPatch.CommandLine
