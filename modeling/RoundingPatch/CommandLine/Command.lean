import RoundingPatch.DigitList.Specimen
/-!
# Commands

A command line is the name of a command and options. An option that is not a mere switch takes the
argument behind it as its value; of two options of one name the later one counts. Arguments are
looked at one after the other, and the first one that is wrong decides.
-/

namespace RoundingPatch.CommandLine

/-! ### Faults -/

/-- Why a command is not carried out. -/
inductive CommandFault
  | unknownCommand (name : String)
  | unknownOption (command option : String)
  | missingValue (option : String)
  | missingOption (command option : String)
  | twoTargets
  /-- A file with settings that cannot be read. -/
  | configFile (path reason : String)
  /-- A file with something else in it than settings. -/
  | configContents
  | readFile (path reason : String)
  | writeFile (path reason : String)
  | fault (f : Fault)
  deriving DecidableEq

/-- The wording of a fault. -/
def CommandFault.message : CommandFault → String
  | unknownCommand name => s!"unknown command: {name}"
  | unknownOption command option => s!"unknown option for {command}: {option}"
  | missingValue option => s!"{option} requires a value"
  | missingOption command option => s!"{command} requires {option}"
  | twoTargets => "--target and --specimen are mutually exclusive"
  | configFile path reason => s!"config_read_failed path={path} error={reason}"
  | configContents => "config_parse_failed: not a document with these settings"
  | readFile path reason => s!"read_failed path={path} error={reason}"
  | writeFile path reason => s!"write_failed path={path} error={reason}"
  | fault f => f.message

instance : MonadLift (Except Fault) (Except CommandFault) where
  monadLift
    | .ok a => .ok a
    | .error f => .error (.fault f)

/-! ### Commands -/

/-- The class that a self test looks at. -/
inductive Target
  | file (path : String)
  | specimen (s : Specimen)
  deriving DecidableEq

/-- A class that is built in. -/
inductive Artifact
  | specimen (s : Specimen)
  | template
  deriving DecidableEq

/-- What a self test is asked for. -/
structure SelfTestRequest where
  target : Target
  /-- Whether the patch is to be installed. -/
  agent : Bool
  agentArguments : Option String
  template : Option String
  config : Option String
  printActuals : Bool
  json : Bool
  deriving DecidableEq

/-- What a patch is asked for. -/
structure PatchRequest where
  input : String
  output : String
  template : Option String
  config : Option String
  json : Bool
  deriving DecidableEq

/-- A command. -/
inductive Command
  | help
  | selfTest (r : SelfTestRequest)
  | patch (r : PatchRequest)
  | specimen (artifact : Artifact) (output : String)
  deriving DecidableEq

/-! ### Options -/

/-- The options of all commands. -/
structure Options where
  target : Option String := none
  specimen : Option Specimen := none
  agent : Bool := false
  agentArguments : Option String := none
  template : Option String := none
  config : Option String := none
  printActuals : Bool := false
  json : Bool := false
  input : Option String := none
  output : Option String := none
  kind : Option Artifact := none

/-- What an option does. -/
inductive OptionEffect
  | switch (set : Options → Options)
  | value (set : String → Options → Except Fault Options)

/-- An option whose value may be any text. -/
def textOption (set : String → Options → Options) : OptionEffect :=
  .value fun text o => .ok (set text o)

/-- The class with a name that is built in. -/
def Artifact.parse (s : String) : Except Fault Artifact :=
  if s = "template" then .ok template else specimen <$> Specimen.parse s

/-- The options of all commands with what they do. -/
def optionEffects : List (String × OptionEffect) := [
  ("--target", textOption fun text o => { o with target := some text }),
  ("--specimen", .value fun text o => do
    return { o with specimen := some (← Specimen.parse text) }),
  ("--agent", .switch fun o => { o with agent := true }),
  ("--agent-args", textOption fun text o => { o with agentArguments := some text }),
  ("--template", textOption fun text o => { o with template := some text }),
  ("--config", textOption fun text o => { o with config := some text }),
  ("--print-actuals", .switch fun o => { o with printActuals := true }),
  ("--json", .switch fun o => { o with json := true }),
  ("--input", textOption fun text o => { o with input := some text }),
  ("--output", textOption fun text o => { o with output := some text }),
  ("--kind", .value fun text o => do return { o with kind := some (← Artifact.parse text) })]

/-- The options of each command. -/
def commandOptions : List (String × List String) := [
  ("selftest", ["--target", "--specimen", "--agent", "--agent-args", "--template", "--config",
    "--print-actuals", "--json"]),
  ("patch", ["--input", "--output", "--template", "--config", "--json"]),
  ("specimen", ["--kind", "--output"])]

/-- The arguments that ask for help. -/
def helpOptions : List String := ["-h", "--help"]

/-- The option that every command has: what is logged. Nothing is. -/
def logOption : String := "--log"

/-- What an option of a command does. -/
def effect? (allowed : List String) (option : String) : Option OptionEffect :=
  if option = logOption then some (textOption fun _ o => o)
  else if allowed.contains option then optionEffects.lookup option
  else none

/-- Reads options; there are none if one of them asks for help. -/
def readOptions (command : String) (allowed : List String) (o : Options) :
    List String → Except CommandFault (Option Options)
  | [] => .ok (some o)
  | option :: rest =>
    if helpOptions.contains option then .ok none
    else match effect? allowed option with
      | none => .error (.unknownOption command option)
      | some (.switch set) => readOptions command allowed (set o) rest
      | some (.value set) =>
        match rest with
        | [] => .error (.missingValue option)
        | text :: rest =>
          match set text o with
          | .ok o => readOptions command allowed o rest
          | .error f => .error (.fault f)

/-! ### From options to commands -/

/-- The value of an option that has to be there. -/
def required (command option : String) (value : Option α) : Except CommandFault α :=
  match value with
  | some a => .ok a
  | none => .error (.missingOption command option)

/-- The class that the options name, or the affected one. -/
def targetOf (o : Options) : Except CommandFault Target :=
  match o.target, o.specimen with
  | some _, some _ => .error .twoTargets
  | some path, none => .ok (.file path)
  | none, s => .ok (.specimen (s.getD .affected))

/-- The command with a name and options. -/
def commandOf (command : String) (o : Options) : Except CommandFault Command := do
  match command with
  | "selftest" =>
    return .selfTest {
      target := ← targetOf o
      agent := o.agent || o.agentArguments.isSome || o.template.isSome
      agentArguments := o.agentArguments
      template := o.template
      config := o.config
      printActuals := o.printActuals
      json := o.json }
  | "patch" =>
    return .patch {
      input := ← required command "--input" o.input
      output := ← required command "--output" o.output
      template := o.template
      config := o.config
      json := o.json }
  | _ =>
    let artifact ← required command "--kind" o.kind
    return .specimen artifact (← required command "--output" o.output)

/-- Reads a command line. -/
def Command.parse : List String → Except CommandFault Command
  | [] => .ok help
  | command :: rest =>
    if command = "help" ∨ helpOptions.contains command then .ok help
    else match commandOptions.lookup command with
      | none => .error (.unknownCommand command)
      | some allowed => do
        match ← readOptions command allowed {} rest with
        | none => return help
        | some o => commandOf command o

end RoundingPatch.CommandLine
