import RoundingPatch.Patch.Transformer
/-!
# Hosts

A host defines classes. Before it defines one it offers it to every agent in the order in which
they were installed; each agent sees what the one before it made of the class.

An agent is installed with arguments of the form `key=value`, separated by commas.
-/

namespace RoundingPatch

/-! ### Arguments -/

/-- The arguments of an agent. -/
structure AgentArguments where
  /-- The class file of a template. -/
  template : Option String := none
  /-- A file with settings. -/
  config : Option String := none

namespace AgentArguments

/-- Adds one argument. -/
def add (a : AgentArguments) (pair : List Char) : Except Fault AgentArguments :=
  let key := String.ofList (pair.takeWhile (· ≠ '='))
  match pair.dropWhile (· ≠ '=') with
  | [] => .error (.config (.notKeyValue (String.ofList pair)))
  | _ :: value =>
    match key with
    | "template" => .ok { a with template := some (String.ofList value) }
    | "config" => .ok { a with config := some (String.ofList value) }
    | other => .error (.config (.unknownArgument other))

/-- Reads arguments. Blanks around an argument do not matter; a later one of a key counts. -/
def parse (text : Option String) : Except Fault AgentArguments :=
  match text with
  | none => .ok {}
  | some text =>
    let pairs := (Text.pieces (· == ',') text.toList).map Text.trimmed
    (pairs.filter (· ≠ [])).foldlM add {}

/-- The settings that the arguments select. -/
def apply (a : AgentArguments) (disk : Disk) (base : PatchSettings) :
    Except Fault PatchSettings := do
  let settings ← match a.config with
    | some path => PatchSettings.load disk path
    | none => pure base
  match a.template with
  | some path => return { settings with templatePath := some path }
  | none => return settings

end AgentArguments

/-! ### Agents -/

/-- An installed patch. -/
structure Agent where
  transformer : Transformer
  state : PatchState

namespace Agent

/-- Installs the patch with some settings; `state` is what was known of it before. -/
def install (disk : Disk) (settings : PatchSettings) (state : PatchState := {}) :
    Except Fault Agent := do
  let transformer ← Transformer.ofSettings disk settings
  return { transformer, state := state.markInstalled }

/-- Installs the patch with arguments. -/
def installWith (disk : Disk) (arguments : Option String) : Except Fault Agent := do
  let settings ← (← AgentArguments.parse arguments).apply disk {}
  install disk settings

/-- Offers a class to the agent; the answer is what the class is from then on. -/
def offer (agent : Agent) (className : String) (bytes : Bytes) : Bytes × Agent :=
  let (report, state) := agent.transformer.offer agent.state className bytes
  (report.outcome.bytes?.getD bytes, { agent with state })

end Agent

/-! ### Hosts -/

/-- A host: the agents in the order of their installation. -/
abbrev Host := List Agent

/-- Defines a class. The answer is what it is after all agents had their turn. -/
def Host.define (className : String) (bytes : Bytes) : Host → Bytes × Host
  | [] => (bytes, [])
  | agent :: rest =>
    let (bytes, agent) := agent.offer className bytes
    let (bytes, rest) := define className bytes rest
    (bytes, agent :: rest)

end RoundingPatch
