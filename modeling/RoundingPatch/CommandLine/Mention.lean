import RoundingPatch.CommandLine.Run
/-!
# Mentioned files

Which files a command line can come across, so that only these have to be looked at before it runs.
A file is mentioned in an argument, in a pair of an agent's arguments, or as the template in a file
with settings that is itself mentioned.
-/

namespace RoundingPatch.CommandLine

/-- The values in an agent's arguments. -/
def valuesIn (text : String) : List String :=
  (Text.pieces (· == ',') text.toList).filterMap fun pair =>
    match (Text.trimmed pair).dropWhile (· ≠ '=') with
    | _ :: value => some (String.ofList value)
    | [] => none

/-- The paths that arguments mention. -/
def mentioned (args : List String) : List String :=
  args ++ args.flatMap valuesIn

/-- The templates that the contents of a file mention, taken as settings of the patch or as
settings of the whole program. -/
def templatesIn (contents : Bytes) : List String :=
  match String.fromUTF8? ⟨contents.toArray⟩ with
  | none => []
  | some text =>
    let ofPatch := (PatchSettings.parse text).toOption.bind (·.templatePath)
    let ofProgram := (FileSettings.parse text).toOption.bind (·.patch.templatePath)
    ofPatch.toList ++ ofProgram.toList

/-- The templates that the files of a disk mention. -/
def templatesOn (disk : Disk) : List String :=
  disk.entries.flatMap fun (_, entry) =>
    match entry with
    | .file contents => templatesIn contents
    | _ => []

/-- The things to look at before a path is followed, outermost first. -/
def stations (path : String) : List Path :=
  match Path.parse path with
  | .ok p => p.beginnings
  | .error _ => []

end RoundingPatch.CommandLine
