import RoundingPatch.CommandLine.Mention
/-!
# The program

Looks at the files that the command line mentions, runs it, and does what it ends with.
-/

namespace RoundingPatch.CommandLine

/-- A disk together with what is found at the end of a path. -/
def look (disk : Disk) (path : Path) : IO Disk := do
  let place := disk.placeOf path
  try
    if ← (← IO.FS.realPath path.text).isDir then return disk.put place .directory
    else
      let contents ← IO.FS.readBinFile path.text
      return disk.put place (.file contents.toList)
  catch _ => return disk

/-- The disk with nothing but the directory where the program runs. -/
def unseenDisk : IO Disk := do
  match Path.parse (← IO.currentDir).toString with
  | .ok here => return { entries := [(here.names, .directory)], start := here.names }
  | .error _ => return Disk.bare

/-- A disk together with what is found on the way to some paths. -/
def lookAt (disk : Disk) (paths : List String) : IO Disk :=
  (paths.flatMap stations).foldlM look disk

end RoundingPatch.CommandLine

open RoundingPatch CommandLine in
/-- Runs the command line with the given arguments. -/
def main (args : List String) : IO UInt32 := do
  let disk ← lookAt (← unseenDisk) (mentioned args)
  let disk ← lookAt disk (templatesOn disk)
  let finish := run disk args
  match finish.file with
  | some (path, contents) => IO.FS.writeBinFile path ⟨contents.toArray⟩
  | none => pure ()
  IO.print finish.output
  IO.eprint finish.errors
  return finish.exitCode.toUInt32
