import RoundingPatch.Bytes.Basic
import RoundingPatch.Text.Blank
/-!
# Files

A disk is what a program comes across when it follows a path. Everything on it has a place, the
list of the names that lead there from the root. A path is followed name by name: a single dot
stays, two dots lead one directory back, and each step has to start at a directory. Reading and
writing differ in the last step only. A reader finds out there whether something is missing, while
a writer may add a file, but never under a path that ends like that of a directory.
-/

namespace RoundingPatch

/-- The names that lead to something from the root. -/
abbrev Place := List String

/-- What there is at a place. -/
inductive DiskEntry
  | file (contents : Bytes)
  | directory
  /-- The device that has no contents and keeps none. -/
  | nullDevice
  deriving DecidableEq

/-- The things a program may come across. Directories on the way to one of them need no mention. -/
structure Disk where
  entries : List (Place × DiskEntry)
  /-- The directory where the program runs. -/
  start : Place

/-! ### Failures -/

/-- Why a file cannot be read or written. -/
inductive DiskFault
  | notFound
  /-- The path treats something as a directory that is none. -/
  | notDirectory
  /-- The path leads to a directory. -/
  | isDirectory
  | nameTooLong
  /-- The path has a character that no path has. -/
  | nulInPath
  /-- The contents are not text. -/
  | notText

/-- The words of the operating system. -/
def DiskFault.message : DiskFault → String
  | notFound => "No such file or directory (os error 2)"
  | notDirectory => "Not a directory (os error 20)"
  | isDirectory => "Is a directory (os error 21)"
  | nameTooLong => "File name too long (os error 36)"
  | nulInPath => "file name contained an unexpected NUL byte"
  | notText => "stream did not contain valid UTF-8"

/-! ### Paths -/

/-- A path. -/
structure Path where
  /-- Whether it starts at the root and not where the program runs. -/
  fromRoot : Bool
  names : List String
  /-- Whether it ends with a slash, as only paths of directories should. -/
  closed : Bool

namespace Path

/-- The bytes that a path may have. -/
def maxLength : Nat := 4095

/-- The bytes that a name in a path may have. -/
def maxNameLength : Nat := 255

/-- The path that is written as `text`. Slashes in a row count as one. -/
def parse (text : String) : Except DiskFault Path :=
  if text.contains '\x00' then .error .nulInPath
  else if text = "" then .error .notFound
  else if maxLength < text.utf8ByteSize then .error .nameTooLong
  else .ok {
    fromRoot := text.startsWith "/"
    names := (((Text.pieces (· == '/') text.toList).filter (· ≠ [])).map String.ofList)
    closed := text.endsWith "/" }

/-- A path as it is written, its end left open. -/
def text (p : Path) : String :=
  (if p.fromRoot then "/" else "") ++ "/".intercalate p.names

/-- The parts of a path up to each of its names, shortest first. -/
def beginnings (p : Path) : List Path :=
  (List.range p.names.length).map fun n => { p with names := p.names.take (n + 1), closed := false }

end Path

/-- Where a name leads from a place. -/
def Place.follow (place : Place) (name : String) : Place :=
  if name = "." then place else if name = ".." then place.dropLast else place ++ [name]

namespace Disk

/-! ### Disks -/

/-- What there is at a place, if anything. -/
def entry? (d : Disk) (place : Place) : Option DiskEntry :=
  match d.entries.find? (·.1 == place) with
  | some (_, entry) => some entry
  | none => if d.entries.any (place.isPrefixOf ·.1) then some .directory else none

/-- The directories that a root has. -/
def rootDirectories : List String := [
  "bin", "boot", "dev", "etc", "home", "lib", "media", "mnt", "opt", "proc", "root", "run", "sbin",
  "srv", "sys", "tmp", "usr", "var"]

/-- A disk without files. -/
def bare : Disk where
  entries := [(["tmp", "work"], .directory), (["dev", "null"], .nullDevice)]
    ++ rootDirectories.map ([·], .directory)
  start := ["tmp", "work"]

/-- A disk with `entry` at a place. -/
def put (d : Disk) (place : Place) (entry : DiskEntry) : Disk :=
  { d with entries := (place, entry) :: d.entries.filter (·.1 ≠ place) }

/-- Where a path starts. -/
def origin (d : Disk) (p : Path) : Place :=
  if p.fromRoot then [] else d.start

/-- Where a path leads if nothing is in its way. -/
def placeOf (d : Disk) (p : Path) : Place :=
  p.names.foldl Place.follow (d.origin p)

/-- A disk with some files, each under its path from where the program runs. -/
def withFiles (d : Disk) (files : List (String × Bytes)) : Disk :=
  files.foldl (fun d (path, contents) =>
    match Path.parse path with
    | .ok p => d.put (d.placeOf p) (.file contents)
    | .error _ => d) d

/-! ### Following paths -/

/-- Checks that there is a directory at a place. -/
def checkDirectory (d : Disk) (place : Place) : Except DiskFault Unit :=
  match d.entry? place with
  | some .directory => .ok ()
  | some _ => .error .notDirectory
  | none => .error .notFound

/-- Follows a name from a place. What is there is for the next step to find out. -/
def step (d : Disk) (place : Place) (name : String) : Except DiskFault Place := do
  d.checkDirectory place
  if Path.maxNameLength < name.utf8ByteSize then throw .nameTooLong
  return place.follow name

/-- Follows names from the place where a path starts. -/
def walk (d : Disk) (p : Path) (names : List String) : Except DiskFault Place :=
  names.foldlM d.step (d.origin p)

/-! ### Reading and writing -/

/-- The contents of a file. -/
def read (d : Disk) (path : String) : Except DiskFault Bytes := do
  let p ← Path.parse path
  match d.entry? (← d.walk p p.names) with
  | none => throw .notFound
  | some .directory => throw .isDirectory
  | some (.file contents) => if p.closed then throw .notDirectory else return contents
  | some .nullDevice => if p.closed then throw .notDirectory else return []

/-- The text in a file. -/
def readText (d : Disk) (path : String) : Except DiskFault String := do
  let contents ← d.read path
  match String.fromUTF8? ⟨contents.toArray⟩ with
  | some text => return text
  | none => throw .notText

/-- Where writing to a path puts the contents. The directory has to be there already. -/
def target (d : Disk) (path : String) : Except DiskFault Place := do
  let p ← Path.parse path
  let directory ← d.walk p p.names.dropLast
  d.checkDirectory directory
  match p.names.getLast? with
  | none => throw .isDirectory
  | some name =>
    if p.closed ∨ name = "." ∨ name = ".." then throw .isDirectory
    let place ← d.step directory name
    if d.entry? place = some .directory then throw .isDirectory
    return place

/-- The disk after contents are written to a path. -/
def write (d : Disk) (path : String) (contents : Bytes) : Except DiskFault Disk := do
  let place ← d.target path
  if d.entry? place = some .nullDevice then return d
  return d.put place (.file contents)

/-- The files where the program runs that another disk does not have, each under its path. -/
def newFiles (d before : Disk) : List (String × Bytes) :=
  d.entries.filterMap fun (place, entry) =>
    match entry with
    | .file contents =>
      if d.start.isPrefixOf place ∧ before.entry? place ≠ some entry then
        some ("/".intercalate (place.drop d.start.length), contents)
      else none
    | _ => none

end Disk

end RoundingPatch
