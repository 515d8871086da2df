import RoundingPatch.ClassFile.Basic
import RoundingPatch.Text.Blank
/-!
# Java runtimes

The runtime that a test reports about: its version, its vendor and where it is installed. If it is
not known, the version of the class file stands for it.
-/

namespace RoundingPatch

/-- A Java runtime. -/
structure JavaRuntime where
  version : String
  vendor : String
  home : String
  deriving DecidableEq

namespace JavaRuntime

/-- The first version of class files that are numbered like their runtimes. -/
def plainNumbering : UInt16 := 53

/-- The distance between the numbers of class files and of runtimes. -/
def versionOffset : Nat := 44

/-- The runtime that a version of class files belongs to. -/
def ofMajor (major : UInt16) : JavaRuntime where
  version :=
    let number := toString (major.toNat - versionOffset)
    if major < plainNumbering then "1." ++ number ++ ".0" else number
  vendor := "OpenJDK"
  home := "(simulated)"

/-- The runtime that the class with the given bytes belongs to. -/
def ofBytes (bytes : Bytes) : Except Fault JavaRuntime := do
  return ofMajor (← ClassFile.parse bytes).header.major

/-! ### The expected runtimes -/

/-- A character in lower case, as far as that can be one of the letters a to z. -/
def lower (c : Char) : Char :=
  if c = '\u212A' then 'k' else c.toLower

/-- Whether `part` stands somewhere in `s`. -/
def occursIn (part : List Char) : List Char → Bool
  | [] => part.isEmpty
  | c :: rest => part.isPrefixOf (c :: rest) || occursIn part rest

/-- The vendors whose runtimes the patch is for. -/
def vendors : List String := ["oracle", "openjdk"]

/-- The number that some digits denote, if it has 32 bits. -/
def number? (digits : List Char) : Option Nat :=
  let n := digits.foldl (fun n c => 10 * n + (c.toNat - '0'.toNat)) 0
  if digits = [] ∨ Nat.pow 2 32 ≤ n then none else some n

/-- Whether the patch is expected to apply: to runtimes of the known vendors that call themselves
1.8 or later in the line of versions that start with `1.`. -/
def isJava8OrNewer (r : JavaRuntime) : Bool :=
  let vendor := r.vendor.toList.map lower
  let numbers := Text.pieces (fun c => !c.isDigit) r.version.toList
  vendors.any (fun name => occursIn name.toList vendor) &&
    match numbers with
    | ['1'] :: minor :: _ => (number? minor).any (8 ≤ ·)
    | _ => false

end JavaRuntime

end RoundingPatch
