/-!
# What is known of a patch

Whoever installs the patch and whoever tests it share three facts: whether it was installed,
whether it changed a class, and the first error it met.
-/

namespace RoundingPatch

/-- What is known of a patch. -/
structure PatchState where
  installed : Bool := false
  applied : Bool := false
  /-- The first error. -/
  lastError : Option String := none
  deriving DecidableEq

namespace PatchState

/-- The patch is installed. -/
def markInstalled (s : PatchState) : PatchState :=
  { s with installed := true }

/-- The patch has changed a class. -/
def markApplied (s : PatchState) : PatchState :=
  { s with applied := true }

/-- The patch met an error. Only the first one is kept; says whether this was it. -/
def recordError (s : PatchState) (detail : String) : Bool × PatchState :=
  match s.lastError with
  | some _ => (false, s)
  | none => (true, { s with lastError := some detail })

end PatchState

end RoundingPatch
