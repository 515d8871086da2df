import RoundingPatch.ClassFile.Code.Layout
import RoundingPatch.RoundingMode
/-!
# The switch over the rounding modes

The target method chooses its case by the position of the mode in one dense switch. A matcher
watches the instructions go by and captures the labels of two cases: the one to be patched and its
sibling. A decision follows the method as it is patched. It says where the forwarding call goes
while labels have no offsets yet, and gives its verdict once they have: if both cases turn out to
stand at the same offset, the class already shares one body for both and needs no patch.
-/

namespace RoundingPatch

open ClassFile

/-! ### Matching -/

/-- The labels of the two cases. -/
structure CaseLabels where
  patched : Label
  sibling : Label
  deriving DecidableEq

/-- What an instruction tells the matcher. -/
inductive MatchStep
  | proceed
  | captured (labels : CaseLabels)
  /-- The switch has too few cases. -/
  | unmatched (positions : Nat)
  deriving DecidableEq

/-- A matcher, with the number of dense switches it has seen. -/
structure Matcher where
  patched : RoundingMode
  sibling : RoundingMode
  switchesSeen : Nat := 0

namespace Matcher

/-- The two cases of a dense switch. -/
def capture (m : Matcher) (targets : List Label) : Except Fault MatchStep :=
  -- With more cases than there are modes it is a switch on something else.
  if RoundingMode.all.length < targets.length then
    .error (.violation (.tooManyCases targets.length))
  else match targets[m.patched.ordinal]?, targets[m.sibling.ordinal]? with
    | some patched, some sibling => .ok (.captured { patched, sibling })
    | _, _ => .ok (.unmatched targets.length)

/-- Shows an instruction to the matcher. A dense switch counts even if it is refused. -/
def observe (m : Matcher) : Insn → Except Fault MatchStep × Matcher
  | .lookupSwitch .. => (.error (.violation .lookupSwitch), m)
  | .tableSwitch _ _ _ targets =>
    let m := { m with switchesSeen := m.switchesSeen + 1 }
    if 1 < m.switchesSeen then (.error (.violation .secondSwitch), m)
    else (m.capture targets, m)
  | _ => (.ok .proceed, m)

end Matcher

/-! ### Deciding -/

/-- How far a decision has come. -/
inductive Decision.State
  | scanning
  | found (labels : CaseLabels)
  /-- The forwarding call was placed. -/
  | patched (labels : CaseLabels)
  | needed
  | notNeeded
  | unmatched
  deriving DecidableEq

/-- What a decision comes to. -/
inductive Verdict
  | modified
  | alreadyFixed
  | unmatched
  deriving DecidableEq

/-- A decision on one method. -/
structure Decision where
  matcher : Matcher
  state : Decision.State := .scanning

namespace Decision

/-- A decision about two cases. -/
def start (patched sibling : RoundingMode) : Decision where
  matcher := { patched, sibling }

/-- Whether the forwarding call is in place and not known to be needless. -/
def applied (d : Decision) : Bool :=
  match d.state with
  | .patched _ | .needed => true
  | _ => false

/-- Shows an instruction to the decision. -/
def onInsn (d : Decision) (insn : Insn) : Except Fault Unit × Decision :=
  match d.matcher.observe insn with
  | (.error fault, matcher) => (.error fault, { d with matcher })
  | (.ok step, matcher) =>
    let state := match d.state, step with
      | .scanning, .captured labels => .found labels
      | .scanning, .unmatched _ => .unmatched
      -- Past scanning, what the matcher says no longer matters.
      | state, _ => state
    (.ok (), { matcher, state })

/-- Whether the forwarding call goes to `label`, which it does once. -/
def takeInjection (d : Decision) (label : Label) : Bool × Decision :=
  match d.state with
  | .found labels =>
    if labels.patched = label then (true, { d with state := .patched labels }) else (false, d)
  | _ => (false, d)

/-- The verdict on a method that is laid out. -/
def finish (d : Decision) (emitted : Emitted) : Except Fault Verdict × Decision :=
  match d.state with
  | .scanning | .unmatched => (.ok .unmatched, { d with state := .unmatched })
  | .found labels => (.error (.violation (.caseNeverBound labels.patched emitted.name)), d)
  | .patched labels =>
    match emitted.offset? labels.patched, emitted.offset? labels.sibling with
    | some patched, some sibling =>
      if patched = sibling then (.ok .alreadyFixed, { d with state := .notNeeded })
      else (.ok .modified, { d with state := .needed })
    | none, _ => (.error (.internal (.noOffset labels.patched)), d)
    | some _, none => (.error (.internal (.noOffset labels.sibling)), d)
  | .needed | .notNeeded => (.error (.internal .decidedTwice), d)

end Decision

end RoundingPatch
