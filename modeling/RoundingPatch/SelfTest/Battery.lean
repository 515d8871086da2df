import RoundingPatch.Binary.Nearest
import RoundingPatch.Decimal.Text
import RoundingPatch.DigitList.NumberFormat
import RoundingPatch.DigitList.Oracle
import RoundingPatch.SelfTest.JavaRuntime
/-!
# Batteries of cases

A case formats a number and compares the text with what is expected: a fixed text, or what another
format makes of a number. Cases come in groups that share a format. All cases run, whatever becomes
of the ones before them, and a fault is a text like any other.
-/

namespace RoundingPatch

/-! ### Cases -/

/-- The text that a case expects. -/
inductive Expected
  | literal (text : String)
  /-- What `format` makes of `input`. -/
  | control (format : NumberFormat) (input : Binary64)
  deriving DecidableEq

/-- A number and what is expected for it. -/
structure Case where
  input : Binary64
  expected : Expected
  deriving DecidableEq

/-- Cases that share a format. -/
structure CaseGroup where
  title : String
  format : NumberFormat
  cases : List Case
  /-- Whether the exact values of the numbers are reported. -/
  printActuals : Bool := false
  /-- Whether the group passes on runtimes before 1.8 whatever happens. -/
  lenientBeforeJava8 : Bool := false
  deriving DecidableEq

/-! ### The standard battery -/

namespace Battery

/-- The format of the defect, with a limit on the digits behind the point. -/
def halfUp (maximumFractionDigits : Int32) (grouping : Bool := true) : NumberFormat :=
  { maximumFractionDigits, grouping, roundingMode := .halfUp }

/-- A case with a fixed text. -/
def literal (numerator denominator : Nat) (text : String) : Case :=
  ⟨.ofRatio numerator denominator, .literal text⟩

/-- The hundredths that round differently although they end in a five: their exact values are below
the half. -/
def exempt : List Nat := [15, 35, 85, 95]

/-- A hundredth, formatted like the number itself by the default rounding; one that ends in a five
is moved off the half for that. -/
def sweepCase (hundredths : Nat) : Case :=
  let v := Binary64.ofRatio hundredths 100
  let input := if hundredths % 10 = 5 then v.sum (.ofRatio 1 100) else v
  ⟨v, .control { maximumFractionDigits := 1 } input⟩

/-- The published reports of the defect, in the order in which they came. -/
def standard : List CaseGroup := [
  { title := "StackOverflow.com question 24426438 test case 1:"
    format := halfUp 3 false
    cases := [literal 62088 10000 "6.209", literal 62089 10000 "6.209"] },
  { title := "StackOverflow.com question 24426438 test case 2:"
    format := halfUp 1
    cases := ((List.range 100).filter fun i => !exempt.contains i).map sweepCase },
  { title := "JDK-8041961 test case:"
    format := halfUp 2
    cases := [literal 999989 10000 "100", literal 99999 1000 "100"] },
  { title := "JDK-8039915 test case:"
    format := halfUp 6 false
    cases := [literal 95000055 100000000 "0.950001", literal 9500006 10000000 "0.950001"] },
  { title := "JDK-7131459 test case:"
    format := halfUp 1
    cases := [literal 15 100 "0.1", literal 35 100 "0.3", literal 85 100 "0.8",
      literal 95 100 "0.9"]
    printActuals := true
    lenientBeforeJava8 := true }]

end Battery

/-! ### Reports -/

/-- What became of a case. -/
structure CaseResult where
  input : String
  mode : RoundingMode
  actual : String
  expected : String
  /-- The exact value of the number, if it is reported. -/
  exactValue : Option String
  deriving DecidableEq

/-- Whether a case came out as expected. -/
def CaseResult.passed (r : CaseResult) : Bool :=
  r.actual == r.expected

/-- What became of a group. -/
structure GroupReport where
  title : String
  results : List CaseResult
  /-- Whether the group was expected to fail. -/
  lenient : Bool
  deriving DecidableEq

namespace GroupReport

/-- Whether all cases came out as expected. -/
def allPassed (r : GroupReport) : Bool :=
  r.results.all CaseResult.passed

/-- A remark on a group that was expected to fail. -/
def note? (r : GroupReport) : Option String :=
  if r.lenient then some "NOTE: These tests SHOULD NOT MATCH on earlier versions of Java."
  else none

/-- Whether a group only passes because it was expected to fail. -/
def forcedPass (r : GroupReport) : Bool :=
  r.lenient && !r.allPassed

/-- Whether a group passes. -/
def passed (r : GroupReport) : Bool :=
  r.allPassed || r.lenient

end GroupReport

/-- What became of a battery. -/
structure BatteryReport where
  groups : List GroupReport
  deriving DecidableEq

namespace BatteryReport

/-- The results of all cases. -/
def cases (r : BatteryReport) : List CaseResult :=
  r.groups.flatMap (·.results)

/-- The number of cases that did not come out as expected. -/
def failed (r : BatteryReport) : Nat :=
  r.cases.countP fun c => !c.passed

/-- Whether all groups pass. -/
def passed (r : BatteryReport) : Bool :=
  r.groups.all (·.passed)

end BatteryReport

/-! ### Running a battery -/

namespace Battery

/-- A number as text; a fault is its own text. -/
def render (format : NumberFormat) (input : Binary64) : StateM Oracle String := do
  match ← (format.format Oracle.ask input).run with
  | .ok text => return text
  | .error fault => return s!"<{fault.message}>"

/-- Finds out what a case expects. -/
def expect : Expected → StateM Oracle String
  | .literal text => return text
  | .control format input => render format input

/-- Runs a case. -/
def runCase (format : NumberFormat) (showExact : Bool) (c : Case) : StateM Oracle CaseResult := do
  let expected ← expect c.expected
  let actual ← render format c.input
  return {
    input := c.input.shortText
    mode := format.roundingMode
    actual, expected
    exactValue := if showExact then some c.input.exactText else none }

/-- Runs a group. -/
def runGroup (runtime : JavaRuntime) (printActuals : Bool) (g : CaseGroup) :
    StateM Oracle GroupReport := do
  let results ← g.cases.mapM (runCase g.format (printActuals || g.printActuals))
  return {
    title := g.title
    results
    lenient := g.lenientBeforeJava8 && !runtime.isJava8OrNewer }

/-- Runs all groups, with the exact values of all numbers if `printActuals`. -/
def run (runtime : JavaRuntime) (printActuals : Bool) (groups : List CaseGroup) :
    StateM Oracle BatteryReport := do
  return ⟨← groups.mapM (runGroup runtime printActuals)⟩

end Battery

end RoundingPatch
