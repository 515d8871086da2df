import RoundingPatch.ClassFile.Assembly
import RoundingPatch.DigitList.Bytecode
/-!
# Specimens of the digit list class

Two builds of the class for trying the patch out, with the members that the rounding decision
touches. They differ in one method, `shouldRoundUp`, which chooses its case by the rounding mode:
in the affected build the case of `HALF_UP` has a body of its own, which is wrong when the digits
have been rounded before; in the fixed build `HALF_UP` and `HALF_DOWN` share one body.
-/

namespace RoundingPatch

open ClassFile DigitList.Bytecode

/-- A build of the digit list class. -/
inductive Specimen
  | affected
  | fixed
  deriving DecidableEq

namespace Specimen

/-- The name of a specimen. -/
def name : Specimen → String
  | affected => "affected"
  | fixed => "fixed"

/-- The specimen with a name. -/
def parse (s : String) : Except Fault Specimen :=
  match s with
  | "affected" => .ok affected
  | "fixed" => .ok fixed
  | other => .error (.config (.unknownSpecimen other))

/-! ### Labels -/

/-- The start of a method. -/
def methodStart : Label := .synthetic 0

/-- The end of a method, behind its last instruction. -/
def methodStop : Label := .synthetic 1

/-- The answer `false` that all cases share. -/
def common : Label := .synthetic 2

/-- The case of a rounding mode. -/
def caseOf (mode : RoundingMode) : Label :=
  .synthetic (UInt32.ofNat (8 + mode.ordinal))

/-- A label inside the case of a rounding mode. -/
def within (mode : RoundingMode) (number : Nat) : Label :=
  .synthetic (UInt32.ofNat (16 + 16 * mode.ordinal + number))

/-! ### Is the list zero? -/

/-- The method that says whether all digits are zero. -/
def isZero : MethodSource :=
  let head := Label.synthetic 0
  let next := Label.synthetic 1
  let done := Label.synthetic 2
  { access := 0
    name := "isZero"
    descriptor := "()Z"
    events := [.code 2 2, plain Opcode.iconst0, .insn (.var Opcode.istore 1)]
      ++ entry head (.append [.integer])
      ++ load 1 :: count className
      ++ jump Opcode.ifIcmpGe done :: digitAt className 1
      ++ [zeroChar, jump Opcode.ifIcmpEq next]
      ++ answer false
      ++ entry next .same
      ++ [.insn (.iinc 1 1), jump Opcode.goto head]
      ++ entry done (.chop 1)
      ++ answer true }

/-! ### Pieces of the rounding decision -/

/-- The frame of a method with the receiver, the three parameters and `more` integers. -/
def frameWith (more : Nat) : Frame :=
  .full (.object className :: List.replicate (3 + more) .integer) []

/-- The start of a case. -/
def caseStart (mode : RoundingMode) (line : UInt16) : List MethodEvent :=
  entry (caseOf mode) (frameWith 0) ++ [.line line (caseOf mode)]

/-- Goes through the digits from the decisive one on, or from the one behind it. The first digit
that is not zero leads to `onNonzero`; if there is none, control goes to `common`. -/
def scanDigits (mode : RoundingMode) (behind : Bool) (onNonzero : List MethodEvent) :
    List MethodEvent :=
  let head := within mode 0
  let next := within mode 1
  load maximumDigits :: (if behind then [plain Opcode.iconst1, plain Opcode.iadd] else [])
    ++ .insn (.var Opcode.istore loopIndex) :: entry head (frameWith 1)
    ++ load loopIndex :: count className
    ++ jump Opcode.ifIcmpGe common :: digitAt className loopIndex
    ++ [zeroChar, jump Opcode.ifIcmpEq next]
    ++ onNonzero
    ++ entry next .same
    ++ [.insn (.iinc loopIndex 1), jump Opcode.goto head]

/-- Returns whether the value is negative. -/
def answerNegative : List MethodEvent :=
  [self, getField className "isNegative" "Z", plain Opcode.ireturn]

/-- Returns whether the value is not negative. -/
def answerPositive : List MethodEvent :=
  let pushFalse := within .ceiling 2
  let done := within .ceiling 3
  [self, getField className "isNegative" "Z", jump Opcode.ifne pushFalse, plain Opcode.iconst1,
      jump Opcode.goto done]
    ++ entry pushFalse (frameWith 1)
    ++ plain Opcode.iconst0 :: entry done (.sameWithOne .integer)
    ++ [plain Opcode.ireturn]

/-- Pushes the decisive digit and a five. -/
def digitAndFive : List MethodEvent :=
  digitAt className maximumDigits ++ [fiveChar]

/-- Answers `true` above five and goes to `common` below five. -/
def unlessFive (mode : RoundingMode) : List MethodEvent :=
  let checkTie := within mode 2
  digitAndFive
    ++ jump Opcode.ifIcmpLe checkTie :: answer true
    ++ entry checkTie .same
    ++ digitAndFive
    ++ [jump Opcode.ifIcmpNe common]

/-- Throws the exception of a rounding that must not be needed. -/
def throwUnnecessary : List MethodEvent :=
  let exception := "java/lang/ArithmeticException"
  [.insn (.type Opcode.new exception), plain Opcode.dup,
    .insn (.ldc (.string RoundingMode.roundingNeeded)),
    .insn (.call Opcode.invokespecial exception "<init>" "(Ljava/lang/String;)V"),
    plain Opcode.athrow]

/-! ### The cases -/

/-- The affected case of `HALF_UP`: from five on it rounds up, unless the decisive digit is the
last one and the digits were rounded before, whatever that digit is. -/
def halfUpAffected : List MethodEvent :=
  let roundUp := within .halfUp 0
  digitAndFive
    ++ jump Opcode.ifIcmpLt common :: decisiveAndLast className
    ++ [jump Opcode.ifIcmpNe roundUp, load alreadyRounded, jump Opcode.ifeq roundUp]
    ++ answer false
    ++ entry roundUp .same
    ++ answer true

/-- The affected case of `HALF_DOWN`: a five at the end rounds down if it is exact or the digits
were rounded up before. -/
def halfDownAffected : List MethodEvent :=
  let roundUp := within .halfDown 0
  let roundDown := within .halfDown 1
  unlessFive .halfDown
    ++ decisiveAndLast className
    ++ [jump Opcode.ifIcmpNe roundUp, load valueExact, jump Opcode.ifne roundDown,
      load alreadyRounded, jump Opcode.ifeq roundUp]
    ++ entry roundDown .same
    ++ answer false
    ++ entry roundUp .same
    ++ answer true

/-- The fixed body of `HALF_UP` and `HALF_DOWN`: an exact five at the end rounds up in `HALF_UP`
only; an inexact one makes good for the earlier rounding. -/
def halfFixed : List MethodEvent :=
  let last := within .halfUp 3
  let inexact := within .halfUp 4
  let notHalfUp := within .halfUp 5
  let returned := within .halfUp 6
  let roundDown := within .halfUp 7
  unlessFive .halfUp
    ++ decisiveAndLast className
    ++ jump Opcode.ifIcmpEq last :: answer true
    ++ entry last .same
    ++ [load valueExact, jump Opcode.ifeq inexact, self,
      getField className "roundingMode" RoundingMode.descriptor,
      .insn (.field Opcode.getstatic RoundingMode.className RoundingMode.halfUp.name
        RoundingMode.descriptor),
      jump Opcode.ifAcmpNe notHalfUp, plain Opcode.iconst1, jump Opcode.goto returned]
    ++ entry notHalfUp .same
    ++ plain Opcode.iconst0 :: entry returned (.sameWithOne .integer)
    ++ plain Opcode.ireturn :: entry inexact .same
    ++ [load alreadyRounded, jump Opcode.ifne roundDown]
    ++ answer true
    ++ entry roundDown .same
    ++ answer false

/-- The case of `HALF_EVEN`: an exact five at the end rounds to the even neighbour, and a five
with a digit other than zero behind it rounds up. -/
def halfEven : List MethodEvent :=
  let scan := within .halfEven 3
  let checkExact := within .halfEven 4
  let parity := within .halfEven 5
  let roundDown := within .halfEven 6
  unlessFive .halfEven
    ++ decisiveAndLast className
    ++ [jump Opcode.ifIcmpNe scan, load alreadyRounded, jump Opcode.ifeq checkExact]
    ++ answer false
    ++ entry checkExact .same
    ++ [load valueExact, jump Opcode.ifne parity]
    ++ answer true
    ++ entry parity .same
    ++ [load maximumDigits, jump Opcode.ifle roundDown, self, getField className "digits" "[C",
      load maximumDigits, plain Opcode.iconst1, plain Opcode.isub, plain Opcode.caload,
      plain (Opcode.iconst0 + 2), plain Opcode.irem, jump Opcode.ifeq roundDown]
    ++ answer true
    ++ entry roundDown .same
    ++ answer false
    ++ entry scan .same
    ++ scanDigits .halfEven true (answer true)

/-- The cases of `HALF_UP` and `HALF_DOWN`. -/
def halfCases : Specimen → List MethodEvent
  | affected =>
    caseStart .halfUp 526 ++ halfUpAffected ++ caseStart .halfDown 536 ++ halfDownAffected
  | fixed => caseStart .halfUp 526 ++ halfFixed

/-- The case that each rounding mode goes to. -/
def targets (s : Specimen) : List Label :=
  RoundingMode.all.map fun mode =>
    caseOf (if s = fixed ∧ mode = .halfDown then .halfUp else mode)

/-- The method that decides whether to round up. -/
def shouldRoundUp (s : Specimen) : MethodSource where
  access := Access.privateFlag
  name := "shouldRoundUp"
  descriptor := "(IZZ)Z"
  events := [.code 3 5, .label methodStart, .line 500 methodStart, load maximumDigits]
    ++ count className
    ++ [jump Opcode.ifIcmpGe common, self,
      getField className "roundingMode" RoundingMode.descriptor,
      .insn (.call Opcode.invokevirtual RoundingMode.className "ordinal" "()I"),
      .insn (.tableSwitch 0 7 common s.targets)]
    ++ caseStart .up 503 ++ scanDigits .up false (answer true)
    ++ caseStart .down 510 ++ [jump Opcode.goto common]
    ++ caseStart .ceiling 512 ++ scanDigits .ceiling false answerPositive
    ++ caseStart .floor 519 ++ scanDigits .floor false answerNegative
    ++ s.halfCases
    ++ caseStart .halfEven 556 ++ halfEven
    ++ caseStart .unnecessary 583 ++ scanDigits .unnecessary false throwUnnecessary
    ++ entry common (frameWith 0)
    ++ .line 595 common :: answer false
    ++ .label methodStop :: decisionLocals className methodStart methodStop

/-! ### The class -/

/-- A specimen as an assembly. -/
def assembly (s : Specimen) : Assembly where
  header := {
    minor := 0
    major := 52
    access := Access.finalFlag ||| Access.superFlag
    name := className
    superName := some objectClass
    interfaces := ["java/lang/Cloneable"] }
  fields := [
    ⟨Access.publicFlag, "decimalAt", "I"⟩,
    ⟨Access.publicFlag, "count", "I"⟩,
    ⟨Access.publicFlag, "digits", "[C"⟩,
    ⟨Access.privateFlag, "roundingMode", RoundingMode.descriptor⟩,
    ⟨Access.privateFlag, "isNegative", "Z"⟩]
  methods := [constructor, isZero, s.shouldRoundUp]

/-- The bytes of a specimen. -/
def bytes (s : Specimen) : Except Fault Bytes :=
  s.assembly.bytes

end Specimen

end RoundingPatch
