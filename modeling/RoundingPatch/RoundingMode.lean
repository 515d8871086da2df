import RoundingPatch.Fault
import RoundingPatch.Text.Blank
/-!
# Rounding modes

The eight constants of `java/math/RoundingMode`, in the order in which the class declares them.
-/

namespace RoundingPatch

/-- A rounding mode. -/
inductive RoundingMode
  | up
  | down
  | ceiling
  | floor
  | halfUp
  | halfDown
  | halfEven
  | unnecessary
  deriving DecidableEq

namespace RoundingMode

/-- The class that declares the modes. -/
def className : String := "java/math/RoundingMode"

/-- The descriptor of a field that holds a mode. -/
def descriptor : String := "Ljava/math/RoundingMode;"

/-- All modes in order. -/
def all : List RoundingMode :=
  [up, down, ceiling, floor, halfUp, halfDown, halfEven, unnecessary]

/-- The position of a mode among all modes. -/
def ordinal : RoundingMode → Nat
  | up => 0
  | down => 1
  | ceiling => 2
  | floor => 3
  | halfUp => 4
  | halfDown => 5
  | halfEven => 6
  | unnecessary => 7

/-- The mode at a position. -/
def ofOrdinal? (n : Nat) : Option RoundingMode :=
  all[n]?

theorem ofOrdinal?_ordinal (mode : RoundingMode) : ofOrdinal? mode.ordinal = some mode := by
  cases mode <;> rfl

/-- The name of a mode. -/
def name : RoundingMode → String
  | up => "UP"
  | down => "DOWN"
  | ceiling => "CEILING"
  | floor => "FLOOR"
  | halfUp => "HALF_UP"
  | halfDown => "HALF_DOWN"
  | halfEven => "HALF_EVEN"
  | unnecessary => "UNNECESSARY"

/-- The mode with a name. -/
def ofName? (s : String) : Option RoundingMode :=
  all.find? fun mode => mode.name == s

/-- The message of the exception for a number that has to be rounded and must not be. -/
def roundingNeeded : String :=
  "Rounding needed with the rounding mode being set to RoundingMode.UNNECESSARY"

/-- A character of a name as users may write it, turned into the one of the name proper. -/
def nameChar (c : Char) : Char :=
  if c = '-' then '_' else c.toUpper

/-- The mode a user names. Case and the blanks around the name do not matter, and a hyphen is as
good as an underscore. -/
def parse (s : String) : Except Fault RoundingMode :=
  match ofName? (String.ofList ((Text.trimmed s.toList).map nameChar)) with
  | some mode => .ok mode
  | none => .error (.config (.unknownRoundingMode s))

end RoundingMode

end RoundingPatch
