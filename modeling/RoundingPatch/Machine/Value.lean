import RoundingPatch.Fault
/-!
# Values

What local variables, stack entries and fields hold: a word of 32 bits or a reference. Truth
values and characters are words.
-/

namespace RoundingPatch.Machine

/-- The place of an object on the heap. -/
structure ObjRef where
  index : Nat
  deriving DecidableEq

/-- A reference in diagnostics. -/
def ObjRef.text (r : ObjRef) : String :=
  "@" ++ toString r.index

/-- A value. -/
inductive Value
  | int (v : Int32)
  /-- A reference; none is `null`. -/
  | ref (r : Option ObjRef)
  deriving DecidableEq

namespace Value

/-- The reference to no object. -/
def null : Value := .ref none

/-- The reference to an object. -/
def obj (r : ObjRef) : Value := .ref (some r)

/-- A truth value: one or zero. -/
def ofBool (b : Bool) : Value :=
  .int (if b then 1 else 0)

/-- What a field with a descriptor holds before anything is written to it. -/
def default (descriptor : String) : Value :=
  match descriptor.toList with
  | 'L' :: _ | '[' :: _ => null
  | _ => .int 0

/-- The word in a value. -/
def asInt : Value → Except Fault Int32
  | int v => .ok v
  | ref _ => .error (.execution .expectedInt)

/-- The truth value in a value: any word but zero is true. -/
def asBool (v : Value) : Except Fault Bool :=
  return (← v.asInt) != 0

/-- The reference in a value. -/
def asRef : Value → Except Fault (Option ObjRef)
  | ref r => .ok r
  | int _ => .error (.execution .expectedReference)

/-- The object in a value; `what` says what it is needed for. -/
def asObj (what : String) (v : Value) : Except Fault ObjRef := do
  match ← v.asRef with
  | some r => return r
  | none => throw (.execution (.nullReference what))

end Value

end RoundingPatch.Machine
