import RoundingPatch.DigitList.Reference
import RoundingPatch.Machine.Basic
/-!
# Oracles

Who answers the questions that rounding asks: the reference, or a method of a class that runs on a
machine. For each question the method gets a new receiver with the fields of the digit list, as far
as its class declares them. Everything a call has put on the heap is gone afterwards, so the heap
holds the rounding modes and nothing else between questions.
-/

namespace RoundingPatch

open ClassFile Machine

/-! ### Methods as oracles -/

/-- A method that answers questions. -/
structure BytecodeOracle where
  machine : Machine
  /-- Where the rounding modes are, in order. -/
  modes : List ObjRef
  method : String
  descriptor : String

namespace BytecodeOracle

/-- The method that decides about rounding. -/
def shouldRoundUp : String := "shouldRoundUp"

/-- Its descriptor. -/
def shouldRoundUpDescriptor : String := "(IZZ)Z"

/-- The oracle for a method of the class with the given bytes. -/
def ofBytes (bytes : Bytes) (limits : Limits) (method : String := shouldRoundUp)
    (descriptor : String := shouldRoundUpDescriptor) : Except Fault BytecodeOracle := do
  let machine ← Machine.load bytes limits
  let (modes, machine) := machine.define RoundingMode.className (RoundingMode.all.map (·.name))
  return { machine, modes, method, descriptor }

/-- The fields of a receiver, apart from the digits themselves. -/
def fields (o : BytecodeOracle) (l : DigitList) (digits : ObjRef) : List (String × Value) := [
  ("digits", .obj digits),
  ("count", .int (Int32.ofNat l.count)),
  ("decimalAt", .int l.decimalAt),
  ("isNegative", .ofBool l.isNegative),
  ("roundingMode", .ref o.modes[l.roundingMode.ordinal]?)]

/-- Makes a receiver for a digit list. -/
def receiver (o : BytecodeOracle) (l : DigitList) : Except Fault (ObjRef × Machine) :=
  let units := l.digits.map fun d => d.toUInt16
  let (digits, machine) := o.machine.add (.chars units.toArray)
  machine.addInstance ((o.fields l digits).filter fun field => machine.loaded.hasField field.1)

/-- Calls the method on a new receiver. -/
def call (o : BytecodeOracle) (q : RoundingQuestion) : Except Fault (Option Value) × Machine :=
  match o.receiver q.list with
  | .error f => (.error f, o.machine)
  | .ok (this, machine) =>
    machine.callVirtual this o.method o.descriptor
      [.int q.place, .ofBool q.alreadyRounded, .ofBool q.exact]

/-- The truth value that a call came back with. -/
def verdict (o : BytecodeOracle) : Option Value → Except Fault Bool
  | some v => v.asBool
  | none => .error (.execution (.returnedVoid o.method o.descriptor))

/-- Answers a question. -/
def ask (o : BytecodeOracle) (q : RoundingQuestion) : Except Fault Bool × BytecodeOracle :=
  let (result, machine) := o.call q
  let machine := machine.withHeap (machine.heap.truncate o.machine.heap.size)
  (result.bind o.verdict, { o with machine })

end BytecodeOracle

/-! ### Oracles -/

/-- Who answers questions. -/
inductive Oracle
  | reference
  | bytecode (o : BytecodeOracle)

/-- A computation that asks an oracle and may fail. -/
abbrev Asking := ExceptT Fault (StateM Oracle)

namespace Oracle

/-- Answers a question. -/
def answer (o : Oracle) (q : RoundingQuestion) : Except Fault Bool × Oracle :=
  match o with
  | reference => (Reference.answer q, reference)
  | bytecode o => (o.ask q).map id bytecode

/-- Puts a question to the oracle. -/
def ask (q : RoundingQuestion) : Asking Bool := fun o =>
  o.answer q

/-- The machine behind an oracle. -/
def machine? : Oracle → Option Machine
  | reference => none
  | bytecode o => some o.machine

end Oracle

end RoundingPatch
