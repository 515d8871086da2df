import RoundingPatch.Machine.Program
import RoundingPatch.Machine.Value
/-!
# Activations

One run of a program: its local variables, its operand stack and the position of the next
instruction. The operand stack never grows beyond what the program declares, and local variables
outside the declared ones cannot be touched.
-/

namespace RoundingPatch.Machine

open ClassFile

/-- A program that is being run. -/
structure Activation where
  program : Program
  locals : List Value
  /-- The operand stack, topmost value first. -/
  stack : List Value
  /-- The position of the next instruction. -/
  next : Nat

namespace Activation

/-- The start of a program, with the arguments in the first local variables. -/
def start (p : Program) (args : List Value) : Except Fault Activation :=
  let limit := p.maxLocals.toNat
  if limit < args.length then
    .error (.execution (.tooManyArguments p.name p.descriptor args.length limit))
  else
    .ok ⟨p, args ++ List.replicate (limit - args.length) (.int 0), [], 0⟩

/-! ### The operand stack -/

/-- Puts a value on the stack. -/
def push (a : Activation) (v : Value) : Except Fault Activation :=
  let limit := a.program.maxStack.toNat
  if limit ≤ a.stack.length then
    .error (.execution (.stackOverflow a.program.name a.program.descriptor limit))
  else .ok { a with stack := v :: a.stack }

/-- Takes a value from the stack. -/
def pop (a : Activation) : Except Fault (Value × Activation) :=
  match a.stack with
  | v :: rest => .ok (v, { a with stack := rest })
  | [] => .error (.execution (.stackUnderflow a.program.name a.program.descriptor))

/-- Takes a word from the stack. -/
def popInt (a : Activation) : Except Fault (Int32 × Activation) := do
  let (v, a) ← a.pop
  return (← v.asInt, a)

/-- Takes a reference from the stack. -/
def popRef (a : Activation) : Except Fault (Option ObjRef × Activation) := do
  let (v, a) ← a.pop
  return (← v.asRef, a)

/-- Takes an object from the stack; `what` says what it is needed for. -/
def popObj (a : Activation) (what : String) : Except Fault (ObjRef × Activation) := do
  let (v, a) ← a.pop
  return (← v.asObj what, a)

/-- Takes some values from the stack and lists them in the order they were put there. -/
def popMany (a : Activation) : Nat → List Value → Except Fault (List Value × Activation)
  | 0, taken => .ok (taken, a)
  | n + 1, taken => do
    let (v, a) ← a.pop
    a.popMany n (v :: taken)

/-- The value on top of the stack. -/
def peek (a : Activation) : Except Fault Value :=
  match a.stack with
  | v :: _ => .ok v
  | [] => .error (.execution .emptyStack)

/-! ### Local variables -/

/-- There is no local variable with an index. -/
def badLocal (a : Activation) (index : UInt16) : Fault :=
  .execution (.badLocal index.toNat a.program.name a.program.descriptor
    a.program.maxLocals.toNat)

/-- The value of a local variable. -/
def load (a : Activation) (index : UInt16) : Except Fault Value :=
  match a.locals[index.toNat]? with
  | some v => .ok v
  | none => .error (a.badLocal index)

/-- Sets a local variable. -/
def store (a : Activation) (index : UInt16) (v : Value) : Except Fault Activation :=
  if index.toNat < a.locals.length then .ok { a with locals := a.locals.set index.toNat v }
  else .error (a.badLocal index)

/-! ### Branches -/

/-- Goes on at a label. -/
def jump (a : Activation) (l : Label) : Except Fault Activation := do
  return { a with next := ← a.program.target l }

end Activation

end RoundingPatch.Machine
