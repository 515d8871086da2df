import RoundingPatch.Machine.Step
/-!
# The machine

A machine runs methods of one class. A call from outside may execute a limited number of
instructions, the calls it makes included, and calls may nest only so deep; a class that was never
verified can therefore not run forever. The heap and the counters outlive a call, failed or not.
-/

namespace RoundingPatch

open ClassFile Machine

namespace Machine

/-- The limits of a call from outside. -/
structure Limits where
  /-- The instructions that may be executed. -/
  stepBudget : Nat := 10000
  /-- The calls that may be under way below the one from outside. -/
  maxDepth : Nat := 16
  deriving DecidableEq

/-! ### Runs -/

/-- The activation that runs and those that wait for it, the latest first. -/
structure CallStack where
  active : Activation
  callers : List (CallSite × Activation)

/-- What comes after an instruction. -/
inductive Progress
  | going (s : CallStack)
  | finished (result : Option Value)

/-- Starts a program below a number of others. -/
def enter (limits : Limits) (depth : Nat) (p : Program) (args : List Value) :
    Exec Activation := do
  if limits.maxDepth < depth then
    throw (.execution (.callDepth depth limits.maxDepth p.name p.descriptor))
  countInvocation
  Activation.start p args

/-- Executes an instruction of the active program. -/
def CallStack.advance (c : LoadedClass) (limits : Limits) (s : CallStack) (i : Insn) :
    Exec Progress := do
  let operation ← Operation.ofInsn i
  match ← perform c { s.active with next := s.active.next + 1 } operation with
  | .next a => return .going { s with active := a }
  | .call a site callee args =>
    let entered ← enter limits (s.callers.length + 1) callee args
    return .going ⟨entered, (site, a) :: s.callers⟩
  | .finished result =>
    match s.callers with
    | [] => return .finished result
    | (site, a) :: callers => return .going ⟨← a.receive site result, callers⟩

/-- Runs until the outermost program returns, something fails, or `left` instructions have been
executed and there is another one. -/
def run (c : LoadedClass) (limits : Limits) (left : Nat) (s : CallStack) (store : Store) :
    Except Fault (Option Value) × Store :=
  match s.active.program.insns[s.active.next]? with
  | none =>
    let p := s.active.program
    (.error (.execution (.fellOffEnd p.name p.descriptor)), store)
  | some i =>
    match left with
    -- The step that is over the budget is counted, though it is not made.
    | 0 => (.error (.execution (.budgetExhausted limits.stepBudget)), store.tick)
    | left + 1 =>
      match (s.advance c limits i).run store.tick with
      | (.ok (.going s), store) => run c limits left s store
      | (.ok (.finished result), store) => (.ok result, store)
      | (.error f, store) => (.error f, store)

/-- Runs a program from its start. -/
def execute (c : LoadedClass) (limits : Limits) (p : Program) (args : List Value)
    (store : Store) : Except Fault (Option Value) × Store :=
  match (enter limits 0 p args).run store with
  | (.ok a, store) => run c limits limits.stepBudget ⟨a, []⟩ store
  | (.error f, store) => (.error f, store)

end Machine

/-- A machine with its class. -/
structure Machine where
  loaded : LoadedClass
  limits : Limits := {}
  store : Store := {}

namespace Machine

/-- A machine for a class. -/
def ofClass (c : ClassFile) (limits : Limits) : Machine :=
  { loaded := .ofClass c, limits }

/-- A machine for the class with the given bytes. -/
def load (bytes : Bytes) (limits : Limits) : Except Fault Machine := do
  return ofClass (← ClassFile.parse bytes) limits

/-- The objects of a machine. -/
def heap (m : Machine) : Heap :=
  m.store.heap

/-- A machine with other objects. -/
def withHeap (m : Machine) (heap : Heap) : Machine :=
  { m with store := { m.store with heap } }

/-- Adds an object. -/
def add (m : Machine) (o : HeapObject) : ObjRef × Machine :=
  let (r, heap) := m.heap.alloc o
  (r, m.withHeap heap)

/-- Adds an instance of the loaded class, with some fields given and the others at their first
values. -/
def addInstance (m : Machine) (given : List (String × Value)) :
    Except Fault (ObjRef × Machine) := do
  return m.add (.object m.loaded.name (← m.loaded.instanceFields given))

/-- Adds the constants of an enumeration. -/
def define (m : Machine) (className : String) (names : List String) : List ObjRef × Machine :=
  let (refs, heap) := m.heap.define className names
  (refs, m.withHeap heap)

/-- Calls a method that has to be static, or must not be. -/
def call (m : Machine) (isStatic : Bool) (name descriptor : String) (args : List Value) :
    Except Fault (Option Value) × Machine :=
  let store := { m.store with steps := 0 }
  let (result, store) :=
    match m.loaded.program name descriptor with
    | .error f => (.error f, store)
    | .ok p =>
      if p.isStatic = isStatic then execute m.loaded m.limits p args store
      else
        let cause := if p.isStatic then ExecutionFault.isStatic else ExecutionFault.notStatic
        (.error (.execution (cause m.loaded.name name descriptor)), store)
  (result, { m with store })

/-- Calls a method on an object. -/
def callVirtual (m : Machine) (receiver : ObjRef) (name descriptor : String)
    (args : List Value) : Except Fault (Option Value) × Machine :=
  m.call false name descriptor (.obj receiver :: args)

/-- Calls a method without an object. -/
def callStatic (m : Machine) (name descriptor : String) (args : List Value) :
    Except Fault (Option Value) × Machine :=
  m.call true name descriptor args

end Machine

end RoundingPatch
