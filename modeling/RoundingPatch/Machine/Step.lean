import RoundingPatch.ClassFile.Basic
import RoundingPatch.Machine.Activation
import RoundingPatch.Machine.Heap
import RoundingPatch.Machine.Operation
/-!
# Steps

One operation of a program of the loaded class. Operations work on the activation and on the
store, which keeps the heap and counts what happens; what a failing operation has done to the
store before it failed stays done.

Calls go to methods of the loaded class. Of other classes only the names and ordinals of
enumeration constants and the construction of exceptions are known.
-/

namespace RoundingPatch.Machine

open ClassFile

/-! ### The loaded class -/

/-- A class with its methods ready to run. -/
structure LoadedClass where
  name : String
  /-- The fields of a new instance with their first values. -/
  cells : List (String × Value)
  /-- The programs of all methods, or why a method has none. -/
  programs : List ((String × String) × Except Fault Program)

namespace LoadedClass

/-- Makes a class ready to run. -/
def ofClass (c : ClassFile) : LoadedClass where
  name := c.name
  cells := c.fields.foldl (fun cells f => setCell f.name (.default f.descriptor) cells) []
  programs := c.methods.map fun m => ((m.name, m.descriptor), Program.ofMember c.pool m)

/-- The program of a method. -/
def program (c : LoadedClass) (name descriptor : String) : Except Fault Program :=
  match c.programs.lookup (name, descriptor) with
  | some p => p
  | none => .error (.execution (.noMethod c.name name descriptor))

/-- Whether the class declares a method. -/
def hasMethod (c : LoadedClass) (name descriptor : String) : Bool :=
  (c.programs.lookup (name, descriptor)).isSome

/-- Whether the class declares a field with a name. -/
def hasField (c : LoadedClass) (name : String) : Bool :=
  (c.cells.lookup name).isSome

/-- The fields of a new instance, some of them with given values. -/
def instanceFields (c : LoadedClass) (given : List (String × Value)) :
    Except Fault (List (String × Value)) :=
  given.foldlM (fun cells (name, v) =>
    if c.hasField name then .ok (setCell name v cells)
    else .error (.execution (.noField c.name name))) c.cells

end LoadedClass

/-! ### The store -/

/-- What a machine counts over its lifetime. -/
structure Metrics where
  invocations : Nat := 0
  executedInsns : Nat := 0
  intrinsicCalls : Nat := 0
  deriving DecidableEq

/-- What outlives a call. -/
structure Store where
  heap : Heap := {}
  metrics : Metrics := {}
  /-- The instructions of the latest call from outside. -/
  steps : Nat := 0
  deriving DecidableEq

/-- A computation on the store that may fail. -/
abbrev Exec := ExceptT Fault (StateM Store)

/-- Counts an instruction. -/
def Store.tick (s : Store) : Store :=
  { s with
    steps := s.steps + 1
    metrics := { s.metrics with executedInsns := s.metrics.executedInsns + 1 } }

/-- Counts a method that is started. -/
def countInvocation : Exec Unit :=
  modify fun s =>
    { s with metrics := { s.metrics with invocations := s.metrics.invocations + 1 } }

/-- Counts a call that leaves the loaded class. -/
def countIntrinsic : Exec Unit :=
  modify fun s =>
    { s with metrics := { s.metrics with intrinsicCalls := s.metrics.intrinsicCalls + 1 } }

/-- Adds an object to the heap. -/
def alloc (o : HeapObject) : Exec ObjRef :=
  modifyGet fun s =>
    let (r, heap) := s.heap.alloc o
    (r, { s with heap })

/-- Reads the heap. -/
def reading (read : Heap → Except Fault α) : Exec α := do
  read (← get).heap

/-- Changes the heap. -/
def changing (change : Heap → Except Fault Heap) : Exec Unit := do
  let heap ← change (← get).heap
  modify fun s => { s with heap }

/-! ### Calls -/

/-- The method a call asks for. -/
structure CallSite where
  owner : String
  name : String
  descriptor : String
  /-- Whether the caller expects a result. -/
  returns : Bool
  deriving DecidableEq

/-- What comes after an operation. -/
inductive Flow
  | next (a : Activation)
  /-- A program of the loaded class runs before the activation goes on. -/
  | call (a : Activation) (site : CallSite) (callee : Program) (args : List Value)
  | finished (result : Option Value)

/-- Takes the result of a call, which has to be there exactly if the caller expects one. -/
def Activation.receive (a : Activation) (site : CallSite) (result : Option Value) :
    Except Fault Activation :=
  match site.returns, result with
  | true, some v => a.push v
  | false, none => .ok a
  | _, _ => .error (.execution (.resultShape site.owner site.name site.descriptor))

/-- Whether values of a type take one place and are not fractions. -/
def isNarrow : FieldType → Bool
  | .long | .double | .float => false
  | _ => true

/-- Whether a call on an object goes to the loaded class: because the call names it, or because the
object is an instance of it and it declares the method. -/
def dispatchesHere (c : LoadedClass) (kind : CallKind) (owner name descriptor : String)
    (receiver : ObjRef) : Exec Bool := do
  if owner = c.name then return true
  if kind = .special ∨ !c.hasMethod name descriptor then return false
  let o ← reading (·.get receiver)
  return o.className == c.name

/-- The descriptor of a constructor that takes a message. -/
def messageConstructor : String := "(Ljava/lang/String;)V"

/-- The field that keeps the message of an exception. -/
def messageField : String := "message"

/-- A call to another class. A constructor only keeps the message it is given, and constants of
enumerations know their ordinals and their names. -/
def intrinsic (site : CallSite) (receiver : ObjRef) (args : List Value) :
    Exec (Option Value) := do
  countIntrinsic
  -- A constructor of another class does nothing that the code here could see, but for the message.
  if site.name = "<init>" then
    if site.descriptor = messageConstructor then
      if let [message] := args then changing (·.setField receiver messageField message)
    return none
  match ← reading (·.get receiver) with
  | .constant _ name ordinal =>
    match site.name, site.descriptor with
    | "ordinal", "()I" => return some (.int (Int32.ofNat ordinal))
    | "name", "()Ljava/lang/String;" | "toString", "()Ljava/lang/String;" =>
      return some (.obj (← alloc (.text name)))
    | _, _ => throw (.unsupported (.enumMethod site.owner site.name site.descriptor))
  | other =>
    throw (.unsupported (.callOn site.owner site.name site.descriptor other.className))

/-- A call. -/
def invoke (c : LoadedClass) (a : Activation) (kind : CallKind)
    (owner name descriptor : String) : Exec Flow := do
  let d ← MethodDescriptor.parse descriptor
  if !(d.params.all isNarrow && d.result.all isNarrow) then
    throw (.unsupported (.wideCall owner name descriptor))
  let site : CallSite := ⟨owner, name, descriptor, d.result.isSome⟩
  let (args, a) ← a.popMany d.params.length []
  -- Whether the callee is static is not looked at: only the instruction decides.
  match kind with
  | .static =>
    if owner ≠ c.name then throw (.unsupported (.staticCall owner name descriptor))
    return .call a site (← c.program name descriptor) args
  | .virtual | .special =>
    let (receiver, a) ← a.popObj name
    if ← dispatchesHere c kind owner name descriptor receiver then
      return .call a site (← c.program name descriptor) (.obj receiver :: args)
    else
      let result ← intrinsic site receiver args
      return .next (← a.receive site result)

/-! ### Objects -/

/-- The longest array that can be made. -/
def maxArrayLength : Int32 := 65536

/-- A new array with the given element code and length. -/
def newArray (element length : Int32) : Except Fault HeapObject :=
  if length < 0 ∨ maxArrayLength < length then
    .error (.execution (.arrayLength length.toInt))
  else
    let n := length.toInt.toNat
    if element = 5 then .ok (.chars (Array.replicate n 0))
    else if element = 10 then .ok (.ints (Array.replicate n 0))
    else .error (.unsupported (.arrayElement element.toInt))

/-- The constant of an enumeration that a static field holds. -/
def staticField (owner name descriptor : String) (h : Heap) : Except Fault ObjRef :=
  match h.constant? owner name with
  | some r =>
    if descriptor = s!"L{owner};" then .ok r else .error (.unsupported (.staticField owner name))
  | none => .error (.unsupported (.staticField owner name))

/-- An exception that is thrown ends the run, since nothing catches it. -/
def uncaught (h : Heap) (thrown : ObjRef) : Fault :=
  match h.get thrown with
  | .error _ => .internal (.thrownDangling thrown.index)
  | .ok o =>
    let message :=
      match h.field thrown messageField with
      | .ok (some (.ref (some r))) => (h.string r).toOption
      | _ => none
    .execution (.uncaught (o.className.map fun c => if c = '/' then '.' else c) message)

/-! ### Branches -/

/-- Whether a branch is taken, and the activation without the values it looked at. -/
def Activation.test (a : Activation) : Condition → Except Fault (Bool × Activation)
  | .always => .ok (true, a)
  | .withZero c => do
    let (v, a) ← a.popInt
    return (c.holds v 0, a)
  | .words c => do
    let (w, a) ← a.popInt
    let (v, a) ← a.popInt
    return (c.holds v w, a)
  | .sameObject expected => do
    let (w, a) ← a.popRef
    let (v, a) ← a.popRef
    return ((v == w) == expected, a)
  | .isNull expected => do
    let (v, a) ← a.popRef
    return (v.isNone == expected, a)

/-- The label that a table switch goes to. -/
def tableTarget (low high : Int32) (default : Label) (targets : List Label) (index : Int32) :
    Except Fault Label :=
  if low ≤ index ∧ index ≤ high then
    match targets[(index - low).toUInt32.toNat]? with
    | some l => .ok l
    | none => .error (.malformed .missingSwitchTarget)
  else .ok default

/-- The label that a lookup switch goes to. -/
def lookupTarget (default : Label) (pairs : List (Int32 × Label)) (key : Int32) : Label :=
  (pairs.lookup key).getD default

/-! ### Operations -/

/-- Performs an operation. -/
def perform (c : LoadedClass) (a : Activation) : Operation → Exec Flow
  | .nothing => return .next a
  | .push v => return .next (← a.push v)
  | .pushText s => do
    let r ← alloc (.text s)
    return .next (← a.push (.obj r))
  | .loadInt index => do
    let v ← (← a.load index).asInt
    return .next (← a.push (.int v))
  | .loadRef index => do
    let r ← (← a.load index).asRef
    return .next (← a.push (.ref r))
  | .storeInt index => do
    let (v, a) ← a.popInt
    return .next (← a.store index (.int v))
  | .storeRef index => do
    let (r, a) ← a.popRef
    return .next (← a.store index (.ref r))
  | .increment index delta => do
    let v ← (← a.load index).asInt
    return .next (← a.store index (.int (v + delta.toInt32)))
  | .pop => do
    let (_, a) ← a.pop
    return .next a
  | .dup => do
    return .next (← a.push (← a.peek))
  | .dupUnder => do
    let (v, a) ← a.pop
    let (w, a) ← a.pop
    return .next (← (← (← a.push v).push w).push v)
  | .swap => do
    let (v, a) ← a.pop
    let (w, a) ← a.pop
    return .next (← (← a.push v).push w)
  | .arith op => do
    let (w, a) ← a.popInt
    let (v, a) ← a.popInt
    return .next (← a.push (.int (← op.eval v w)))
  | .negate => do
    let (v, a) ← a.popInt
    return .next (← a.push (.int (-v)))
  | .toChar => do
    let (v, a) ← a.popInt
    return .next (← a.push (.int (v &&& 0xffff)))
  | .branch condition target => do
    let (taken, a) ← a.test condition
    if taken then return .next (← a.jump target) else return .next a
  | .tableSwitch low high default targets => do
    let (index, a) ← a.popInt
    return .next (← a.jump (← tableTarget low high default targets index))
  | .lookupSwitch default pairs => do
    let (key, a) ← a.popInt
    return .next (← a.jump (lookupTarget default pairs key))
  | .newObject className => do
    let r ← alloc (.object className (if className = c.name then c.cells else []))
    return .next (← a.push (.obj r))
  | .newArray element => do
    let (length, a) ← a.popInt
    let r ← alloc (← newArray element length)
    return .next (← a.push (.obj r))
  | .arrayLoad op => do
    let (index, a) ← a.popInt
    let (array, a) ← a.popObj op.mnemonic
    let v ← reading (·.element array index)
    return .next (← a.push (.int v))
  | .arrayStore op => do
    let (v, a) ← a.popInt
    let (index, a) ← a.popInt
    let (array, a) ← a.popObj op.mnemonic
    changing (·.setElement array index v)
    return .next a
  | .arrayLength => do
    let (array, a) ← a.popObj "arraylength"
    let n ← reading (·.length array)
    return .next (← a.push (.int (Int32.ofNat n)))
  | .checkCast => do
    let _ ← (← a.peek).asRef
    return .next a
  | .instanceOf className => do
    match ← a.popRef with
    | (none, a) => return .next (← a.push (.ofBool false))
    | (some r, a) =>
      let o ← reading (·.get r)
      return .next (← a.push (.ofBool (o.className == className)))
  | .getField name descriptor => do
    let (r, a) ← a.popObj "getfield"
    let v ← reading (·.field r name)
    return .next (← a.push (v.getD (.default descriptor)))
  | .putField name => do
    let (v, a) ← a.pop
    let (r, a) ← a.popObj "putfield"
    changing (·.setField r name v)
    return .next a
  | .getStatic owner name descriptor => do
    let r ← reading (staticField owner name descriptor)
    return .next (← a.push (.obj r))
  | .call kind owner name descriptor => invoke c a kind owner name descriptor
  | .returnInt => do
    let (v, _) ← a.popInt
    return .finished (some (.int v))
  | .returnRef => do
    let (r, _) ← a.popRef
    return .finished (some (.ref r))
  | .returnNothing => return .finished none
  | .raise => do
    let (thrown, _) ← a.popObj "athrow"
    throw (uncaught (← get).heap thrown)

end RoundingPatch.Machine
