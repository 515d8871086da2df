import RoundingPatch.Machine.Basic
/-!
# Accesses to the store

What the machine does to the store between two instructions is put together from a few accesses: it
reads the heap, adds an object, writes a field or an element of an array, and counts calls.
`Composed` says that a computation consists of these, and every step of a call stack does
(`composed_advance`). So what holds of each access and carries over to sequences holds of every
step.
-/

namespace RoundingPatch.Machine

open ClassFile

/-- A computation that is put together from single accesses to the store. -/
inductive Composed : {α : Type} → Exec α → Prop
  | pure {α : Type} (a : α) : Composed (pure a)
  | throw {α : Type} (f : Fault) : Composed (throw f : Exec α)
  | bind {α β : Type} {x : Exec α} {f : α → Exec β} (hx : Composed x) (hf : ∀ a, Composed (f a)) :
      Composed (x >>= f)
  | reading {α : Type} (read : Heap → Except Fault α) : Composed (reading read)
  | setField (r : ObjRef) (name : String) (v : Value) : Composed (changing (·.setField r name v))
  | setElement (r : ObjRef) (index v : Int32) : Composed (changing (·.setElement r index v))
  | alloc (o : HeapObject) : Composed (alloc o)
  | countInvocation : Composed countInvocation
  | countIntrinsic : Composed countIntrinsic

namespace Composed

variable {α : Type}

theorem lift (answer : Except Fault α) : Composed (liftM answer : Exec α) := by
  cases answer with
  | ok a => exact pure a
  | error f => exact throw f

/-- A check in front of a computation. -/
theorem check {fails : Prop} [Decidable fails] {f : Fault} {rest : Exec α} (h : Composed rest) :
    Composed (do
      if fails then MonadExcept.throw f
      rest) := by
  split
  · exact (throw f).bind fun _ => h
  · exact h

end Composed

/-! ### Operations -/

/-- Finding out whether a call is the loaded class's own is composed. -/
theorem composed_dispatchesHere (c : LoadedClass) (kind : CallKind)
    (owner name descriptor : String) (receiver : ObjRef) :
    Composed (dispatchesHere c kind owner name descriptor receiver) := by
  unfold dispatchesHere
  split
  · exact .pure _
  · split
    · exact .pure _
    · exact (Composed.reading _).bind fun _ => .pure _

/-- A call outside the loaded class is composed. -/
theorem composed_intrinsic (site : CallSite) (receiver : ObjRef) (args : List Value) :
    Composed (intrinsic site receiver args) := by
  unfold intrinsic
  refine Composed.countIntrinsic.bind fun _ => ?_
  split
  · -- A constructor.
    split
    · split
      · exact (Composed.setField _ _ _).bind fun _ => .pure _
      · exact .pure _
    · exact .pure _
  · refine (Composed.reading _).bind fun o => ?_
    split
    · split
      · exact .pure _
      · exact (Composed.alloc _).bind fun _ => .pure _
      · exact (Composed.alloc _).bind fun _ => .pure _
      · exact .throw _
    · exact .throw _

/-- **A call** is composed, whichever way it is dispatched. -/
theorem composed_invoke (c : LoadedClass) (a : Activation) (kind : CallKind)
    (owner name descriptor : String) : Composed (invoke c a kind owner name descriptor) := by
  unfold invoke
  refine (Composed.lift _).bind fun d => ?_
  cases kind with
  | static =>
    exact .check <| (Composed.lift _).bind fun ⟨args, a⟩ => .check <|
      (Composed.lift _).bind fun _ => .pure _
  | virtual | special =>
    refine .check <| (Composed.lift _).bind fun ⟨args, a⟩ => (Composed.lift _).bind fun ⟨r, a⟩ => ?_
    refine (composed_dispatchesHere c _ _ _ _ _).bind fun here => ?_
    cases here with
    | true => exact (Composed.lift _).bind fun _ => .pure _
    | false =>
      exact (composed_intrinsic _ _ _).bind fun _ => (Composed.lift _).bind fun _ => .pure _

/-- **Every operation is put together from accesses to the store.** -/
theorem composed_perform (c : LoadedClass) (a : Activation) (op : Operation) :
    Composed (perform c a op) := by
  cases op with
  | nothing | returnNothing => exact .pure _
  | push v | pop | returnInt | returnRef => exact (Composed.lift _).bind fun _ => .pure _
  | pushText s | newObject className =>
    exact (Composed.alloc _).bind fun _ => (Composed.lift _).bind fun _ => .pure _
  | storeInt index | storeRef index | negate | toChar | dup | checkCast
  | lookupSwitch default pairs =>
    exact (Composed.lift _).bind fun _ => (Composed.lift _).bind fun _ => .pure _
  | loadInt index | loadRef index | increment index delta | tableSwitch low high default targets =>
    exact (Composed.lift _).bind fun _ => (Composed.lift _).bind fun _ =>
      (Composed.lift _).bind fun _ => .pure _
  | dupUnder =>
    exact (Composed.lift _).bind fun _ => (Composed.lift _).bind fun _ =>
      (Composed.lift _).bind fun _ => (Composed.lift _).bind fun _ =>
        (Composed.lift _).bind fun _ => .pure _
  | swap | arith op =>
    exact (Composed.lift _).bind fun _ => (Composed.lift _).bind fun _ =>
      (Composed.lift _).bind fun _ => (Composed.lift _).bind fun _ => .pure _
  | branch condition target =>
    refine (Composed.lift _).bind fun ⟨taken, _⟩ => ?_
    cases taken with
    | true => exact (Composed.lift _).bind fun _ => .pure _
    | false => exact .pure _
  | newArray element =>
    exact (Composed.lift _).bind fun _ => (Composed.lift _).bind fun _ =>
      (Composed.alloc _).bind fun _ => (Composed.lift _).bind fun _ => .pure _
  | arrayLoad op =>
    exact (Composed.lift _).bind fun _ => (Composed.lift _).bind fun _ =>
      (Composed.reading _).bind fun _ => (Composed.lift _).bind fun _ => .pure _
  | arrayStore op =>
    exact (Composed.lift _).bind fun _ => (Composed.lift _).bind fun _ =>
      (Composed.lift _).bind fun _ => (Composed.setElement _ _ _).bind fun _ => .pure _
  | arrayLength | getField name descriptor =>
    exact (Composed.lift _).bind fun _ => (Composed.reading _).bind fun _ =>
      (Composed.lift _).bind fun _ => .pure _
  | instanceOf className =>
    refine (Composed.lift _).bind fun ⟨r, _⟩ => ?_
    cases r with
    | none => exact (Composed.lift _).bind fun _ => .pure _
    | some r => exact (Composed.reading _).bind fun _ => (Composed.lift _).bind fun _ => .pure _
  | putField name =>
    exact (Composed.lift _).bind fun _ => (Composed.lift _).bind fun _ =>
      (Composed.setField _ _ _).bind fun _ => .pure _
  | getStatic owner name descriptor =>
    exact (Composed.reading _).bind fun _ => (Composed.lift _).bind fun _ => .pure _
  | call kind owner name descriptor => exact composed_invoke c a kind owner name descriptor
  | raise =>
    -- The fault is read off the heap, where the message of the exception is.
    refine (Composed.lift _).bind fun ⟨thrown, _⟩ => ?_
    exact Composed.reading fun h => .error (uncaught h thrown)

/-! ### Steps of a call stack -/

/-- Entering a method is composed. -/
theorem composed_enter (limits : Limits) (depth : Nat) (p : Program) (args : List Value) :
    Composed (enter limits depth p args) := by
  unfold enter
  exact .check <| Composed.countInvocation.bind fun _ => .lift _

/-- **Every step is put together from accesses to the store.** -/
theorem composed_advance (c : LoadedClass) (limits : Limits) (s : CallStack) (i : Insn) :
    Composed (s.advance c limits i) := by
  unfold CallStack.advance
  refine (Composed.lift _).bind fun op => (composed_perform c _ op).bind fun flow => ?_
  -- A call enters the callee, and a return resumes the caller if there is one.
  cases flow with
  | next a => exact .pure _
  | call a site callee args => exact (composed_enter _ _ _ _).bind fun _ => .pure _
  | finished result =>
    dsimp only
    split
    · exact .pure _
    · exact (Composed.lift _).bind fun _ => .pure _

end RoundingPatch.Machine
