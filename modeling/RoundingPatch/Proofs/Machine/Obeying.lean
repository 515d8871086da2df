import RoundingPatch.Machine.Step
import RoundingPatch.Proofs.Blameless
/-!
# What computations on the store answer

`Grants post sort answer` says that an answer is either a value with `post` or a fault of a sort,
and `Obeys post sort x` that a computation `x` on the store answers so from any store. Both carry
over to sequences (`Grants.bind`, `Obeys.bind`), where a later part may use what the earlier ones
answer.
-/

namespace RoundingPatch.Machine

open ClassFile

variable {α β : Type} {post : α → Prop} {goal : β → Prop} {sort : Fault → Prop}

/-! ### Answers -/

/-- An answer is a value with `post` or a fault of a sort. -/
def Grants (post : α → Prop) (sort : Fault → Prop) : Except Fault α → Prop
  | .ok a => post a
  | .error fault => sort fault

theorem grants_ok {a : α} (h : post a) : Grants post sort (.ok a) :=
  h

theorem grants_error {fault : Fault} (h : sort fault) : Grants post sort (.error fault) :=
  h

theorem Grants.bind {x : Except Fault α} {f : α → Except Fault β} (hx : Grants post sort x)
    (hf : ∀ a, post a → Grants goal sort (f a)) : Grants goal sort (x >>= f) := by
  cases x with
  | ok a => exact hf a hx
  | error fault => exact hx

/-- Nothing is said about the value. -/
theorem grants_of_failsAs {answer : Except Fault α} (h : FailsAs sort answer) :
    Grants (fun _ => True) sort answer := by
  cases answer with
  | ok a => trivial
  | error fault => exact h fault rfl

/-! ### Computations -/

/-- A computation answers a value with `post` or a fault of a sort, from any store. -/
def Obeys (post : α → Prop) (sort : Fault → Prop) (x : Exec α) : Prop :=
  ∀ s, Grants post sort (x.run s).1

theorem obeys_pure {a : α} (h : post a) : Obeys post sort (pure a) :=
  fun _ => h

theorem obeys_throw {fault : Fault} (h : sort fault) : Obeys post sort (throw fault : Exec α) :=
  fun _ => h

theorem obeys_lift {answer : Except Fault α} (h : Grants post sort answer) :
    Obeys post sort (liftM answer) := by
  cases answer with
  | ok a => exact obeys_pure h
  | error fault => exact obeys_throw h

theorem Obeys.bind {x : Exec α} {f : α → Exec β} (hx : Obeys post sort x)
    (hf : ∀ a, post a → Obeys goal sort (f a)) : Obeys goal sort (x >>= f) := by
  intro s
  have hanswer := hx s
  rw [run_sequence]
  rcases hrun : x.run s with ⟨answer, t⟩
  rw [hrun] at hanswer
  cases answer with
  | ok a => exact hf a hanswer t
  | error fault => exact hanswer

/-- What goes on with an answer. -/
theorem Grants.andThen {answer : Except Fault α} {f : α → Exec β} (h : Grants post sort answer)
    (hf : ∀ a, post a → Obeys goal sort (f a)) : Obeys goal sort (liftM answer >>= f) :=
  (obeys_lift h).bind hf

/-- A check in front of a computation. -/
theorem Obeys.check {fails : Prop} [Decidable fails] {fault : Fault} {rest : Exec α}
    (hfault : sort fault) (h : Obeys post sort rest) : Obeys post sort (do
      if fails then throw fault
      rest) := by
  split
  · have hstop : Obeys (fun _ => False) sort (throw fault : Exec PUnit) := obeys_throw hfault
    exact hstop.bind fun _ h => h.elim
  · exact h

theorem obeys_reading {read : Heap → Except Fault α} (h : ∀ heap, Grants post sort (read heap)) :
    Obeys post sort (reading read) :=
  fun s => obeys_lift (h s.heap) s

theorem obeys_changing {change : Heap → Except Fault Heap}
    (h : ∀ heap, FailsAs sort (change heap)) :
    Obeys (fun _ => True) sort (changing change) := by
  intro s
  have hrest (heap : Heap) : Obeys (fun _ => True) sort
      (modify fun s => { s with heap } : Exec Unit) := fun _ => trivial
  exact (grants_of_failsAs (h s.heap)).andThen (fun heap _ => hrest heap) s

theorem obeys_alloc (o : HeapObject) : Obeys (fun _ => True) sort (alloc o) :=
  fun _ => trivial

theorem obeys_countIntrinsic : Obeys (fun _ => True) sort countIntrinsic :=
  fun _ => trivial

theorem obeys_countInvocation : Obeys (fun _ => True) sort countInvocation :=
  fun _ => trivial

end RoundingPatch.Machine
