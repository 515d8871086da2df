import RoundingPatch.Proofs.Machine.Accesses
import RoundingPatch.Proofs.Machine.Heap
import RoundingPatch.Proofs.Yields
/-!
# Runs are confined to their heap

`Confined base x` says that the computation `x` looks at nothing of the store but the heap, and that
it keeps the objects `base` at the front of the heap. If nothing writes to these objects, every
access to the store is confined, hence every step (`Composed.confined`), and so is every run of
every program (`run_confined`), however it ends.
-/

namespace RoundingPatch.Machine

open ClassFile

variable {α β : Type} {base : List HeapObject}

/-- A computation whose answer and whose heap depend on the heap alone, and that keeps the objects
at the front of the heap. -/
def Confined (base : List HeapObject) (x : Exec α) : Prop :=
  ∀ s t : Store, s.heap = t.heap → base <+: s.heap.objects.toList →
    (x.run s).1 = (x.run t).1 ∧ (x.run s).2.heap = (x.run t).2.heap ∧
      base <+: (x.run s).2.heap.objects.toList

/-! ### Sequences -/

/-- A computation that does nothing is confined. -/
theorem confined_pure (a : α) : Confined base (pure a) :=
  fun _ _ heq hkeeps => ⟨rfl, heq, hkeeps⟩

theorem confined_throw (f : Fault) : Confined base (throw f : Exec α) :=
  fun _ _ heq hkeeps => ⟨rfl, heq, hkeeps⟩

theorem confined_lift (answer : Except Fault α) : Confined base (liftM answer : Exec α) := by
  cases answer with
  | ok a => exact confined_pure a
  | error f => exact confined_throw f

/-- A sequence of confined computations is confined. -/
theorem Confined.bind {x : Exec α} {f : α → Exec β} (hx : Confined base x)
    (hf : ∀ a, Confined base (f a)) : Confined base (x >>= f) := by
  intro s t heq hkeeps
  obtain ⟨hanswer, hheap, hkept⟩ := hx s t heq hkeeps
  rw [run_sequence x f s, run_sequence x f t]
  rcases hs : x.run s with ⟨answer, s'⟩
  rcases ht : x.run t with ⟨answer', t'⟩
  rw [hs, ht] at hanswer hheap
  rw [hs] at hkept
  obtain rfl : answer = answer' := hanswer
  cases answer with
  | ok a => exact hf a s' t' hheap hkept
  | error fault => exact ⟨rfl, hheap, hkept⟩

/-- Reading the heap is confined: equal heaps give equal answers. -/
theorem confined_reading (read : Heap → Except Fault α) : Confined base (reading read) := by
  intro s t heq hkeeps
  have hrun (s : Store) : (reading read).run s = (liftM (read s.heap) : Exec α).run s := rfl
  rw [hrun s, hrun t, ← heq]
  exact confined_lift _ s t heq hkeeps

/-- A change of the heap that keeps the objects at its front. -/
theorem confined_changing {change : Heap → Except Fault Heap}
    (hchange : ∀ h h' : Heap, base <+: h.objects.toList → change h = .ok h' →
      base <+: h'.objects.toList) : Confined base (changing change) := by
  intro s t heq hkeeps
  have hrun (s : Store) : (changing change).run s = match change s.heap with
      | .ok heap => (.ok (), { s with heap })
      | .error fault => (.error fault, s) := by
    show ((liftM (change s.heap) : Exec Heap) >>= fun heap =>
      modify fun s => { s with heap }).run s = _
    cases change s.heap <;> rfl
  rw [hrun s, hrun t, ← heq]
  -- One heap is changed on both sides, or neither.
  cases hok : change s.heap with
  | ok heap => exact ⟨rfl, rfl, hchange _ _ hkeeps hok⟩
  | error fault => exact ⟨rfl, heq, hkeeps⟩

/-- A new object stands behind all the others. -/
theorem confined_alloc (o : HeapObject) : Confined base (alloc o) := by
  intro s t heq hkeeps
  show (Except.ok (s.heap.alloc o).1 : Except Fault ObjRef) = .ok (t.heap.alloc o).1 ∧
    (s.heap.alloc o).2 = (t.heap.alloc o).2 ∧ base <+: (s.heap.alloc o).2.objects.toList
  rw [← heq]
  exact ⟨rfl, rfl, hkeeps.trans (s.heap.prefix_alloc o)⟩

theorem confined_countInvocation : Confined base countInvocation :=
  fun _ _ heq hkeeps => ⟨rfl, heq, hkeeps⟩

theorem confined_countIntrinsic : Confined base countIntrinsic :=
  fun _ _ heq hkeeps => ⟨rfl, heq, hkeeps⟩

/-! ### Operations -/

section Operations

variable (hbase : ∀ o ∈ base, o.isLasting = true)
include hbase

theorem confined_setField (r : ObjRef) (name : String) (v : Value) :
    Confined base (changing (·.setField r name v)) :=
  confined_changing fun _ _ hkeeps hset => Heap.extends_setField hbase hkeeps hset

theorem confined_setElement (r : ObjRef) (index v : Int32) :
    Confined base (changing (·.setElement r index v)) :=
  confined_changing fun _ _ hkeeps hset => Heap.extends_setElement hbase hkeeps hset

/-- **What is put together from accesses to the store is confined.** -/
theorem Composed.confined {x : Exec α} (h : Composed x) : Confined base x := by
  -- One case per access; those that write may only touch what does not last.
  induction h with
  | pure a => exact confined_pure a
  | throw f => exact confined_throw f
  | bind _ _ ihx ihf => exact ihx.bind ihf
  | reading read => exact confined_reading read
  | setField r name v => exact confined_setField hbase r name v
  | setElement r index v => exact confined_setElement hbase r index v
  | alloc o => exact confined_alloc o
  | countInvocation => exact confined_countInvocation
  | countIntrinsic => exact confined_countIntrinsic

/-! ### Runs -/

/-- **Every run is confined**, whether it returns, fails or uses up its budget. -/
theorem run_confined (c : LoadedClass) (limits : Limits) (left : Nat) (s : CallStack) :
    Confined base (run c limits left s) := by
  induction left generalizing s with
  | zero =>
    intro store store' heq hkeeps
    show (run c limits 0 s store).1 = (run c limits 0 s store').1 ∧
      (run c limits 0 s store).2.heap = (run c limits 0 s store').2.heap ∧
      base <+: (run c limits 0 s store).2.heap.objects.toList
    unfold run
    split <;> exact ⟨rfl, heq, hkeeps⟩
  | succ left ih =>
    intro store store' heq hkeeps
    show (run c limits (left + 1) s store).1 = (run c limits (left + 1) s store').1 ∧
      (run c limits (left + 1) s store).2.heap = (run c limits (left + 1) s store').2.heap ∧
      base <+: (run c limits (left + 1) s store).2.heap.objects.toList
    unfold run
    cases s.active.program.insns[s.active.next]? with
    | none => exact ⟨rfl, heq, hkeeps⟩
    | some i =>
      -- The rest of the run starts where one confined instruction has led.
      obtain ⟨hanswer, hheap, hkept⟩ :=
        (composed_advance c limits s i).confined hbase store.tick store'.tick heq hkeeps
      dsimp only
      rcases hs : (s.advance c limits i).run store.tick with ⟨answer, next⟩
      rcases ht : (s.advance c limits i).run store'.tick with ⟨answer', next'⟩
      rw [hs, ht] at hanswer hheap
      rw [hs] at hkept
      obtain rfl : answer = answer' := hanswer
      match answer with
      | .ok (.going s) => exact ih s next next' hheap hkept
      | .ok (.finished result) => exact ⟨rfl, hheap, hkept⟩
      | .error f => exact ⟨rfl, hheap, hkept⟩

/-- **A whole execution is confined**: its answer depends on the heap alone, and the lasting objects
stay. -/
theorem execute_confined (c : LoadedClass) (limits : Limits) (p : Program) (args : List Value) :
    Confined base (execute c limits p args) := by
  intro store store' heq hkeeps
  show (execute c limits p args store).1 = (execute c limits p args store').1 ∧
    (execute c limits p args store).2.heap = (execute c limits p args store').2.heap ∧
    base <+: (execute c limits p args store).2.heap.objects.toList
  obtain ⟨hanswer, hheap, hkept⟩ :=
    (composed_enter limits 0 p args).confined hbase store store' heq hkeeps
  unfold execute
  rcases hs : (enter limits 0 p args).run store with ⟨answer, next⟩
  rcases ht : (enter limits 0 p args).run store' with ⟨answer', next'⟩
  rw [hs, ht] at hanswer hheap
  rw [hs] at hkept
  obtain rfl : answer = answer' := hanswer
  cases answer with
  | ok a => exact run_confined hbase c limits _ _ next next' hheap hkept
  | error f => exact ⟨rfl, hheap, hkept⟩

end Operations

end RoundingPatch.Machine
