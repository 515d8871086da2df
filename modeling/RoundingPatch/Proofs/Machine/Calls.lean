import RoundingPatch.Machine.Basic
import RoundingPatch.Proofs.Machine.Runs
/-!
# Calls from outside

A call from outside runs a program from its start with all of the budget. What it comes back with is
the outcome of the program, or the fault of a used up budget if that takes more instructions than
there are (`execute_of_comes`). Its trace lists the instructions that it executes (`callTrace`).
-/

namespace RoundingPatch.Machine

open ClassFile

/-! ### Traces -/

/-- Where an instruction stands: the name and the descriptor of its method, and its position. -/
abbrev Spot := (String × String) × ℕ

/-- Where the next instruction of an activation stands. -/
def Activation.spot (a : Activation) : Spot :=
  ((a.program.name, a.program.descriptor), a.next)

/-- The instructions that a run executes. -/
def trace (c : LoadedClass) (limits : Limits) (left : ℕ) (s : CallStack) (store : Store) :
    List Spot :=
  match s.active.program.insns[s.active.next]? with
  | none => []
  | some i =>
    match left with
    | 0 => []
    | left + 1 =>
      s.active.spot ::
        match (s.advance c limits i).run store.tick with
        | (.ok (.going s), store) => trace c limits left s store
        | _ => []

/-- The instructions that a program executes from its start. -/
def executeTrace (c : LoadedClass) (limits : Limits) (p : Program) (args : List Value)
    (store : Store) : List Spot :=
  match (enter limits 0 p args).run store with
  | (.ok a, store) => trace c limits limits.stepBudget ⟨a, []⟩ store
  | (.error _, _) => []

/-- The instructions that a call from outside executes. -/
def callTrace (m : Machine) (isStatic : Bool) (name descriptor : String) (args : List Value) :
    List Spot :=
  match m.loaded.program name descriptor with
  | .ok p =>
    if p.isStatic = isStatic then executeTrace m.loaded m.limits p args { m.store with steps := 0 }
    else []
  | .error _ => []

/-! ### Outcomes -/

variable {c : LoadedClass} {limits : Limits} {p : Program} {args : List Value} {h : Heap}
  {o : Outcome}

/-- What an outcome looks like from outside. -/
def Outcome.within (o : Outcome) (limits : Limits) : Except Fault (Option Value) :=
  if o.steps ≤ limits.stepBudget then o.result else .error limits.exhausted

/-- The local variables that a program starts with. -/
def Program.locals (p : Program) (args : List Value) : List Value :=
  args ++ List.replicate (p.maxLocals.toNat - args.length) (.int 0)

/-- The store after a method that is started was counted. -/
def Store.countStart (s : Store) : Store :=
  { s with metrics := { s.metrics with invocations := s.metrics.invocations + 1 } }

theorem yields_countInvocation {s : Store} : Yields countInvocation s () s.countStart := rfl

/-- A method is entered where the depth allows it and the arguments fit its locals. -/
theorem yields_enter {depth : ℕ} {store : Store} (hdepth : depth ≤ limits.maxDepth)
    (hargs : args.length ≤ p.maxLocals.toNat) :
    Yields (enter limits depth p args) store ⟨p, p.locals args, [], 0⟩ store.countStart := by
  unfold enter
  rw [if_neg (Nat.not_lt_of_le hdepth)]
  refine Yields.bind yields_countInvocation (yields_lift.mpr ⟨?_, rfl⟩)
  exact if_neg (Nat.not_lt_of_le hargs)

/-- **A call from outside.** If the budget suffices, the objects that were there are left alone. -/
theorem execute_of_comes {store : Store} (hstore : store.heap = h)
    (hargs : args.length ≤ p.maxLocals.toNat)
    (hcomes : Comes c limits ⟨⟨p, p.locals args, [], 0⟩, []⟩ h o) :
    (execute c limits p args store).1 = o.within limits ∧
      (o.steps ≤ limits.stepBudget →
        h.objects.toList <+: (execute c limits p args store).2.heap.objects.toList) := by
  obtain ⟨h', hkeeps, hends⟩ := hcomes
  obtain ⟨hless, store', hstore', hrun⟩ := hends store.countStart hstore
  have henter : (enter limits 0 p args).run store
      = (.ok ⟨p, p.locals args, [], 0⟩, store.countStart) :=
    yields_enter (Nat.zero_le _) hargs
  have hexecute : execute c limits p args store
      = run c limits limits.stepBudget ⟨⟨p, p.locals args, [], 0⟩, []⟩ store.countStart := by
    unfold execute
    rw [henter]
  rw [hexecute, Outcome.within]
  -- Either the budget covers the steps, and the outcome is handed to the outside, or the run stops
  -- in between.
  by_cases hbudget : o.steps ≤ limits.stepBudget
  · obtain ⟨left, hleft⟩ := Nat.exists_eq_add_of_le hbudget
    have hproceed : proceed c limits left (o.result.bind (resume [])) store'
        = (o.result, store') := by
      cases o.result <;> rfl
    rw [if_pos hbudget, hleft, hrun left]
    dsimp only
    rw [hproceed]
    exact ⟨rfl, fun _ => hstore' ▸ hkeeps⟩
  · rw [if_neg hbudget]
    exact ⟨hless _ (Nat.lt_of_not_le hbudget), fun hle => absurd hle hbudget⟩

/-- A call of a method that has a program and is static, or is not, as it should be. -/
theorem call_eq_execute {m : Machine} {isStatic : Bool} {name descriptor : String}
    (hp : m.loaded.program name descriptor = .ok p) (hstatic : p.isStatic = isStatic) :
    m.call isStatic name descriptor args
      = ((execute m.loaded m.limits p args { m.store with steps := 0 }).1,
        { m with store := (execute m.loaded m.limits p args { m.store with steps := 0 }).2 }) := by
  unfold Machine.call
  simp only [hp, hstatic, if_true]

/-- **A call on an object** of a machine. -/
theorem callVirtual_of_comes {m : Machine} {this : ObjRef} {name descriptor : String}
    (hp : m.loaded.program name descriptor = .ok p) (hstatic : p.isStatic = false)
    (hargs : args.length < p.maxLocals.toNat)
    (hcomes : Comes m.loaded m.limits ⟨⟨p, p.locals (.obj this :: args), [], 0⟩, []⟩ m.heap o) :
    (m.callVirtual this name descriptor args).1 = o.within m.limits ∧
      (m.callVirtual this name descriptor args).2.loaded = m.loaded ∧
      (m.callVirtual this name descriptor args).2.limits = m.limits ∧
      (o.steps ≤ m.limits.stepBudget → m.heap.objects.toList <+:
        (m.callVirtual this name descriptor args).2.heap.objects.toList) := by
  let store : Store := { m.store with steps := 0 }
  have hlength : (Value.obj this :: args).length ≤ p.maxLocals.toNat := hargs
  have hexecute := execute_of_comes (show store.heap = m.heap from rfl) hlength hcomes
  rw [Machine.callVirtual, call_eq_execute hp hstatic]
  exact ⟨hexecute.1, rfl, rfl, hexecute.2⟩

end RoundingPatch.Machine
