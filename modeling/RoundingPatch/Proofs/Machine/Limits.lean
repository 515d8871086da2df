import RoundingPatch.Proofs.Machine.Accesses
import RoundingPatch.Proofs.Machine.Calls
import RoundingPatch.Proofs.Yields
/-!
# Limits only cut runs short

A call executes at most as many instructions as its budget allows, and the one it stops at
(`steps_run_le`); the calls it makes never nest deeper than allowed
(`length_callers_of_mem_runStacks`). What a run comes to without meeting a limit it also comes to
under wider limits: `Widens` says so of single computations, and carries over to sequences and to
runs (`widens_advance`, `run_eq_of_not_cut`).

The depth is that of the call stacks in between, which a run does not keep. `runStacks` lists them,
and three lemmas tie the list to the run: the run goes on from each of them
(`run_of_getElem?_runStacks`), counts no instruction elsewhere (`steps_run_le_length`) and has its
trace on them (`trace_prefix_runStacks`).
-/

namespace RoundingPatch

open ClassFile

namespace Machine

variable {α β : Type} {c : LoadedClass} {limits limits' : Limits} {s s' : CallStack}
  {store store' : Store}

/-! ### Counted instructions -/

theorem steps_run_changing (change : Heap → Except Fault Heap) (store : Store) :
    ((changing change).run store).2.steps = store.steps := by
  have hrun : (changing change).run store = ((liftM (change store.heap) : Exec Heap) >>= fun heap =>
      modify fun s => { s with heap }).run store := rfl
  rw [hrun]
  cases change store.heap <;> rfl

/-- Accesses to the store count no instructions. -/
theorem Composed.steps_run {x : Exec α} (h : Composed x) (store : Store) :
    (x.run store).2.steps = store.steps := by
  -- An access counts no instruction, and a sequence counts those of its parts.
  induction h generalizing store with
  | pure | throw | alloc | countInvocation | countIntrinsic => rfl
  | setField | setElement => exact steps_run_changing _ store
  | reading read =>
    have hrun : (Machine.reading read).run store
        = (liftM (read store.heap) : Exec _).run store := rfl
    rw [hrun]
    cases read store.heap <;> rfl
  | @bind _ _ x f _ _ ihx ihf =>
    have hx := ihx store
    rw [run_sequence]
    rcases hrun : x.run store with ⟨_ | a, next⟩
    · rw [hrun] at hx
      exact hx
    · rw [hrun] at hx
      exact (ihf a next).trans hx

/-- A step counts one instruction, whatever it does. -/
theorem steps_advance {i : Insn} {answer : Except Fault Progress}
    (h : (s.advance c limits i).run store.tick = (answer, store')) :
    store'.steps = store.steps + 1 := by
  have hsteps := (composed_advance c limits s i).steps_run store.tick
  rwa [h] at hsteps

/-- **A run counts no more instructions than its budget**, and the one that it stops at. -/
theorem steps_run_le (left : ℕ) (s : CallStack) (store : Store) :
    (run c limits left s store).2.steps ≤ store.steps + left + 1 := by
  -- On the steps left; the one step over the budget is the step that finds none left.
  induction left generalizing s store with
  | zero =>
    unfold run
    split
    · exact Nat.le_succ _
    · exact Nat.le_refl _
  | succ left ih =>
    unfold run
    cases s.active.program.insns[s.active.next]? with
    | none => exact Nat.le_trans (Nat.le_add_right _ _) (Nat.le_succ _)
    | some i =>
      dsimp only
      rcases hnext : (s.advance c limits i).run store.tick with ⟨answer, next⟩
      have hsteps := steps_advance hnext
      match answer with
      | .ok (.going s') =>
        have hrest := ih s' next
        show (run c limits left s' next).2.steps ≤ _
        omega
      | .ok (.finished _) | .error _ =>
        show next.steps ≤ _
        omega

theorem steps_execute_le (p : Program) (args : List Value) (store : Store) :
    (execute c limits p args store).2.steps ≤ store.steps + limits.stepBudget + 1 := by
  have hsteps := (composed_enter limits 0 p args).steps_run store
  unfold execute
  rcases henter : (enter limits 0 p args).run store with ⟨answer, next⟩
  rw [henter] at hsteps
  replace hsteps : next.steps = store.steps := hsteps
  cases answer with
  | error f =>
    show next.steps ≤ _
    omega
  | ok a =>
    rw [← hsteps]
    exact steps_run_le limits.stepBudget ⟨a, []⟩ next

/-! ### Depth -/

/-- The call stacks that a run comes to, each with the instruction it executes next, if any. -/
def runStacks (c : LoadedClass) (limits : Limits) (left : ℕ) (s : CallStack) (store : Store) :
    List CallStack :=
  s ::
    match s.active.program.insns[s.active.next]? with
    | none => []
    | some i =>
      match left with
      | 0 => []
      | left + 1 =>
        match (s.advance c limits i).run store.tick with
        | (.ok (.going s), store) => runStacks c limits left s store
        | _ => []

/-- The call stacks that a program comes to from its start. -/
def executeStacks (c : LoadedClass) (limits : Limits) (p : Program) (args : List Value)
    (store : Store) : List CallStack :=
  match (enter limits 0 p args).run store with
  | (.ok a, store) => runStacks c limits limits.stepBudget ⟨a, []⟩ store
  | (.error _, _) => []

/-- The call stacks that a call from outside comes to. -/
def callStacks (m : Machine) (isStatic : Bool) (name descriptor : String) (args : List Value) :
    List CallStack :=
  match m.loaded.program name descriptor with
  | .ok p =>
    if p.isStatic = isStatic then executeStacks m.loaded m.limits p args { m.store with steps := 0 }
    else []
  | .error _ => []

/-- **The run goes on from each of its call stacks**, with as many instructions counted as there are
stacks in front of it. -/
theorem run_of_getElem?_runStacks {left n : ℕ}
    (h : (runStacks c limits left s store)[n]? = some s') :
    ∃ store' : Store, store'.steps = store.steps + n ∧
      run c limits (left - n) s' store' = run c limits left s store := by
  -- On the index: the run from a later stack is the run from the next one, a step further on.
  induction n generalizing left s store with
  | zero =>
    unfold runStacks at h
    obtain rfl := Option.some.inj h
    exact ⟨store, rfl, rfl⟩
  | succ n ih =>
    unfold runStacks at h
    rw [List.getElem?_cons_succ] at h
    cases hi : s.active.program.insns[s.active.next]? with
    | none => simp [hi] at h
    | some i =>
      rcases left with _ | left
      · simp [hi] at h
      · simp only [hi] at h
        rcases hnext : (s.advance c limits i).run store.tick with ⟨_ | ⟨next⟩ | _, after⟩
        · simp [hnext] at h
        · rw [hnext] at h
          obtain ⟨store', hsteps, hrun⟩ := ih h
          rw [steps_advance hnext] at hsteps
          refine ⟨store', by omega, ?_⟩
          rw [Nat.add_sub_add_right, hrun]
          conv_rhs =>
            unfold run
          simp only [hi, hnext]
        · simp [hnext] at h

/-- **A run counts no instruction but on its call stacks.** -/
theorem steps_run_le_length (left : ℕ) (s : CallStack) (store : Store) :
    (run c limits left s store).2.steps
      ≤ store.steps + (runStacks c limits left s store).length := by
  induction left generalizing s store with
  | zero =>
    unfold run runStacks
    cases s.active.program.insns[s.active.next]? with
    | none => exact Nat.le_add_right _ _
    | some i => exact Nat.le_refl _
  | succ left ih =>
    unfold run runStacks
    cases s.active.program.insns[s.active.next]? with
    | none => exact Nat.le_add_right _ _
    | some i =>
      dsimp only
      rcases hnext : (s.advance c limits i).run store.tick with ⟨_ | ⟨s'⟩ | _, next⟩
      · exact (steps_advance hnext).le
      · have hrest := ih s' next
        rw [steps_advance hnext] at hrest
        show (run c limits left s' next).2.steps
          ≤ store.steps + (s :: runStacks c limits left s' next).length
        rw [List.length_cons]
        omega
      · exact (steps_advance hnext).le

/-- Every instruction of a trace is executed on one of the call stacks, in this order. -/
theorem trace_prefix_runStacks (left : ℕ) (s : CallStack) (store : Store) :
    trace c limits left s store <+: (runStacks c limits left s store).map (·.active.spot) := by
  induction left generalizing s store with
  | zero =>
    unfold trace
    split <;> exact List.nil_prefix
  | succ left ih =>
    unfold trace runStacks
    cases s.active.program.insns[s.active.next]? with
    | none => exact List.nil_prefix
    | some i =>
      rw [List.map_cons, List.cons_prefix_cons]
      refine ⟨rfl, ?_⟩
      dsimp only
      rcases (s.advance c limits i).run store.tick with ⟨_ | ⟨s'⟩ | _, next⟩
      · exact List.nil_prefix
      · exact ih s' next
      · exact List.nil_prefix

/-- A program is only started at a depth that is allowed. -/
theorem le_maxDepth_of_enter {depth : ℕ} {p : Program} {args : List Value} {a : Activation}
    (h : Yields (enter limits depth p args) store a store') : depth ≤ limits.maxDepth := by
  unfold enter at h
  rcases Nat.lt_or_ge limits.maxDepth depth with hdeep | hdepth
  · rw [if_pos hdeep] at h
    exact absurd h yields_throw_bind
  · exact hdepth

/-- **A step nests no deeper than allowed**, if the calls that are under way do not. -/
theorem length_callers_advance {i : Insn} (hs : s.callers.length ≤ limits.maxDepth)
    (h : Yields (s.advance c limits i) store (.going s') store') :
    s'.callers.length ≤ limits.maxDepth := by
  unfold CallStack.advance at h
  obtain ⟨op, _, -, h⟩ := yields_bind.mp h
  obtain ⟨flow, _, -, h⟩ := yields_bind.mp h
  cases flow with
  | next a =>
    obtain ⟨hgoing, -⟩ := yields_pure.mp h
    obtain rfl := Progress.going.inj hgoing
    exact hs
  | call a site callee args =>
    obtain ⟨entered, _, henter, h⟩ := yields_bind.mp h
    obtain ⟨hgoing, -⟩ := yields_pure.mp h
    obtain rfl := Progress.going.inj hgoing
    -- A call is refused where it would nest too deep.
    exact le_maxDepth_of_enter henter
  | finished result =>
    rcases hcallers : s.callers with _ | ⟨⟨site, a⟩, callers⟩
    · simp only [hcallers] at h
      obtain ⟨hgoing, -⟩ := yields_pure.mp h
      cases hgoing
    · simp only [hcallers] at h
      obtain ⟨b, _, -, h⟩ := yields_bind.mp h
      obtain ⟨hgoing, -⟩ := yields_pure.mp h
      obtain rfl := Progress.going.inj hgoing
      rw [hcallers] at hs
      exact Nat.le_of_succ_le hs

/-- **A run nests no deeper than allowed.** -/
theorem length_callers_of_mem_runStacks {left : ℕ} (hs : s.callers.length ≤ limits.maxDepth)
    (h : s' ∈ runStacks c limits left s store) : s'.callers.length ≤ limits.maxDepth := by
  induction left generalizing s store with
  | zero =>
    unfold runStacks at h
    split at h <;> exact List.mem_singleton.mp h ▸ hs
  | succ left ih =>
    unfold runStacks at h
    cases hi : s.active.program.insns[s.active.next]? with
    | none =>
      simp only [hi] at h
      exact List.mem_singleton.mp h ▸ hs
    | some i =>
      simp only [hi] at h
      rcases List.mem_cons.mp h with rfl | h
      · exact hs
      · -- The stacks behind the first are those of the run that goes on, if it does.
        rcases hnext : (s.advance c limits i).run store.tick with ⟨_ | ⟨next⟩ | _, after⟩
        · rw [hnext] at h
          cases h
        · rw [hnext] at h
          exact ih (length_callers_advance hs hnext) h
        · rw [hnext] at h
          cases h

/-! ### Wider limits -/

/-- Whether a fault is that of a call that has met one of its limits. -/
def meetsLimit : Fault → Bool
  | .execution (.budgetExhausted _) | .execution (.callDepth ..) => true
  | _ => false

/-- Whether a computation was cut short by a limit. -/
def isCut : Except Fault α → Bool
  | .ok _ => false
  | .error f => meetsLimit f

/-- `y` does what `x` does, wherever no limit cuts `x` short. -/
def Widens (x y : Exec α) : Prop :=
  ∀ store, isCut (x.run store).1 = false → y.run store = x.run store

theorem Widens.refl (x : Exec α) : Widens x x :=
  fun _ _ => rfl

theorem Widens.bind {x y : Exec α} {f g : α → Exec β} (hxy : Widens x y)
    (hfg : ∀ a, Widens (f a) (g a)) : Widens (x >>= f) (y >>= g) := by
  intro store hcut
  have hx := hxy store
  rw [run_sequence] at hcut ⊢
  rw [run_sequence]
  rcases hrun : x.run store with ⟨fault | a, next⟩
  · rw [hrun] at hx hcut
    rw [hx hcut]
  · rw [hrun] at hx hcut
    rw [hx rfl]
    exact hfg a next hcut

theorem widens_enter (hdepth : limits.maxDepth ≤ limits'.maxDepth) (depth : ℕ) (p : Program)
    (args : List Value) : Widens (enter limits depth p args) (enter limits' depth p args) := by
  intro store hcut
  unfold enter at hcut ⊢
  by_cases hdeep : limits.maxDepth < depth
  · rw [if_pos hdeep] at hcut
    cases hcut
  · rw [if_neg hdeep, if_neg (by omega)]

/-- **A step under wider limits.** -/
theorem widens_advance (hdepth : limits.maxDepth ≤ limits'.maxDepth) (s : CallStack) (i : Insn) :
    Widens (s.advance c limits i) (s.advance c limits' i) := by
  unfold CallStack.advance
  refine (Widens.refl _).bind fun op => (Widens.refl _).bind fun flow => ?_
  cases flow with
  | next a => exact .refl _
  | call a site callee args =>
    exact (widens_enter hdepth _ callee args).bind fun entered => .refl _
  | finished result => exact .refl _

/-- **A run under wider limits.** The induction is on the smaller budget; the larger one is never
used up before it. -/
theorem run_eq_of_not_cut (hdepth : limits.maxDepth ≤ limits'.maxDepth) {left left' : ℕ}
    (hleft : left ≤ left') (hcut : isCut (run c limits left s store).1 = false) :
    run c limits' left' s store = run c limits left s store := by
  induction left generalizing left' s store with
  | zero =>
    unfold run at hcut ⊢
    cases hi : s.active.program.insns[s.active.next]? with
    | none => rfl
    | some i =>
      simp only [hi] at hcut
      cases hcut
  | succ left ih =>
    -- The larger budget is left with what it has more.
    obtain ⟨more, rfl⟩ := Nat.exists_eq_add_of_le' hleft
    rw [← Nat.add_assoc]
    unfold run at hcut ⊢
    cases hi : s.active.program.insns[s.active.next]? with
    | none => rfl
    | some i =>
      simp only [hi] at hcut
      -- A step that is not cut short is the same under wider limits.
      have hwider := @widens_advance c _ _ hdepth s i store.tick
      dsimp only
      rcases hnext : (s.advance c limits i).run store.tick with ⟨fault | ⟨s'⟩ | result, next⟩
      · rw [hnext] at hwider hcut
        rw [hwider hcut]
      · rw [hnext] at hwider hcut
        rw [hwider rfl]
        exact ih (Nat.le_add_left left more) hcut
      · rw [hnext] at hwider
        rw [hwider rfl]

/-- **An execution that is not cut short** is the same under wider limits. -/
theorem execute_eq_of_not_cut (hbudget : limits.stepBudget ≤ limits'.stepBudget)
    (hdepth : limits.maxDepth ≤ limits'.maxDepth) {p : Program} {args : List Value}
    (hcut : isCut (execute c limits p args store).1 = false) :
    execute c limits' p args store = execute c limits p args store := by
  have hwider := widens_enter hdepth 0 p args store
  unfold execute at hcut ⊢
  rcases henter : (enter limits 0 p args).run store with ⟨fault | a, next⟩
  · rw [henter] at hwider hcut
    rw [hwider hcut]
  · rw [henter] at hwider hcut
    rw [hwider rfl]
    exact run_eq_of_not_cut hdepth hbudget hcut

end Machine

namespace Machine

variable (m : Machine) (isStatic : Bool) (name descriptor : String) (args : List Value)

theorem steps_call_le :
    (m.call isStatic name descriptor args).2.store.steps ≤ m.limits.stepBudget + 1 := by
  unfold call
  dsimp only
  cases m.loaded.program name descriptor with
  | error f => exact Nat.zero_le _
  | ok p =>
    by_cases hkind : p.isStatic = isStatic
    · have hsteps := @steps_execute_le m.loaded m.limits p args { m.store with steps := 0 }
      dsimp only
      rw [if_pos hkind]
      rwa [Nat.zero_add] at hsteps
    · dsimp only
      rw [if_neg hkind]
      exact Nat.zero_le _

/-- The call goes on from each of its call stacks, and comes to its own result and store. -/
theorem run_of_getElem?_callStacks {n : ℕ} {s : CallStack}
    (h : (m.callStacks isStatic name descriptor args)[n]? = some s) :
    ∃ store : Store, store.steps = n ∧ run m.loaded m.limits (m.limits.stepBudget - n) s store
      = ((m.call isStatic name descriptor args).1,
        (m.call isStatic name descriptor args).2.store) := by
  unfold callStacks executeStacks at h
  unfold call execute
  cases hp : m.loaded.program name descriptor with
  | error f => simp [hp] at h
  | ok p =>
    by_cases hkind : p.isStatic = isStatic
    · simp only [hp, if_pos hkind] at h ⊢
      have hcounted := (composed_enter m.limits 0 p args).steps_run { m.store with steps := 0 }
      rcases henter : (enter m.limits 0 p args).run { m.store with steps := 0 } with ⟨_ | a, next⟩
      · simp [henter] at h
      · rw [henter] at h hcounted
        obtain ⟨store, hsteps, hrun⟩ := run_of_getElem?_runStacks h
        refine ⟨store, ?_, hrun⟩
        rw [hsteps, show next.steps = 0 from hcounted, Nat.zero_add]
    · simp [hp, if_neg hkind] at h

/-- A call counts no more steps than it has stacks. -/
theorem steps_call_le_length : (m.call isStatic name descriptor args).2.store.steps
    ≤ (m.callStacks isStatic name descriptor args).length := by
  unfold call callStacks
  dsimp only
  cases m.loaded.program name descriptor with
  | error f => exact Nat.zero_le _
  | ok p =>
    by_cases hkind : p.isStatic = isStatic
    · dsimp only
      rw [if_pos hkind, if_pos hkind]
      unfold execute executeStacks
      have hcounted := (composed_enter m.limits 0 p args).steps_run { m.store with steps := 0 }
      rcases henter : (enter m.limits 0 p args).run { m.store with steps := 0 } with ⟨_ | a, next⟩
      · rw [henter] at hcounted
        exact Nat.le_of_eq hcounted
      · rw [henter] at hcounted
        have hsteps := @steps_run_le_length m.loaded m.limits m.limits.stepBudget ⟨a, []⟩ next
        rwa [show next.steps = 0 from hcounted, Nat.zero_add] at hsteps
    · dsimp only
      rw [if_neg hkind]
      exact Nat.zero_le _

/-- The instructions a call runs are those its stacks stand at. -/
theorem callTrace_prefix_callStacks : m.callTrace isStatic name descriptor args
    <+: (m.callStacks isStatic name descriptor args).map (·.active.spot) := by
  unfold callTrace callStacks
  cases m.loaded.program name descriptor with
  | error f => exact List.nil_prefix
  | ok p =>
    by_cases hkind : p.isStatic = isStatic
    · dsimp only
      rw [if_pos hkind, if_pos hkind]
      unfold executeTrace executeStacks
      rcases (enter m.limits 0 p args).run { m.store with steps := 0 } with ⟨_ | a, next⟩
      · exact List.nil_prefix
      · exact trace_prefix_runStacks _ _ _
    · dsimp only
      rw [if_neg hkind]
      exact List.nil_prefix

theorem length_callers_of_mem_callStacks {s : CallStack}
    (h : s ∈ m.callStacks isStatic name descriptor args) :
    s.callers.length ≤ m.limits.maxDepth := by
  unfold callStacks executeStacks at h
  split at h
  · split at h
    · split at h
      · exact length_callers_of_mem_runStacks (Nat.zero_le _) h
      · cases h
    · cases h
  · cases h

variable {m isStatic name descriptor args}

theorem call_eq_of_not_cut {limits : Limits} (hbudget : m.limits.stepBudget ≤ limits.stepBudget)
    (hdepth : m.limits.maxDepth ≤ limits.maxDepth)
    (hcut : isCut (m.call isStatic name descriptor args).1 = false) :
    ({ m with limits }).call isStatic name descriptor args
      = ((m.call isStatic name descriptor args).1,
          { (m.call isStatic name descriptor args).2 with limits }) := by
  unfold call at hcut ⊢
  dsimp only at hcut ⊢
  cases hp : m.loaded.program name descriptor with
  | error f => rfl
  | ok p =>
    by_cases hkind : p.isStatic = isStatic
    · simp only [hp, if_pos hkind] at hcut ⊢
      rw [execute_eq_of_not_cut hbudget hdepth hcut]
    · simp only [if_neg hkind]

variable (m isStatic name descriptor args)

/-- **Limits only cut calls short.** A call counts at most one instruction more than its budget, and
the calls it makes never nest deeper than allowed on any of its call stacks. These are the ones it
comes to: with `n` instructions counted the call goes on from the one with `n` in front of it, it
counts no instruction but on them, and they show its trace. If no limit cuts the call short, then
under any wider limits it comes to the same result, counts the same and leaves the same objects. -/
theorem call_limited :
    (m.call isStatic name descriptor args).2.store.steps ≤ m.limits.stepBudget + 1 ∧
    (∀ s ∈ m.callStacks isStatic name descriptor args, s.callers.length ≤ m.limits.maxDepth) ∧
    (∀ n s, (m.callStacks isStatic name descriptor args)[n]? = some s →
      ∃ store : Store, store.steps = n ∧ run m.loaded m.limits (m.limits.stepBudget - n) s store
        = ((m.call isStatic name descriptor args).1,
            (m.call isStatic name descriptor args).2.store)) ∧
    (m.call isStatic name descriptor args).2.store.steps
      ≤ (m.callStacks isStatic name descriptor args).length ∧
    m.callTrace isStatic name descriptor args
      <+: (m.callStacks isStatic name descriptor args).map (·.active.spot) ∧
    (isCut (m.call isStatic name descriptor args).1 = false →
      ∀ limits : Limits, m.limits.stepBudget ≤ limits.stepBudget →
        m.limits.maxDepth ≤ limits.maxDepth →
          ({ m with limits }).call isStatic name descriptor args
            = ((m.call isStatic name descriptor args).1,
                { (m.call isStatic name descriptor args).2 with limits })) := by
  refine ⟨steps_call_le m isStatic name descriptor args, ?_, ?_,
    steps_call_le_length m isStatic name descriptor args,
    callTrace_prefix_callStacks m isStatic name descriptor args, ?_⟩
  · intro s hs
    exact length_callers_of_mem_callStacks m isStatic name descriptor args hs
  · intro n s hs
    exact run_of_getElem?_callStacks m isStatic name descriptor args hs
  · intro hcut limits hbudget hdepth
    exact call_eq_of_not_cut hbudget hdepth hcut

/-- A machine whose method `f` returns what `g` returns, with limits that just suffice. -/
def nested : Machine where
  loaded := {
    name := "T"
    cells := []
    programs := [
      (("f", "()I"), .ok ⟨"f", "()I", true, 1, 0,
        #[.call Opcode.invokestatic "T" "g" "()I", .simple Opcode.ireturn], ∅⟩),
      (("g", "()I"), .ok ⟨"g", "()I", true, 1, 0,
        #[.simple Opcode.iconst2, .simple Opcode.ireturn], ∅⟩)] }
  limits := ⟨4, 1⟩

/-- The call of `f` takes four instructions, under wider limits too. -/
theorem call_limited_nested : isCut (nested.call true "f" "()I" []).1 = false ∧
    (({ nested with limits := {} }).call true "f" "()I" []).1.toOption = some (some (.int 2)) ∧
    (({ nested with limits := {} }).call true "f" "()I" []).2.store.steps = 4 := by
  have hcall : isCut (nested.call true "f" "()I" []).1 = false ∧
      (nested.call true "f" "()I" []).1.toOption = some (some (.int 2)) ∧
      (nested.call true "f" "()I" []).2.store.steps = 4 := by
    decide +kernel
  obtain ⟨hcut, hresult⟩ := hcall
  obtain ⟨-, -, -, -, -, hwider⟩ := call_limited nested true "f" "()I" []
  rw [hwider hcut {} (by decide) (by decide)]
  exact ⟨hcut, hresult⟩

end Machine

end RoundingPatch
