import Mathlib.Data.Nat.Notation
import RoundingPatch.Machine.Basic
import RoundingPatch.Proofs.Failing
import RoundingPatch.Proofs.Machine.Programs
/-!
# Runs

`Leads n s h s' h'` says that `n` instructions lead from one state to another, and `Ends s h o h'`
that the active program ends after `o.steps` instructions with `o.result`. Both also say what
happens if the budget is used up before. Runs are put together from single instructions
(`Leads.trans`, `Leads.ends`), for each of which there is a lemma about the program that it stands
in.
-/

namespace RoundingPatch.Machine

open ClassFile

/-! ### Steps on the store -/

section Exec

variable {α : Type} {s t : Store}

theorem yields_lift {answer : Except Fault α} {a : α} :
    Yields (liftM answer : Exec α) s a t ↔ answer = .ok a ∧ s = t := by
  cases answer with
  | error f =>
    refine iff_of_false (fun h => ?_) fun h => by cases h.1
    have h : ((Except.error f : Except Fault α), s) = (.ok a, t) := h
    cases h
  | ok b =>
    show ((Except.ok b : Except Fault α), s) = (.ok a, t) ↔ _
    simp

/-- What goes on with an answer. -/
theorem yields_lift_bind {β : Type} {answer : Except Fault α} {f : α → Exec β} {v : β} :
    Yields (liftM answer >>= f) s v t ↔
      ∃ u, answer = .ok u ∧ Yields (f u) s v t := by
  rw [yields_bind]
  constructor
  · rintro ⟨u, _, hu, h⟩
    obtain ⟨hanswer, rfl⟩ := yields_lift.mp hu
    exact ⟨u, hanswer, h⟩
  · rintro ⟨u, hu, h⟩
    exact ⟨u, s, yields_lift.mpr ⟨hu, rfl⟩, h⟩

theorem fails_lift {answer : Except Fault α} {fault : Fault} :
    Fails (liftM answer : Exec α) s fault t ↔ answer = .error fault ∧ s = t := by
  cases answer with
  | error f =>
    show ((Except.error f : Except Fault α), s) = (.error fault, t) ↔ _
    simp
  | ok b =>
    refine iff_of_false (fun h => ?_) fun h => by cases h.1
    have h : ((Except.ok b : Except Fault α), s) = (.error fault, t) := h
    cases h

theorem yields_reading {read : Heap → Except Fault α} {a : α} :
    Yields (reading read) s a t ↔ read s.heap = .ok a ∧ s = t := by
  rw [reading, yields_get_bind, yields_lift]

theorem fails_reading {read : Heap → Except Fault α} {fault : Fault} :
    Fails (reading read) s fault t ↔ read s.heap = .error fault ∧ s = t := by
  rw [reading, fails_get_bind, fails_lift]

theorem yields_changing {change : Heap → Except Fault Heap} {u : Unit} :
    Yields (changing change) s u t ↔ ∃ heap, change s.heap = .ok heap ∧ t = { s with heap } := by
  rw [changing, yields_get_bind, yields_bind]
  constructor
  · rintro ⟨heap, _, hread, h⟩
    obtain ⟨hchange, rfl⟩ := yields_lift.mp hread
    exact ⟨heap, hchange, yields_modify.mp h⟩
  · rintro ⟨heap, hchange, h⟩
    exact ⟨heap, s, yields_lift.mpr ⟨hchange, rfl⟩, yields_modify.mpr h⟩

theorem yields_alloc {o : HeapObject} {r : ObjRef} :
    Yields (alloc o) s r t ↔
      r = (s.heap.alloc o).1 ∧ t = { s with heap := (s.heap.alloc o).2 } := by
  show ((Except.ok (s.heap.alloc o).1 : Except Fault ObjRef), { s with heap := (s.heap.alloc o).2 })
    = (.ok r, t) ↔ _
  simp [eq_comm]

end Exec

/-! ### The operand stack -/

namespace Activation

variable {a b : Activation}

theorem stack_of_pop {v : Value} (h : a.pop = .ok (v, b)) :
    a.stack = v :: b.stack ∧ b.program = a.program := by
  unfold Activation.pop at h
  split at h
  · next v' rest hstack =>
    cases h
    exact ⟨hstack, rfl⟩
  · cases h

theorem stack_of_popObj {what : String} {r : ObjRef} (h : a.popObj what = .ok (r, b)) :
    a.stack = .obj r :: b.stack ∧ b.program = a.program := by
  obtain ⟨⟨v, b'⟩, hpop, h⟩ := except_bind_eq_ok.mp h
  obtain ⟨r', hobj, h⟩ := except_bind_eq_ok.mp h
  cases h
  obtain ⟨ref, href, h⟩ := except_bind_eq_ok.mp hobj
  cases v with
  | int v => cases href
  | ref found =>
    cases href
    cases ref with
    | none => cases h
    | some r' =>
      cases h
      exact stack_of_pop hpop

/-- The arguments lie on the stack in reverse. -/
theorem stack_of_popMany {n : ℕ} {taken args : List Value}
    (h : a.popMany n taken = .ok (args, b)) : ∃ passed, args = passed ++ taken ∧
      passed.length = n ∧ a.stack = passed.reverse ++ b.stack ∧ b.program = a.program := by
  induction n generalizing a taken with
  | zero =>
    cases h
    exact ⟨[], rfl, rfl, rfl, rfl⟩
  | succ n ih =>
    -- The value popped first was pushed last.
    obtain ⟨⟨v, a'⟩, hpop, h⟩ := except_bind_eq_ok.mp h
    obtain ⟨hstack, hprogram⟩ := stack_of_pop hpop
    obtain ⟨passed, rfl, rfl, hstack', hprogram'⟩ := ih h
    refine ⟨passed ++ [v], by simp, by simp, ?_, hprogram'.trans hprogram⟩
    rw [hstack, hstack', List.reverse_concat, List.cons_append]

end Activation

/-! ### Sequences of instructions -/

/-- The fault of a call that has used up its budget. -/
def Limits.exhausted (limits : Limits) : Fault :=
  .execution (.budgetExhausted limits.stepBudget)

/-- What a run comes to. -/
structure Outcome where
  /-- The number of instructions. -/
  steps : ℕ
  result : Except Fault (Option Value)

/-- An outcome after some more instructions. -/
def Outcome.after (n : ℕ) (o : Outcome) : Outcome :=
  ⟨n + o.steps, o.result⟩

theorem Outcome.after_after (m n : ℕ) (o : Outcome) : (o.after m).after n = o.after (n + m) := by
  rw [after, after, after, Nat.add_assoc]

/-- What comes after the active program: its caller goes on, if there is one. -/
def resume (callers : List (CallSite × Activation)) (result : Option Value) :
    Except Fault Progress :=
  match callers with
  | [] => .ok (.finished result)
  | (site, a) :: callers => return .going ⟨← a.receive site result, callers⟩

variable (c : LoadedClass) (limits : Limits)

/-- A run with the given budget after an instruction. -/
def proceed (left : ℕ) (next : Except Fault Progress) (store : Store) :
    Except Fault (Option Value) × Store :=
  match next with
  | .ok (.going s) => run c limits left s store
  | .ok (.finished result) => (.ok result, store)
  | .error f => (.error f, store)

/-- `n` instructions lead from a state to another one. -/
def Leads (n : ℕ) (s : CallStack) (h : Heap) (s' : CallStack) (h' : Heap) : Prop :=
  ∀ store : Store, store.heap = h →
    (∀ left < n, (run c limits left s store).1 = .error limits.exhausted) ∧
    ∃ store' : Store, store'.heap = h' ∧
      ∀ left, run c limits (n + left) s store = run c limits left s' store'

/-- The active program of a state ends with an outcome. -/
def Ends (s : CallStack) (h : Heap) (o : Outcome) (h' : Heap) : Prop :=
  ∀ store : Store, store.heap = h →
    (∀ left < o.steps, (run c limits left s store).1 = .error limits.exhausted) ∧
    ∃ store' : Store, store'.heap = h' ∧
      ∀ left, run c limits (o.steps + left) s store
        = proceed c limits left (o.result.bind (resume s.callers)) store'

variable {c limits} {m n : ℕ} {s s' s'' : CallStack} {h h' h'' : Heap} {o : Outcome}

theorem Leads.refl : Leads c limits 0 s h s h := fun store hstore =>
  ⟨fun _ hleft => absurd hleft (Nat.not_lt_zero _), store, hstore, fun left => by rw [Nat.zero_add]⟩

/-- **Runs compose**, and their steps add up. -/
theorem Leads.trans (h1 : Leads c limits m s h s' h') (h2 : Leads c limits n s' h' s'' h'') :
    Leads c limits (m + n) s h s'' h'' := by
  intro store hstore
  obtain ⟨hless1, store', hstore', hrun1⟩ := h1 store hstore
  obtain ⟨hless2, store'', hstore'', hrun2⟩ := h2 store' hstore'
  -- A budget that ends in the first part ends the whole; what is left of another goes to the
  -- second.
  refine ⟨fun left hleft => ?_, store'', hstore'', fun left => ?_⟩
  · by_cases hlt : left < m
    · exact hless1 left hlt
    · obtain ⟨more, rfl⟩ := Nat.exists_eq_add_of_le (Nat.le_of_not_lt hlt)
      rw [hrun1]
      exact hless2 more (by omega)
  · rw [Nat.add_assoc, hrun1, hrun2]

/-- What comes after the end has to be the same for both states. -/
theorem Leads.ends_of_resume (h1 : Leads c limits n s h s' h') (h2 : Ends c limits s' h' o h'')
    (hresume : o.result.bind (resume s'.callers) = o.result.bind (resume s.callers)) :
    Ends c limits s h (o.after n) h'' := by
  intro store hstore
  obtain ⟨hless1, store', hstore', hrun1⟩ := h1 store hstore
  obtain ⟨hless2, store'', hstore'', hrun2⟩ := h2 store' hstore'
  refine ⟨fun left hleft => ?_, store'', hstore'', fun left => ?_⟩
  · by_cases hlt : left < n
    · exact hless1 left hlt
    · obtain ⟨more, rfl⟩ := Nat.exists_eq_add_of_le (Nat.le_of_not_lt hlt)
      rw [hrun1]
      have hleft : n + more < n + o.steps := hleft
      exact hless2 more (by omega)
  · show run c limits (n + o.steps + left) s store = _
    rw [Nat.add_assoc, hrun1, hrun2, hresume]
    rfl

theorem Leads.ends (h1 : Leads c limits n s h s' h') (h2 : Ends c limits s' h' o h'')
    (hcallers : s'.callers = s.callers) : Ends c limits s h (o.after n) h'' :=
  h1.ends_of_resume h2 (by rw [hcallers])

/-- A result that a waiting caller takes lets it go on. -/
theorem Ends.leads {active a b : Activation} {site : CallSite}
    {callers : List (CallSite × Activation)} {r : Option Value}
    (h1 : Ends c limits ⟨active, (site, a) :: callers⟩ h o h') (hresult : o.result = .ok r)
    (hreceive : a.receive site r = .ok b) :
    Leads c limits o.steps ⟨active, (site, a) :: callers⟩ h ⟨b, callers⟩ h' := by
  have hresume : resume ((site, a) :: callers) r = .ok (.going ⟨b, callers⟩) := by
    rw [resume, hreceive]
    rfl
  intro store hstore
  obtain ⟨hless, store', hstore', hrun⟩ := h1 store hstore
  refine ⟨hless, store', hstore', fun left => ?_⟩
  rw [hrun, hresult]
  show proceed c limits left (resume ((site, a) :: callers) r) store' = _
  rw [hresume]
  rfl

/-- The active program of a state ends with an outcome and leaves the objects there as they are. -/
def Comes (c : LoadedClass) (limits : Limits) (s : CallStack) (h : Heap) (o : Outcome) : Prop :=
  ∃ h' : Heap, h.objects.toList <+: h'.objects.toList ∧ Ends c limits s h o h'

theorem Ends.comes (h1 : Ends c limits s h o h) : Comes c limits s h o :=
  ⟨h, List.prefix_rfl, h1⟩

/-- A run before an outcome adds its steps to it. -/
theorem Leads.comes (h1 : Leads c limits n s h s' h) (h2 : Comes c limits s' h o)
    (hcallers : s'.callers = s.callers) : Comes c limits s h (o.after n) := by
  obtain ⟨h', hkeeps, hends⟩ := h2
  exact ⟨h', hkeeps, h1.ends hends hcallers⟩

section Choice

variable {q : Prop} [Decidable q] {taken : Bool} {p : Program} {locals stack : List Value} {k t : ℕ}
  {callers : List (CallSite × Activation)} {o' : Outcome}

/-- **A choice between two outcomes** by a branch that is taken for the first of them. -/
theorem Leads.comes_ite
    (h1 : Leads c limits n s h ⟨⟨p, locals, stack, if taken then t else k⟩, callers⟩ h)
    (htaken : taken = true ↔ q)
    (hyes : q → Leads c limits n s h ⟨⟨p, locals, stack, t⟩, callers⟩ h → Comes c limits s h o)
    (hno : ¬ q → Leads c limits n s h ⟨⟨p, locals, stack, k⟩, callers⟩ h → Comes c limits s h o') :
    Comes c limits s h (if q then o else o') := by
  by_cases hq : q
  · rw [if_pos hq]
    rw [if_pos (htaken.mpr hq)] at h1
    exact hyes hq h1
  · rw [if_neg hq]
    rw [if_neg (mt htaken.mp hq)] at h1
    exact hno hq h1

/-- A choice by a branch that is taken for the second outcome. -/
theorem Leads.comes_ite_not
    (h1 : Leads c limits n s h ⟨⟨p, locals, stack, if taken then t else k⟩, callers⟩ h)
    (htaken : taken = false ↔ q)
    (hyes : q → Leads c limits n s h ⟨⟨p, locals, stack, k⟩, callers⟩ h → Comes c limits s h o)
    (hno : ¬ q → Leads c limits n s h ⟨⟨p, locals, stack, t⟩, callers⟩ h → Comes c limits s h o') :
    Comes c limits s h (if q then o else o') := by
  rw [← ite_not]
  exact h1.comes_ite (Bool.not_eq_false taken ▸ not_congr htaken) hno fun hq => hyes (not_not.mp hq)

end Choice

/-! ### Single instructions -/

section Step

variable {p : Program} {locals stack : List Value} {k : ℕ}
  {callers : List (CallSite × Activation)} {i : Insn} {op : Operation}

/-- A run with no budget left. -/
theorem run_zero (hi : p.insns[k]? = some i) (store : Store) :
    (run c limits 0 ⟨⟨p, locals, stack, k⟩, callers⟩ store).1 = .error limits.exhausted := by
  rw [run]
  simp only [hi]
  rfl

/-- A run with a budget of at least one instruction. -/
theorem run_succ {next : Except Fault Progress} {store store' : Store} (hi : p.insns[k]? = some i)
    (hadvance : (CallStack.advance c limits ⟨⟨p, locals, stack, k⟩, callers⟩ i).run store.tick
      = (next, store')) (left : ℕ) :
    run c limits (1 + left) ⟨⟨p, locals, stack, k⟩, callers⟩ store
      = proceed c limits left next store' := by
  rw [Nat.add_comm, run]
  simp only [hi, hadvance]
  rcases next with f | ⟨⟨s⟩ | r⟩ <;> rfl

/-- **An instruction that goes on.** -/
theorem leads_of_yields {a : Activation} (hi : p.insns[k]? = some i)
    (hop : Operation.ofInsn i = .ok op)
    (hstep : ∀ store : Store, store.heap = h → ∃ store' : Store, store'.heap = h' ∧
      Yields (perform c ⟨p, locals, stack, k + 1⟩ op) store (.next a) store') :
    Leads c limits 1 ⟨⟨p, locals, stack, k⟩, callers⟩ h ⟨a, callers⟩ h' := by
  intro store hstore
  obtain ⟨store', hstore', hyields⟩ := hstep store.tick hstore
  refine ⟨fun left hleft => ?_, store', hstore', ?_⟩
  · obtain rfl : left = 0 := by omega
    exact run_zero hi store
  · refine @run_succ _ _ _ _ _ _ _ _ (.ok (.going ⟨a, callers⟩)) _ _ hi ?_
    exact Yields.bind (yields_lift.mpr ⟨hop, rfl⟩) (hyields.bind (yields_pure.mpr ⟨rfl, rfl⟩))

/-- An instruction that leaves the store alone. -/
theorem leads_of_quiet {a : Activation} (hi : p.insns[k]? = some i)
    (hop : Operation.ofInsn i = .ok op)
    (hstep : ∀ store : Store, store.heap = h →
      Yields (perform c ⟨p, locals, stack, k + 1⟩ op) store (.next a) store) :
    Leads c limits 1 ⟨⟨p, locals, stack, k⟩, callers⟩ h ⟨a, callers⟩ h :=
  leads_of_yields hi hop fun store hstore => ⟨store, hstore, hstep store hstore⟩

/-- **An instruction that returns.** -/
theorem ends_of_yields {r : Option Value} (hi : p.insns[k]? = some i)
    (hop : Operation.ofInsn i = .ok op)
    (hstep : ∀ store : Store,
      Yields (perform c ⟨p, locals, stack, k + 1⟩ op) store (.finished r) store) :
    Ends c limits ⟨⟨p, locals, stack, k⟩, callers⟩ h ⟨1, .ok r⟩ h := by
  intro store hstore
  refine ⟨fun left hleft => ?_, store.tick, hstore, run_succ hi ?_⟩
  · -- With a smaller budget the instruction is not executed.
    obtain rfl : left = 0 := Nat.lt_one_iff.mp hleft
    exact run_zero hi store
  · -- With this budget the result goes to the caller, which may have no room for it.
    cases callers with
    | nil =>
      exact Yields.bind (yields_lift.mpr ⟨hop, rfl⟩)
        ((hstep store.tick).bind (yields_pure.mpr ⟨rfl, rfl⟩))
    | cons caller callers =>
      obtain ⟨site, a⟩ := caller
      cases hreceive : a.receive site r with
      | ok b =>
        have hresume : resume ((site, a) :: callers) r = .ok (.going ⟨b, callers⟩) := by
          rw [resume, hreceive]
          rfl
        show _ = (resume ((site, a) :: callers) r, store.tick)
        rw [hresume]
        exact Yields.bind (yields_lift.mpr ⟨hop, rfl⟩)
          ((hstep store.tick).bind (Yields.bind (yields_lift.mpr ⟨hreceive, rfl⟩)
            (yields_pure.mpr ⟨rfl, rfl⟩)))
      | error f =>
        have hresume : resume ((site, a) :: callers) r = .error f := by
          rw [resume, hreceive]
          rfl
        show _ = (resume ((site, a) :: callers) r, store.tick)
        rw [hresume]
        exact fails_bind.mpr (.inr ⟨op, _, yields_lift.mpr ⟨hop, rfl⟩,
          fails_bind.mpr (.inr ⟨_, _, hstep store.tick,
            fails_bind.mpr (.inl (fails_lift.mpr ⟨hreceive, rfl⟩))⟩)⟩)

/-- **An instruction that fails.** -/
theorem ends_of_fails {f : Fault} (hi : p.insns[k]? = some i) (hop : Operation.ofInsn i = .ok op)
    (hstep : ∀ store : Store, store.heap = h → ∃ store' : Store, store'.heap = h' ∧
      Fails (perform c ⟨p, locals, stack, k + 1⟩ op) store f store') :
    Ends c limits ⟨⟨p, locals, stack, k⟩, callers⟩ h ⟨1, .error f⟩ h' := by
  intro store hstore
  obtain ⟨store', hstore', hfails⟩ := hstep store.tick hstore
  refine ⟨fun left hleft => ?_, store', hstore', run_succ hi ?_⟩
  · obtain rfl : left = 0 := Nat.lt_one_iff.mp hleft
    exact run_zero hi store
  · exact fails_bind.mpr (.inr ⟨op, _, yields_lift.mpr ⟨hop, rfl⟩, fails_bind.mpr (.inl hfails)⟩)

end Step

end RoundingPatch.Machine
