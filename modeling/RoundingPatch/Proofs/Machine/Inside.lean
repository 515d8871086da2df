import RoundingPatch.Proofs.Machine.Calls
import RoundingPatch.Proofs.Machine.Steps
/-!
# Calls inside the loaded class

A call that names the loaded class starts one of its programs below the caller (`leads_enter`). If
the caller returns the result at once, it comes to what the called program comes to, after at most
two more instructions (`comes_handOn`).
-/

namespace RoundingPatch.Machine

open ClassFile

/-- An outcome that was asked for and is returned at once. -/
def Outcome.handedOn (o : Outcome) : Outcome :=
  match o.result with
  | .ok _ => ⟨1 + (o.steps + 1), o.result⟩
  | .error _ => o.after 1

/-- What is handed on is the callee's own result. -/
theorem Outcome.result_handedOn (o : Outcome) : o.handedOn.result = o.result := by
  unfold handedOn
  split <;> rfl

theorem Outcome.steps_handedOn_le (o : Outcome) : o.handedOn.steps ≤ o.steps + 2 := by
  unfold handedOn after
  split <;> dsimp only <;> omega

section Inside

variable {c : LoadedClass} {limits : Limits} {p callee : Program}
  {locals stack args rest : List Value}
  {k : ℕ} {callers : List (CallSite × Activation)} {h : Heap} {r : ObjRef} {o : Outcome}
  {name descriptor : String} {d : MethodDescriptor}

/-- **A call on an object of the loaded class** starts the program of the method. -/
theorem leads_enter (hk : p.Does k (.call .virtual c.name name descriptor))
    (hd : MethodDescriptor.parse descriptor = .ok d)
    (hnarrow : (d.params.all isNarrow && d.result.all isNarrow) = true)
    (hprogram : c.program name descriptor = .ok callee)
    (hpop : (⟨p, locals, stack, k + 1⟩ : Activation).popMany d.params.length []
      = .ok (args, ⟨p, locals, .obj r :: rest, k + 1⟩))
    (hdepth : callers.length + 1 ≤ limits.maxDepth)
    (hargs : args.length < callee.maxLocals.toNat) :
    Leads c limits 1 ⟨⟨p, locals, stack, k⟩, callers⟩ h
      ⟨⟨callee, callee.locals (.obj r :: args), [], 0⟩,
        (⟨c.name, name, descriptor, d.result.isSome⟩, ⟨p, locals, rest, k + 1⟩) :: callers⟩ h := by
  obtain ⟨i, hi, hop⟩ := hk.plain rfl
  have hdispatch (store : Store) :
      Yields (dispatchesHere c .virtual c.name name descriptor r) store true store := by
    unfold dispatchesHere
    rw [if_pos rfl]
    exact yields_pure.mpr ⟨rfl, rfl⟩
  -- The arguments and the receiver are taken off, and the callee is found in the loaded class.
  have hcall (store : Store) :
      Yields (perform c ⟨p, locals, stack, k + 1⟩ (.call .virtual c.name name descriptor)) store
        (.call ⟨p, locals, rest, k + 1⟩ ⟨c.name, name, descriptor, d.result.isSome⟩ callee
          (.obj r :: args)) store := by
    refine Yields.bind (yields_lift.mpr ⟨hd, rfl⟩) ?_
    rw [hnarrow]
    exact Yields.bind (yields_lift.mpr ⟨hpop, rfl⟩)
      (Yields.bind (yields_lift.mpr ⟨rfl, rfl⟩)
        ((hdispatch store).bind
          (Yields.bind (yields_lift.mpr ⟨hprogram, rfl⟩) (yields_pure.mpr ⟨rfl, rfl⟩))))
  have hlength : (Value.obj r :: args).length ≤ callee.maxLocals.toNat := hargs
  intro store hstore
  refine ⟨fun left hleft => ?_, store.tick.countStart, hstore, ?_⟩
  · obtain rfl : left = 0 := Nat.lt_one_iff.mp hleft
    exact run_zero hi store
  · refine @run_succ _ _ _ _ _ _ _ _ (.ok (.going ⟨_, _⟩)) _ _ hi ?_
    exact Yields.bind (yields_lift.mpr ⟨hop, rfl⟩) ((hcall store.tick).bind
      ((yields_enter hdepth hlength).bind (yields_pure.mpr ⟨rfl, rfl⟩)))

/-- **A call whose result is returned at once** comes to what the called program comes to. -/
theorem comes_handOn (hk : p.Segment k [.call .virtual c.name name descriptor, .returnInt])
    (hd : MethodDescriptor.parse descriptor = .ok d) (hresult : d.result.isSome = true)
    (hnarrow : (d.params.all isNarrow && d.result.all isNarrow) = true)
    (hprogram : c.program name descriptor = .ok callee)
    (hpop : (⟨p, locals, stack, k + 1⟩ : Activation).popMany d.params.length []
      = .ok (args, ⟨p, locals, .obj r :: rest, k + 1⟩))
    (hdepth : callers.length + 1 ≤ limits.maxDepth)
    (hargs : args.length < callee.maxLocals.toNat) (hroom : rest.length < p.maxStack.toNat)
    (hcallee : ∀ callers,
      Comes c limits ⟨⟨callee, callee.locals (.obj r :: args), [], 0⟩, callers⟩ h o)
    (hword : ∀ result, o.result = .ok result → ∃ v, result = some (.int v)) :
    Comes c limits ⟨⟨p, locals, stack, k⟩, callers⟩ h o.handedOn := by
  have henter := leads_enter (h := h) hk.head hd hnarrow hprogram hpop hdepth hargs
  obtain ⟨h', hkeeps, hends⟩ := hcallee _
  refine ⟨h', hkeeps, ?_⟩
  unfold Outcome.handedOn
  -- The callee returns a word, which is returned again, or it faults and nothing is resumed.
  cases ho : o.result with
  | ok result =>
    obtain ⟨v, rfl⟩ := hword result ho
    have hreceive : (⟨p, locals, rest, k + 1⟩ : Activation).receive
        ⟨c.name, name, descriptor, d.result.isSome⟩ (some (.int v))
          = .ok ⟨p, locals, .int v :: rest, k + 1⟩ := by
      unfold Activation.receive
      rw [hresult]
      exact Activation.push_eq hroom _
    have hback := henter.trans (hends.leads ho hreceive)
    have hreturn := hback.ends (ends_returnInt hk.tail.head) rfl
    rwa [Outcome.after, Nat.add_assoc] at hreturn
  | error f =>
    refine henter.ends_of_resume hends ?_
    rw [ho]
    rfl

end Inside

end RoundingPatch.Machine
