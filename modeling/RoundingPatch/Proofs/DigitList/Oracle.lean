import RoundingPatch.Proofs.DigitList.Prepared
/-!
# The fixed build as an oracle

A bytecode oracle over the fixed build answers with what the compiled decision comes to on the
receiver that it makes for the question (`BytecodeOracle.ask_fixed`), and is ready for the next
question afterwards.
-/

namespace RoundingPatch

open ClassFile Machine DigitList

/-- The receiver that an oracle makes for a digit list. -/
def DigitList.receiver (l : DigitList) : Receiver where
  digits := some (l.digits.map fun d => d.toUInt16).toArray
  count := Int32.ofNat l.count
  isNegative := if l.isNegative then 1 else 0
  roundingMode := l.roundingMode

/-- A truth value as a word. -/
def Machine.Value.word (b : Bool) : Int32 :=
  if b then 1 else 0

namespace BytecodeOracle

/-- An oracle for the rounding decision of a class, with the rounding modes on its heap and nothing
else. -/
structure IsReady (o : BytecodeOracle) (c : ClassFile) (limits : Limits) : Prop where
  loaded : o.machine.loaded = .ofClass c
  limits : o.machine.limits = limits
  heap : o.machine.heap = modesHeap
  modes : o.modes = RoundingMode.all.map modeRef
  method : o.method = shouldRoundUp
  descriptor : o.descriptor = shouldRoundUpDescriptor

variable {o : BytecodeOracle} {c : ClassFile} {limits : Limits} {q : RoundingQuestion}

theorem isReady_ofBytes {bytes : Bytes} (hc : ClassFile.parse bytes = .ok c) (limits : Limits) :
    ∃ o, ofBytes bytes limits = .ok o ∧ o.IsReady c limits := by
  have hdefine := define_modes
  unfold ofBytes Machine.load
  rw [hc]
  refine ⟨_, rfl, rfl, rfl, ?_, ?_, rfl, rfl⟩
  · exact congrArg Prod.snd hdefine
  · exact congrArg Prod.fst hdefine

/-- The machine on which a question about a list is answered, and the receiver there. -/
theorem receiver_eq {s : Specimen} (ho : o.IsReady c limits) (hc : s.IsReadAs c) (l : DigitList) :
    ∃ this machine, o.receiver l = .ok (this, machine) ∧ l.receiver.IsAt machine.heap this ∧
      machine.loaded = .ofClass c ∧ machine.limits = limits ∧
      modesHeap.objects.toList <+: machine.heap.objects.toList := by
  let units := (l.digits.map fun d => d.toUInt16).toArray
  let digits : ObjRef := ⟨modesHeap.size⟩
  let machine := o.machine.withHeap (modesHeap.alloc (.chars units)).2
  -- The digits are put on the heap first; the receiver refers to them.
  have hadd : o.machine.add (.chars units) = (digits, machine) := by
    unfold Machine.add
    rw [ho.heap]
    rfl
  have hmode : o.modes[l.roundingMode.ordinal]? = some (modeRef l.roundingMode) := by
    rw [ho.modes]
    cases l.roundingMode <;> rfl
  have hloaded : machine.loaded = .ofClass c := ho.loaded
  -- Of the fields offered, the class has all.
  have hfields : (o.fields l digits).filter (fun field => machine.loaded.hasField field.1)
      = [("digits", .ref (some digits)), ("count", .int l.receiver.count),
        ("decimalAt", .int l.decimalAt), ("isNegative", .int l.receiver.isNegative),
        ("roundingMode", .obj (modeRef l.receiver.roundingMode))] := by
    unfold fields LoadedClass.hasField
    rw [hmode, hloaded, hc.cells_eq]
    rfl
  have hreceiver : o.receiver l = .ok (machine.add (.object Bytecode.className
      (instanceFields l.receiver l.decimalAt (some digits) modeRef))) := by
    unfold receiver
    simp only []
    rw [hadd]
    dsimp only
    rw [hfields]
    exact addInstance_eq (by rw [hloaded, hc.name]) (by rw [hloaded, hc.cells_eq]) l.receiver
      l.decimalAt (some digits) modeRef
  have hunits : modesHeap.objects.toList <+: machine.heap.objects.toList := Heap.prefix_alloc _ _
  have hmodes : HasModes machine.heap modeRef := hasModes_modesHeap.of_extended hunits
  have hdigits : l.receiver.Holds machine.heap (some digits) :=
    .array rfl (by simp [machine, digits, Machine.heap, Machine.withHeap, Heap.get, Heap.alloc,
      Heap.size, units])
  exact ⟨_, _, hreceiver, isAt_alloc hmodes hdigits, hloaded, ho.limits,
    hunits.trans (Heap.prefix_alloc _ _)⟩

/-- What the fixed build comes to at a question. -/
def fixedOutcome (q : RoundingQuestion) : Outcome :=
  q.list.receiver.fixed q.place (Value.word q.alreadyRounded) (Value.word q.exact)

/-- **The fixed build as an oracle.** -/
theorem ask_fixed (ho : o.IsReady c limits) (hc : Specimen.fixed.IsReadAs c)
    (q : RoundingQuestion) :
    (o.ask q).1 = ((fixedOutcome q).within limits).bind o.verdict ∧
      ((fixedOutcome q).steps ≤ limits.stepBudget → (o.ask q).2.IsReady c limits) := by
  obtain ⟨this, machine, hreceiver, hx, hloaded, hlimits, hkeeps⟩ := receiver_eq ho hc q.list
  let args : List Value :=
    [.int q.place, .int (Value.word q.alreadyRounded), .int (Value.word q.exact)]
  obtain ⟨hresult, hloaded', hlimits', hkept⟩ := callVirtual_fixed hc hloaded hx q.place
    (Value.word q.alreadyRounded) (Value.word q.exact)
  have hcall : o.call q = machine.callVirtual this "shouldRoundUp" "(IZZ)Z" args := by
    unfold call
    rw [hreceiver, ho.method, ho.descriptor]
    rfl
  rw [hlimits] at hresult hkept hlimits'
  unfold ask
  rw [hcall]
  refine ⟨congrArg (·.bind o.verdict) hresult, fun hbudget => ⟨hloaded'.trans hloaded, hlimits', ?_,
    ho.modes, ho.method, ho.descriptor⟩⟩
  -- What the call has left on the heap lies behind the modes.
  obtain ⟨more, hmore⟩ := Heap.objects_of_extended (hkeeps.trans (hkept hbudget))
  show (machine.callVirtual this "shouldRoundUp" "(IZZ)Z" args).2.heap.truncate
    o.machine.heap.size = modesHeap
  rw [ho.heap, Heap.truncate, hmore]
  simp [Heap.size]

end BytecodeOracle

end RoundingPatch
