import RoundingPatch.Proofs.DigitList.History
import RoundingPatch.Proofs.DigitList.Specimen
/-!
# Prepared receivers

A machine that has defined the rounding modes and was given an instance of a specimen with digits
holds a receiver of the rounding decision (`isAt_alloc`), so one can be prepared for every receiver
(`Receiver.exists_prepare`). There the fixed build comes to what its bytecode says
(`callVirtual_fixed`).
-/

namespace RoundingPatch

open ClassFile Machine

namespace DigitList

variable {h h' : Heap} {modes : RoundingMode → ObjRef} {x : Receiver} {r : ObjRef}

/-! ### Larger heaps -/

/-- A heap that grows keeps its modes. -/
theorem HasModes.of_extended (hmodes : HasModes h modes)
    (hkeeps : h.objects.toList <+: h'.objects.toList) : HasModes h' modes := fun mode =>
  ⟨Heap.constant?_of_extended hkeeps (hmodes mode).1, Heap.get_of_extended hkeeps (hmodes mode).2⟩

/-- A heap that grows keeps what a receiver holds. -/
theorem Receiver.Holds.of_extended {array : Option ObjRef} (harray : x.Holds h array)
    (hkeeps : h.objects.toList <+: h'.objects.toList) : x.Holds h' array := by
  cases harray with
  | null hdigits => exact .null hdigits
  | array hdigits hget => exact .array hdigits (Heap.get_of_extended hkeeps hget)

/-! ### Modes -/

/-- The heap of the modes alone has each of them. -/
theorem hasModes_modesHeap : HasModes modesHeap modeRef := by
  intro mode
  cases mode <;> decide +kernel

/-! ### Instances -/

/-- The fields of an instance of a specimen. -/
def instanceFields (x : Receiver) (decimalAt : Int32) (array : Option ObjRef)
    (modes : RoundingMode → ObjRef) : List (String × Value) := [
  ("decimalAt", .int decimalAt), ("count", .int x.count), ("digits", .ref array),
  ("roundingMode", .obj (modes x.roundingMode)), ("isNegative", .int x.isNegative)]

/-- **A new instance** is a receiver. -/
theorem isAt_alloc {className : String} {decimalAt : Int32} {array : Option ObjRef}
    (hmodes : HasModes h modes) (harray : x.Holds h array) :
    x.IsAt (h.alloc (.object className (instanceFields x decimalAt array modes))).2 ⟨h.size⟩ := by
  have hkeeps := h.prefix_alloc (.object className (instanceFields x decimalAt array modes))
  refine ⟨⟨array, ?_, harray.of_extended hkeeps⟩, ?_, ?_, modes, hmodes.of_extended hkeeps, ?_⟩
  all_goals
    rw [Heap.field_alloc]
    rfl

/-- A new instance, with the given values in its fields. -/
theorem addInstance_eq {m : Machine} (hname : m.loaded.name = Bytecode.className)
    (hcells : m.loaded.cells = Specimen.cells) (x : Receiver) (decimalAt : Int32)
    (array : Option ObjRef) (modes : RoundingMode → ObjRef) :
    m.addInstance [("digits", .ref array), ("count", .int x.count), ("decimalAt", .int decimalAt),
        ("isNegative", .int x.isNegative), ("roundingMode", .obj (modes x.roundingMode))]
      = .ok (m.add (.object Bytecode.className (instanceFields x decimalAt array modes))) := by
  unfold Machine.addInstance LoadedClass.instanceFields LoadedClass.hasField
  rw [hcells, hname]
  rfl

/-! ### Fresh machines -/

/-- A machine with the digits of a receiver. -/
def Receiver.addDigits (x : Receiver) (machine : Machine) : Option ObjRef × Machine :=
  match x.digits with
  | some units => (machine.add (.chars units)).map some id
  | none => (none, machine)

/-- A fresh machine for the class with the given bytes, with the rounding modes and a receiver. -/
def Receiver.prepare (x : Receiver) (decimalAt : Int32) (bytes : Bytes) (limits : Limits) :
    Except Fault (ObjRef × Machine) := do
  let machine ← Machine.load bytes limits
  let (modes, machine) := machine.define RoundingMode.className (RoundingMode.all.map (·.name))
  let (digits, machine) := x.addDigits machine
  machine.addInstance [("digits", .ref digits), ("count", .int x.count),
    ("decimalAt", .int decimalAt), ("isNegative", .int x.isNegative),
    ("roundingMode", .ref modes[x.roundingMode.ordinal]?)]

/-- Adding a receiver's digits puts them on the heap and leaves the rest as it is. -/
theorem Receiver.holds_addDigits (x : Receiver) (machine : Machine) :
    x.Holds (x.addDigits machine).2.heap (x.addDigits machine).1 ∧
      machine.heap.objects.toList <+: (x.addDigits machine).2.heap.objects.toList ∧
      (x.addDigits machine).2.loaded = machine.loaded ∧
      (x.addDigits machine).2.limits = machine.limits := by
  unfold addDigits
  cases hdigits : x.digits with
  | none => exact ⟨.null hdigits, List.prefix_rfl, rfl, rfl⟩
  | some units =>
    refine ⟨.array hdigits ?_, Heap.prefix_alloc _ _, rfl, rfl⟩
    simp [Machine.add, Machine.heap, Machine.withHeap, Heap.get, Heap.alloc, Heap.size]

/-- **Every receiver can be prepared** for a class with the name and the fields of the specimens. -/
theorem Receiver.exists_prepare {c : ClassFile} {bytes : Bytes} (hc : ClassFile.parse bytes = .ok c)
    (hname : (LoadedClass.ofClass c).name = Bytecode.className)
    (hcells : (LoadedClass.ofClass c).cells = Specimen.cells) (x : Receiver) (decimalAt : Int32)
    (limits : Limits) : ∃ this machine, x.prepare decimalAt bytes limits = .ok (this, machine) ∧
      x.IsAt machine.heap this ∧ machine.loaded = .ofClass c ∧ machine.limits = limits := by
  have hload : Machine.load bytes limits = .ok (.ofClass c limits) := by
    rw [Machine.load, hc]
    rfl
  let defined := (Machine.ofClass c limits).withHeap modesHeap
  have hdefine : (Machine.ofClass c limits).define RoundingMode.className
      (RoundingMode.all.map (·.name)) = (RoundingMode.all.map modeRef, defined) := by
    rw [Machine.define, show (Machine.ofClass c limits).heap = {} from rfl, define_modes]
  -- The modes are defined in the order of their ordinals, so the ordinal finds its reference.
  have hmode : (RoundingMode.all.map modeRef)[x.roundingMode.ordinal]?
      = some (modeRef x.roundingMode) := by
    cases x.roundingMode <;> rfl
  obtain ⟨hholds, hkeeps, hloaded, hlimits⟩ := x.holds_addDigits defined
  have hprepare : x.prepare decimalAt bytes limits = .ok ((x.addDigits defined).2.add
      (.object Bytecode.className
        (instanceFields x decimalAt (x.addDigits defined).1 modeRef))) := by
    refine except_bind_eq_ok.mpr ⟨_, hload, ?_⟩
    rw [hdefine]
    dsimp only
    rw [hmode]
    exact addInstance_eq (by rw [hloaded]; exact hname) (by rw [hloaded]; exact hcells) x decimalAt
      (x.addDigits defined).1 modeRef
  exact ⟨_, _, hprepare, isAt_alloc (hasModes_modesHeap.of_extended hkeeps) hholds,
    hloaded, hlimits⟩

/-! ### The fixed build -/

variable {c : ClassFile} {machine : Machine} {this : ObjRef}

/-- The frame a call of the decision starts on, with room for the place of the scan. -/
theorem arguments_locals {p : Program} (h : p.maxLocals = 5) (this : ObjRef)
    (place rounded exact : Int32) :
    let locals := p.locals [.obj this, .int place, .int rounded, .int exact]
    Arguments locals this place rounded exact ∧ 4 < locals.length :=
  ⟨⟨rfl, rfl, rfl, rfl⟩, by simp [Program.locals, h]⟩

/-- **The fixed build on a receiver.** What a call leaves on the heap lies behind what was there. -/
theorem callVirtual_fixed (hc : Specimen.fixed.IsReadAs c) (hloaded : machine.loaded = .ofClass c)
    (hx : x.IsAt machine.heap this) (place rounded exact : Int32) :
    let called := machine.callVirtual this "shouldRoundUp" "(IZZ)Z"
      [.int place, .int rounded, .int exact]
    called.1 = (x.fixed place rounded exact).within machine.limits ∧
      called.2.loaded = machine.loaded ∧ called.2.limits = machine.limits ∧
      ((x.fixed place rounded exact).steps ≤ machine.limits.stepBudget →
        machine.heap.objects.toList <+: called.2.heap.objects.toList) := by
  obtain ⟨p, hp, hstatic, hlocals, hstands, hhalf⟩ := Specimen.exists_program_fixed hc
  let args : List Value := [.int place, .int rounded, .int exact]
  obtain ⟨hargs, hlength⟩ := arguments_locals hlocals this place rounded exact
  -- What is called is the code of the decision, on frames that hold the arguments.
  have hcomes : Comes machine.loaded machine.limits ⟨⟨p, p.locals (.obj this :: args), [], 0⟩, []⟩
      machine.heap (x.fixed place rounded exact) := by
    rw [hloaded]
    exact comes_fixed hc.isHost hx hstands hhalf hargs hlength
  exact callVirtual_of_comes (by rw [hloaded]; exact hp) hstatic
    (by rw [hlocals]; exact show 3 < 5 by decide) hcomes

end DigitList

end RoundingPatch
