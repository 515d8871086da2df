import RoundingPatch.Proofs.Machine.Confined
import RoundingPatch.SelfTest.Battery
/-!
# Oracles have no memory

A call leaves the rounding modes on the heap of an oracle as they were, whatever its bytecode does
and however it ends, and all else is dropped afterwards. Apart from its counters an oracle is
therefore the same after a question as before (`BytecodeOracle.ask_rested`), and what it answers
does not depend on what it was asked before (`BytecodeOracle.ask_asked`). Neither does what becomes
of a case (`BytecodeOracle.history_irrelevant`).
-/

namespace RoundingPatch

open ClassFile Machine

/-! ### Rounding modes on a heap -/

namespace DigitList

/-- The heap of a machine that has defined the rounding modes and nothing else. -/
def modesHeap : Heap :=
  ⟨(RoundingMode.all.map fun mode =>
    HeapObject.constant RoundingMode.className mode.name mode.ordinal).toArray⟩

/-- Where the modes are. -/
def modeRef (mode : RoundingMode) : ObjRef :=
  ⟨mode.ordinal⟩

/-- Loading a class into an empty heap puts the modes at its front, in order. -/
theorem define_modes : ({} : Heap).define RoundingMode.className (RoundingMode.all.map (·.name))
    = (RoundingMode.all.map modeRef, modesHeap) := by
  decide +kernel

/-- The modes are of the objects that outlast a call. -/
theorem isLasting_of_mem_modesHeap : ∀ o ∈ modesHeap.objects.toList, o.isLasting = true := by
  intro o ho
  rw [modesHeap, List.toList_toArray] at ho
  obtain ⟨mode, -, rfl⟩ := List.mem_map.mp ho
  rfl

end DigitList

open DigitList

/-! ### Machines -/

namespace Machine

/-- A machine that has counted nothing. -/
def rested (m : Machine) : Machine :=
  { m with store := { heap := m.heap } }

variable {m : Machine} {base : List HeapObject}

/-- Adding an instance does not look at what a machine only counts. -/
theorem rested_addInstance (m : Machine) (given : List (String × Value)) :
    m.rested.addInstance given = (m.addInstance given).map fun p => (p.1, p.2.rested) := by
  unfold addInstance
  show (m.loaded.instanceFields given >>= fun fields => pure (m.rested.add _)) = _
  cases m.loaded.instanceFields given <;> rfl

/-- **A call** depends on the objects of the machine alone, and keeps those at the front of the heap
that are never written to. -/
theorem callVirtual_rested (hbase : ∀ o ∈ base, o.isLasting = true)
    (hkeeps : base <+: m.heap.objects.toList) (this : ObjRef) (name descriptor : String)
    (args : List Value) :
    (m.callVirtual this name descriptor args).1
      = (m.rested.callVirtual this name descriptor args).1 ∧
      base <+: (m.callVirtual this name descriptor args).2.heap.objects.toList := by
  unfold Machine.callVirtual Machine.call
  dsimp only [rested]
  cases m.loaded.program name descriptor with
  | error f => exact ⟨rfl, hkeeps⟩
  | ok p =>
    dsimp only
    split
    · -- The call is confined to what it builds itself; only a lasting object could tell it of the
      -- calls before.
      obtain ⟨hanswer, -, hkept⟩ := execute_confined hbase m.loaded m.limits p (.obj this :: args)
        { m.store with steps := 0 } { heap := m.heap } rfl hkeeps
      exact ⟨hanswer, hkept⟩
    · exact ⟨rfl, hkeeps⟩

end Machine

/-! ### Questions -/

namespace BytecodeOracle

/-- An oracle that has counted nothing. -/
def rested (o : BytecodeOracle) : BytecodeOracle :=
  { o with machine := o.machine.rested }

/-- The oracle after some questions. -/
def asked (o : BytecodeOracle) (qs : List RoundingQuestion) : BytecodeOracle :=
  qs.foldl (fun o q => (o.ask q).2) o

/-- Only the rounding modes are on the heap. -/
def HoldsModes (o : BytecodeOracle) : Prop :=
  o.machine.heap = modesHeap

variable {o : BytecodeOracle}

/-- **A machine just loaded is at rest** and holds the modes alone. -/
theorem rested_ofBytes {bytes : Bytes} {limits : Limits} {method descriptor : String}
    (ho : ofBytes bytes limits method descriptor = .ok o) : o.rested = o ∧ o.HoldsModes := by
  have hdefine := define_modes
  unfold ofBytes Machine.load at ho
  cases hc : ClassFile.parse bytes with
  | error f =>
    rw [hc] at ho
    cases ho
  | ok c =>
    rw [hc] at ho
    cases ho
    exact ⟨rfl, congrArg Prod.snd hdefine⟩

/-- The receiver of a question, on a machine that has the rounding modes in front. -/
theorem receiver_rested (o : BytecodeOracle) (l : DigitList) :
    o.rested.receiver l = (o.receiver l).map fun p => (p.1, p.2.rested) :=
  rested_addInstance (o.machine.add _).2 _

/-- Building the receiver only adds to the heap. -/
theorem extends_receiver {l : DigitList} {this : ObjRef} {machine : Machine}
    (h : o.receiver l = .ok (this, machine)) :
    o.machine.heap.objects.toList <+: machine.heap.objects.toList := by
  unfold receiver Machine.addInstance at h
  obtain ⟨fields, -, hadd⟩ := except_bind_eq_ok.mp h
  cases hadd
  exact (Heap.prefix_alloc _ _).trans (Heap.prefix_alloc _ _)

/-- A call that answers a question. -/
theorem call_rested (ho : o.HoldsModes) (q : RoundingQuestion) :
    (o.call q).1 = (o.rested.call q).1 ∧
      modesHeap.objects.toList <+: (o.call q).2.heap.objects.toList := by
  have hmodes : modesHeap.objects.toList <+: o.machine.heap.objects.toList := by
    rw [HoldsModes] at ho
    exact ⟨[], by rw [ho, List.append_nil]⟩
  unfold call
  rw [receiver_rested]
  cases hreceiver : o.receiver q.list with
  | error f => exact ⟨rfl, hmodes⟩
  | ok p =>
    obtain ⟨this, machine⟩ := p
    exact Machine.callVirtual_rested isLasting_of_mem_modesHeap
      (hmodes.trans (extends_receiver hreceiver)) this _ _ _

/-- A call changes neither the loaded class nor the limits. -/
theorem kept_call (o : BytecodeOracle) (q : RoundingQuestion) :
    (o.call q).2.loaded = o.machine.loaded ∧ (o.call q).2.limits = o.machine.limits := by
  unfold call
  cases hreceiver : o.receiver q.list with
  | error f => exact ⟨rfl, rfl⟩
  | ok p =>
    obtain ⟨this, machine⟩ := p
    unfold receiver Machine.addInstance at hreceiver
    obtain ⟨fields, -, hadd⟩ := except_bind_eq_ok.mp hreceiver
    cases hadd
    exact ⟨rfl, rfl⟩

/-- What a call leaves behind is dropped. -/
theorem holdsModes_ask (ho : o.HoldsModes) (q : RoundingQuestion) : (o.ask q).2.HoldsModes := by
  obtain ⟨more, hmore⟩ := Heap.objects_of_extended (call_rested ho q).2
  show (o.call q).2.heap.truncate o.machine.heap.size = modesHeap
  rw [show o.machine.heap = modesHeap from ho, Heap.truncate, hmore]
  simp [Heap.size]

/-- **A question** is answered as if it was the first one, and leaves no trace but in the counters.
-/
theorem ask_rested (ho : o.HoldsModes) (q : RoundingQuestion) :
    (o.ask q).1 = (o.rested.ask q).1 ∧ (o.ask q).2.rested = o.rested := by
  refine ⟨congrArg (·.bind o.verdict) (call_rested ho q).1, ?_⟩
  obtain ⟨hloaded, hlimits⟩ := kept_call o q
  -- The heap is cut back to the modes, so nothing of the call stays in it.
  have hheap : (o.ask q).2.machine.heap = o.machine.heap :=
    (holdsModes_ask ho q).trans (Eq.symm ho)
  show ({ o with machine := ⟨(o.call q).2.loaded, (o.call q).2.limits,
    { heap := (o.ask q).2.machine.heap }⟩ } : BytecodeOracle) = o.rested
  rw [hloaded, hlimits, hheap]
  rfl

/-- Any number of questions leaves no trace but in the counters. -/
theorem rested_asked (ho : o.HoldsModes) (qs : List RoundingQuestion) :
    (o.asked qs).rested = o.rested := by
  induction qs generalizing o with
  | nil => rfl
  | cons q qs ih => exact (ih (holdsModes_ask ho q)).trans (ask_rested ho q).2

/-- Whether a machine holds the modes is seen on the machine at rest. -/
theorem HoldsModes.of_rested {o' : BytecodeOracle} (h : o.rested.HoldsModes)
    (heq : o'.rested = o.rested) : o'.HoldsModes := by
  have hheap : o'.rested.machine.heap = o.rested.machine.heap := by rw [heq]
  exact hheap.trans h

/-! ### Computations that ask -/

variable {α β : Type}

/-- What a computation answers if it has an oracle for itself. -/
def alone (o : BytecodeOracle) (x : StateM Oracle α) : α :=
  (x.run (.bytecode o)).1

/-- Whatever an oracle was asked before, a computation answers as if it had the oracle for itself,
and leaves no trace but in the counters. -/
def Steady (o : BytecodeOracle) (x : StateM Oracle α) : Prop :=
  ∀ o' : BytecodeOracle, o'.rested = o → (x.run (.bytecode o')).1 = o.alone x ∧
    ∃ o'' : BytecodeOracle, (x.run (.bytecode o')).2 = .bytecode o'' ∧ o''.rested = o

/-- A computation that asks nothing is steady. -/
theorem steady_pure (a : α) : o.Steady (pure a) :=
  fun o' ho' => ⟨rfl, o', rfl, ho'⟩

section Rested

variable (hrested : o.rested = o)
include hrested

/-- What a sequence gives alone is what its second part gives alone on the first's answer. -/
theorem Steady.alone_bind {x : StateM Oracle α} {f : α → StateM Oracle β} (hx : o.Steady x)
    (hf : o.Steady (f (o.alone x))) : o.alone (x >>= f) = o.alone (f (o.alone x)) := by
  obtain ⟨-, o', hleft, ho'⟩ := hx o hrested
  have hrun : o.alone (x >>= f) = ((f (o.alone x)).run (x.run (.bytecode o)).2).1 := rfl
  rw [hrun, hleft]
  exact (hf o' ho').1

/-- A sequence of steady computations is steady. -/
theorem Steady.bind {x : StateM Oracle α} {f : α → StateM Oracle β} (hx : o.Steady x)
    (hf : ∀ a, o.Steady (f a)) : o.Steady (x >>= f) := by
  intro o' ho'
  obtain ⟨hanswer, o₁, hleft, ho₁⟩ := hx o' ho'
  have hrun : (x >>= f).run (.bytecode o') = (f (o.alone x)).run (.bytecode o₁) := by
    show (f (x.run (.bytecode o')).1).run (x.run (.bytecode o')).2 = _
    rw [hanswer, hleft]
  rw [hrun, hx.alone_bind hrested (hf _)]
  exact hf _ o₁ ho₁

/-- A steady computation is steady over a whole list. -/
theorem steady_mapM {f : α → StateM Oracle β} {as : List α} (hf : ∀ a, o.Steady (f a)) :
    o.Steady (as.mapM f) := by
  induction as with
  | nil => exact steady_pure _
  | cons a as ih =>
    rw [List.mapM_cons]
    exact (hf a).bind hrested fun _ => ih.bind hrested fun _ => steady_pure _

/-- Over a list, a steady computation gives at each place what it gives alone. -/
theorem alone_mapM {f : α → StateM Oracle β} {as : List α} (hf : ∀ a, o.Steady (f a)) :
    o.alone (as.mapM f) = as.map fun a => o.alone (f a) := by
  -- The machine is at rest again behind each element, so the rest of the list does not notice it.
  induction as with
  | nil => rfl
  | cons a as ih =>
    have hrest : o.Steady (as.mapM f) := steady_mapM hrested hf
    have htail : o.alone (as.mapM f >>= fun bs => pure (o.alone (f a) :: bs))
        = o.alone (f a) :: o.alone (as.mapM f) := hrest.alone_bind hrested (steady_pure _)
    rw [List.mapM_cons,
      (hf a).alone_bind hrested (hrest.bind hrested fun _ => steady_pure _), htail, ih,
      List.map_cons]

/-- Computations that may fail. -/
theorem Steady.andThen {x : Asking α} {f : α → Asking β} (hx : o.Steady x.run)
    (hf : ∀ a, o.Steady (f a).run) : o.Steady (x >>= f).run := by
  show o.Steady (x.run >>= ExceptT.bindCont f)
  refine Steady.bind hrested hx fun answer => ?_
  cases answer with
  | ok a => exact hf a
  | error fault => exact steady_pure _

variable (hmodes : o.HoldsModes)
include hmodes

/-- **Asking is steady**: the answer is the same, and so is the machine at rest behind it. -/
theorem steady_ask (q : RoundingQuestion) : o.Steady (Oracle.ask q).run := by
  intro o' ho'
  have ho : o'.HoldsModes := .of_rested (o := o) (hrested.symm ▸ hmodes) (ho'.trans hrested.symm)
  obtain ⟨hanswer, hleft⟩ := ask_rested ho q
  rw [ho'] at hanswer hleft
  exact ⟨hanswer, (o'.ask q).2, rfl, hleft⟩

/-- Formatting is steady, for all it does with the oracle is to ask. -/
theorem steady_format (format : NumberFormat) (v : Binary64) :
    o.Steady (format.format Oracle.ask v).run := by
  unfold NumberFormat.format
  dsimp only
  split
  · exact steady_pure _
  · exact steady_pure _
  · refine Steady.andThen hrested ?_ fun _ => steady_pure _
    unfold Rounding.resolve
    split
    · exact steady_pure _
    · rw [← bind_pure_comp]
      exact (steady_ask hrested hmodes _).andThen hrested fun _ => steady_pure _

/-- Rendering a number is steady. -/
theorem steady_render (format : NumberFormat) (v : Binary64) :
    o.Steady (Battery.render format v) := by
  refine (steady_format hrested hmodes format v).bind hrested fun answer => ?_
  cases answer <;> exact steady_pure _

/-- Running a case of a battery is steady. -/
theorem steady_runCase (format : NumberFormat) (showExact : Bool) (c : Case) :
    o.Steady (Battery.runCase format showExact c) := by
  have hexpect : o.Steady (Battery.expect c.expected) := by
    cases c.expected with
    | literal text => exact steady_pure _
    | control format input => exact steady_render hrested hmodes format input
  exact hexpect.bind hrested fun _ =>
    (steady_render hrested hmodes _ _).bind hrested fun _ => steady_pure _

/-- Running a group of cases is steady. -/
theorem steady_runGroup (runtime : JavaRuntime) (printActuals : Bool) (g : CaseGroup) :
    o.Steady (Battery.runGroup runtime printActuals g) :=
  (steady_mapM hrested fun _ => steady_runCase hrested hmodes _ _ _).bind hrested
    fun _ => steady_pure _

/-- The report of a group that has the oracle for itself. -/
theorem alone_runGroup (runtime : JavaRuntime) (printActuals : Bool) (g : CaseGroup) :
    o.alone (Battery.runGroup runtime printActuals g) =
      { title := g.title
        results := g.cases.map fun c =>
          o.alone (Battery.runCase g.format (printActuals || g.printActuals) c)
        lenient := g.lenientBeforeJava8 && !runtime.isJava8OrNewer } := by
  have hcases : ∀ c, o.Steady (Battery.runCase g.format (printActuals || g.printActuals) c) :=
    fun c => steady_runCase hrested hmodes _ _ c
  rw [← alone_mapM hrested hcases]
  exact (steady_mapM hrested hcases).alone_bind hrested (steady_pure _)

/-- **Every case of a battery** comes out as if it was the only one. -/
theorem run_battery {o' : BytecodeOracle} (ho' : o'.rested = o) (runtime : JavaRuntime)
    (printActuals : Bool) (groups : List CaseGroup) :
    ((Battery.run runtime printActuals groups).run (.bytecode o')).1.groups =
      groups.map fun g => {
        title := g.title
        results := g.cases.map fun c =>
          o.alone (Battery.runCase g.format (printActuals || g.printActuals) c)
        lenient := g.lenientBeforeJava8 && !runtime.isJava8OrNewer } := by
  have hgroups : ∀ g, o.Steady (Battery.runGroup runtime printActuals g) :=
    fun g => steady_runGroup hrested hmodes runtime printActuals g
  have hrun : o.Steady (Battery.run runtime printActuals groups) :=
    (steady_mapM hrested hgroups).bind hrested fun _ => steady_pure _
  have halone : o.alone (Battery.run runtime printActuals groups)
      = ⟨o.alone (groups.mapM (Battery.runGroup runtime printActuals))⟩ :=
    (steady_mapM hrested hgroups).alone_bind hrested (steady_pure _)
  -- The whole battery is steady: run behind any questions it gives what it gives alone.
  rw [(hrun o' ho').1, halone, alone_mapM hrested hgroups]
  exact List.map_congr_left fun g _ => alone_runGroup hrested hmodes runtime printActuals g

end Rested

/-- **Oracles have no memory.** After any questions, whatever became of them, the heap of an oracle
holds the rounding modes and nothing else, every question is answered as a new oracle answers it,
and every case of a battery comes out as if a new oracle was there for it alone. -/
theorem history_irrelevant {bytes : Bytes} {limits : Limits} {method descriptor : String}
    (ho : ofBytes bytes limits method descriptor = .ok o) (qs : List RoundingQuestion) :
    (o.asked qs).machine.heap = modesHeap ∧
      (∀ q, ((o.asked qs).ask q).1 = (o.ask q).1) ∧
      ∀ runtime printActuals groups,
        ((Battery.run runtime printActuals groups).run (.bytecode (o.asked qs))).1.groups =
          groups.map fun g => {
            title := g.title
            results := g.cases.map fun c => ((Battery.runCase g.format
              (printActuals || g.printActuals) c).run (.bytecode o)).1
            lenient := g.lenientBeforeJava8 && !runtime.isJava8OrNewer } := by
  obtain ⟨hrested, hmodes⟩ := rested_ofBytes ho
  have hasked : (o.asked qs).rested = o := (rested_asked hmodes qs).trans hrested
  -- The questions leave the machine at rest the one that was loaded.
  have hheld : (o.asked qs).HoldsModes :=
    .of_rested (o := o) (hrested.symm ▸ hmodes) (hasked.trans hrested.symm)
  refine ⟨hheld, fun q => ?_, run_battery hrested hmodes hasked⟩
  rw [(ask_rested hheld q).1, hasked]

/-- A class `T` whose method `f` adds the place to the count of its receiver, makes another instance
and answers with the new count. -/
def countingClass : Bytes := [
  202, 254, 186, 190, 0, 0, 0, 52, 0, 10, 1, 0, 1, 84, 7, 0, 1, 1, 0, 5, 99, 111, 117, 110, 116, 1,
  0, 1, 73, 1, 0, 1, 102, 1, 0, 6, 40, 73, 90, 90, 41, 90, 1, 0, 4, 67, 111, 100, 101, 12, 0, 3, 0,
  4, 9, 0, 2, 0, 8, 0, 33, 0, 2, 0, 0, 0, 0, 0, 1, 0, 0, 0, 3, 0, 4, 0, 0, 0, 1, 0, 1, 0, 5, 0, 6,
  0, 1, 0, 7, 0, 0, 0, 30, 0, 3, 0, 4, 0, 0, 0, 18, 42, 89, 180, 0, 9, 27, 96, 181, 0, 9, 187, 0, 2,
  42, 180, 0, 9, 172, 0, 0, 0, 0, 0, 0]

theorem history_irrelevant_counting :
    let question (place : Int32) : RoundingQuestion :=
      ⟨{ digits := [53], count := 1, roundingMode := .halfUp }, place, false, true⟩
    ∃ o, ofBytes countingClass {} "f" = .ok o ∧
      ((o.asked [question 5, question 0]).ask (question (-1))).1 = .ok false := by
  intro question
  have hanswer : (ofBytes countingClass {} "f").toOption.map
      (fun o => (o.ask (question (-1))).1.toOption) = some (some false) := by
    decide +kernel
  cases ho : ofBytes countingClass {} "f" with
  | error f =>
    rw [ho] at hanswer
    cases hanswer
  | ok o =>
    refine ⟨o, rfl, ?_⟩
    rw [(history_irrelevant ho [question 5, question 0]).2.1 (question (-1))]
    rw [ho] at hanswer
    have hanswer : (o.ask (question (-1))).1.toOption = some false := Option.some.inj hanswer
    cases hask : (o.ask (question (-1))).1 with
    | error f =>
      rw [hask] at hanswer
      cases hanswer
    | ok b =>
      rw [hask] at hanswer
      cases hanswer
      rfl

end BytecodeOracle

end RoundingPatch
