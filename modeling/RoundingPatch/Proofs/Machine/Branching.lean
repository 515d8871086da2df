import RoundingPatch.Machine.Basic
import RoundingPatch.Proofs.Machine.Obeying
import RoundingPatch.Proofs.Machine.Operations
/-!
# Branches that lead somewhere

A program resolves if all its labels have positions and its table switches have as many targets as
their ranges say (`Program.Resolves`). An operation of such a program goes on in it, calls nothing
but programs that resolve, and fails for no branch (`obeys_perform`). So does a step of a call
stack (`obeys_advance`), and therefore every run (`isOther_run`): `fault.IsOther` says that a
fault is not that of a branch which leads nowhere.
-/

namespace RoundingPatch

open ClassFile

/-- A fault other than that of a branch that leads nowhere. -/
def Fault.IsOther : Fault → Prop
  | .malformed (.unboundBranch _ _ _) | .malformed .missingSwitchTarget => False
  | _ => True

/-- A fault of the bytes is none of running off the program. -/
theorem Fault.IsOfBytes.isOther {fault : Fault} (h : fault.IsOfBytes) : fault.IsOther := by
  unfold Fault.IsOther
  split
  · exact h
  · exact h
  · trivial

namespace Machine

/-! ### Heap -/

section Heap

variable (h : Heap) (r : ObjRef)

theorem isOther_get : FailsAs Fault.IsOther (h.get r) := by
  unfold Heap.get
  split
  · exact failsAs_ok _
  · exact failsAs_error trivial

theorem isOther_field (name : String) : FailsAs Fault.IsOther (h.field r name) :=
  (isOther_get h r).bind fun o _ => by
    cases o <;> first | exact failsAs_ok _ | exact failsAs_error trivial

theorem isOther_setField (name : String) (v : Value) :
    FailsAs Fault.IsOther (h.setField r name v) :=
  (isOther_get h r).bind fun o _ => by
    cases o <;> first | exact failsAs_ok _ | exact failsAs_error trivial

theorem isOther_length : FailsAs Fault.IsOther (h.length r) :=
  (isOther_get h r).bind fun o _ => by
    cases o <;> first | exact failsAs_ok _ | exact failsAs_error trivial

theorem isOther_elementIndex (index : Int32) : FailsAs Fault.IsOther (Heap.elementIndex index) := by
  unfold Heap.elementIndex
  split
  · exact failsAs_error trivial
  · exact failsAs_ok _

/-- Reading an array fails as other faults do. -/
theorem isOther_element (index : Int32) : FailsAs Fault.IsOther (h.element r index) := by
  refine (isOther_elementIndex index).bind fun i _ => (isOther_get h r).bind fun o _ => ?_
  split
  · split
    · exact failsAs_ok _
    · exact failsAs_error trivial
  · split
    · exact failsAs_ok _
    · exact failsAs_error trivial
  · exact failsAs_error trivial

/-- Writing an array fails as other faults do. -/
theorem isOther_setElement (index v : Int32) :
    FailsAs Fault.IsOther (h.setElement r index v) := by
  refine (isOther_elementIndex index).bind fun i _ => (isOther_get h r).bind fun o _ => ?_
  split
  · split
    · exact failsAs_ok _
    · exact failsAs_error trivial
  · split
    · exact failsAs_ok _
    · exact failsAs_error trivial
  · exact failsAs_error trivial

end Heap

/-! ### Answers that have nothing to do with branches -/

theorem isOther_asInt (v : Value) : FailsAs Fault.IsOther v.asInt := by
  cases v <;> first | exact failsAs_ok _ | exact failsAs_error trivial

theorem isOther_asRef (v : Value) : FailsAs Fault.IsOther v.asRef := by
  cases v <;> first | exact failsAs_ok _ | exact failsAs_error trivial

theorem isOther_asObj (what : String) (v : Value) : FailsAs Fault.IsOther (v.asObj what) :=
  (isOther_asRef v).bind fun r _ => by
    cases r <;> first | exact failsAs_ok _ | exact failsAs_error trivial

/-- Arithmetic fails on a zero divisor alone. -/
theorem isOther_eval (op : Arith) (v w : Int32) : FailsAs Fault.IsOther (op.eval v w) := by
  cases op with
  | div | rem =>
    unfold Arith.eval
    dsimp only
    split
    · exact failsAs_error trivial
    · exact failsAs_ok _
  | _ => exact failsAs_ok _

/-- A descriptor that does not parse is an other fault. -/
theorem isOther_parse (descriptor : String) :
    FailsAs Fault.IsOther (MethodDescriptor.parse descriptor) := by
  unfold MethodDescriptor.parse
  split
  · split
    · exact failsAs_error trivial
    · exact failsAs_ok _
    · split
      · exact failsAs_ok _
      · exact failsAs_error trivial
  · exact failsAs_error trivial

/-- Making an array fails for its length or its element. -/
theorem isOther_newArray (element length : Int32) :
    FailsAs Fault.IsOther (newArray element length) := by
  unfold newArray
  split
  · exact failsAs_error trivial
  dsimp only
  split
  · exact failsAs_ok _
  split
  · exact failsAs_ok _
  · exact failsAs_error trivial

theorem isOther_staticField (owner name descriptor : String) (h : Heap) :
    FailsAs Fault.IsOther (staticField owner name descriptor h) := by
  unfold staticField
  split
  · split
    · exact failsAs_ok _
    · exact failsAs_error trivial
  · exact failsAs_error trivial

/-- An exception nobody catches is an other fault. -/
theorem isOther_uncaught (h : Heap) (thrown : ObjRef) : (uncaught h thrown).IsOther := by
  unfold uncaught
  split <;> trivial

/-- An instruction the machine does not know is an other fault. -/
theorem isOther_ofInsn (i : Insn) : FailsAs Fault.IsOther (Operation.ofInsn i) := by
  unfold Operation.ofInsn
  split
  · unfold Operation.ofConstant
    split
    · exact failsAs_ok _
    · exact failsAs_ok _
    · exact failsAs_error trivial
  · split
    · exact failsAs_ok _
    · exact failsAs_error trivial

/-! ### Activations -/

section Activations

variable {p : Program} {a : Activation} (ha : a.program = p)
include ha

theorem grants_push (v : Value) :
    Grants (fun b : Activation => b.program = p) Fault.IsOther (a.push v) := by
  unfold Activation.push
  dsimp only
  split
  · exact grants_error trivial
  · exact grants_ok ha

theorem grants_pop :
    Grants (fun b : Value × Activation => b.2.program = p) Fault.IsOther a.pop := by
  unfold Activation.pop
  split
  · exact grants_ok ha
  · exact grants_error trivial

theorem grants_popInt :
    Grants (fun b : Int32 × Activation => b.2.program = p) Fault.IsOther a.popInt :=
  (grants_pop ha).bind fun b hb => (grants_of_failsAs (isOther_asInt b.1)).bind fun _ _ =>
    grants_ok hb

theorem grants_popRef :
    Grants (fun b : Option ObjRef × Activation => b.2.program = p) Fault.IsOther a.popRef :=
  (grants_pop ha).bind fun b hb => (grants_of_failsAs (isOther_asRef b.1)).bind fun _ _ =>
    grants_ok hb

theorem grants_popObj (what : String) :
    Grants (fun b : ObjRef × Activation => b.2.program = p) Fault.IsOther (a.popObj what) :=
  (grants_pop ha).bind fun b hb => (grants_of_failsAs (isOther_asObj what b.1)).bind fun _ _ =>
    grants_ok hb

/-- Taking the arguments off leaves the frame in its program. -/
theorem grants_popMany (n : Nat) (taken : List Value) :
    Grants (fun b : List Value × Activation => b.2.program = p) Fault.IsOther
      (a.popMany n taken) := by
  induction n generalizing a taken with
  | zero => exact grants_ok ha
  | succ n ih => exact (grants_pop ha).bind fun b hb => ih hb (b.1 :: taken)

omit ha in
theorem isOther_peek (a : Activation) : FailsAs Fault.IsOther a.peek := by
  unfold Activation.peek
  split
  · exact failsAs_ok _
  · exact failsAs_error trivial

omit ha in
theorem isOther_load (a : Activation) (index : UInt16) : FailsAs Fault.IsOther (a.load index) := by
  unfold Activation.load
  split
  · exact failsAs_ok _
  · exact failsAs_error trivial

theorem grants_store (index : UInt16) (v : Value) :
    Grants (fun b : Activation => b.program = p) Fault.IsOther (a.store index v) := by
  unfold Activation.store
  split
  · exact grants_ok ha
  · exact grants_error trivial

/-- **A condition** takes its operands off and leaves the frame in its program. -/
theorem grants_test (condition : Condition) :
    Grants (fun b : Bool × Activation => b.2.program = p) Fault.IsOther (a.test condition) := by
  cases condition with
  | always => exact grants_ok ha
  | withZero c => exact (grants_popInt ha).bind fun b hb => grants_ok hb
  | words c =>
    exact (grants_popInt ha).bind fun _ hb => (grants_popInt hb).bind fun _ hb => grants_ok hb
  | sameObject expected =>
    exact (grants_popRef ha).bind fun _ hb => (grants_popRef hb).bind fun _ hb => grants_ok hb
  | isNull expected => exact (grants_popRef ha).bind fun _ hb => grants_ok hb

/-- Receiving a result leaves the frame in its program. -/
theorem grants_receive (site : CallSite) (result : Option Value) :
    Grants (fun b : Activation => b.program = p) Fault.IsOther (a.receive site result) := by
  unfold Activation.receive
  split
  · exact grants_push ha _
  · exact grants_ok ha
  · exact grants_error trivial

/-- A jump to a label with a position. -/
theorem grants_jump {l : Label} (hl : ∃ n, p.target l = .ok n) :
    Grants (fun b : Activation => b.program = p) Fault.IsOther (a.jump l) := by
  obtain ⟨n, hn⟩ := hl
  have hjump : a.jump l = .ok { a with next := n } :=
    except_bind_eq_ok.mpr ⟨n, by rw [ha, hn], rfl⟩
  rw [hjump]
  exact grants_ok ha

end Activations

/-! ### Programs whose branches lead somewhere -/

/-- The labels of an operation have positions in a program, and a table switch has as many targets
as its range has words. -/
structure Operation.Resolves (p : Program) (op : Operation) : Prop where
  targets : ∀ l ∈ op.targets, ∃ n, p.target l = .ok n
  table : ∀ low high default targets, op = .tableSwitch low high default targets →
    high.toInt - low.toInt + 1 = targets.length

/-- The labels of all instructions of a program have positions, and the targets of table switches
are as many as their ranges say. -/
def Program.Resolves (p : Program) : Prop :=
  ∀ (k : Nat) (i : Insn), p.insns[k]? = some i →
    i.Encodable ∧ ∀ l ∈ i.targets, ∃ n, p.target l = .ok n

/-- All methods of a loaded class resolve. -/
def LoadedClass.Resolves (c : LoadedClass) : Prop :=
  ∀ name descriptor, Grants Program.Resolves Fault.IsOther (c.program name descriptor)

theorem Operation.eq_of_tableSwitch {i : Insn} {low high : Int32} {default : Label}
    {targets : List Label} (h : ofInsn i = .ok (.tableSwitch low high default targets)) :
    i = .tableSwitch low high default targets := by
  have htargets := targets_of_ofInsn h
  cases i with
  | jump opcode target =>
    -- A jump is a branch or nothing at all.
    exfalso
    unfold ofInsn at h
    dsimp only at h
    split at h
    · next hop =>
      obtain ⟨condition, -, heq⟩ := Option.map_eq_some_iff.mp hop
      cases heq
      cases h
    · cases h
  | tableSwitch low' high' default' targets' =>
    cases h
    rfl
  | lookupSwitch default pairs => cases h
  -- The operations of all other instructions have no targets.
  | _ => cases htargets

/-- The operations of a program that resolves go to targets of the program. -/
theorem Program.Resolves.operation {p : Program} (hp : p.Resolves) {k : Nat} {i : Insn}
    {op : Operation} (hi : p.insns[k]? = some i) (hop : Operation.ofInsn i = .ok op) :
    op.Resolves p := by
  obtain ⟨hencodable, htargets⟩ := hp k i hi
  refine ⟨fun l hl => htargets l (Operation.targets_of_ofInsn hop ▸ hl), ?_⟩
  rintro low high default targets rfl
  rw [Operation.eq_of_tableSwitch hop] at hencodable
  exact hencodable

/-- An index inside the range of a table switch is that of a target. -/
theorem toNat_sub_lt {low high index : Int32} {count : Nat} (hlow : low ≤ index)
    (hhigh : index ≤ high) (hcount : high.toInt - low.toInt + 1 = count) :
    (index - low).toUInt32.toNat < count := by
  have hword (w : Int32) : w.toInt = if 2 * w.toUInt32.toNat < 4294967296
      then (w.toUInt32.toNat : Int) else w.toUInt32.toNat - 4294967296 :=
    BitVec.toInt_eq_toNat_cond w.toBitVec
  rw [Int32.le_iff_toInt_le] at hlow hhigh
  rw [Int32.toUInt32_sub, UInt32.toNat_sub]
  have := hword low
  have := hword index
  have := low.toUInt32.toNat_lt
  have := index.toUInt32.toNat_lt
  omega

/-- **A table switch** goes to the default or to one of its targets, never outside the table. -/
theorem grants_tableTarget {low high : Int32} {default : Label} {targets : List Label}
    (hcount : high.toInt - low.toInt + 1 = targets.length) (index : Int32) :
    Grants (· ∈ default :: targets) Fault.IsOther (tableTarget low high default targets index) := by
  unfold tableTarget
  split
  · next hrange =>
    have hlt := toNat_sub_lt hrange.1 hrange.2 hcount
    -- The table has a target for each value from low to high.
    rw [List.getElem?_eq_getElem hlt]
    exact grants_ok (List.mem_cons_of_mem _ (List.getElem_mem hlt))
  · exact grants_ok (List.mem_cons_self ..)

/-- A lookup switch goes to the default or to one of its targets. -/
theorem mem_lookupTarget (default : Label) (pairs : List (Int32 × Label)) (key : Int32) :
    lookupTarget default pairs key ∈ default :: pairs.map (·.2) := by
  unfold lookupTarget
  cases hlookup : pairs.lookup key with
  | none => exact List.mem_cons_self ..
  | some l =>
    obtain ⟨front, back, rfl, -⟩ := List.lookup_eq_some_iff.mp hlookup
    simp

/-! ### Operations -/

/-- What comes after an operation of a program: it goes on in the same program, and a callee
resolves. -/
def Flow.Within (p : Program) : Flow → Prop
  | .next a => a.program = p
  | .call a _ callee _ => a.program = p ∧ callee.Resolves
  | .finished _ => True

section Operations

variable {c : LoadedClass} {p : Program} {a : Activation} {ι : Type}

/-- An operation ends with an activation. -/
theorem obeys_next {x : Except Fault Activation}
    (h : Grants (fun b : Activation => b.program = p) Fault.IsOther x) :
    Obeys (Flow.Within p) Fault.IsOther (liftM x >>= fun b => pure (.next b)) :=
  h.andThen fun _ hb => obeys_pure hb

/-- What goes on with a value about which nothing is said. -/
theorem andThen_of_failsAs {x : Except Fault ι} {f : ι → Exec Flow}
    (h : FailsAs Fault.IsOther x) (hf : ∀ v, Obeys (Flow.Within p) Fault.IsOther (f v)) :
    Obeys (Flow.Within p) Fault.IsOther (liftM x >>= f) :=
  (grants_of_failsAs h).andThen fun v _ => hf v

/-- Finding out whether a call is the loaded class's own fails as other faults do. -/
theorem obeys_dispatchesHere (kind : CallKind) (owner name descriptor : String)
    (receiver : ObjRef) : Obeys (fun _ => True) Fault.IsOther
      (dispatchesHere c kind owner name descriptor receiver) := by
  unfold dispatchesHere
  split
  · exact obeys_pure trivial
  · split
    · exact obeys_pure trivial
    · exact (obeys_reading fun h => grants_of_failsAs (isOther_get h receiver)).bind fun _ _ =>
        obeys_pure trivial

theorem obeys_intrinsic (site : CallSite) (receiver : ObjRef) (args : List Value) :
    Obeys (fun _ => True) Fault.IsOther (intrinsic site receiver args) := by
  unfold intrinsic
  refine obeys_countIntrinsic.bind fun _ _ => ?_
  split
  · split
    · split
      · -- Only the constructor of an exception with a message writes to the heap.
        exact (obeys_changing fun h => isOther_setField h receiver _ _).bind fun _ _ =>
          obeys_pure trivial
      · exact obeys_pure trivial
    · exact obeys_pure trivial
  · refine (obeys_reading fun h => grants_of_failsAs (isOther_get h receiver)).bind fun o _ => ?_
    split
    · split
      · exact obeys_pure trivial
      · exact (obeys_alloc _).bind fun _ _ => obeys_pure trivial
      · exact (obeys_alloc _).bind fun _ _ => obeys_pure trivial
      · exact obeys_throw trivial
    · exact obeys_throw trivial

/-- **A call** leaves its own frame in its program and finds a callee that resolves. -/
theorem obeys_invoke (hc : c.Resolves) (ha : a.program = p) (kind : CallKind)
    (owner name descriptor : String) :
    Obeys (Flow.Within p) Fault.IsOther (invoke c a kind owner name descriptor) := by
  unfold invoke
  refine andThen_of_failsAs (isOther_parse descriptor) fun d => ?_
  cases kind with
  | static =>
    exact .check trivial <| (grants_popMany ha _ _).andThen fun b hb => .check trivial <|
      (hc name descriptor).andThen fun _ hcallee => obeys_pure ⟨hb, hcallee⟩
  | virtual | special =>
    refine .check trivial <| (grants_popMany ha _ _).andThen fun b hb =>
      (grants_popObj hb name).andThen fun b hb => ?_
    refine (obeys_dispatchesHere _ _ _ _ _).bind fun here _ => ?_
    cases here with
    | true => exact (hc name descriptor).andThen fun _ hcallee => obeys_pure ⟨hb, hcallee⟩
    | false => exact (obeys_intrinsic _ _ _).bind fun _ _ => obeys_next (grants_receive hb _ _)

/-- **An operation** goes on in its program, and what it fails with is no branch that leads
nowhere. -/
theorem obeys_perform (hc : c.Resolves) (ha : a.program = p) {op : Operation}
    (hop : op.Resolves p) : Obeys (Flow.Within p) Fault.IsOther (perform c a op) := by
  -- Only jumps and switches depend on `hop`, and only calls on `hc`: the other operations look up
  -- no label.
  cases op with
  | nothing => exact obeys_pure ha
  | returnNothing => exact obeys_pure trivial
  | push v => exact obeys_next (grants_push ha v)
  | pushText s => exact (obeys_alloc _).bind fun _ _ => obeys_next (grants_push ha _)
  | newObject className => exact (obeys_alloc _).bind fun _ _ => obeys_next (grants_push ha _)
  | loadInt index =>
    exact andThen_of_failsAs (isOther_load a index) fun v =>
      andThen_of_failsAs (isOther_asInt v) fun _ => obeys_next (grants_push ha _)
  | loadRef index =>
    exact andThen_of_failsAs (isOther_load a index) fun v =>
      andThen_of_failsAs (isOther_asRef v) fun _ => obeys_next (grants_push ha _)
  | storeInt index =>
    exact (grants_popInt ha).andThen fun _ hb => obeys_next (grants_store hb index _)
  | storeRef index =>
    exact (grants_popRef ha).andThen fun _ hb => obeys_next (grants_store hb index _)
  | increment index delta =>
    exact andThen_of_failsAs (isOther_load a index) fun v =>
      andThen_of_failsAs (isOther_asInt v) fun _ => obeys_next (grants_store ha index _)
  | pop => exact (grants_pop ha).andThen fun _ hb => obeys_pure hb
  | dup => exact andThen_of_failsAs (isOther_peek a) fun _ => obeys_next (grants_push ha _)
  | dupUnder =>
    exact (grants_pop ha).andThen fun _ hb => (grants_pop hb).andThen fun _ hb =>
      (grants_push hb _).andThen fun _ hb => (grants_push hb _).andThen fun _ hb =>
        obeys_next (grants_push hb _)
  | swap =>
    exact (grants_pop ha).andThen fun _ hb => (grants_pop hb).andThen fun _ hb =>
      (grants_push hb _).andThen fun _ hb => obeys_next (grants_push hb _)
  | arith op =>
    exact (grants_popInt ha).andThen fun _ hb => (grants_popInt hb).andThen fun _ hb =>
      andThen_of_failsAs (isOther_eval op _ _) fun _ => obeys_next (grants_push hb _)
  | negate | toChar => exact (grants_popInt ha).andThen fun _ hb => obeys_next (grants_push hb _)
  | branch condition target =>
    refine (grants_test ha condition).andThen fun ⟨taken, b⟩ hb => ?_
    cases taken with
    | true => exact obeys_next (grants_jump hb (hop.targets target List.mem_cons_self))
    | false => exact obeys_pure hb
  | tableSwitch low high default targets =>
    exact (grants_popInt ha).andThen fun b hb =>
      (grants_tableTarget (hop.table low high default targets rfl) b.1).andThen fun l hl =>
        obeys_next (grants_jump hb (hop.targets l hl))
  | lookupSwitch default pairs =>
    exact (grants_popInt ha).andThen fun b hb =>
      obeys_next (grants_jump hb (hop.targets _ (mem_lookupTarget default pairs b.1)))
  | newArray element =>
    exact (grants_popInt ha).andThen fun _ hb =>
      andThen_of_failsAs (isOther_newArray element _) fun o => (obeys_alloc o).bind fun _ _ =>
        obeys_next (grants_push hb _)
  | arrayLoad op =>
    exact (grants_popInt ha).andThen fun _ hb => (grants_popObj hb _).andThen fun _ hb =>
      (obeys_reading fun h => grants_of_failsAs (isOther_element h _ _)).bind fun _ _ =>
        obeys_next (grants_push hb _)
  | arrayStore op =>
    exact (grants_popInt ha).andThen fun _ hb => (grants_popInt hb).andThen fun _ hb =>
      (grants_popObj hb _).andThen fun _ hb =>
        (obeys_changing fun h => isOther_setElement h _ _ _).bind fun _ _ => obeys_pure hb
  | arrayLength =>
    exact (grants_popObj ha _).andThen fun _ hb =>
      (obeys_reading fun h => grants_of_failsAs (isOther_length h _)).bind fun _ _ =>
        obeys_next (grants_push hb _)
  | checkCast =>
    exact andThen_of_failsAs (isOther_peek a) fun v =>
      andThen_of_failsAs (isOther_asRef v) fun _ => obeys_pure ha
  | instanceOf className =>
    refine (grants_popRef ha).andThen fun ⟨r, b⟩ hb => ?_
    cases r with
    | none => exact obeys_next (grants_push hb _)
    | some r =>
      exact (obeys_reading fun h => grants_of_failsAs (isOther_get h r)).bind fun _ _ =>
        obeys_next (grants_push hb _)
  | getField name descriptor =>
    exact (grants_popObj ha _).andThen fun _ hb =>
      (obeys_reading fun h => grants_of_failsAs (isOther_field h _ name)).bind fun _ _ =>
        obeys_next (grants_push hb _)
  | putField name =>
    exact (grants_pop ha).andThen fun _ hb => (grants_popObj hb _).andThen fun _ hb =>
      (obeys_changing fun h => isOther_setField h _ name _).bind fun _ _ => obeys_pure hb
  | getStatic owner name descriptor =>
    exact (obeys_reading fun h =>
      grants_of_failsAs (isOther_staticField owner name descriptor h)).bind
      fun _ _ => obeys_next (grants_push ha _)
  | call kind owner name descriptor => exact obeys_invoke hc ha kind owner name descriptor
  | returnInt => exact (grants_popInt ha).andThen fun _ _ => obeys_pure trivial
  | returnRef => exact (grants_popRef ha).andThen fun _ _ => obeys_pure trivial
  | raise =>
    refine (grants_popObj ha _).andThen fun b _ => ?_
    have hfault (h : Heap) : Grants (Flow.Within p) Fault.IsOther (.error (uncaught h b.1)) :=
      isOther_uncaught h b.1
    exact obeys_reading hfault

end Operations

/-! ### Runs -/

/-- All programs under way resolve. -/
def CallStack.Resolves (s : CallStack) : Prop :=
  s.active.program.Resolves ∧ ∀ caller ∈ s.callers, caller.2.program.Resolves

/-- If a run goes on, then with programs that resolve. -/
def Progress.Resolves : Progress → Prop
  | .going s => s.Resolves
  | .finished _ => True

variable {c : LoadedClass} {limits : Limits}

/-- Entering a method makes a frame of that method's program. -/
theorem obeys_enter (depth : Nat) (p : Program) (args : List Value) :
    Obeys (fun a => a.program = p) Fault.IsOther (enter limits depth p args) := by
  unfold enter
  refine .check trivial (obeys_countInvocation.bind fun _ _ => obeys_lift ?_)
  unfold Activation.start
  dsimp only
  split
  · exact grants_error trivial
  · exact grants_ok rfl

/-- **A step** keeps to programs that resolve, and never fails for a branch that leads nowhere. -/
theorem obeys_advance (hc : c.Resolves) {s : CallStack} (hs : s.Resolves) {i : Insn}
    (hi : s.active.program.insns[s.active.next]? = some i) :
    Obeys Progress.Resolves Fault.IsOther (s.advance c limits i) := by
  obtain ⟨hactive, hcallers⟩ := hs
  unfold CallStack.advance
  cases hop : Operation.ofInsn i with
  | error fault => exact obeys_throw (isOther_ofInsn i fault hop)
  | ok op =>
    refine Obeys.bind (obeys_pure rfl) fun op' hop' => ?_
    subst hop'
    -- The activation is moved on first, which leaves its program as it is.
    have hperform : Obeys (Flow.Within s.active.program) Fault.IsOther
        (perform c { s.active with next := s.active.next + 1 } op) :=
      obeys_perform hc rfl (hactive.operation hi hop)
    refine hperform.bind fun flow hflow => ?_
    cases flow with
    | next b =>
      have hb : b.program = s.active.program := hflow
      exact obeys_pure ⟨by rwa [hb], hcallers⟩
    | call b site callee args =>
      obtain ⟨hb, hcallee⟩ := hflow
      refine (obeys_enter _ callee args).bind fun entered hentered => obeys_pure ⟨?_, ?_⟩
      · rwa [hentered]
      · exact List.forall_mem_cons.mpr ⟨by rwa [hb], hcallers⟩
    | finished result =>
      dsimp only
      split
      · exact obeys_pure trivial
      · -- The caller goes on, and its program was under way already.
        next site b callers heq =>
        rw [heq, List.forall_mem_cons] at hcallers
        refine (grants_receive rfl site result).andThen fun b' hb' => obeys_pure ⟨?_, hcallers.2⟩
        rw [hb']
        exact hcallers.1

/-- **A run** never fails for a branch that leads nowhere. -/
theorem isOther_run (hc : c.Resolves) {left : Nat} {s : CallStack} (hs : s.Resolves)
    (store : Store) : FailsAs Fault.IsOther (run c limits left s store).1 := by
  -- By induction on the instructions that are left; every step leads to programs that resolve
  -- again.
  induction left generalizing s store with
  | zero =>
    unfold run
    split <;> exact failsAs_error trivial
  | succ left ih =>
    unfold run
    split
    · exact failsAs_error trivial
    · next i hi =>
      have hstep : Grants Progress.Resolves Fault.IsOther
          ((s.advance c limits i).run store.tick).1 := obeys_advance hc hs hi store.tick
      dsimp only
      rcases hrun : (s.advance c limits i).run store.tick with ⟨answer, store'⟩
      rw [hrun] at hstep
      match answer with
      | .ok (.going s') => exact ih hstep store'
      | .ok (.finished result) => exact failsAs_ok _
      | .error fault => exact failsAs_error hstep

/-- **No execution leaves its program**, if all methods of the class resolve. -/
theorem isOther_execute (hc : c.Resolves) {p : Program} (hp : p.Resolves) (args : List Value)
    (store : Store) : FailsAs Fault.IsOther (execute c limits p args store).1 := by
  have henter : Grants (fun a : Activation => a.program = p) Fault.IsOther
      ((enter limits 0 p args).run store).1 := obeys_enter 0 p args store
  unfold execute
  rcases hrun : (enter limits 0 p args).run store with ⟨answer, store'⟩
  rw [hrun] at henter
  cases answer with
  | ok a =>
    have ha : a.program = p := henter
    exact isOther_run hc ⟨by rwa [ha], fun _ h => absurd h List.not_mem_nil⟩ store'
  | error fault => exact failsAs_error henter

end Machine

end RoundingPatch
