import RoundingPatch.Proofs.Machine.Limits
import RoundingPatch.Proofs.Machine.Runs
import RoundingPatch.Proofs.Machine.Targets
/-!
# Receivers

A method starts with its arguments in the first local variables. A call from outside only starts a
method that is static, or is not, as the call says (`call_of_disagreement`, `begins_of_callStacks`).
A call instruction takes its receiver, if it has one, and its arguments from the stack, and starts
whatever method it names (`called_of_advance`): whether that method is static is not looked at. So
the callee is called as it wants to be exactly if the call instructions of the class agree with the
methods they name (`LoadedClass.callsAgree`).
-/

namespace RoundingPatch

open ClassFile

namespace Machine

variable {c : LoadedClass} {limits : Limits} {s s' start : CallStack} {store store' : Store}
  {a b : Activation} {i : Insn} {args : List Value} {callee p : Program} {site : CallSite}

/-- An activation stands at the start of its program, called with or without a receiver. -/
structure Activation.Begins (a : Activation) (receiver : Option ObjRef) (args : List Value) :
    Prop where
  next : a.next = 0
  locals : receiver.toList.map .obj ++ args <+: a.locals

/-! ### What a call takes from the stack -/

/-- A call that goes to the loaded class names it, or is a virtual one. -/
theorem owner_of_dispatchesHere {kind : CallKind} {owner name descriptor : String} {r : ObjRef}
    (h : Yields (dispatchesHere c kind owner name descriptor r) store true store') :
    owner = c.name ∨ kind ≠ .special := by
  unfold dispatchesHere at h
  by_cases howner : owner = c.name
  · exact .inl howner
  · rw [if_neg howner] at h
    refine .inr fun hkind => ?_
    simp only [hkind, true_or, if_true] at h
    cases (yields_pure.mp h).1

/-- A call starts the method that it names, with what it takes from the stack. -/
structure Calls (c : LoadedClass) (a : Activation) (kind : CallKind) (receiver : Option ObjRef)
    (args : List Value) (callee : Program) : Prop where
  eq : ∃ (i : Insn) (owner name descriptor : String) (d : MethodDescriptor) (rest : List Value),
    a.program.insns[a.next]? = some i ∧
    Operation.ofInsn i = .ok (.call kind owner name descriptor) ∧
    (owner = c.name ∨ kind = .virtual) ∧ c.program name descriptor = .ok callee ∧
    MethodDescriptor.parse descriptor = .ok d ∧ args.length = d.params.length ∧
    a.stack = args.reverse ++ receiver.toList.map .obj ++ rest
  receiver : receiver.isNone = decide (kind = .static)

/-- **What a call puts on top** takes the arguments, and the receiver if it has one, off the
caller's stack. -/
theorem exists_of_yields_invoke {kind : CallKind} {owner name descriptor : String}
    (h : Yields (invoke c a kind owner name descriptor) store (.call b site callee args) store') :
    ∃ (d : MethodDescriptor) (receiver : Option ObjRef) (passed : List Value),
      MethodDescriptor.parse descriptor = .ok d ∧ passed.length = d.params.length ∧
      args = receiver.toList.map .obj ++ passed ∧
      a.stack = passed.reverse ++ receiver.toList.map .obj ++ b.stack ∧ b.program = a.program ∧
      receiver.isNone = decide (kind = .static) ∧ (owner = c.name ∨ kind = .virtual) ∧
      c.program name descriptor = .ok callee := by
  unfold invoke at h
  obtain ⟨d, hd, h⟩ := yields_lift_bind.mp h
  by_cases hwide : (!(d.params.all isNarrow && d.result.all isNarrow)) = true
  · rw [if_pos hwide] at h
    exact absurd h yields_throw_bind
  rw [if_neg hwide] at h
  obtain ⟨⟨_, a'⟩, hmany, h⟩ := yields_lift_bind.mp h
  obtain ⟨passed, rfl, hlength, hstack, hprogram⟩ := Activation.stack_of_popMany hmany
  cases kind with
  | static =>
    dsimp only at h
    split at h
    · exact absurd h yields_throw_bind
    · next howner =>
      obtain ⟨found, hfound, h⟩ := yields_lift_bind.mp h
      cases (yields_pure.mp h).1
      exact ⟨d, none, passed, hd, hlength, by simp, by simpa using hstack, hprogram, rfl,
        .inl (not_not.mp howner), hfound⟩
  | virtual | special =>
    obtain ⟨⟨r, b'⟩, hobj, h⟩ := yields_lift_bind.mp h
    obtain ⟨hstack', hprogram'⟩ := Activation.stack_of_popObj hobj
    obtain ⟨here, _, hdispatch, h⟩ := yields_bind.mp h
    cases here with
    | true =>
      obtain ⟨found, hfound, h⟩ := yields_lift_bind.mp h
      cases (yields_pure.mp h).1
      refine ⟨d, some r, passed, hd, hlength, by simp, ?_, hprogram'.trans hprogram, rfl,
        (owner_of_dispatchesHere hdispatch).imp_right fun hkind => ?_, hfound⟩
      · rw [hstack, hstack']
        simp
      · first | rfl | exact absurd rfl hkind
    | false =>
      -- A call that leaves the class goes on with its answer, so nothing is started.
      obtain ⟨result, _, -, h⟩ := yields_bind.mp h
      obtain ⟨next, -, h⟩ := yields_lift_bind.mp h
      cases (yields_pure.mp h).1

/-! ### What starts a method -/

theorem obeys_always {α : Type} (x : Exec α) : Obeys (fun _ => True) (fun _ => True) x := by
  intro store
  cases (x.run store).1 <;> trivial

/-- Whether an operation is a call. -/
def Operation.isCall : Operation → Bool
  | .call .. => true
  | _ => false

/-- Whether a program of the loaded class is to run next. -/
def Flow.isCall : Flow → Bool
  | .call .. => true
  | _ => false

/-- Only call instructions start a method. -/
theorem isCall_perform {op : Operation} (h : op.isCall = false) :
    Obeys (fun flow => flow.isCall = false) (fun _ => True) (perform c a op) := by
  have hany {α : Type} {x : Exec α} {f : α → Exec Flow}
      (hf : ∀ v, Obeys (fun flow => flow.isCall = false) (fun _ => True) (f v)) :
      Obeys (fun flow => flow.isCall = false) (fun _ => True) (x >>= f) :=
    (obeys_always x).bind fun v _ => hf v
  -- No other operation gives a call, whatever it reads on the way.
  cases op with
  | call => cases h
  | _ =>
    unfold perform
    repeat' first
      | exact obeys_pure rfl
      | exact obeys_throw trivial
      | refine hany fun _ => ?_
      | split

theorem Obeys.of_yields {α : Type} {post : α → Prop} {sort : Fault → Prop} {x : Exec α} {v : α}
    (hx : Obeys post sort x) (h : Yields x store v store') : post v := by
  have hv := hx store
  rwa [h] at hv

theorem begins_of_enter {depth : ℕ} (receiver : Option ObjRef)
    (h : Yields (enter limits depth p (receiver.toList.map .obj ++ args)) store a store') :
    a.program = p ∧ a.Begins receiver args := by
  unfold enter at h
  split at h
  · exact absurd h yields_throw_bind
  obtain ⟨_, _, -, h⟩ := yields_bind.mp h
  obtain ⟨h, -⟩ := yields_lift.mp h
  unfold Activation.start at h
  dsimp only at h
  split at h
  · cases h
  · cases h
    exact ⟨rfl, rfl, List.prefix_append _ _⟩

/-! ### Single steps -/

/-- All programs under way are methods of a class. -/
structure CallStack.Of (c : LoadedClass) (s : CallStack) : Prop where
  active : ∃ name descriptor, c.program name descriptor = .ok s.active.program
  callers : ∀ caller ∈ s.callers, ∃ name descriptor,
    c.program name descriptor = .ok caller.2.program

theorem LoadedClass.Resolves.of_program {name descriptor : String} (hc : c.Resolves)
    (h : c.program name descriptor = .ok p) : p.Resolves := by
  have hp := hc name descriptor
  rwa [h] at hp

theorem CallStack.Of.resolves (hs : s.Of c) (hc : c.Resolves) : s.Resolves := by
  obtain ⟨name, descriptor, hactive⟩ := hs.active
  refine ⟨hc.of_program hactive, fun caller hcaller => ?_⟩
  obtain ⟨name, descriptor, hprogram⟩ := hs.callers caller hcaller
  exact hc.of_program hprogram

/-- **What a step starts.** It goes on below the same calls, comes back from one, or starts the
method that its call instruction names. -/
inductive Turns (c : LoadedClass) (s s' : CallStack) : Prop
  | on (program : s'.active.program = s.active.program) (callers : s'.callers = s.callers)
  | back (site : CallSite) (a : Activation) (program : s'.active.program = a.program)
    (callers : s.callers = (site, a) :: s'.callers)
  | call (site : CallSite) (a : Activation) (kind : CallKind) (receiver : Option ObjRef)
    (args : List Value) (program : a.program = s.active.program)
    (callers : s'.callers = (site, a) :: s.callers)
    (calls : Calls c s.active kind receiver args s'.active.program)
    (begins : s'.active.Begins receiver args)

/-- **A step goes on, goes back or calls.** -/
theorem turns_of_advance (hc : c.Resolves) (hs : s.Of c)
    (hi : s.active.program.insns[s.active.next]? = some i)
    (h : Yields (s.advance c limits i) store (.going s') store') : Turns c s s' := by
  unfold CallStack.advance at h
  obtain ⟨op, hop, h⟩ := yields_lift_bind.mp h
  obtain ⟨flow, _, hflow, h⟩ := yields_bind.mp h
  -- The activation that goes on is still one of the program that was under way.
  have hperform : Obeys (Flow.Within s.active.program) Fault.IsOther
      (perform c { s.active with next := s.active.next + 1 } op) :=
    obeys_perform hc rfl ((hs.resolves hc).1.operation hi hop)
  have hwithin := hperform.of_yields hflow
  cases flow with
  | next b =>
    cases (yields_pure.mp h).1
    exact .on hwithin rfl
  | call b site callee args =>
    obtain ⟨entered, _, henter, h⟩ := yields_bind.mp h
    cases (yields_pure.mp h).1
    -- Only a call instruction starts a method.
    cases op with
    | call kind owner name descriptor =>
      obtain ⟨d, receiver, passed, hd, hlength, rfl, hstack, hprogram, hkind, howner, hcallee⟩ :=
        exists_of_yields_invoke hflow
      obtain ⟨hentered, hbegins⟩ := begins_of_enter _ henter
      exact .call site b kind receiver passed hprogram rfl
        ⟨⟨i, owner, name, descriptor, d, b.stack, hi, hop, howner, hentered ▸ hcallee, hd, hlength,
          hstack⟩, hkind⟩ hbegins
    | _ => cases (isCall_perform rfl).of_yields hflow
  | finished result =>
    dsimp only at h
    split at h
    · cases (yields_pure.mp h).1
    · next site a callers hcallers =>
      obtain ⟨b, hb, h⟩ := yields_lift_bind.mp h
      cases (yields_pure.mp h).1
      have hreceive := grants_receive (p := a.program) rfl site result
      rw [hb] at hreceive
      exact .back site a hreceive hcallers

/-- A step starts methods of the class only. -/
theorem CallStack.Of.turns (hs : s.Of c) (h : Turns c s s') : s'.Of c := by
  cases h with
  | on program callers => exact ⟨program ▸ hs.active, callers ▸ hs.callers⟩
  | back site a program callers =>
    have hcallers := hs.callers
    rw [callers, List.forall_mem_cons] at hcallers
    exact ⟨program ▸ hcallers.1, hcallers.2⟩
  | call site a kind receiver args program callers calls begins =>
    obtain ⟨_, _, name, descriptor, _, _, _, _, _, hcallee, _⟩ := calls.eq
    refine ⟨⟨name, descriptor, hcallee⟩, ?_⟩
    rw [callers, List.forall_mem_cons]
    exact ⟨program ▸ hs.active, hs.callers⟩

/-! ### Runs -/

/-- **What one stack of a run has to do with the one before it.** -/
theorem turns_of_runStacks (hc : c.Resolves) {left : ℕ} (hstart : start.Of c)
    (h : [s, s'] <:+: runStacks c limits left start store) : s.Of c ∧ Turns c s s' := by
  -- By induction on the instructions that are left: two neighbours are either the first two stacks,
  -- or neighbours in the rest of the run. A run that stops has one stack.
  induction left generalizing start store with
  | zero =>
    unfold runStacks at h
    have hlength := h.length_le
    split at hlength <;> simp at hlength
  | succ left ih =>
    unfold runStacks at h
    cases hi : start.active.program.insns[start.active.next]? with
    | none =>
      rw [hi] at h
      have hlength := h.length_le
      simp at hlength
    | some i =>
      rw [hi] at h
      dsimp only at h
      rcases hnext : (start.advance c limits i).run store.tick with ⟨_ | ⟨next⟩ | _, after⟩
      · rw [hnext] at h
        have hlength := h.length_le
        simp at hlength
      · rw [hnext] at h
        dsimp only at h
        have hturns := turns_of_advance hc hstart hi hnext
        rcases List.infix_cons_iff.mp h with h | h
        · -- The step from the first stack of the run.
          obtain ⟨rfl, hrest⟩ := List.cons_prefix_cons.mp h
          obtain ⟨more, hmore⟩ : ∃ more, runStacks c limits left next after = next :: more := by
            unfold runStacks
            exact ⟨_, rfl⟩
          rw [hmore, List.cons_prefix_cons] at hrest
          exact ⟨hstart, hrest.1 ▸ hturns⟩
        · exact ih (hstart.turns hturns) h
      · rw [hnext] at h
        have hlength := h.length_le
        simp at hlength

/-- An operation that is a call, and comes to a method of the class, is a static call exactly if the
method is static. -/
def Operation.agrees (c : LoadedClass) : Operation → Bool
  | .call kind owner name descriptor =>
    (owner ≠ c.name ∧ kind ≠ .virtual) ∨ (c.program name descriptor).toOption.all fun callee =>
      callee.isStatic == decide (kind = .static)
  | _ => true

/-- All call instructions of a class agree with the methods of the class that they come to. -/
def LoadedClass.callsAgree (c : LoadedClass) : Bool :=
  c.programs.all fun ((name, descriptor), _) => (c.program name descriptor).toOption.all fun p =>
    p.insns.toList.all fun i => (Operation.ofInsn i).toOption.all (·.agrees c)

/-- Where the calls of a class agree, so does each call its programs do. -/
theorem agrees_of_callsAgree (hc : c.callsAgree = true) {name descriptor : String} {op : Operation}
    (hp : c.program name descriptor = .ok p) (hi : i ∈ p.insns)
    (hop : Operation.ofInsn i = .ok op) : op.agrees c = true := by
  have hentry : ∃ entry, ((name, descriptor), entry) ∈ c.programs := by
    unfold LoadedClass.program at hp
    split at hp
    · next entry hlookup =>
      obtain ⟨front, back, heq, -⟩ := List.lookup_eq_some_iff.mp hlookup
      exact ⟨entry, by simp [heq]⟩
    · cases hp
  obtain ⟨entry, hentry⟩ := hentry
  have hall := List.all_eq_true.mp hc _ hentry
  dsimp only at hall
  rw [hp] at hall
  have hagrees := List.all_eq_true.mp hall i (Array.mem_toList_iff.mpr hi)
  rwa [hop] at hagrees

/-- **In a class whose calls agree** a method is static just when it is called without a
receiver. -/
theorem isStatic_of_calls (hc : c.callsAgree = true) (hs : s.Of c) {kind : CallKind}
    {receiver : Option ObjRef} (h : Calls c s.active kind receiver args callee) :
    callee.isStatic = receiver.isNone := by
  obtain ⟨i, owner, name, descriptor, d, rest, hi, hop, howner, hcallee, -⟩ := h.eq
  obtain ⟨caller, type, hprogram⟩ := hs.active
  have hagrees := agrees_of_callsAgree hc hprogram (Array.mem_of_getElem? hi) hop
  dsimp only [Operation.agrees] at hagrees
  rw [hcallee] at hagrees
  rw [h.receiver]
  rcases of_decide_eq_true hagrees with ⟨hother, hkind⟩ | hagrees
  · exact absurd howner (not_or.mpr ⟨hother, hkind⟩)
  · exact eq_of_beq hagrees

end Machine

namespace Machine

variable {m : Machine} {isStatic : Bool} {name descriptor : String} {args : List Value}
  {p : Program}

/-- A call from outside of the wrong kind fails before anything runs. -/
theorem call_of_disagreement (hp : m.loaded.program name descriptor = .ok p)
    (h : p.isStatic ≠ isStatic) :
    (m.call isStatic name descriptor args).1 = .error (.execution
      (if p.isStatic then .isStatic m.loaded.name name descriptor
        else .notStatic m.loaded.name name descriptor)) ∧
    m.callStacks isStatic name descriptor args = [] := by
  unfold call callStacks
  rw [hp]
  dsimp only
  rw [if_neg h, if_neg h]
  refine ⟨?_, rfl⟩
  cases p.isStatic <;> rfl

/-- The first stack of a call from outside. -/
theorem begins_of_callStacks {receiver : Option ObjRef} {s : CallStack} {rest : List CallStack}
    (h : m.callStacks isStatic name descriptor (receiver.toList.map .obj ++ args) = s :: rest) :
    m.loaded.program name descriptor = .ok s.active.program ∧
      s.active.program.isStatic = isStatic ∧ s.callers = [] ∧ s.active.Begins receiver args := by
  unfold callStacks executeStacks at h
  split at h
  · next p hp =>
    split at h
    · next hkind =>
      split at h
      · next a store henter =>
        unfold runStacks at h
        cases (List.cons.inj h).1
        obtain ⟨hprogram, hbegins⟩ := begins_of_enter _ henter
        exact ⟨hprogram ▸ hp, hprogram ▸ hkind, rfl, hbegins⟩
      · cases h
    · cases h
  · cases h

theorem turns_of_callStacks {s s' : CallStack} (hc : m.loaded.Resolves)
    (h : [s, s'] <:+: m.callStacks isStatic name descriptor args) :
    s.Of m.loaded ∧ Turns m.loaded s s' := by
  unfold callStacks executeStacks at h
  split at h
  · next p hp =>
    split at h
    · split at h
      · next a store henter =>
        refine turns_of_runStacks hc ⟨⟨name, descriptor, ?_⟩,
          fun _ h => absurd h List.not_mem_nil⟩ h
        rw [hp, (begins_of_enter none henter).1]
      · cases List.infix_nil.mp h
    · cases List.infix_nil.mp h
  · cases List.infix_nil.mp h

/-- **What a method is started with**, in every call from outside of every class, whatever the
arguments, the limits and the objects are. A call on an object fails at a static method and a call
without one at a method that is not static; neither starts anything. What is started is static, or
is not, as the call says, and has the object and the arguments in its first local variables. A
method that is started further down is the one that a call instruction names. It has the arguments
from the stack in its first local variables, behind a receiver that is no null unless the call is a
static one; and if the call instructions of the class agree with the methods they name, it is static
exactly if it has no receiver. -/
theorem started_with_receiver (c : ClassFile) (limits : Limits) (store : Store)
    (name descriptor : String) (args : List Value) :
    let m : Machine := ⟨.ofClass c, limits, store⟩
    (∀ p, m.loaded.program name descriptor = .ok p →
      (p.isStatic = true → ∀ r,
        (m.callVirtual r name descriptor args).1
          = .error (.execution (.isStatic c.name name descriptor)) ∧
        m.callStacks false name descriptor (.obj r :: args) = []) ∧
      (p.isStatic = false →
        (m.callStatic name descriptor args).1
          = .error (.execution (.notStatic c.name name descriptor)) ∧
        m.callStacks true name descriptor args = [])) ∧
    (∀ (receiver : Option ObjRef) s rest,
      m.callStacks receiver.isNone name descriptor (receiver.toList.map .obj ++ args) = s :: rest →
        m.loaded.program name descriptor = .ok s.active.program ∧
        s.active.program.isStatic = receiver.isNone ∧ s.active.Begins receiver args) ∧
    (∀ isStatic s s', [s, s'] <:+: m.callStacks isStatic name descriptor args →
      s.callers.length < s'.callers.length → ∃ kind receiver passed,
        Calls m.loaded s.active kind receiver passed s'.active.program ∧
        s'.active.Begins receiver passed ∧
        (m.loaded.callsAgree = true → s'.active.program.isStatic = receiver.isNone)) := by
  intro m
  refine ⟨fun p hp => ⟨fun hstatic r => ?_, fun hstatic => ?_⟩, ?_, ?_⟩
  · have h : (m.call false name descriptor (.obj r :: args)).1 = _ ∧
        m.callStacks false name descriptor (.obj r :: args) = [] :=
      call_of_disagreement hp (by rw [hstatic]; decide)
    rwa [hstatic] at h
  · have h : (m.call true name descriptor args).1 = _ ∧
        m.callStacks true name descriptor args = [] :=
      call_of_disagreement hp (by rw [hstatic]; decide)
    rwa [hstatic] at h
  · intro receiver s rest h
    obtain ⟨hprogram, hkind, -, hbegins⟩ := begins_of_callStacks h
    exact ⟨hprogram, hkind, hbegins⟩
  · intro isStatic s s' hinfix hdeeper
    obtain ⟨hs, hturns⟩ := turns_of_callStacks (LoadedClass.resolves_ofClass c) hinfix
    -- A turn that gets deeper is a call.
    cases hturns with
    | on program callers =>
      rw [callers] at hdeeper
      exact absurd hdeeper (Nat.lt_irrefl _)
    | back site a program callers =>
      rw [callers, List.length_cons] at hdeeper
      omega
    | call site a kind receiver passed program callers calls begins =>
      exact ⟨kind, receiver, passed, calls, begins, fun hc => isStatic_of_calls hc hs calls⟩

/-- A method of one word for a stack and one for local variables, without exception handlers. -/
def codeMethod (access : Access) (name : String) (code : Bytes) : Member where
  access := access
  name := name
  descriptor := "()I"
  raw := []
  attributes := [⟨"Code", [0, 1, 0, 1, 0, 0, 0, UInt8.ofNat code.length] ++ code ++ [0, 0, 0, 0]⟩]

/-- A class with these methods, whose code may refer to `f` and `g`. -/
def withMethods (methods : List Member) : ClassFile where
  pool := ⟨#[none, some (.utf8 "T"), some (.classRef 1), some (.utf8 "f"), some (.utf8 "g"),
    some (.utf8 "()I"), some (.nameAndType 3 5), some (.nameAndType 4 5),
    some (.member .method 2 6), some (.member .method 2 7)], [], 0⟩
  header := ⟨0, 52, 0x20, "T", none, []⟩
  fields := []
  methods := methods
  attributes := []

/-- The static method `f` calls the static method `g`. -/
def agreeing : ClassFile :=
  withMethods [codeMethod 0x0008 "f" [0xb8, 0, 9, 0xac], codeMethod 0x0008 "g" [0x04, 0xac]]

/-- Its calls agree, and so `g` is started without a receiver because it is static. -/
theorem started_with_receiver_agreeing :
    (∀ r, ((ofClass agreeing {}).callVirtual r "f" "()I" []).1
      = .error (.execution (.isStatic "T" "f" "()I"))) ∧
    ∃ s s', [s, s'] <:+: (ofClass agreeing {}).callStacks true "f" "()I" [] ∧
      s.callers.length < s'.callers.length ∧ ∃ (receiver : Option ObjRef) (passed : List Value),
        s'.active.Begins receiver passed ∧ s'.active.program.isStatic = receiver.isNone := by
  obtain ⟨houtside, -, hinside⟩ := started_with_receiver agreeing {} {} "f" "()I" []
  refine ⟨fun r => ?_, ?_⟩
  · have hstatic : ((LoadedClass.ofClass agreeing).program "f" "()I").toOption.map (·.isStatic)
        = some true := by
      decide +kernel
    cases hp : (LoadedClass.ofClass agreeing).program "f" "()I" with
    | error fault =>
      rw [hp] at hstatic
      cases hstatic
    | ok p =>
      rw [hp] at hstatic
      exact ((houtside p hp).1 (Option.some.inj hstatic) r).1
  · have hdepths : ((ofClass agreeing {}).callStacks true "f" "()I" []).map (·.callers.length)
        = [0, 1, 1, 0] := by
      decide +kernel
    -- The second stack is the callee's, one deeper than the first.
    obtain ⟨s, _, hstacks, hs, h⟩ := List.map_eq_cons_iff.mp hdepths
    obtain ⟨s', rest, rfl, hs', -⟩ := List.map_eq_cons_iff.mp h
    have hinfix : [s, s'] <:+: (ofClass agreeing {}).callStacks true "f" "()I" [] :=
      ⟨[], rest, hstacks.symm⟩
    have hdeeper : s.callers.length < s'.callers.length := by omega
    obtain ⟨kind, receiver, passed, -, hbegins, hstatic⟩ := hinside true s s' hinfix hdeeper
    exact ⟨s, s', hinfix, hdeeper, receiver, passed, hbegins, hstatic (by decide +kernel)⟩

/-- The static method `f` calls `g`, which is not static, without an object, and `h`, which is not
static, calls `f` on its object. -/
def disagreeing : ClassFile :=
  withMethods [codeMethod 0x0008 "f" [0xb8, 0, 9, 0xac], codeMethod 0x0000 "g" [0x04, 0xac],
    codeMethod 0x0000 "h" [0x2a, 0xb6, 0, 8, 0xac]]

/-- A call of `g` without an object fails from outside but not from `f`, and a call of `f` on an
object fails from outside but not from `h`. -/
theorem disagreement_unnoticed :
    ((ofClass disagreeing {}).callStatic "g" "()I" []).1
      = .error (.execution (.notStatic "T" "g" "()I")) ∧
    ((ofClass disagreeing {}).callStatic "f" "()I" []).1.toOption = some (some (.int 1)) ∧
    ((ofClass disagreeing {}).callStacks true "f" "()I" []).map
        (fun s => (s.active.program.name, s.active.program.isStatic, s.active.locals))
      = [("f", true, [.int 0]), ("g", false, [.int 0]), ("g", false, [.int 0]),
        ("f", true, [.int 0])] ∧
    ((ofClass disagreeing {}).callVirtual ⟨0⟩ "f" "()I" []).1
      = .error (.execution (.isStatic "T" "f" "()I")) ∧
    ((ofClass disagreeing {}).callVirtual ⟨0⟩ "h" "()I" []).1.toOption = some (some (.int 1)) := by
  decide +kernel

end Machine

end RoundingPatch
