import RoundingPatch.Proofs.Machine.Fields
/-!
# Fields in a session

A machine is asked one thing after another from outside (`Request`). The history of a session lists
what happens to fields in the course of it, in the calls and between them (`history`). It accounts
for the objects of the machine (`Accounts.history`), whatever is asked and whatever the bytecode
does.

Names alone tell fields apart: what `getfield` yields is the latest value that was written under the
name (`fields_by_name`). Two declared fields of one name share one value, whatever their descriptors
are (`fields_shared`).
-/

namespace RoundingPatch

open ClassFile

namespace Machine

/-! ### Runs -/

/-- What a run does to fields. -/
def runEvents (c : LoadedClass) (limits : Limits) (left : ℕ) (s : CallStack) (store : Store) :
    List FieldEvent :=
  match s.active.program.insns[s.active.next]? with
  | none => []
  | some i =>
    match left with
    | 0 => []
    | left + 1 =>
      match (s.advance c limits i).run store.tick with
      | (.ok (.going s'), store') =>
        stepEvents s i store.heap (.ok (.going s')) ++ runEvents c limits left s' store'
      | (answer, _) => stepEvents s i store.heap answer

/-- What a program does to fields from its start. -/
def executeEvents (c : LoadedClass) (limits : Limits) (p : Program) (args : List Value)
    (store : Store) : List FieldEvent :=
  match (enter limits 0 p args).run store with
  | (.ok a, store) => runEvents c limits limits.stepBudget ⟨a, []⟩ store
  | (.error _, _) => []

/-- What a call from outside does to fields. -/
def callEvents (m : Machine) (isStatic : Bool) (name descriptor : String) (args : List Value) :
    List FieldEvent :=
  match m.loaded.program name descriptor with
  | .ok p =>
    if p.isStatic = isStatic then executeEvents m.loaded m.limits p args { m.store with steps := 0 }
    else []
  | .error _ => []

section Runs

variable {c : LoadedClass} {limits : Limits} {log : List FieldEvent}

/-- An empty log added tells nothing new. -/
theorem Accounts.nothing {h : Heap} (haccounts : Accounts c log h) : Accounts c (log ++ []) h :=
  (List.append_nil log).symm ▸ haccounts

/-- **A run keeps the account**, however it ends. -/
theorem Accounts.run {left : ℕ} {s : CallStack} {store : Store}
    (haccounts : Accounts c log store.heap) :
    Accounts c (log ++ runEvents c limits left s store) (run c limits left s store).2.heap := by
  -- The history grows with the steps that are taken, so it is generalized along with the state.
  induction left generalizing log s store with
  | zero =>
    unfold runEvents Machine.run
    cases s.active.program.insns[s.active.next]? <;> exact haccounts.nothing
  | succ left ih =>
    unfold runEvents Machine.run
    cases s.active.program.insns[s.active.next]? with
    | none => exact haccounts.nothing
    | some i =>
      dsimp only
      have htick : Accounts c log store.tick.heap := haccounts
      rcases hadvance : (s.advance c limits i).run store.tick with ⟨_ | s' | _, store'⟩
      · exact htick.advance hadvance
      · rw [← List.append_assoc]
        exact ih (htick.advance hadvance)
      · exact htick.advance hadvance

/-- **A whole execution keeps the account**, by the accesses of its steps. -/
theorem Accounts.execute {p : Program} {args : List Value} {store : Store}
    (haccounts : Accounts c log store.heap) :
    Accounts c (log ++ executeEvents c limits p args store)
      (execute c limits p args store).2.heap := by
  have htame := calm_enter limits 0 p args store
  unfold executeEvents Machine.execute
  rcases henter : (enter limits 0 p args).run store with ⟨_ | a, store'⟩ <;> rw [henter] at htame
  · exact (haccounts.tame htame).nothing
  · exact (haccounts.tame htame).run

/-- A call from outside keeps the account, whether the method is found or not. -/
theorem Accounts.call {m : Machine} {isStatic : Bool} {name descriptor : String} {args : List Value}
    (haccounts : Accounts m.loaded log m.heap) :
    Accounts m.loaded (log ++ callEvents m isStatic name descriptor args)
      (m.call isStatic name descriptor args).2.heap := by
  have hstart : Accounts m.loaded log { m.store with steps := 0 }.heap := haccounts
  unfold callEvents Machine.call
  cases m.loaded.program name descriptor with
  | error fault => exact hstart.nothing
  | ok p =>
    dsimp only
    split
    · exact hstart.execute
    · exact hstart.nothing

end Runs

/-! ### New instances -/

/-- What a new instance of a class holds under a name: the zero value of the last field that is
declared with it. -/
def firstValue (c : ClassFile) (name : String) : Option Value :=
  (c.fields.reverse.find? (·.name == name)).map (.default ·.descriptor)

/-- The initial value of a field is that of the last declaration of its name. -/
theorem lookup_cells_ofClass (c : ClassFile) (name : String) :
    (LoadedClass.ofClass c).cells.lookup name = firstValue c name := by
  unfold LoadedClass.ofClass firstValue
  dsimp only
  rw [lookup_foldl_setCell, List.lookup_nil, Option.or_none]

/-- Where all fields of a name have one descriptor, the initial value is the default of it. -/
theorem firstValue_getD {c : ClassFile} {name descriptor : String}
    (h : ∀ f ∈ c.fields, f.name = name → f.descriptor = descriptor) :
    (firstValue c name).getD (.default descriptor) = .default descriptor := by
  unfold firstValue
  cases hfound : c.fields.reverse.find? (·.name == name) with
  | none => rfl
  | some f =>
    have hname : f.name = name := by simpa using List.find?_some hfound
    show Value.default f.descriptor = _
    rw [h f (List.mem_reverse.mp (List.mem_of_find?_eq_some hfound)) hname]

/-- An instance has the initial cells, with the given values set in their order. -/
theorem eq_foldl_of_instanceFields {c : LoadedClass} {given cells : List (String × Value)}
    (h : c.instanceFields given = .ok cells) :
    cells = given.foldl (fun cells entry => setCell entry.1 entry.2 cells) c.cells := by
  unfold LoadedClass.instanceFields at h
  -- The cells grow with every value that is given, so they are generalized.
  generalize c.cells = first at h ⊢
  induction given generalizing first with
  | nil =>
    cases h
    rfl
  | cons entry given ih =>
    obtain ⟨next, hnext, h⟩ := except_bind_eq_ok.mp h
    dsimp only at hnext
    split at hnext
    · cases hnext
      exact ih _ h
    · cases hnext

/-- A new instance's field has the value given last, or else the initial one. -/
theorem lookup_of_instanceFields {c : LoadedClass} {given cells : List (String × Value)}
    (h : c.instanceFields given = .ok cells) (name : String) :
    cells.lookup name = c.initial c.name given name := by
  rw [eq_foldl_of_instanceFields h, lookup_foldl_setCell, LoadedClass.initial, if_pos rfl]
  rfl

/-! ### Sessions -/

/-- What can be asked of a machine from outside. -/
inductive Request
  | addInstance (given : List (String × Value))
  | addChars (units : Array UInt16)
  | addInts (values : Array Int32)
  | addText (s : String)
  | define (className : String) (names : List String)
  | truncate (size : ℕ)
  | setField (r : ObjRef) (name : String) (v : Value)
  | callVirtual (receiver : ObjRef) (name descriptor : String) (args : List Value)
  | callStatic (name descriptor : String) (args : List Value)

namespace Request

/-- The machine after a request, refused or not. -/
def perform (m : Machine) : Request → Machine
  | addInstance given =>
    match m.addInstance given with
    | .ok (_, m) => m
    | .error _ => m
  | addChars units => (m.add (.chars units)).2
  | addInts values => (m.add (.ints values)).2
  | addText s => (m.add (.text s)).2
  | define className names => (m.define className names).2
  | truncate size => m.withHeap (m.heap.truncate size)
  | setField r name v =>
    match m.heap.setField r name v with
    | .ok heap => m.withHeap heap
    | .error _ => m
  | callVirtual receiver name descriptor args => (m.callVirtual receiver name descriptor args).2
  | callStatic name descriptor args => (m.callStatic name descriptor args).2

/-- What a request does to fields. -/
def events (m : Machine) : Request → List FieldEvent
  | addInstance given =>
    match m.addInstance given with
    | .ok (r, _) => [.made r m.loaded.name given]
    | .error _ => []
  | setField r name v =>
    match m.heap.setField r name v with
    | .ok _ => [.stored r name v]
    | .error _ => []
  | callVirtual receiver name descriptor args =>
    callEvents m false name descriptor (.obj receiver :: args)
  | callStatic name descriptor args => callEvents m true name descriptor args
  | addChars _ | addInts _ | addText _ | define .. | truncate _ => []

/-- A request never changes the loaded class. -/
theorem loaded_perform (m : Machine) (q : Request) : (q.perform m).loaded = m.loaded := by
  cases q with
  | addInstance given =>
    dsimp only [perform, Machine.addInstance]
    cases m.loaded.instanceFields given <;> rfl
  | setField r name v =>
    dsimp only [perform]
    cases m.heap.setField r name v <;> rfl
  | _ => rfl

end Request

/-- What happens to fields in a session. -/
def history (m : Machine) : List Request → List FieldEvent
  | [] => []
  | q :: qs => q.events m ++ history (q.perform m) qs

section Sessions

variable {m : Machine} {log : List FieldEvent}

/-- An object without fields leaves the account as it is. -/
theorem Accounts.add (haccounts : Accounts m.loaded log m.heap) {o : HeapObject}
    (ho : o.cells? = none) : Accounts m.loaded (log ++ []) (m.add o).2.heap :=
  (haccounts.tame (calm_alloc ho m.store)).nothing

/-- **A request keeps the account.** -/
theorem Accounts.perform (haccounts : Accounts m.loaded log m.heap) (q : Request) :
    Accounts m.loaded (log ++ q.events m) (q.perform m).heap := by
  -- Only making an instance, setting a field and calling have events; the rest leave the fields
  -- alone.
  cases q with
  | addInstance given =>
    dsimp only [Request.events, Request.perform, Machine.addInstance]
    cases hcells : m.loaded.instanceFields given with
    | error fault => exact haccounts.nothing
    | ok cells => exact haccounts.make (lookup_of_instanceFields hcells)
  | addChars | addInts | addText => exact haccounts.add rfl
  | define className names => exact (haccounts.tame fun _ _ => Heap.cellsAt_defineFrom).nothing
  | truncate size => exact (haccounts.tame fun _ _ => Heap.cellsAt_truncate).nothing
  | setField r name v =>
    dsimp only [Request.events, Request.perform]
    cases hset : m.heap.setField r name v with
    | error fault => exact haccounts.nothing
    | ok heap => exact haccounts.write ⟨fun _ => rfl, nofun, fun _ _ => rfl⟩ hset
  | callVirtual | callStatic => exact haccounts.call

/-- **A session keeps the account.** -/
theorem Accounts.history (haccounts : Accounts m.loaded log m.heap) (qs : List Request) :
    Accounts m.loaded (log ++ m.history qs) (qs.foldl Request.perform m).heap := by
  induction qs generalizing m log with
  | nil => exact haccounts.nothing
  | cons q qs ih =>
    have hloaded := q.loaded_perform m
    have hnext := ih (hloaded ▸ haccounts.perform q)
    rwa [hloaded, List.append_assoc] at hnext

end Sessions

/-! ### Reading and writing -/

/-- A `putfield` writes what is on top of the stack to the instance below it. -/
theorem setField_of_putfield {c : LoadedClass} {limits : Limits} {s s' : CallStack}
    {store store' : Store} {owner name descriptor : String}
    (h : (s.advance c limits (.field Opcode.putfield owner name descriptor)).run store
      = (.ok (.going s'), store')) :
    ∃ r v rest, s.active.stack = v :: .obj r :: rest ∧
      store.heap.setField r name v = .ok store'.heap := by
  obtain ⟨op, hop, h⟩ := yields_lift_bind.mp h
  cases hop
  obtain ⟨flow, next, hperform, h⟩ := yields_bind.mp h
  obtain ⟨⟨v, a⟩, hpop, hperform⟩ := yields_lift_bind.mp hperform
  obtain ⟨⟨r, b⟩, hobj, hperform⟩ := yields_lift_bind.mp hperform
  obtain ⟨_, _, hchanging, hperform⟩ := yields_bind.mp hperform
  obtain ⟨heap, hset, rfl⟩ := yields_changing.mp hchanging
  obtain ⟨rfl, rfl⟩ := yields_pure.mp hperform
  obtain ⟨-, rfl⟩ := yields_pure.mp h
  refine ⟨r, v, b.stack, ?_, hset⟩
  show { s.active with next := s.active.next + 1 }.stack = _
  rw [(Activation.stack_of_pop hpop).1, (Activation.stack_of_popObj hobj).1]

/-- **Fields go by their names**, in every session of every class. What a `getfield` yields is the
latest value that was written under the name since the instance was made, else the last one that the
instance was given for it, else the zero value of the last declared field of that name. If all that
was written under the name was written by `putfield` with the descriptor of the `getfield`, and no
field of another descriptor is declared with the name, it is the latest value that was put there,
else the given one, else the zero value of the descriptor. A `putfield` changes what is held under
one name by one instance, and nothing else. -/
theorem fields_by_name (c : ClassFile) (limits : Limits) :
    (∀ (qs : List Request) before r name descriptor v after,
      (ofClass c limits).history qs = before ++ .got r name descriptor v :: after →
        ∃ older className given recent, before = older ++ .made r className given :: recent ∧
          (∀ e ∈ recent, e.makes r = false) ∧
          v = ((latest (·.written r name) recent).or ((lastGiven given name).or
            (if className = c.name then firstValue c name else none))).getD
              (.default descriptor) ∧
          ((∀ e ∈ recent, e.written r name = e.putTo r name descriptor) →
            (∀ f ∈ c.fields, f.name = name → f.descriptor = descriptor) →
              v = ((latest (·.putTo r name descriptor) recent).or (lastGiven given name)).getD
                (.default descriptor))) ∧
    (∀ s s' store store' owner name descriptor,
      (CallStack.advance (.ofClass c) limits s (.field Opcode.putfield owner name descriptor)).run
          store = (.ok (.going s'), store') →
        ∃ r v rest, s.active.stack = v :: .obj r :: rest ∧ store'.heap.field r name = .ok (some v) ∧
          ∀ r' name', (r', name') ≠ (r, name) →
            store'.heap.field r' name' = store.heap.field r' name') := by
  constructor
  · intro qs before r name descriptor v after hlog
    -- A session keeps the account, so the value that was got is told by the events in front of it.
    have haccounts : Accounts (.ofClass c) ((ofClass c limits).history qs) _ :=
      (accounts_nil (.ofClass c)).history (m := ofClass c limits) qs
    obtain ⟨cells, htells, hv⟩ := haccounts.got _ _ _ _ _ _ hlog
    obtain ⟨older, className, given, recent, hbefore, hrecent, hcells⟩ := htells.eq
    have hinitial : LoadedClass.initial (.ofClass c) className given name
        = (lastGiven given name).or (if className = c.name then firstValue c name else none) := by
      rw [← lookup_cells_ofClass]
      rfl
    rw [hcells, hinitial] at hv
    refine ⟨older, className, given, recent, hbefore, hrecent, hv, fun hwritten hdeclared => ?_⟩
    -- All that was written under the name was put to this field, and its zero value is the first
    -- one.
    rw [latest_congr hwritten] at hv
    rw [hv]
    have hzero : (if className = c.name then firstValue c name else none).getD (.default descriptor)
        = .default descriptor := by
      split
      · exact firstValue_getD hdeclared
      · rfl
    cases latest (·.putTo r name descriptor) recent with
    | some put => rfl
    | none =>
      cases lastGiven given name with
      | some first => rfl
      | none => exact hzero
  · intro s s' store store' owner name descriptor hrun
    obtain ⟨r, v, rest, hstack, hset⟩ := setField_of_putfield hrun
    exact ⟨r, v, rest, hstack, Heap.field_of_setField_self hset, fun r' name' hother =>
      Heap.field_of_setField hset hother⟩

/-- A class with these fields, all named `x`, and with a static method `f` that has this code. -/
def withFields (descriptors : List String) (code : Bytes) : ClassFile where
  pool := ⟨#[none, some (.utf8 "T"), some (.classRef 1), some (.utf8 "x"), some (.utf8 "I"),
    some (.utf8 "C"), some (.nameAndType 3 4), some (.nameAndType 3 5), some (.member .field 2 6),
    some (.member .field 2 7)], [], 0⟩
  header := ⟨0, 52, 0x20, "T", none, []⟩
  fields := descriptors.map fun descriptor => ⟨0x0001, "x", descriptor, [], []⟩
  methods := [⟨0x0008, "f", "(LT;)I", [],
    [⟨"Code", [0, 2, 0, 1, 0, 0, 0, UInt8.ofNat code.length] ++ code ++ [0, 0, 0, 0]⟩]⟩]
  attributes := []

/-- The method puts 5 to the field of an instance and gets it. -/
def putsAndGets : ClassFile :=
  withFields ["I"] [0x2a, 0x08, 0xb5, 0, 8, 0x2a, 0xb4, 0, 8, 0xac]

/-- It gets what it put. -/
theorem fields_by_name_alone :
    (ofClass putsAndGets {}).history [.addInstance [("x", .int 3)],
      .callStatic "f" "(LT;)I" [.obj ⟨0⟩]]
      = [.made ⟨0⟩ "T" [("x", .int 3)], .put ⟨0⟩ "x" "I" (.int 5), .got ⟨0⟩ "x" "I" (.int 5)] ∧
    ∃ given recent, [.made ⟨0⟩ "T" [("x", .int 3)], .put ⟨0⟩ "x" "I" (.int 5)]
        = FieldEvent.made ⟨0⟩ "T" given :: recent ∧
      Value.int 5 = ((latest (·.putTo ⟨0⟩ "x" "I") recent).or (lastGiven given "x")).getD
        (.default "I") := by
  have hlog : (ofClass putsAndGets {}).history
      [.addInstance [("x", .int 3)], .callStatic "f" "(LT;)I" [.obj ⟨0⟩]]
      = [.made ⟨0⟩ "T" [("x", .int 3)], .put ⟨0⟩ "x" "I" (.int 5), .got ⟨0⟩ "x" "I" (.int 5)] := by
    decide +kernel
  refine ⟨hlog, ?_⟩
  obtain ⟨older, className, given, recent, hbefore, -, -, hv⟩ :=
    (fields_by_name putsAndGets {}).1 _ [.made ⟨0⟩ "T" [("x", .int 3)], .put ⟨0⟩ "x" "I" (.int 5)]
      ⟨0⟩ "x" "I" (.int 5) [] hlog
  -- The instance is made by the first event.
  rcases older with _ | ⟨first, _ | ⟨second, older⟩⟩
  · obtain ⟨hmade, rfl⟩ := List.cons.inj hbefore
    cases hmade
    exact ⟨_, _, rfl, hv (by decide) (by decide)⟩
  · cases hbefore
  · simp at hbefore

/-- The method puts 5 to the field `x` of type `int` of an instance and 7 to the one of type `char`,
and gets the first. -/
def putsTwiceAndGets : ClassFile :=
  withFields ["I", "C"] [0x2a, 0x08, 0xb5, 0, 8, 0x2a, 0x10, 7, 0xb5, 0, 9, 0x2a, 0xb4, 0, 8, 0xac]

/-- It gets 7: the two fields are one. -/
theorem fields_shared :
    (ofClass putsTwiceAndGets {}).history [.addInstance [], .callStatic "f" "(LT;)I" [.obj ⟨0⟩]]
      = [.made ⟨0⟩ "T" [], .put ⟨0⟩ "x" "I" (.int 5), .put ⟨0⟩ "x" "C" (.int 7),
        .got ⟨0⟩ "x" "I" (.int 7)] := by
  decide +kernel

end Machine

end RoundingPatch
