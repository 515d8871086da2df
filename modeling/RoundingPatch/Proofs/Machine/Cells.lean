import RoundingPatch.Proofs.ClassFile.Descriptor
import RoundingPatch.Proofs.Machine.Heap
import RoundingPatch.Proofs.Machine.Runs
/-!
# Fields on the heap

An instance keeps a value for each name (`Heap.cellsAt`). Writing a field of one instance changes
the value of that name there and nothing else (`cellsAt_of_setField`, `field_of_setField`). Of the
operations only three touch fields at all: the others neither write to an instance nor make one
(`Calm`, `calm_perform`).
-/

namespace RoundingPatch.Machine

open ClassFile

/-! ### Names and values -/

section Cells

variable {name n : String} {v : Value} {cells : List (String × Value)}

theorem lookup_cell_cons {m : String} :
    ((m, v) :: cells).lookup n = if n = m then some v else cells.lookup n := by
  rw [List.lookup_cons]
  by_cases h : n = m
  · simp [h]
  · rw [beq_false_of_ne h, if_neg h]

/-- **Setting a field** changes that one alone, whether or not it was there. -/
theorem lookup_setCell :
    (setCell name v cells).lookup n = if n = name then some v else cells.lookup n := by
  induction cells with
  | nil => exact lookup_cell_cons
  | cons entry cells ih =>
    obtain ⟨m, w⟩ := entry
    rw [setCell]
    -- Either the first cell is the one that is set, or the setting goes on behind it.
    by_cases hm : m = name
    · subst hm
      rw [if_pos rfl, lookup_cell_cons, lookup_cell_cons]
      split <;> rfl
    · rw [if_neg hm, lookup_cell_cons, lookup_cell_cons, ih]
      by_cases h : n = m
      · rw [if_pos h, if_pos h, if_neg (h ▸ hm)]
      · rw [if_neg h, if_neg h]

/-- Of several values for one name the last one counts. -/
theorem lookup_foldl_setCell {α : Type} (key : α → String) (value : α → Value) (items : List α) :
    (items.foldl (fun cells x => setCell (key x) (value x) cells) cells).lookup n
      = ((items.reverse.find? fun x => key x == n).map value).or (cells.lookup n) := by
  induction items generalizing cells with
  | nil => rfl
  | cons x items ih =>
    rw [List.foldl_cons, ih, lookup_setCell, List.reverse_cons, List.find?_append]
    -- A later item for the name hides `x`.
    cases items.reverse.find? fun x => key x == n with
    | some y => rfl
    | none =>
      by_cases h : n = key x
      · subst h
        simp
      · have hne : (key x == n) = false := beq_false_of_ne (Ne.symm h)
        simp [h, hne]

end Cells

/-! ### Instances -/

/-- The fields of an instance. -/
def HeapObject.cells? : HeapObject → Option (List (String × Value))
  | object _ cells => some cells
  | _ => none

namespace Heap

variable {h h' : Heap} {r r' : ObjRef} {name name' : String} {v : Value} {o : HeapObject}
  {cells : List (String × Value)}

/-- The fields of the instance at a place, if there is one. -/
def cellsAt (h : Heap) (r : ObjRef) : Option (List (String × Value)) :=
  h.objects[r.index]?.bind HeapObject.cells?

/-- A new object has its own fields, and the others keep theirs. -/
theorem cellsAt_alloc :
    (h.alloc o).2.cellsAt r = if r = ⟨h.size⟩ then o.cells? else h.cellsAt r := by
  obtain ⟨index⟩ := r
  unfold cellsAt alloc size
  dsimp only
  rw [Array.getElem?_push]
  by_cases hindex : index = h.objects.size
  · subst hindex
    simp
  · have hne : (⟨index⟩ : ObjRef) ≠ ⟨h.objects.size⟩ := fun heq => hindex (ObjRef.mk.inj heq)
    rw [if_neg hindex, if_neg hne]

/-- Cutting the heap back leaves the fields of what stays. -/
theorem cellsAt_truncate {n : ℕ} (hcells : (h.truncate n).cellsAt r = some cells) :
    h.cellsAt r = some cells := by
  unfold cellsAt truncate at hcells
  unfold cellsAt
  dsimp only at hcells
  obtain ⟨o, ho, hcells⟩ := Option.bind_eq_some_iff.mp hcells
  refine Option.bind_eq_some_iff.mpr ⟨o, ?_, hcells⟩
  rw [Array.getElem?_eq_some_iff] at ho ⊢
  obtain ⟨hlt, ho⟩ := ho
  rw [Array.size_extract] at hlt
  exact ⟨by omega, by simpa using ho⟩

/-- Replacing an object changes the fields of that object alone. -/
theorem cellsAt_set {new : HeapObject} (hget : h.get r = .ok o) :
    (h.set r new).cellsAt r' = if r' = r then new.cells? else h.cellsAt r' := by
  obtain ⟨index⟩ := r
  obtain ⟨index'⟩ := r'
  have hlt : index < h.objects.size := by
    unfold get at hget
    split at hget
    · next found hfound => exact (Array.getElem?_eq_some_iff.mp hfound).1
    · cases hget
  unfold cellsAt set
  dsimp only
  rw [Array.getElem?_setIfInBounds]
  by_cases hindex : index' = index
  · subst hindex
    simp [hlt]
  · have hne : (⟨index'⟩ : ObjRef) ≠ ⟨index⟩ := fun heq => hindex (ObjRef.mk.inj heq)
    rw [if_neg (Ne.symm hindex), if_neg hne]

/-- The fields at a reference are those of the object there. -/
theorem cellsAt_of_get (hget : h.get r = .ok o) : h.cellsAt r = o.cells? := by
  unfold get at hget
  unfold cellsAt
  split at hget
  · next found hfound =>
    cases hget
    rw [hfound]
    rfl
  · cases hget

/-- What is read is the value of the name. -/
theorem exists_cells_of_field {found : Option Value} (hfield : h.field r name = .ok found) :
    ∃ cells, h.cellsAt r = some cells ∧ found = cells.lookup name := by
  obtain ⟨o, hget, hfield⟩ := except_bind_eq_ok.mp hfield
  cases o with
  | object className cells =>
    cases hfield
    exact ⟨cells, cellsAt_of_get hget, rfl⟩
  | _ => cases hfield

/-- **Writing a field** changes the value of one name of one instance. -/
theorem cellsAt_of_setField (hset : h.setField r name v = .ok h') :
    ∃ cells, h.cellsAt r = some cells ∧
      ∀ r', h'.cellsAt r' = if r' = r then some (setCell name v cells) else h.cellsAt r' := by
  obtain ⟨o, hget, hset⟩ := except_bind_eq_ok.mp hset
  cases o with
  | object className cells =>
    cases hset
    exact ⟨cells, cellsAt_of_get hget, fun r' => cellsAt_set hget⟩
  | _ => cases hset

/-- Writing an array changes no object's fields. -/
theorem cellsAt_of_setElement {index w : Int32} (hset : h.setElement r index w = .ok h') :
    h'.cellsAt r' = h.cellsAt r' := by
  obtain ⟨i, -, hset⟩ := except_bind_eq_ok.mp hset
  obtain ⟨o, hget, hset⟩ := except_bind_eq_ok.mp hset
  cases o with
  -- An array has no cells, neither before nor after.
  | chars units | ints values =>
    dsimp only at hset
    split at hset
    · cases hset
      rw [cellsAt_set hget]
      split
      · next hr =>
        subst hr
        rw [cellsAt_of_get hget]
        rfl
      · rfl
    · cases hset
  | _ => cases hset

theorem get_set_self {new : HeapObject} (hget : h.get r = .ok o) :
    (h.set r new).get r = .ok new := by
  have hlt := (List.getElem?_eq_some_iff.mp (getElem?_of_get hget)).1
  refine get_of_getElem? ?_
  rw [set, Array.toList_setIfInBounds, List.getElem?_set_self hlt]

/-- **Writing a field** leaves all others alone: those of other names and those of other objects. -/
theorem field_of_setField (hset : h.setField r name v = .ok h') (hother : (r', name') ≠ (r, name)) :
    h'.field r' name' = h.field r' name' := by
  obtain ⟨o, hget, hset⟩ := except_bind_eq_ok.mp hset
  cases o with
  | object className cells =>
    cases hset
    -- Another name of the same instance, or another object.
    by_cases hr : r' = r
    · subst hr
      have hname : name' ≠ name := fun heq => hother (heq ▸ rfl)
      rw [field, field, get_set_self hget, hget]
      show Except.ok ((setCell name v cells).lookup name') = .ok (cells.lookup name')
      rw [lookup_setCell, if_neg hname]
    · have hindex : r.index ≠ r'.index := fun heq => hr (by cases r; cases r'; cases heq; rfl)
      rw [field, field, get, get, set, Array.getElem?_setIfInBounds, if_neg hindex]
  | _ => cases hset

/-- **A field just set reads as it was set.** -/
theorem field_of_setField_self (hset : h.setField r name v = .ok h') :
    h'.field r name = .ok (some v) := by
  obtain ⟨o, hget, hset⟩ := except_bind_eq_ok.mp hset
  cases o with
  | object className cells =>
    cases hset
    rw [field, get_set_self hget]
    show Except.ok ((setCell name v cells).lookup name) = _
    rw [lookup_setCell, if_pos rfl]
  | _ => cases hset

/-- Defining the constants of an enumeration makes no object with fields. -/
theorem cellsAt_defineFrom {className : String} {ordinal : ℕ} {names : List String}
    (hcells : (h.defineFrom className ordinal names).2.cellsAt r = some cells) :
    h.cellsAt r = some cells := by
  -- Each name is found, or a constant is made for it, which has no fields.
  induction names generalizing h ordinal with
  | nil => exact hcells
  | cons name names ih =>
    unfold defineFrom at hcells
    cases hconstant : h.constant? className name with
    | some found =>
      rw [hconstant] at hcells
      exact ih hcells
    | none =>
      rw [hconstant] at hcells
      have hcells := ih hcells
      rw [cellsAt_alloc] at hcells
      split at hcells
      · cases hcells
      · exact hcells

end Heap

/-! ### Computations that leave fields alone -/

/-- A heap has no instance with other fields than another one has there. -/
def Heap.Tame (h h' : Heap) : Prop :=
  ∀ r cells, h'.cellsAt r = some cells → h.cellsAt r = some cells

theorem Heap.Tame.refl (h : Heap) : h.Tame h :=
  fun _ _ hcells => hcells

theorem Heap.Tame.trans {h h' h'' : Heap} (h1 : h.Tame h') (h2 : h'.Tame h'') : h.Tame h'' :=
  fun r cells hcells => h1 r cells (h2 r cells hcells)

/-- A computation neither writes to an instance nor makes one. -/
def Calm {α : Type} (x : Exec α) : Prop :=
  ∀ store : Store, store.heap.Tame (x.run store).2.heap

section Calm

variable {α β : Type}

/-- A computation that does nothing is calm. -/
theorem calm_pure (a : α) : Calm (pure a) :=
  fun _ => .refl _

theorem calm_throw (f : Fault) : Calm (throw f : Exec α) :=
  fun _ => .refl _

/-- A sequence of calm computations is calm. -/
theorem Calm.bind {x : Exec α} {f : α → Exec β} (hx : Calm x) (hf : ∀ a, Calm (f a)) :
    Calm (x >>= f) := by
  intro store
  have hstart := hx store
  rw [run_sequence]
  rcases hrun : x.run store with ⟨_ | a, next⟩
  · rwa [hrun] at hstart
  · rw [hrun] at hstart
    exact hstart.trans (hf a next)

theorem calm_lift (answer : Except Fault α) : Calm (liftM answer) := by
  cases answer with
  | ok a => exact calm_pure a
  | error fault => exact calm_throw fault

/-- What goes on with an answer. -/
theorem calm_lift_bind {answer : Except Fault α} {f : α → Exec β}
    (hf : ∀ a, answer = .ok a → Calm (f a)) : Calm (liftM answer >>= f) := by
  cases answer with
  | ok a => exact hf a rfl
  | error fault => exact calm_throw fault

theorem calm_get_bind {f : Store → Exec β} (hf : ∀ store, Calm (f store)) : Calm (get >>= f) :=
  fun store => hf store store

theorem calm_reading (read : Heap → Except Fault α) : Calm (reading read) :=
  calm_get_bind fun _ => calm_lift _

/-- Making an object without fields is calm. -/
theorem calm_alloc {o : HeapObject} (ho : o.cells? = none) : Calm (alloc o) := by
  intro store r cells hcells
  have hcells : (store.heap.alloc o).2.cellsAt r = some cells := hcells
  rw [Heap.cellsAt_alloc, ho] at hcells
  split at hcells
  · cases hcells
  · exact hcells

/-- A change of the heap is calm if what it makes of each heap is tame. -/
theorem calm_changing {change : Heap → Except Fault Heap}
    (h : ∀ heap heap', change heap = .ok heap' → heap.Tame heap') : Calm (changing change) := by
  intro store
  have hrun : (changing change).run store = ((liftM (change store.heap) : Exec Heap) >>= fun heap =>
      modify fun s => { s with heap }).run store := rfl
  rw [hrun]
  cases hchange : change store.heap with
  | ok heap => exact h _ _ hchange
  | error fault => exact .refl _

theorem calm_countInvocation : Calm countInvocation :=
  fun _ => .refl _

theorem calm_countIntrinsic : Calm countIntrinsic :=
  fun _ => .refl _

theorem cells?_of_newArray {element length : Int32} {o : HeapObject}
    (h : newArray element length = .ok o) : o.cells? = none := by
  unfold newArray at h
  dsimp only at h
  repeat' split at h
  all_goals first | cases h; done | (cases h; rfl)

/-- Whether an operation leaves fields alone, whatever it is done to. -/
def Operation.isCalm : Operation → Bool
  | .newObject _ | .putField _ | .call .. => false
  | _ => true

/-- **An operation that is no construction, no call and no write to a field** leaves fields alone.
-/
theorem calm_perform (c : LoadedClass) (a : Activation) {op : Operation} (h : op.isCalm = true) :
    Calm (perform c a op) := by
  cases op with
  | newObject | putField | call => cases h
  | nothing | returnNothing => exact calm_pure _
  | push v | pop | returnInt | returnRef => exact calm_lift_bind fun _ _ => calm_pure _
  | pushText s => exact (calm_alloc rfl).bind fun _ => calm_lift_bind fun _ _ => calm_pure _
  | storeInt index | storeRef index | negate | toChar | dup | checkCast
  | lookupSwitch default pairs =>
    exact calm_lift_bind fun _ _ => calm_lift_bind fun _ _ => calm_pure _
  | loadInt index | loadRef index | increment index delta | tableSwitch low high default targets =>
    exact calm_lift_bind fun _ _ => calm_lift_bind fun _ _ => calm_lift_bind fun _ _ => calm_pure _
  | dupUnder =>
    exact calm_lift_bind fun _ _ => calm_lift_bind fun _ _ => calm_lift_bind fun _ _ =>
      calm_lift_bind fun _ _ => calm_lift_bind fun _ _ => calm_pure _
  | swap | arith op =>
    exact calm_lift_bind fun _ _ => calm_lift_bind fun _ _ => calm_lift_bind fun _ _ =>
      calm_lift_bind fun _ _ => calm_pure _
  | branch condition target =>
    refine calm_lift_bind fun ⟨taken, _⟩ _ => ?_
    cases taken with
    | true => exact calm_lift_bind fun _ _ => calm_pure _
    | false => exact calm_pure _
  | newArray element =>
    -- What is allocated is an array.
    exact calm_lift_bind fun _ _ => calm_lift_bind fun o ho =>
      (calm_alloc (cells?_of_newArray ho)).bind fun _ => calm_lift_bind fun _ _ => calm_pure _
  | arrayLoad op =>
    exact calm_lift_bind fun _ _ => calm_lift_bind fun _ _ => (calm_reading _).bind fun _ =>
      calm_lift_bind fun _ _ => calm_pure _
  | arrayStore op =>
    exact calm_lift_bind fun _ _ => calm_lift_bind fun _ _ => calm_lift_bind fun _ _ =>
      -- An element of an array is no cell.
      (calm_changing fun _ _ hset r cells hcells => Heap.cellsAt_of_setElement hset ▸ hcells).bind
        fun _ => calm_pure _
  | arrayLength | getField name descriptor =>
    exact calm_lift_bind fun _ _ => (calm_reading _).bind fun _ =>
      calm_lift_bind fun _ _ => calm_pure _
  | instanceOf className =>
    refine calm_lift_bind fun ⟨r, _⟩ _ => ?_
    cases r with
    | none => exact calm_lift_bind fun _ _ => calm_pure _
    | some r => exact (calm_reading _).bind fun _ => calm_lift_bind fun _ _ => calm_pure _
  | getStatic owner name descriptor =>
    exact (calm_reading _).bind fun _ => calm_lift_bind fun _ _ => calm_pure _
  | raise => exact calm_lift_bind fun _ _ => calm_get_bind fun _ => calm_throw _

/-- Entering a method is calm. -/
theorem calm_enter (limits : Limits) (depth : ℕ) (p : Program) (args : List Value) :
    Calm (enter limits depth p args) := by
  have hstart : Calm (countInvocation >>= fun _ => liftM (Activation.start p args)) :=
    calm_countInvocation.bind fun _ => calm_lift _
  unfold enter
  split
  · exact (calm_throw _).bind fun _ => hstart
  · exact hstart

end Calm

/-! ### Calls -/

/-- Whether a call would construct an exception with a message, if it leaves the loaded class. -/
def isMessage (name descriptor : String) : Prop :=
  name = "<init>" ∧ descriptor = messageConstructor

/-- Finding out whether a call is the loaded class's own is calm. -/
theorem calm_dispatchesHere (c : LoadedClass) (kind : CallKind) (owner name descriptor : String)
    (receiver : ObjRef) : Calm (dispatchesHere c kind owner name descriptor receiver) := by
  unfold dispatchesHere
  split
  · exact calm_pure _
  · split
    · exact calm_pure _
    · exact (calm_reading _).bind fun _ => calm_pure _

/-- A call outside the loaded class is calm, but for the one that sets a message. -/
theorem calm_intrinsic {site : CallSite} (h : ¬ isMessage site.name site.descriptor)
    (receiver : ObjRef) (args : List Value) : Calm (intrinsic site receiver args) := by
  unfold intrinsic
  refine calm_countIntrinsic.bind fun _ => ?_
  split
  · next hname =>
    -- A constructor without a message does nothing.
    rw [if_neg fun hdescriptor => h ⟨hname, hdescriptor⟩]
    exact calm_pure _
  · refine (calm_reading _).bind fun o => ?_
    split
    · -- The methods of a constant make a string at most.
      split
      · exact calm_pure _
      · exact (calm_alloc rfl).bind fun _ => calm_pure _
      · exact (calm_alloc rfl).bind fun _ => calm_pure _
      · exact calm_throw _
    · exact calm_throw _

/-- A call leaves fields alone, unless it constructs an exception with a message. -/
theorem calm_invoke (c : LoadedClass) (a : Activation) (kind : CallKind)
    {owner name descriptor : String} (h : ¬ isMessage name descriptor) :
    Calm (invoke c a kind owner name descriptor) := by
  have hcheck {fails : Prop} [Decidable fails] {fault : Fault} {rest : Exec Flow}
      (hrest : Calm rest) :
      Calm (do
        if fails then throw fault
        rest) := by
    split
    · exact (calm_throw fault).bind fun _ => hrest
    · exact hrest
  unfold invoke
  refine calm_lift_bind fun d _ => ?_
  -- A static call enters the callee; the others look at the receiver first.
  cases kind with
  | static =>
    exact hcheck <| calm_lift_bind fun _ _ => hcheck <| calm_lift_bind fun _ _ => calm_pure _
  | virtual | special =>
    refine hcheck <| calm_lift_bind fun _ _ => calm_lift_bind fun ⟨r, _⟩ _ => ?_
    refine (calm_dispatchesHere c _ _ _ _ r).bind fun here => ?_
    cases here with
    | true => exact calm_lift_bind fun _ _ => calm_pure _
    | false =>
      exact (calm_intrinsic h _ _).bind fun _ => calm_lift_bind fun _ _ => calm_pure _

/-! ### What an operation does before it goes on -/

/-- From a heap, an operation goes on with an activation and a heap that fulfil `post`, or does
something else and leaves fields alone. -/
def Settles (h : Heap) (post : Activation → Heap → Prop) (x : Exec Flow) : Prop :=
  ∀ store : Store, store.heap = h →
    match x.run store with
    | (.ok (.next b), store') => post b store'.heap
    | (_, store') => h.Tame store'.heap

section Settles

variable {α : Type} {h : Heap} {post : Activation → Heap → Prop}

/-- A calm computation settles, where what it gives meets the condition. -/
theorem settles_of_calm {x : Exec Flow} (hx : Calm x)
    (hpost : ∀ store store' b, store.heap = h → Yields x store (.next b) store' →
      h.Tame store'.heap → post b store'.heap) : Settles h post x := by
  rintro store rfl
  have htame := hx store
  rcases hrun : x.run store with ⟨_ | b | _ | _, store'⟩ <;> rw [hrun] at htame
  · exact htame
  · exact hpost store store' b rfl hrun htame
  · exact htame
  · exact htame

theorem settles_lift_bind {answer : Except Fault α} {f : α → Exec Flow}
    (hf : ∀ v, answer = .ok v → Settles h post (f v)) : Settles h post (liftM answer >>= f) := by
  cases answer with
  | ok v => exact hf v rfl
  | error fault => exact fun store hstore => hstore ▸ Heap.Tame.refl _

theorem settles_throw_bind {fault : Fault} {f : α → Exec Flow} :
    Settles h post (throw fault >>= f) :=
  fun _ hstore => hstore ▸ Heap.Tame.refl _

theorem settles_call {a : Activation} {site : CallSite} {callee : Program} {args : List Value} :
    Settles h post (pure (.call a site callee args)) :=
  fun _ hstore => hstore ▸ Heap.Tame.refl _

/-- What goes on after the heap was looked at. -/
theorem settles_bind_same {x : Exec α} {f : α → Exec Flow}
    (hx : ∀ store, (x.run store).2.heap = store.heap) (hf : ∀ v, Settles h post (f v)) :
    Settles h post (x >>= f) := by
  rintro store rfl
  have hheap := hx store
  rw [run_sequence]
  rcases hrun : x.run store with ⟨_ | v, next⟩ <;> rw [hrun] at hheap
  · exact hheap ▸ Heap.Tame.refl _
  · exact hf v next hheap

/-- A change of the heap settles into the heap it makes. -/
theorem settles_changing_bind {change : Heap → Except Fault Heap} {b : Activation}
    (hpost : ∀ h', change h = .ok h' → post b h') :
    Settles h post (changing change >>= fun _ => pure (.next b)) := by
  rintro store rfl
  have hrun : (changing change).run store = ((liftM (change store.heap) : Exec Heap) >>= fun heap =>
      modify fun s => { s with heap }).run store := rfl
  rw [run_sequence, hrun]
  cases hchange : change store.heap with
  | ok heap => exact hpost heap hchange
  | error fault => exact Heap.Tame.refl _

/-- **Writing a field** takes a value and an object off the stack and sets the field of that
object. -/
theorem settles_putField (c : LoadedClass) (a : Activation) (name : String) :
    Settles h (fun _ h' => ∃ v r rest, a.stack = v :: .obj r :: rest ∧ h.setField r name v = .ok h')
      (perform c a (.putField name)) := by
  refine settles_lift_bind fun ⟨v, a'⟩ hpop => settles_lift_bind fun ⟨r, a''⟩ hobj => ?_
  refine settles_changing_bind fun h' hset => ⟨v, r, a''.stack, ?_, hset⟩
  rw [(Activation.stack_of_pop hpop).1, (Activation.stack_of_popObj hobj).1]

/-- **Reading a field** puts what the object has, or the default of the descriptor, on the stack. -/
theorem settles_getField (c : LoadedClass) (a : Activation) (name descriptor : String) :
    Settles h (fun b h' => h.Tame h' ∧ ∃ r found rest, a.stack = .obj r :: rest ∧
        h.field r name = .ok found ∧ b.stack = found.getD (.default descriptor) :: rest)
      (perform c a (.getField name descriptor)) := by
  refine settles_of_calm (calm_perform c a rfl) fun store store' b hstore hyields htame =>
    ⟨htame, ?_⟩
  obtain ⟨⟨r, a'⟩, hobj, hyields⟩ := yields_lift_bind.mp hyields
  obtain ⟨found, _, hread, hyields⟩ := yields_bind.mp hyields
  obtain ⟨b', hpush, hyields⟩ := yields_lift_bind.mp hyields
  cases (yields_pure.mp hyields).1
  refine ⟨r, found, a'.stack, (Activation.stack_of_popObj hobj).1, ?_, ?_⟩
  · rw [← hstore]
    exact (yields_reading.mp hread).1
  · unfold Activation.push at hpush
    dsimp only at hpush
    split at hpush
    · cases hpush
    · cases hpush
      rfl

/-- Finding out whether a call is the loaded class's own leaves the heap as it is. -/
theorem heap_dispatchesHere (c : LoadedClass) (kind : CallKind) (owner name descriptor : String)
    (receiver : ObjRef) (store : Store) :
    ((dispatchesHere c kind owner name descriptor receiver).run store).2.heap = store.heap := by
  unfold dispatchesHere
  split
  · rfl
  · split
    · rfl
    · have hrun : (reading (·.get receiver)).run store
          = (liftM (store.heap.get receiver) : Exec HeapObject).run store := rfl
      rw [run_sequence, hrun]
      cases store.heap.get receiver <;> rfl

/-- The constructor of an exception keeps the message in a field. -/
theorem intrinsic_message {site : CallSite} (hmessage : isMessage site.name site.descriptor)
    (receiver : ObjRef) (message : Value) : intrinsic site receiver [message] =
      (countIntrinsic >>= fun _ => changing (·.setField receiver messageField message) >>= fun _ =>
        pure none) := by
  unfold intrinsic
  rw [if_pos hmessage.1, if_pos hmessage.2]

/-- **Constructing an exception** writes its message to it. -/
theorem settles_message (c : LoadedClass) (a : Activation) (kind : CallKind)
    {owner name descriptor : String} (hmessage : isMessage name descriptor) :
    Settles h (fun _ h' => ∃ message r rest, a.stack = message :: .obj r :: rest ∧
        h.setField r messageField message = .ok h')
      (invoke c a kind owner name descriptor) := by
  obtain ⟨rfl, rfl⟩ := hmessage
  have hd : MethodDescriptor.parse messageConstructor = .ok ⟨[.object "java/lang/String"], none⟩ :=
    MethodDescriptor.parse_text (d := ⟨[.object "java/lang/String"], none⟩) (by decide) (by decide)
  -- The descriptor has one parameter, so one argument is popped from above the receiver.
  unfold invoke
  refine settles_lift_bind fun d hparse => ?_
  cases hd.symm.trans hparse
  dsimp only
  rw [if_neg (by decide)]
  refine settles_lift_bind fun ⟨args, a'⟩ hmany => ?_
  obtain ⟨passed, rfl, hlength, hstack, -⟩ := Activation.stack_of_popMany hmany
  obtain ⟨message, rfl⟩ := List.length_eq_one_iff.mp hlength
  cases kind with
  | static =>
    dsimp only
    split
    · exact settles_throw_bind
    · exact settles_lift_bind fun _ _ => settles_call
  | virtual | special =>
    refine settles_lift_bind fun ⟨r, a''⟩ hobj => ?_
    refine settles_bind_same (heap_dispatchesHere c _ _ _ _ r) fun here => ?_
    cases here with
    | true => exact settles_lift_bind fun _ _ => settles_call
    | false =>
      have hstack' : a.stack = message :: .obj r :: a''.stack := by
        rw [hstack, (Activation.stack_of_popObj hobj).1]
        rfl
      -- The call leaves the class, and is answered by the write.
      rw [show [message] ++ [] = [message] from rfl, intrinsic_message ⟨rfl, rfl⟩, bind_assoc]
      refine settles_bind_same (fun _ => rfl) fun _ => ?_
      rw [bind_assoc]
      exact settles_changing_bind fun h' hset => ⟨message, r, a''.stack, hstack', hset⟩

end Settles

end RoundingPatch.Machine
