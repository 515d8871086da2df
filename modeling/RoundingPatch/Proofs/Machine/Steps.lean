import RoundingPatch.Proofs.ClassFile.Descriptor
import RoundingPatch.Proofs.Machine.Heap
import RoundingPatch.Proofs.Machine.Operations
import RoundingPatch.Proofs.Machine.Runs
/-!
# Single steps

What each operation does in a run, as far as it needs no other method of the loaded class: one lemma
for each operation that says which state it leads to, or how it ends the run. An exception that is
constructed and thrown is one of them (`comes_throwing`).
-/

namespace RoundingPatch.Machine

open ClassFile

section Steps

variable {c : LoadedClass} {limits : Limits} {p : Program} {locals stack : List Value} {k t : ℕ}
  {callers : List (CallSite × Activation)} {h : Heap} {index : UInt16} {u v w : Int32} {r : ObjRef}

theorem Activation.push_eq (hroom : stack.length < p.maxStack.toNat) (x : Value) :
    (⟨p, locals, stack, k⟩ : Activation).push x = .ok ⟨p, locals, x :: stack, k⟩ :=
  if_neg (Nat.not_le_of_lt hroom)

theorem Activation.load_eq {x : Value} (hx : locals[index.toNat]? = some x) :
    (⟨p, locals, stack, k⟩ : Activation).load index = .ok x := by
  unfold Activation.load
  rw [hx]

theorem leads_push {x : Value} (hk : p.Does k (.push x)) (hroom : stack.length < p.maxStack.toNat) :
    Leads c limits 1 ⟨⟨p, locals, stack, k⟩, callers⟩ h ⟨⟨p, locals, x :: stack, k + 1⟩,
      callers⟩ h := by
  obtain ⟨i, hi, hop⟩ := hk.plain rfl
  exact leads_of_quiet hi hop fun store _ =>
    Yields.bind (yields_lift.mpr ⟨Activation.push_eq hroom x, rfl⟩) (yields_pure.mpr ⟨rfl, rfl⟩)

theorem leads_loadInt (hk : p.Does k (.loadInt index)) (hv : locals[index.toNat]? = some (.int v))
    (hroom : stack.length < p.maxStack.toNat) :
    Leads c limits 1 ⟨⟨p, locals, stack, k⟩, callers⟩ h
      ⟨⟨p, locals, .int v :: stack, k + 1⟩, callers⟩ h := by
  obtain ⟨i, hi, hop⟩ := hk.plain rfl
  exact leads_of_quiet hi hop fun store _ =>
    Yields.bind (yields_lift.mpr ⟨Activation.load_eq hv, rfl⟩)
      (Yields.bind (yields_lift.mpr ⟨rfl, rfl⟩)
        (Yields.bind (yields_lift.mpr ⟨Activation.push_eq hroom _, rfl⟩)
          (yields_pure.mpr ⟨rfl, rfl⟩)))

theorem leads_loadRef {x : Option ObjRef} (hk : p.Does k (.loadRef index))
    (hx : locals[index.toNat]? = some (.ref x)) (hroom : stack.length < p.maxStack.toNat) :
    Leads c limits 1 ⟨⟨p, locals, stack, k⟩, callers⟩ h
      ⟨⟨p, locals, .ref x :: stack, k + 1⟩, callers⟩ h := by
  obtain ⟨i, hi, hop⟩ := hk.plain rfl
  exact leads_of_quiet hi hop fun store _ =>
    Yields.bind (yields_lift.mpr ⟨Activation.load_eq hx, rfl⟩)
      (Yields.bind (yields_lift.mpr ⟨rfl, rfl⟩)
        (Yields.bind (yields_lift.mpr ⟨Activation.push_eq hroom _, rfl⟩)
          (yields_pure.mpr ⟨rfl, rfl⟩)))

theorem leads_storeInt (hk : p.Does k (.storeInt index)) (hindex : index.toNat < locals.length) :
    Leads c limits 1 ⟨⟨p, locals, .int v :: stack, k⟩, callers⟩ h
      ⟨⟨p, locals.set index.toNat (.int v), stack, k + 1⟩, callers⟩ h := by
  obtain ⟨i, hi, hop⟩ := hk.plain rfl
  have hstore : (⟨p, locals, stack, k + 1⟩ : Activation).store index (.int v)
      = .ok ⟨p, locals.set index.toNat (.int v), stack, k + 1⟩ := if_pos hindex
  exact leads_of_quiet hi hop fun store _ =>
    Yields.bind (yields_lift.mpr ⟨rfl, rfl⟩)
      (Yields.bind (yields_lift.mpr ⟨hstore, rfl⟩) (yields_pure.mpr ⟨rfl, rfl⟩))

theorem leads_increment {delta : Int16} (hk : p.Does k (.increment index delta))
    (hv : locals[index.toNat]? = some (.int v)) :
    Leads c limits 1 ⟨⟨p, locals, stack, k⟩, callers⟩ h
      ⟨⟨p, locals.set index.toNat (.int (v + delta.toInt32)), stack, k + 1⟩, callers⟩ h := by
  obtain ⟨i, hi, hop⟩ := hk.plain rfl
  have hindex : index.toNat < locals.length := (List.getElem?_eq_some_iff.mp hv).1
  have hstore : (⟨p, locals, stack, k + 1⟩ : Activation).store index (.int (v + delta.toInt32))
      = .ok ⟨p, locals.set index.toNat (.int (v + delta.toInt32)), stack, k + 1⟩ := if_pos hindex
  exact leads_of_quiet hi hop fun store _ =>
    Yields.bind (yields_lift.mpr ⟨Activation.load_eq hv, rfl⟩)
      (Yields.bind (yields_lift.mpr ⟨rfl, rfl⟩)
        (Yields.bind (yields_lift.mpr ⟨hstore, rfl⟩) (yields_pure.mpr ⟨rfl, rfl⟩)))

theorem leads_arith {op : Arith} (hk : p.Does k (.arith op)) (heval : op.eval v w = .ok u)
    (hroom : stack.length < p.maxStack.toNat) :
    Leads c limits 1 ⟨⟨p, locals, .int w :: .int v :: stack, k⟩, callers⟩ h
      ⟨⟨p, locals, .int u :: stack, k + 1⟩, callers⟩ h := by
  obtain ⟨i, hi, hop⟩ := hk.plain rfl
  exact leads_of_quiet hi hop fun store _ =>
    Yields.bind (yields_lift.mpr ⟨rfl, rfl⟩)
      (Yields.bind (yields_lift.mpr ⟨rfl, rfl⟩)
        (Yields.bind (yields_lift.mpr ⟨heval, rfl⟩)
          (Yields.bind (yields_lift.mpr ⟨Activation.push_eq hroom _, rfl⟩)
            (yields_pure.mpr ⟨rfl, rfl⟩))))

/-- **A branch** goes on at its label or behind itself. -/
theorem leads_branch {condition : Condition} {taken : Bool} {rest : List Value}
    (hk : p.Does k (.branch condition (Body.labelAt t)))
    (htest : (⟨p, locals, stack, k + 1⟩ : Activation).test condition
      = .ok (taken, ⟨p, locals, rest, k + 1⟩)) (ht : t < 2147483648) :
    Leads c limits 1 ⟨⟨p, locals, stack, k⟩, callers⟩ h
      ⟨⟨p, locals, rest, if taken then t else k + 1⟩, callers⟩ h := by
  obtain ⟨i, l, hi, hop, htarget⟩ := hk.branch ht
  have hjump : (⟨p, locals, rest, k + 1⟩ : Activation).jump l = .ok ⟨p, locals, rest, t⟩ := by
    unfold Activation.jump
    dsimp only
    rw [htarget]
    rfl
  refine leads_of_quiet hi hop fun store _ => Yields.bind (yields_lift.mpr ⟨htest, rfl⟩) ?_
  cases taken with
  | true => exact Yields.bind (yields_lift.mpr ⟨hjump, rfl⟩) (yields_pure.mpr ⟨rfl, rfl⟩)
  | false => exact yields_pure.mpr ⟨rfl, rfl⟩

/-- A table switch on a value in its range goes to that value's target. -/
theorem leads_tableSwitch {low high : Int32} {default : Label} {targets : List Label}
    (hk : p.Does k (.tableSwitch low high default targets)) (hlow : low ≤ v) (hhigh : v ≤ high)
    (htarget : targets[(v - low).toUInt32.toNat]? = some (Body.labelAt t)) (ht : t < 2147483648) :
    Leads c limits 1 ⟨⟨p, locals, .int v :: stack, k⟩, callers⟩ h
      ⟨⟨p, locals, stack, t⟩, callers⟩ h := by
  obtain ⟨i, default', targets', hi, hop, htargets⟩ := hk.tableSwitch
  obtain ⟨l, hl, hposition⟩ := htargets _ t htarget ht
  have hlabel : tableTarget low high default' targets' v = .ok l := by
    rw [tableTarget, if_pos ⟨hlow, hhigh⟩, hl]
  have hjump : (⟨p, locals, stack, k + 1⟩ : Activation).jump l = .ok ⟨p, locals, stack, t⟩ := by
    unfold Activation.jump
    dsimp only
    rw [hposition]
    rfl
  exact leads_of_quiet hi hop fun store _ =>
    Yields.bind (yields_lift.mpr ⟨rfl, rfl⟩)
      (Yields.bind (yields_lift.mpr ⟨hlabel, rfl⟩)
        (Yields.bind (yields_lift.mpr ⟨hjump, rfl⟩) (yields_pure.mpr ⟨rfl, rfl⟩)))

/-! #### Objects -/

theorem leads_getField {name descriptor : String} {x : Value}
    (hk : p.Does k (.getField name descriptor)) (hfield : h.field r name = .ok (some x))
    (hroom : stack.length < p.maxStack.toNat) :
    Leads c limits 1 ⟨⟨p, locals, .obj r :: stack, k⟩, callers⟩ h
      ⟨⟨p, locals, x :: stack, k + 1⟩, callers⟩ h := by
  obtain ⟨i, hi, hop⟩ := hk.plain rfl
  exact leads_of_quiet hi hop fun store hstore =>
    Yields.bind (yields_lift.mpr ⟨rfl, rfl⟩)
      (Yields.bind (yields_reading.mpr ⟨by rw [hstore]; exact hfield, rfl⟩)
        (Yields.bind (yields_lift.mpr ⟨Activation.push_eq hroom _, rfl⟩)
          (yields_pure.mpr ⟨rfl, rfl⟩)))

theorem leads_getStatic {owner name descriptor : String}
    (hk : p.Does k (.getStatic owner name descriptor))
    (hfield : staticField owner name descriptor h = .ok r)
    (hroom : stack.length < p.maxStack.toNat) :
    Leads c limits 1 ⟨⟨p, locals, stack, k⟩, callers⟩ h
      ⟨⟨p, locals, .obj r :: stack, k + 1⟩, callers⟩ h := by
  obtain ⟨i, hi, hop⟩ := hk.plain rfl
  exact leads_of_quiet hi hop fun store hstore =>
    Yields.bind (yields_reading.mpr ⟨by rw [hstore]; exact hfield, rfl⟩)
      (Yields.bind (yields_lift.mpr ⟨Activation.push_eq hroom _, rfl⟩)
        (yields_pure.mpr ⟨rfl, rfl⟩))

theorem leads_arrayLoad {opcode : Opcode} (hk : p.Does k (.arrayLoad opcode))
    (helement : h.element r v = .ok u) (hroom : stack.length < p.maxStack.toNat) :
    Leads c limits 1 ⟨⟨p, locals, .int v :: .obj r :: stack, k⟩, callers⟩ h
      ⟨⟨p, locals, .int u :: stack, k + 1⟩, callers⟩ h := by
  obtain ⟨i, hi, hop⟩ := hk.plain rfl
  exact leads_of_quiet hi hop fun store hstore =>
    Yields.bind (yields_lift.mpr ⟨rfl, rfl⟩)
      (Yields.bind (yields_lift.mpr ⟨rfl, rfl⟩)
        (Yields.bind (yields_reading.mpr ⟨by rw [hstore]; exact helement, rfl⟩)
          (Yields.bind (yields_lift.mpr ⟨Activation.push_eq hroom _, rfl⟩)
            (yields_pure.mpr ⟨rfl, rfl⟩))))

/-- An array has no element there. -/
theorem ends_arrayLoad {opcode : Opcode} {f : Fault} (hk : p.Does k (.arrayLoad opcode))
    (helement : h.element r v = .error f) :
    Ends c limits ⟨⟨p, locals, .int v :: .obj r :: stack, k⟩, callers⟩ h ⟨1, .error f⟩ h := by
  obtain ⟨i, hi, hop⟩ := hk.plain rfl
  refine ends_of_fails hi hop fun store hstore => ⟨store, hstore, ?_⟩
  refine fails_bind.mpr (.inr ⟨(v, _), store, yields_lift.mpr ⟨rfl, rfl⟩, ?_⟩)
  refine fails_bind.mpr (.inr ⟨(r, _), store, yields_lift.mpr ⟨rfl, rfl⟩, ?_⟩)
  exact fails_bind.mpr (.inl (fails_reading.mpr ⟨by rw [hstore]; exact helement, rfl⟩))

/-- There is no array. -/
theorem ends_arrayLoad_null {opcode : Opcode} (hk : p.Does k (.arrayLoad opcode)) :
    Ends c limits ⟨⟨p, locals, .int v :: .null :: stack, k⟩, callers⟩ h
      ⟨1, .error (.execution (.nullReference opcode.mnemonic))⟩ h := by
  obtain ⟨i, hi, hop⟩ := hk.plain rfl
  refine ends_of_fails hi hop fun store hstore => ⟨store, hstore, ?_⟩
  refine fails_bind.mpr (.inr ⟨(v, _), store, yields_lift.mpr ⟨rfl, rfl⟩, ?_⟩)
  exact fails_bind.mpr (.inl (fails_lift.mpr ⟨rfl, rfl⟩))

/-! #### Calls and results -/

theorem ends_returnInt (hk : p.Does k .returnInt) :
    Ends c limits ⟨⟨p, locals, .int v :: stack, k⟩, callers⟩ h ⟨1, .ok (some (.int v))⟩ h := by
  obtain ⟨i, hi, hop⟩ := hk.plain rfl
  exact ends_of_yields hi hop fun store =>
    Yields.bind (yields_lift.mpr ⟨rfl, rfl⟩) (yields_pure.mpr ⟨rfl, rfl⟩)

/-- The store after a call that leaves the loaded class was counted. -/
def Store.countCall (s : Store) : Store :=
  { s with metrics := { s.metrics with intrinsicCalls := s.metrics.intrinsicCalls + 1 } }

theorem Store.heap_countCall (s : Store) : s.countCall.heap = s.heap := rfl

theorem yields_countIntrinsic {s : Store} : Yields countIntrinsic s () s.countCall := rfl

/-- A call goes to another class. -/
theorem yields_dispatchesHere {kind : CallKind} {owner name descriptor : String} {store : Store}
    (howner : owner ≠ c.name) (hmethod : c.hasMethod name descriptor = false) :
    Yields (dispatchesHere c kind owner name descriptor r) store false store := by
  unfold dispatchesHere
  rw [if_neg howner, hmethod]
  simp only [Bool.not_false, or_true, if_true]
  exact yields_pure.mpr ⟨rfl, rfl⟩

/-- **A call to another class** on an object. -/
theorem leads_call_outside {kind : CallKind} {owner name descriptor : String} {d : MethodDescriptor}
    {a : Activation} {args rest : List Value} {result : Option Value}
    (hk : p.Does k (.call kind owner name descriptor)) (hkind : kind ≠ .static)
    (hd : MethodDescriptor.parse descriptor = .ok d)
    (hnarrow : (d.params.all isNarrow && d.result.all isNarrow) = true)
    (howner : owner ≠ c.name) (hmethod : c.hasMethod name descriptor = false)
    (hpop : (⟨p, locals, stack, k + 1⟩ : Activation).popMany d.params.length []
      = .ok (args, ⟨p, locals, .obj r :: rest, k + 1⟩))
    (hintrinsic : ∀ store : Store, store.heap = h → ∃ store' : Store, store'.heap = h' ∧
      Yields (intrinsic ⟨owner, name, descriptor, d.result.isSome⟩ r args) store result store')
    (hreceive : (⟨p, locals, rest, k + 1⟩ : Activation).receive
      ⟨owner, name, descriptor, d.result.isSome⟩ result = .ok a) :
    Leads c limits 1 ⟨⟨p, locals, stack, k⟩, callers⟩ h ⟨a, callers⟩ h' := by
  obtain ⟨i, hi, hop⟩ := hk.plain rfl
  refine leads_of_yields hi hop fun store hstore => ?_
  obtain ⟨store', hstore', hyields⟩ := hintrinsic store hstore
  refine ⟨store', hstore', Yields.bind (yields_lift.mpr ⟨hd, rfl⟩) ?_⟩
  rw [hnarrow]
  refine Yields.bind (yields_lift.mpr ⟨hpop, rfl⟩) ?_
  -- Neither kind finds the method in the loaded class, so both go to the built-in one.
  cases kind with
  | static => exact absurd rfl hkind
  | virtual | special =>
    exact Yields.bind (yields_lift.mpr ⟨rfl, rfl⟩)
      (Yields.bind (yields_dispatchesHere howner hmethod)
        (hyields.bind (Yields.bind (yields_lift.mpr ⟨hreceive, rfl⟩) (yields_pure.mpr ⟨rfl, rfl⟩))))

/-- A constant of an enumeration knows its ordinal. -/
theorem leads_ordinal {owner className name : String} {ordinal : ℕ}
    (hk : p.Does k (.call .virtual owner "ordinal" "()I")) (howner : owner ≠ c.name)
    (hmethod : c.hasMethod "ordinal" "()I" = false)
    (hget : h.get r = .ok (.constant className name ordinal))
    (hroom : stack.length < p.maxStack.toNat) :
    Leads c limits 1 ⟨⟨p, locals, .obj r :: stack, k⟩, callers⟩ h
      ⟨⟨p, locals, .int (Int32.ofNat ordinal) :: stack, k + 1⟩, callers⟩ h := by
  have hd : MethodDescriptor.parse "()I" = .ok ⟨[], some .int⟩ :=
    MethodDescriptor.parse_text (d := ⟨[], some .int⟩) (by decide) (by decide)
  refine leads_call_outside hk (by decide) hd rfl howner hmethod rfl (fun store hstore => ?_)
    (show (⟨p, locals, stack, k + 1⟩ : Activation).receive _ (some _) = _ from
      Activation.push_eq hroom _)
  refine ⟨store.countCall, hstore, Yields.bind yields_countIntrinsic ?_⟩
  exact Yields.bind (yields_reading.mpr ⟨by rw [Store.heap_countCall, hstore, hget], rfl⟩)
    (yields_pure.mpr ⟨rfl, rfl⟩)
/-! #### Exceptions -/

/-- A class other than the loaded one is made without fields. -/
theorem leads_newObject {className : String} (hk : p.Does k (.newObject className))
    (hother : className ≠ c.name) (hroom : stack.length < p.maxStack.toNat) :
    Leads c limits 1 ⟨⟨p, locals, stack, k⟩, callers⟩ h
      ⟨⟨p, locals, .obj ⟨h.size⟩ :: stack, k + 1⟩, callers⟩ (h.alloc (.object className [])).2 := by
  obtain ⟨i, hi, hop⟩ := hk.plain rfl
  refine leads_of_yields hi hop fun store hstore => ?_
  refine ⟨{ store with heap := (store.heap.alloc (.object className [])).2 }, by rw [hstore], ?_⟩
  refine Yields.bind (yields_alloc.mpr ⟨rfl, by rw [if_neg hother]⟩) ?_
  rw [← hstore]
  exact Yields.bind (yields_lift.mpr ⟨Activation.push_eq hroom _, rfl⟩) (yields_pure.mpr ⟨rfl, rfl⟩)

theorem leads_pushText {text : String} (hk : p.Does k (.pushText text))
    (hroom : stack.length < p.maxStack.toNat) :
    Leads c limits 1 ⟨⟨p, locals, stack, k⟩, callers⟩ h
      ⟨⟨p, locals, .obj ⟨h.size⟩ :: stack, k + 1⟩, callers⟩ (h.alloc (.text text)).2 := by
  obtain ⟨i, hi, hop⟩ := hk.plain rfl
  refine leads_of_yields hi hop fun store hstore => ?_
  refine ⟨{ store with heap := (store.heap.alloc (.text text)).2 }, by rw [hstore], ?_⟩
  refine Yields.bind (yields_alloc.mpr ⟨rfl, rfl⟩) ?_
  rw [← hstore]
  exact Yields.bind (yields_lift.mpr ⟨Activation.push_eq hroom _, rfl⟩) (yields_pure.mpr ⟨rfl, rfl⟩)

theorem leads_dup {x : Value} (hk : p.Does k .dup)
    (hroom : (x :: stack).length < p.maxStack.toNat) :
    Leads c limits 1 ⟨⟨p, locals, x :: stack, k⟩, callers⟩ h
      ⟨⟨p, locals, x :: x :: stack, k + 1⟩, callers⟩ h := by
  obtain ⟨i, hi, hop⟩ := hk.plain rfl
  exact leads_of_quiet hi hop fun store _ =>
    Yields.bind (yields_lift.mpr ⟨rfl, rfl⟩)
      (Yields.bind (yields_lift.mpr ⟨Activation.push_eq hroom x, rfl⟩) (yields_pure.mpr ⟨rfl, rfl⟩))

/-- A constructor keeps the message. -/
theorem leads_construct {owner className : String} {message : ObjRef}
    {fields : List (String × Value)}
    (hk : p.Does k (.call .special owner "<init>" messageConstructor)) (howner : owner ≠ c.name)
    (hmethod : c.hasMethod "<init>" messageConstructor = false)
    (hget : h.get r = .ok (.object className fields)) :
    Leads c limits 1 ⟨⟨p, locals, .obj message :: .obj r :: stack, k⟩, callers⟩ h
      ⟨⟨p, locals, stack, k + 1⟩, callers⟩
      (h.set r (.object className (setCell messageField (.obj message) fields))) := by
  have hd : MethodDescriptor.parse messageConstructor = .ok ⟨[.object "java/lang/String"], none⟩ :=
    MethodDescriptor.parse_text (d := ⟨[.object "java/lang/String"], none⟩) (by decide) (by decide)
  refine leads_call_outside hk (by decide) hd rfl howner hmethod rfl (fun store hstore => ?_)
    (show (⟨p, locals, stack, k + 1⟩ : Activation).receive _ none = _ from rfl)
  have hset : store.heap.setField r messageField (.obj message)
      = .ok (h.set r (.object className (setCell messageField (.obj message) fields))) := by
    rw [hstore, Heap.setField, hget]
    rfl
  refine ⟨{ store.countCall with heap := _ }, rfl, Yields.bind yields_countIntrinsic ?_⟩
  exact Yields.bind ((yields_changing (u := ())).mpr ⟨_, hset, rfl⟩) (yields_pure.mpr ⟨rfl, rfl⟩)

/-- An exception raised ends the run with the fault of what was thrown. -/
theorem ends_raise (hk : p.Does k .raise) :
    Ends c limits ⟨⟨p, locals, .obj r :: stack, k⟩, callers⟩ h ⟨1, .error (uncaught h r)⟩ h := by
  obtain ⟨i, hi, hop⟩ := hk.plain rfl
  refine ends_of_fails hi hop fun store hstore => ⟨store, hstore, ?_⟩
  refine fails_bind.mpr (.inr ⟨(r, _), store, yields_lift.mpr ⟨rfl, rfl⟩, ?_⟩)
  exact fails_get_bind.mpr (fails_throw.mpr ⟨by rw [hstore], rfl⟩)

/-- The class of an exception as messages name it. -/
def dotted (className : String) : String :=
  className.map fun c => if c = '/' then '.' else c

/-- The operations that throw an exception with a message. -/
def throwing (className text : String) : List Operation :=
  [.newObject className, .dup, .pushText text, .call .special className "<init>" messageConstructor,
    .raise]

/-- The heap after two objects were added and the first of them was changed. -/
theorem Heap.set_alloc_alloc (h : Heap) (a b o : HeapObject) :
    ((h.alloc a).2.alloc b).2.set ⟨h.size⟩ o = ⟨h.objects ++ #[o, b]⟩ := by
  have hlist : ((h.objects.push a).push b).setIfInBounds h.objects.size o
      = h.objects ++ #[o, b] := by
    apply Array.toList_inj.mp
    simp
  exact congrArg Heap.mk hlist

/-- A thrown exception with a message that is on the heap. -/
theorem uncaught_eq {className text : String} {message : ObjRef} {fields : List (String × Value)}
    (hget : h.get r = .ok (.object className fields))
    (hfield : fields.lookup messageField = some (.obj message))
    (hmessage : h.get message = .ok (.text text)) :
    uncaught h r = .execution (.uncaught (dotted className) (some text)) := by
  have hread : h.field r messageField = .ok (some (.obj message)) := by
    rw [Heap.field, hget]
    exact congrArg Except.ok hfield
  have hstring : h.string message = .ok text := by
    rw [Heap.string, hmessage]
    rfl
  rw [uncaught, hget]
  dsimp only
  rw [hread]
  show Fault.execution (.uncaught _ (h.string message).toOption) = _
  rw [hstring]
  rfl

/-- **An exception that is thrown** ends the run with its class and its message. What it has put on
the heap lies behind what was there. -/
theorem comes_throwing {className text : String} (hk : p.Segment k (throwing className text))
    (hother : className ≠ c.name) (hmethod : c.hasMethod "<init>" messageConstructor = false)
    (hroom : stack.length + 2 < p.maxStack.toNat) :
    Comes c limits ⟨⟨p, locals, stack, k⟩, callers⟩ h
      ⟨5, .error (.execution (.uncaught (dotted className) (some text)))⟩ := by
  let made : Heap := (h.alloc (.object className [])).2
  let message : Value := .obj ⟨made.size⟩
  let thrown : Heap := ⟨h.objects ++ #[.object className [(messageField, message)], .text text]⟩
  have hget : (made.alloc (.text text)).2.get ⟨h.size⟩ = .ok (.object className []) :=
    Heap.get_of_extended (made.prefix_alloc _) (h.get_alloc _)
  have hthrown : uncaught thrown ⟨h.size⟩
      = .execution (.uncaught (dotted className) (some text)) := by
    have hobject : thrown.get ⟨h.size⟩ = .ok (.object className [(messageField, message)]) := by
      simp [thrown, Heap.get, Heap.size]
    have htext : thrown.get ⟨made.size⟩ = .ok (.text text) := by
      simp [thrown, made, Heap.get, Heap.alloc, Heap.size]
    exact uncaught_eq hobject rfl htext
  have hnew : Leads c limits 1 ⟨⟨p, locals, stack, k⟩, callers⟩ h _ made :=
    leads_newObject hk.head hother (by omega)
  have hdup := hnew.trans (leads_dup hk.tail.head (by rw [List.length_cons]; omega))
  have htext := hdup.trans
    (leads_pushText hk.tail.tail.head (by rw [List.length_cons, List.length_cons]; omega))
  -- The message is made behind the exception, and its constructor then sets the field.
  have hconstruct := htext.trans (leads_construct hk.tail.tail.tail.head hother hmethod hget)
  have hheap : (made.alloc (.text text)).2.set ⟨h.size⟩
      (.object className (setCell messageField message []))
      = thrown := Heap.set_alloc_alloc h ..
  rw [hheap] at hconstruct
  have hraise := hconstruct.ends (ends_raise hk.tail.tail.tail.tail.head) rfl
  rw [hthrown] at hraise
  exact ⟨thrown, by simp [thrown], hraise⟩

end Steps

end RoundingPatch.Machine
