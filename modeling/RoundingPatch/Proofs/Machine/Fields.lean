import RoundingPatch.Proofs.Machine.Cells
/-!
# What is read from fields

A history lists what happens to fields, in calls and from outside: instances are made, values are
written, and `getfield` yields values (`FieldEvent`). It accounts for a heap if it tells what each
instance there holds: for every name the latest value that was written under it since the instance
was made, else the value that the instance was made with (`Accounts`). The events of a step are
known from its instruction and from the stacks before and after it (`stepEvents`), and with them
every step keeps the account (`Accounts.advance`).
-/

namespace RoundingPatch

open ClassFile

namespace Machine

/-! ### Events -/

/-- What happens to the fields of an instance. -/
inductive FieldEvent
  /-- An instance is made, some of its fields with given values. -/
  | made (r : ObjRef) (className : String) (given : List (String × Value))
  /-- A value is written by `putfield`. -/
  | put (r : ObjRef) (name descriptor : String) (v : Value)
  /-- A value is written under a name only: from outside, or as the message of an exception. -/
  | stored (r : ObjRef) (name : String) (v : Value)
  /-- A value is yielded by `getfield`. -/
  | got (r : ObjRef) (name descriptor : String) (v : Value)
  deriving DecidableEq

namespace FieldEvent

/-- Whether an event makes an instance at a place. -/
def makes (r : ObjRef) : FieldEvent → Bool
  | made r' _ _ => r' == r
  | _ => false

/-- What an event writes under a name. -/
def written (r : ObjRef) (name : String) : FieldEvent → Option Value
  | put r' n _ v | stored r' n v => if r' = r ∧ n = name then some v else none
  | _ => none

/-- What `putfield` writes to a field with a name and a descriptor. -/
def putTo (r : ObjRef) (name descriptor : String) : FieldEvent → Option Value
  | put r' n d v => if r' = r ∧ n = name ∧ d = descriptor then some v else none
  | _ => none

end FieldEvent

/-- The latest value that some events have. -/
def latest (value : FieldEvent → Option Value) (log : List FieldEvent) : Option Value :=
  log.reverse.findSome? value

/-- The latest value is that of the event added, if it has one. -/
theorem latest_concat (value : FieldEvent → Option Value) (log : List FieldEvent) (e : FieldEvent) :
    latest value (log ++ [e]) = (value e).or (latest value log) := by
  unfold latest
  rw [List.reverse_concat, List.findSome?_cons]
  cases value e <;> rfl

/-- The latest value depends on what the events of the log have. -/
theorem latest_congr {value value' : FieldEvent → Option Value} {log : List FieldEvent}
    (h : ∀ e ∈ log, value e = value' e) : latest value log = latest value' log := by
  unfold latest
  induction log using List.reverseRecOn with
  | nil => rfl
  | append_singleton log e ih =>
    rw [List.reverse_concat, List.findSome?_cons, List.findSome?_cons, h e (by simp),
      ih fun e' he' => h e' (by simp [he'])]

/-- The last of the values given for a name. -/
def lastGiven (given : List (String × Value)) (name : String) : Option Value :=
  (given.reverse.find? fun entry => entry.1 == name).map (·.2)

/-- What a field of a new instance holds, if it holds anything. -/
def LoadedClass.initial (c : LoadedClass) (className : String) (given : List (String × Value))
    (name : String) : Option Value :=
  (lastGiven given name).or (if className = c.name then c.cells.lookup name else none)

variable {c : LoadedClass} {log before : List FieldEvent} {e : FieldEvent} {h h' : Heap}
  {r r' : ObjRef} {name descriptor : String} {v : Value} {cells : List (String × Value)}

/-! ### Accounts -/

/-- A history tells the fields of the instance at a place. -/
structure Tells (c : LoadedClass) (log : List FieldEvent) (r : ObjRef)
    (cells : List (String × Value)) : Prop where
  eq : ∃ older className given recent, log = older ++ .made r className given :: recent ∧
    (∀ e ∈ recent, e.makes r = false) ∧
    ∀ name, cells.lookup name
      = (latest (·.written r name) recent).or (c.initial className given name)

/-- An event that makes nothing is told by the fields it writes. -/
theorem Tells.concat {cells' : List (String × Value)} (htells : Tells c log r cells)
    (hmakes : e.makes r = false)
    (hcells : ∀ name, cells'.lookup name = (e.written r name).or (cells.lookup name)) :
    Tells c (log ++ [e]) r cells' := by
  obtain ⟨older, className, given, recent, rfl, hrecent, hlookup⟩ := htells.eq
  refine ⟨older, className, given, recent ++ [e], by simp, ?_, fun name => ?_⟩
  · intro e' he'
    rcases List.mem_append.mp he' with he' | he'
    · exact hrecent e' he'
    · exact List.mem_singleton.mp he' ▸ hmakes
  · rw [hcells, hlookup, latest_concat, Option.or_assoc]

/-- A history accounts for a heap: it tells the fields of every instance, and what each `getfield`
yielded is what the history before it tells. -/
structure Accounts (c : LoadedClass) (log : List FieldEvent) (h : Heap) : Prop where
  tells : ∀ r cells, h.cellsAt r = some cells → Tells c log r cells
  got : ∀ before r name descriptor v after, log = before ++ .got r name descriptor v :: after →
    ∃ cells, Tells c before r cells ∧ v = (cells.lookup name).getD (.default descriptor)

/-- The empty log accounts for the empty heap. -/
theorem accounts_nil (c : LoadedClass) : Accounts c [] {} where
  tells := by
    rintro ⟨index⟩ cells hcells
    cases hcells
  got := by simp

/-- A tame change leaves the account as it is. -/
theorem Accounts.tame (haccounts : Accounts c log h) (htame : h.Tame h') : Accounts c log h' :=
  ⟨fun r cells hcells => haccounts.tells r cells (htame r cells hcells), haccounts.got⟩

/-- What was yielded before another event. -/
theorem Accounts.got_concat (haccounts : Accounts c log h) {after : List FieldEvent}
    (heq : log ++ [e] = before ++ .got r name descriptor v :: after)
    (hlast : e = .got r name descriptor v → log = before →
      ∃ cells, Tells c before r cells ∧ v = (cells.lookup name).getD (.default descriptor)) :
    ∃ cells, Tells c before r cells ∧ v = (cells.lookup name).getD (.default descriptor) := by
  -- What was yielded is the last event, or it was there before.
  rcases List.eq_nil_or_concat after with rfl | ⟨after, last, rfl⟩
  · obtain ⟨hlog, he⟩ := List.append_inj' heq rfl
    exact hlast (List.singleton_inj.mp he) hlog
  · rw [List.concat_eq_append, ← List.cons_append, ← List.append_assoc] at heq
    exact haccounts.got _ _ _ _ _ _ (List.append_inj' heq rfl).1

/-- **Making an object** is accounted for by its initial fields. -/
theorem Accounts.make {className : String} {given : List (String × Value)}
    (haccounts : Accounts c log h)
    (hcells : ∀ name, cells.lookup name = c.initial className given name) :
    Accounts c (log ++ [.made ⟨h.size⟩ className given]) (h.alloc (.object className cells)).2 where
  tells := by
    intro r cells' hr
    rw [Heap.cellsAt_alloc] at hr
    split at hr
    · next hnew =>
      subst hnew
      cases hr
      exact ⟨log, className, given, [], rfl, by simp, hcells⟩
    · next hold =>
      exact (haccounts.tells r cells' hr).concat (beq_false_of_ne (Ne.symm hold)) fun _ => rfl
  got := fun _ _ _ _ _ _ heq => haccounts.got_concat heq nofun

/-- An event that writes under a name. -/
structure FieldEvent.Writes (e : FieldEvent) (r : ObjRef) (name : String) (v : Value) : Prop where
  makes : ∀ r', e.makes r' = false
  got : ∀ r' name' descriptor' v', e ≠ .got r' name' descriptor' v'
  written : ∀ r' name', e.written r' name' = if r = r' ∧ name = name' then some v else none

/-- **Writing a field** is accounted for by an event that writes it. -/
theorem Accounts.write (haccounts : Accounts c log h) (he : e.Writes r name v)
    (hset : h.setField r name v = .ok h') : Accounts c (log ++ [e]) h' := by
  obtain ⟨cells, hcells, hafter⟩ := Heap.cellsAt_of_setField hset
  refine ⟨fun r' cells' hr' => ?_, fun _ _ _ _ _ _ heq =>
    haccounts.got_concat heq fun hgot _ => absurd hgot (he.got _ _ _ _)⟩
  rw [hafter] at hr'
  split at hr'
  · -- The instance that is written to: the event counts under its name, and under no other.
    next hr =>
    subst hr
    cases hr'
    refine (haccounts.tells _ cells hcells).concat (he.makes _) fun n => ?_
    rw [lookup_setCell, he.written]
    by_cases hn : n = name
    · subst hn
      simp
    · rw [if_neg hn, if_neg fun h => hn h.2.symm]
      rfl
  · next hr =>
    -- Any other instance: the event does not count there.
    refine (haccounts.tells r' cells' hr').concat (he.makes _) fun n => ?_
    rw [he.written, if_neg fun h => hr h.1.symm]
    rfl

/-- **Reading a field** is accounted for by what the log tells of the object. -/
theorem Accounts.read {found : Option Value} (haccounts : Accounts c log h)
    (hfield : h.field r name = .ok found) (hv : v = found.getD (.default descriptor)) :
    Accounts c (log ++ [.got r name descriptor v]) h := by
  obtain ⟨cells, hcells, rfl⟩ := Heap.exists_cells_of_field hfield
  refine ⟨fun r' cells' hr' => (haccounts.tells r' cells' hr').concat rfl fun _ => rfl,
    fun _ _ _ _ _ _ heq => haccounts.got_concat heq fun hgot hlog => ?_⟩
  cases hgot
  subst hlog
  exact ⟨cells, haccounts.tells _ cells hcells, hv⟩

/-! ### Steps -/

/-- The access to a field that an instruction is, by the stacks before it and after it. -/
def accessEvents (i : Insn) (before after : List Value) : List FieldEvent :=
  match i with
  | .field op _ name descriptor =>
    if op = Opcode.putfield then
      match before with
      | v :: .ref (some r) :: _ => [.put r name descriptor v]
      | _ => []
    else if op = Opcode.getfield then
      match before, after with
      | .ref (some r) :: _, v :: _ => [.got r name descriptor v]
      | _, _ => []
    else []
  | .method _ _ name descriptor _ =>
    if name = "<init>" ∧ descriptor = messageConstructor then
      match before with
      | message :: .ref (some r) :: _ => [.stored r messageField message]
      | _ => []
    else []
  | _ => []

/-- What an instruction does to fields, by the heap before it and by what comes after it. A `new`
makes an instance even if there is no room for the reference on the stack; an access counts if the
method goes on. -/
def stepEvents (s : CallStack) (i : Insn) (h : Heap) (next : Except Fault Progress) :
    List FieldEvent :=
  match i with
  | .type op className => if op = Opcode.new then [.made ⟨h.size⟩ className []] else []
  | i =>
    match next with
    | .ok (.going s') =>
      if s'.callers.length = s.callers.length then accessEvents i s.active.stack s'.active.stack
      else []
    | _ => []

section Steps

variable {limits : Limits} {s : CallStack} {i : Insn} {op : Operation} {store store' : Store}
  {answer : Except Fault Progress}

/-- A step goes on as its operation does, or leaves fields as the operation does otherwise. -/
theorem advance_of_perform {base : Heap} (post : Activation → Heap → Prop)
    (hop : Operation.ofInsn i = .ok op)
    (hstart : match (perform c { s.active with next := s.active.next + 1 } op).run store with
      | (.ok (.next b), store') => post b store'.heap
      | (_, store') => base.Tame store'.heap)
    (hrun : (s.advance c limits i).run store = (answer, store')) :
    (∃ b, answer = .ok (.going ⟨b, s.callers⟩) ∧ post b store'.heap) ∨
      (base.Tame store'.heap ∧
        ∀ s', answer = .ok (.going s') → s'.callers.length ≠ s.callers.length) := by
  unfold CallStack.advance at hrun
  -- The operation is read off the instruction, and then done. What follows depends on how it ends.
  rw [hop, run_sequence, show (liftM (Except.ok op : Except Fault Operation) : Exec _).run store
    = (.ok op, store) from rfl] at hrun
  dsimp only at hrun
  rw [run_sequence] at hrun
  rcases hperform : (perform c { s.active with next := s.active.next + 1 } op).run store with
    ⟨fault | b | ⟨b, site, callee, args⟩ | result, next⟩ <;>
    rw [hperform] at hstart hrun <;> dsimp only at hstart hrun
  · cases hrun
    exact .inr ⟨hstart, nofun⟩
  · cases hrun
    exact .inl ⟨b, rfl, hstart⟩
  · -- A method is started, or nested too deep.
    have htame := hstart.trans (calm_enter limits (s.callers.length + 1) callee args next)
    rw [run_sequence] at hrun
    rcases henter : (enter limits (s.callers.length + 1) callee args).run next
      with ⟨_ | a, last⟩ <;>
      rw [henter] at htame hrun
    · cases hrun
      exact .inr ⟨htame, nofun⟩
    · cases hrun
      refine .inr ⟨htame, fun s' hs' => ?_⟩
      cases hs'
      exact Nat.succ_ne_self _
  · -- The method returns, to its caller or to the outside.
    rcases hcallers : s.callers with _ | ⟨⟨site, a⟩, callers⟩ <;> rw [hcallers] at hrun
    · cases hrun
      exact .inr ⟨hstart, nofun⟩
    · dsimp only at hrun
      cases hreceive : a.receive site result with
      | error fault =>
        rw [hreceive] at hrun
        cases hrun
        exact .inr ⟨hstart, nofun⟩
      | ok b =>
        rw [hreceive] at hrun
        cases hrun
        refine .inr ⟨hstart, fun s' hs' => ?_⟩
        cases hs'
        exact (Nat.succ_ne_self _).symm

theorem isCalm_of_ofVar {opcode : Opcode} {index : UInt16}
    (hop : Operation.ofVar opcode index = some op) : op.isCalm = true := by
  unfold Operation.ofVar at hop
  repeat' split at hop
  all_goals cases hop
  all_goals rfl

/-- Instructions that are about no class, field or method are calm. -/
theorem isCalm_of_ofInsn? (hop : Operation.ofInsn? i = some op)
    (htype : ∀ opcode name, i ≠ .type opcode name)
    (hfield : ∀ opcode owner name descriptor, i ≠ .field opcode owner name descriptor)
    (hmethod : ∀ opcode owner name descriptor onInterface,
      i ≠ .method opcode owner name descriptor onInterface) : op.isCalm = true := by
  cases i with
  | type opcode name => exact absurd rfl (htype opcode name)
  | field opcode owner name descriptor => exact absurd rfl (hfield opcode owner name descriptor)
  | method opcode owner name descriptor onInterface =>
    exact absurd rfl (hmethod opcode owner name descriptor onInterface)
  | simple opcode =>
    unfold Operation.ofInsn? at hop
    dsimp only at hop
    split at hop
    · exact isCalm_of_ofVar hop
    · -- The simple operations are a table, and every entry is calm.
      have hsimple : ∀ entry ∈ Operation.ofSimple, entry.2.isCalm = true := by decide
      obtain ⟨front, back, heq, -⟩ := List.lookup_eq_some_iff.mp hop
      exact hsimple (opcode, op) (by simp [heq])
  | int opcode operand =>
    cases hop
    split <;> rfl
  | var opcode index => exact isCalm_of_ofVar hop
  | jump opcode target =>
    obtain ⟨condition, -, rfl⟩ := Option.map_eq_some_iff.mp hop
    rfl
  | iinc _ _ | tableSwitch _ _ _ _ | lookupSwitch _ _ =>
    cases hop
    rfl
  | ldc _ | callSite _ | multiArray _ _ => cases hop

theorem ofInsn?_of_ofInsn (hop : Operation.ofInsn i = .ok op)
    (hi : ∀ constant, i ≠ .ldc constant) : Operation.ofInsn? i = some op := by
  unfold Operation.ofInsn at hop
  split at hop
  · exact absurd rfl (hi _)
  · split at hop
    · next hop' =>
      cases hop
      exact hop'
    · cases hop

/-- Only constructions, accesses to fields and calls touch fields. -/
theorem isCalm_of_ofInsn (hop : Operation.ofInsn i = .ok op)
    (htype : ∀ opcode name, i ≠ .type opcode name)
    (hfield : ∀ opcode owner name descriptor, i ≠ .field opcode owner name descriptor)
    (hmethod : ∀ opcode owner name descriptor onInterface,
      i ≠ .method opcode owner name descriptor onInterface) : op.isCalm = true := by
  -- Constants are apart: the machine takes them before the other instructions.
  by_cases hldc : ∃ constant, i = .ldc constant
  · obtain ⟨constant, rfl⟩ := hldc
    cases constant <;> cases hop <;> rfl
  · exact isCalm_of_ofInsn? (ofInsn?_of_ofInsn hop fun constant hi => hldc ⟨constant, hi⟩) htype
      hfield hmethod

theorem isCalm_of_ofType {opcode : Opcode} {className : String} (hnew : opcode ≠ Opcode.new)
    (hop : Operation.ofType opcode className = some op) : op.isCalm = true := by
  unfold Operation.ofType at hop
  rw [if_neg hnew] at hop
  repeat' split at hop
  all_goals cases hop
  all_goals rfl

/-- An instruction the machine does not know stops it before anything changes. -/
theorem ofInsn_error_of_none {fault : Fault} (hop : Operation.ofInsn i = .error fault)
    (hrun : (s.advance c limits i).run store = (answer, store')) :
    answer = .error fault ∧ store' = store := by
  unfold CallStack.advance at hrun
  rw [hop] at hrun
  cases hrun
  exact ⟨rfl, rfl⟩

/-- A step without an event that leaves fields alone. -/
theorem Accounts.advance_calm (haccounts : Accounts c log store.heap)
    (hcalm : ∀ op, Operation.ofInsn i = .ok op → op.isCalm = true)
    (hrun : (s.advance c limits i).run store = (answer, store')) : Accounts c log store'.heap := by
  cases hop : Operation.ofInsn i with
  | error fault => exact (ofInsn_error_of_none hop hrun).2 ▸ haccounts
  | ok op =>
    have hsettles : Settles store.heap (fun _ h' => store.heap.Tame h')
        (perform c { s.active with next := s.active.next + 1 } op) :=
      settles_of_calm (calm_perform c _ (hcalm op hop)) fun _ _ _ _ _ htame => htame
    rcases advance_of_perform _ hop (hsettles store rfl) hrun with ⟨b, -, htame⟩ | ⟨htame, -⟩
    · exact haccounts.tame htame
    · exact haccounts.tame htame

/-- A step that goes on in its frame has the accesses of its instruction. -/
theorem stepEvents_of_going {b : Activation} (hi : ∀ opcode name, i ≠ .type opcode name) :
    stepEvents s i h (.ok (.going ⟨b, s.callers⟩)) = accessEvents i s.active.stack b.stack := by
  cases i with
  | type opcode name => exact absurd rfl (hi opcode name)
  | _ => exact if_pos rfl

/-- A step that leaves its frame, or fails, has none. -/
theorem stepEvents_of_not_going (hi : ∀ opcode name, i ≠ .type opcode name)
    (hanswer : ∀ s', answer = .ok (.going s') → s'.callers.length ≠ s.callers.length) :
    stepEvents s i h answer = [] := by
  rcases answer with fault | s' | result
  · cases i <;> first | rfl | exact absurd rfl (hi _ _)
  · cases i with
    | type opcode name => exact absurd rfl (hi opcode name)
    | _ => exact if_neg (hanswer s' rfl)
  · cases i <;> first | rfl | exact absurd rfl (hi _ _)

/-- A `new` makes an instance. -/
theorem Accounts.advance_new {className : String} (haccounts : Accounts c log store.heap)
    (hrun : (s.advance c limits (.type Opcode.new className)).run store = (answer, store')) :
    Accounts c (log ++ [.made ⟨store.heap.size⟩ className []]) store'.heap := by
  let o : HeapObject := .object className (if className = c.name then c.cells else [])
  have hmade : Accounts c (log ++ [.made ⟨store.heap.size⟩ className []]) (store.heap.alloc o).2 :=
    haccounts.make fun name => by
      show _ = (none : Option Value).or _
      split <;> rfl
  have hop : Operation.ofInsn (.type Opcode.new className) = .ok (.newObject className) := rfl
  -- The instance is there, whether there is room for the reference or not.
  have hperform : match (perform c { s.active with next := s.active.next + 1 }
        (.newObject className)).run store with
      | (.ok (.next _), store') => (store.heap.alloc o).2.Tame store'.heap
      | (_, store') => (store.heap.alloc o).2.Tame store'.heap := by
    have hrun : (perform c { s.active with next := s.active.next + 1 }
          (.newObject className)).run store
        = ((liftM (Activation.push { s.active with next := s.active.next + 1 }
            (.obj ⟨store.heap.size⟩)) >>= fun b => pure (.next b) : Exec Flow)).run
          { store with heap := (store.heap.alloc o).2 } := rfl
    rw [hrun]
    cases Activation.push { s.active with next := s.active.next + 1 } (.obj ⟨store.heap.size⟩) with
    | error fault => exact Heap.Tame.refl _
    | ok b => exact Heap.Tame.refl _
  rcases advance_of_perform (fun _ h' => (store.heap.alloc o).2.Tame h') hop hperform hrun with
    ⟨b, -, htame⟩ | ⟨htame, -⟩
  · exact hmade.tame htame
  · exact hmade.tame htame

/-- A step that goes on in its method adds the access that it is. -/
theorem Accounts.advance_access (haccounts : Accounts c log store.heap)
    (hi : ∀ opcode name, i ≠ .type opcode name)
    (hsettles : ∀ op, Operation.ofInsn i = .ok op →
      Settles store.heap (fun b h' => Accounts c (log ++ accessEvents i s.active.stack b.stack) h')
        (perform c { s.active with next := s.active.next + 1 } op))
    (hrun : (s.advance c limits i).run store = (answer, store')) :
    Accounts c (log ++ stepEvents s i store.heap answer) store'.heap := by
  -- A step without events leaves the log as it is.
  have hnone (hanswer : ∀ s', answer = .ok (.going s') → s'.callers.length ≠ s.callers.length)
      (htame : store.heap.Tame store'.heap) :
      Accounts c (log ++ stepEvents s i store.heap answer) store'.heap := by
    rw [stepEvents_of_not_going hi hanswer, List.append_nil]
    exact haccounts.tame htame
  cases hop : Operation.ofInsn i with
  | error fault =>
    obtain ⟨rfl, rfl⟩ := ofInsn_error_of_none hop hrun
    exact hnone nofun (.refl _)
  | ok op =>
    rcases advance_of_perform _ hop (hsettles op hop store rfl) hrun with
      ⟨b, rfl, hevents⟩ | ⟨htame, hanswer⟩
    · rwa [stepEvents_of_going hi]
    · exact hnone hanswer htame

theorem settles_accounts_of_calm {x : Exec Flow} (haccounts : Accounts c log h) (hx : Calm x)
    (hevents : ∀ after, accessEvents i s.active.stack after = []) :
    Settles h (fun b h' => Accounts c (log ++ accessEvents i s.active.stack b.stack) h') x :=
  settles_of_calm hx fun _ _ b _ _ htame => by
    rw [hevents, List.append_nil]
    exact haccounts.tame htame

theorem Settles.mono {post' : Activation → Heap → Prop} {x : Exec Flow} (hx : Settles h post x)
    (hpost : ∀ b h', post b h' → post' b h') : Settles h post' x := by
  intro store hstore
  have hstart := hx store hstore
  rcases hrun : x.run store with ⟨_ | b | _ | _, store'⟩ <;> rw [hrun] at hstart
  · exact hstart
  · exact hpost _ _ hstart
  · exact hstart
  · exact hstart

/-- A field instruction is accounted for by the access it is. -/
theorem settles_field {opcode : Opcode} {owner : String} (haccounts : Accounts c log h)
    (hop : Operation.ofField opcode owner name descriptor = some op) :
    Settles h (fun b h' => Accounts c
        (log ++ accessEvents (.field opcode owner name descriptor) s.active.stack b.stack) h')
      (perform c { s.active with next := s.active.next + 1 } op) := by
  unfold Operation.ofField at hop
  by_cases hget : opcode = Opcode.getfield
  · subst hget
    cases hop
    refine (settles_getField c _ name descriptor).mono ?_
    rintro b h' ⟨htame, r, found, rest, hstack, hfield, hafter⟩
    have hevents : accessEvents (.field Opcode.getfield owner name descriptor)
        s.active.stack b.stack = [.got r name descriptor (found.getD (.default descriptor))] := by
      rw [hafter, show s.active.stack = _ from hstack]
      rfl
    rw [hevents]
    exact (haccounts.read hfield rfl).tame htame
  rw [if_neg hget] at hop
  by_cases hput : opcode = Opcode.putfield
  · subst hput
    cases hop
    refine (settles_putField c _ name).mono ?_
    rintro b h' ⟨v, r, rest, hstack, hset⟩
    have hevents : accessEvents (.field Opcode.putfield owner name descriptor)
        s.active.stack b.stack = [.put r name descriptor v] := by
      rw [show s.active.stack = _ from hstack]
      rfl
    rw [hevents]
    exact haccounts.write ⟨fun _ => rfl, nofun, fun _ _ => rfl⟩ hset
  · -- What is left is `getstatic`, which yields constants of enumerations.
    rw [if_neg hput] at hop
    have hcalm : op.isCalm = true := by
      split at hop
      · cases hop
        rfl
      · cases hop
    refine settles_accounts_of_calm haccounts (calm_perform c _ hcalm) fun after => ?_
    simp only [accessEvents, hput, hget, if_false]

/-- A call is accounted for by the message it sets, if it sets one. -/
theorem settles_method {kind : CallKind} {opcode : Opcode} {owner : String} {onInterface : Bool}
    (haccounts : Accounts c log h) :
    Settles h (fun b h' => Accounts c
        (log ++ accessEvents (.method opcode owner name descriptor onInterface)
          s.active.stack b.stack)
        h')
      (perform c { s.active with next := s.active.next + 1 }
        (.call kind owner name descriptor)) := by
  by_cases hmessage : isMessage name descriptor
  · refine (settles_message c _ kind hmessage).mono ?_
    rintro b h' ⟨message, r, rest, hstack, hset⟩
    have hevents : accessEvents (.method opcode owner name descriptor onInterface) s.active.stack
        b.stack = [.stored r messageField message] := by
      rw [show s.active.stack = _ from hstack]
      exact if_pos hmessage
    rw [hevents]
    exact haccounts.write ⟨fun _ => rfl, nofun, fun _ _ => rfl⟩ hset
  · refine settles_accounts_of_calm haccounts (calm_invoke c _ kind hmessage) fun after => ?_
    exact if_neg hmessage

/-- **A step keeps the account.** -/
theorem Accounts.advance (haccounts : Accounts c log store.heap)
    (hrun : (s.advance c limits i).run store = (answer, store')) :
    Accounts c (log ++ stepEvents s i store.heap answer) store'.heap := by
  -- Only `new`, accesses to fields and calls can leave an event.
  cases i with
  | type opcode className =>
    by_cases hnew : opcode = Opcode.new
    · subst hnew
      exact haccounts.advance_new hrun
    · rw [stepEvents, if_neg hnew, List.append_nil]
      refine haccounts.advance_calm (fun op hop => ?_) hrun
      exact isCalm_of_ofType hnew (ofInsn?_of_ofInsn hop nofun)
  | field opcode owner name descriptor =>
    refine haccounts.advance_access nofun (fun op hop => ?_) hrun
    exact settles_field haccounts (ofInsn?_of_ofInsn hop nofun)
  | method opcode owner name descriptor onInterface =>
    refine haccounts.advance_access nofun (fun op hop => ?_) hrun
    obtain ⟨kind, -, rfl⟩ := Option.map_eq_some_iff.mp (ofInsn?_of_ofInsn hop nofun)
    exact settles_method haccounts
  | _ =>
    refine haccounts.advance_access nofun (fun op hop => ?_) hrun
    exact settles_accounts_of_calm haccounts
      (calm_perform c _ (isCalm_of_ofInsn hop nofun nofun nofun)) fun _ => rfl

end Steps

end Machine

end RoundingPatch
