import RoundingPatch.DigitList.Bytecode
import RoundingPatch.Proofs.Machine.Straight
/-!
# Receivers of the rounding decision

What the compiled decision reads of its receiver (`Receiver`), where that stands on a heap
(`Receiver.IsAt`), and what the pieces of the decision do with it: `comes_unlessFive` for the test
of the decisive digit and `comes_scan` for the loop over the digits. The pieces are the same in
every build of the class and in the replacement, up to the positions that they jump to.
-/

namespace RoundingPatch.DigitList

open ClassFile Machine

/-! ### Receivers -/

/-- What the decision reads of its receiver. -/
structure Receiver where
  /-- The array of digits; none is `null`. -/
  digits : Option (Array UInt16)
  count : Int32
  /-- Any word; all but zero mean a negative number. -/
  isNegative : Int32
  roundingMode : RoundingMode

/-- The rounding modes are on a heap. -/
def HasModes (h : Heap) (modes : RoundingMode → ObjRef) : Prop :=
  ∀ mode, h.constant? RoundingMode.className mode.name = some (modes mode) ∧
    h.get (modes mode) = .ok (.constant RoundingMode.className mode.name mode.ordinal)

namespace Receiver

/-- A reference to the array of digits. -/
inductive Holds (x : Receiver) (h : Heap) : Option ObjRef → Prop
  | null (hdigits : x.digits = none) : x.Holds h none
  | array {r : ObjRef} {units : Array UInt16} (hdigits : x.digits = some units)
    (hget : h.get r = .ok (.chars units)) : x.Holds h (some r)

/-- An object is a receiver. -/
structure IsAt (x : Receiver) (h : Heap) (this : ObjRef) : Prop where
  digits : ∃ array, h.field this "digits" = .ok (some (.ref array)) ∧ x.Holds h array
  count : h.field this "count" = .ok (some (.int x.count))
  isNegative : h.field this "isNegative" = .ok (some (.int x.isNegative))
  roundingMode : ∃ modes, HasModes h modes ∧
    h.field this "roundingMode" = .ok (some (.obj (modes x.roundingMode)))

/-- The digit at a position. -/
def digitAt (x : Receiver) (index : Int32) : Except Fault Int32 :=
  match x.digits with
  | none => .error (.execution (.nullReference Opcode.caload.mnemonic))
  | some units => do
    let i ← Heap.elementIndex index
    match units[i]? with
    | some u => return u.toUInt32.toInt32
    | none => throw (Heap.outOfBounds index)

/-- Reads a digit with the last of `n` instructions and goes on. -/
def reading (x : Receiver) (n : ℕ) (index : Int32) (next : Int32 → Outcome) : Outcome :=
  match x.digitAt index with
  | .ok v => (next v).after n
  | .error f => ⟨n, .error f⟩

/-- Steps before a reading are steps of the reading. -/
theorem after_reading (x : Receiver) (m n : ℕ) (index : Int32) (next : Int32 → Outcome) :
    (x.reading m index next).after n = x.reading (n + m) index next := by
  unfold reading
  cases x.digitAt index with
  | error f => rfl
  | ok v => exact Outcome.after_after m n _

/-- The outcome of an answer. -/
def answered (v : Int32) : Outcome :=
  ⟨2, .ok (some (.int v))⟩

/-- Looks at the decisive digit: one above five, zero below it, and `five` at a five. -/
def unlessFive (x : Receiver) (place : Int32) (five : Outcome) : Outcome :=
  x.reading 4 place fun v =>
    if 53 < v then (answered 1).after 2
    else if v = 53 then five.after 8
    else (answered 0).after 8

/-- Goes through `n` digits from one on until one is not zero; zero if there is none. -/
def scan (x : Receiver) (found : Outcome) : ℕ → Int32 → Outcome
  | 0, _ => (answered 0).after 4
  | n + 1, index =>
    (x.reading 4 index fun v =>
      if v = 48 then (x.scan found n (index + 1)).after 4 else found.after 2).after 4

end Receiver

/-- The local variables of a decision: the receiver and the three parameters. -/
structure Arguments (locals : List Value) (this : ObjRef) (place rounded exact : Int32) : Prop where
  this : locals[0]? = some (.obj this)
  place : locals[1]? = some (.int place)
  rounded : locals[2]? = some (.int rounded)
  exact : locals[3]? = some (.int exact)

/-! ### Pieces of the decision -/

namespace Decision

/-- A branch to a position. -/
def goTo (condition : Condition) (position : ℕ) : Operation :=
  .branch condition (Body.labelAt position)

/-- Pushes the number of digits. -/
def count : List Operation :=
  [.loadRef 0, .getField "count" "I"]

/-- Pushes the array of digits and a position in it. -/
def digitPlace (slot : UInt16) : List Operation :=
  [.loadRef 0, .getField "digits" "[C", .loadInt slot]

/-- Pushes a digit. -/
def digit (slot : UInt16) : List Operation :=
  digitPlace slot ++ [.arrayLoad Opcode.caload]

/-- Pushes the position that decides and the position of the last digit. -/
def decisiveAndLast : List Operation :=
  .loadInt 1 :: count ++ [.push (.int 1), .arith .sub]

/-- Returns a word. -/
def answer (v : Int32) : List Operation :=
  [.push (.int v), .returnInt]

/-- Answers one above five and goes to `other` below five. -/
def unlessFive (tie other : ℕ) : List Operation :=
  digit 1 ++ [.push (.int 53), goTo (.words .le) tie] ++ answer 1
    ++ digit 1 ++ [.push (.int 53), goTo (.words .ne) other]

/-- The start of a turn of the loop over the digits. -/
def turn (common next : ℕ) : List Operation :=
  .loadInt 4 :: count ++ [goTo (.words .ge) common] ++ digit 4
    ++ [.push (.int 48), goTo (.words .eq) next]

/-- The end of a turn. -/
def turnEnd (head : ℕ) : List Operation :=
  [.increment 4 1, goTo .always head]

end Decision

/-! ### What the pieces do -/

section Pieces

variable {c : LoadedClass} {limits : Limits} {p : Program} {locals stack : List Value} {k : ℕ}
  {callers : List (CallSite × Activation)} {h : Heap} {x : Receiver} {this : ObjRef}
  {place rounded exact : Int32} {slot : UInt16} {index : Int32} {o : Outcome}

/-- The code that pushes a constant and returns it comes to that constant. -/
theorem comes_answer {v : Int32} (hk : p.Segment k (Decision.answer v))
    (hroom : 3 ≤ p.maxStack.toNat) :
    Comes c limits ⟨⟨p, locals, [], k⟩, callers⟩ h ⟨2, .ok (some (.int v))⟩ :=
  (leads_push hk.head (by simp only [List.length_nil]; omega)).comes
    (ends_returnInt hk.tail.head).comes rfl

/-- What the heap has at an index is the receiver's digit there. -/
theorem element_eq {r : ObjRef} {units : Array UInt16} (index : Int32)
    (hdigits : x.digits = some units)
    (hget : h.get r = .ok (.chars units)) : h.element r index = x.digitAt index := by
  unfold Heap.element Receiver.digitAt
  rw [hdigits, hget]
  rfl

/-- **Reading a digit** goes on with it or fails. -/
theorem comes_reading {array : Option ObjRef} {next : Int32 → Outcome} (harray : x.Holds h array)
    (hk : p.Does k (.arrayLoad Opcode.caload)) (hroom : 3 ≤ p.maxStack.toNat)
    (hnext : ∀ v, x.digitAt index = .ok v →
      Comes c limits ⟨⟨p, locals, [.int v], k + 1⟩, callers⟩ h (next v)) :
    Comes c limits ⟨⟨p, locals, [.int index, .ref array], k⟩, callers⟩ h
      (x.reading 1 index next) := by
  unfold Receiver.reading
  -- A receiver without an array faults on the load, and one with an array where the index is
  -- outside it.
  cases harray with
  | null hdigits =>
    rw [Receiver.digitAt, hdigits]
    exact (ends_arrayLoad_null hk).comes
  | array hdigits hget =>
    have helement := element_eq index hdigits hget
    cases hdigit : x.digitAt index with
    | error f => exact (ends_arrayLoad hk (helement.trans hdigit)).comes
    | ok v =>
      exact (leads_arrayLoad hk (helement.trans hdigit) (by rw [List.length_nil]; omega)).comes
        (hnext v hdigit) rfl

/-- **Reading a digit** takes four operations, and faults as the array does. -/
theorem comes_digit {next : Int32 → Outcome} (hx : x.IsAt h this)
    (hk : p.Segment k (Decision.digit slot)) (hroom : 3 ≤ p.maxStack.toNat)
    (hthis : locals[0]? = some (.obj this)) (hindex : locals[slot.toNat]? = some (.int index))
    (hnext : ∀ v, x.digitAt index = .ok v →
      Comes c limits ⟨⟨p, locals, [.int v], k + 4⟩, callers⟩ h (next v)) :
    Comes c limits ⟨⟨p, locals, [], k⟩, callers⟩ h (x.reading 4 index next) := by
  obtain ⟨array, hfield, harray⟩ := hx.digits
  -- Three operations put the array and the index on the stack, and the fourth loads.
  have hplace : Leads c limits 3 ⟨⟨p, locals, [], k⟩, callers⟩ h
      ⟨⟨p, locals, [.int index, .ref array], k + 3⟩, callers⟩ h := by
    refine hk.left.leads hroom ?_
    simp [straightLine, Decision.digitPlace, Operation.straight, put, Value.obj, hthis,
      hindex, hfield]
  have hread := hplace.comes (comes_reading harray hk.right.head hroom hnext) rfl
  rwa [Receiver.after_reading] at hread

/-- **The test of the decisive digit.** -/
theorem comes_unlessFive {other : ℕ} (hx : x.IsAt h this)
    (hk : p.Segment k (Decision.unlessFive (k + 8) other)) (hroom : 3 ≤ p.maxStack.toNat)
    (hsmall : k + 8 < 2147483648) (hsmall' : other < 2147483648)
    (hthis : locals[0]? = some (.obj this)) (hplace : locals[1]? = some (.int place))
    (hother : p.Segment other (Decision.answer 0))
    (hfive : x.digitAt place = .ok 53 → Comes c limits ⟨⟨p, locals, [], k + 14⟩, callers⟩ h o) :
    Comes c limits ⟨⟨p, locals, [], k⟩, callers⟩ h (x.unlessFive place o) := by
  have hfirst : p.Segment k (Decision.digit 1) := hk.left.left.left.left
  refine comes_digit hx hfirst hroom hthis hplace fun v hv => ?_
  have hpush : Leads c limits 1 ⟨⟨p, locals, [.int v], k + 4⟩, callers⟩ h
      ⟨⟨p, locals, [.int 53, .int v], k + 5⟩, callers⟩ h :=
    leads_push hk.left.left.left.right.head
      (by simp only [List.length_cons, List.length_nil]; omega)
  have habove := hpush.trans (leads_branch hk.left.left.left.right.tail.head rfl hsmall)
  refine habove.comes_ite_not (decide_eq_false_iff_not.trans Int32.not_le)
    (fun _ hbehind => hbehind.comes (comes_answer hk.left.left.right hroom) rfl) fun _ htaken => ?_
  -- The digit is read again, and it is the same one.
  have hsecond : p.Segment (k + 8) (Decision.digit 1) := hk.left.right
  have hagain : Comes c limits ⟨⟨p, locals, [], k + 8⟩, callers⟩ h
      (x.reading 4 place fun v => (if v = 53 then o else Receiver.answered 0).after 2) := by
    refine comes_digit hx hsecond hroom hthis hplace fun v hv => ?_
    have hpush : Leads c limits 1 ⟨⟨p, locals, [.int v], k + 12⟩, callers⟩ h
        ⟨⟨p, locals, [.int 53, .int v], k + 13⟩, callers⟩ h :=
      leads_push hk.right.head (by simp only [List.length_cons, List.length_nil]; omega)
    have hunequal := hpush.trans (leads_branch hk.right.tail.head rfl hsmall')
    rw [apply_ite (Outcome.after 2)]
    exact hunequal.comes_ite_not bne_eq_false_iff_eq
      (fun hv53 hbehind => hbehind.comes (hfive (hv53 ▸ hv)) rfl)
      fun _ htaken => htaken.comes (comes_answer hother hroom) rfl
  rw [Receiver.reading, hv] at hagain
  have htwice := htaken.comes hagain rfl
  rw [Outcome.after_after, Outcome.after_after, apply_ite (Outcome.after 8)] at htwice
  exact htwice

/-- The position that decides and that of the last digit are on the stack. -/
theorem leads_decisiveAndLast (hx : x.IsAt h this) (hk : p.Segment k Decision.decisiveAndLast)
    (hroom : 3 ≤ p.maxStack.toNat) (hthis : locals[0]? = some (.obj this))
    (hplace : locals[1]? = some (.int place)) :
    Leads c limits 5 ⟨⟨p, locals, [], k⟩, callers⟩ h
      ⟨⟨p, locals, [.int (x.count - 1), .int place], k + 5⟩, callers⟩ h := by
  refine hk.leads hroom ?_
  simp [straightLine, Decision.decisiveAndLast, Decision.count, Operation.straight, put, Value.obj,
    hthis, hplace, hx.count, Arith.eval]

/-- The start of a turn asks whether there is a digit left. -/
theorem leads_anyLeft {slot : UInt16} {common : ℕ} (hx : x.IsAt h this)
    (hk : p.Segment k (.loadInt slot :: Decision.count ++ [Decision.goTo (.words .ge) common]))
    (hroom : 3 ≤ p.maxStack.toNat) (hsmall : common < 2147483648)
    (hthis : locals[0]? = some (.obj this)) (hindex : locals[slot.toNat]? = some (.int index)) :
    Leads c limits 4 ⟨⟨p, locals, [], k⟩, callers⟩ h
      ⟨⟨p, locals, [], if x.count ≤ index then common else k + 4⟩, callers⟩ h := by
  have hboth : Leads c limits 3 ⟨⟨p, locals, [], k⟩, callers⟩ h
      ⟨⟨p, locals, [.int x.count, .int index], k + 3⟩, callers⟩ h := by
    refine hk.left.leads hroom ?_
    simp [straightLine, Decision.count, Operation.straight, put, Value.obj, hthis, hindex, hx.count]
  have hbranch := hboth.trans (leads_branch hk.right.head rfl hsmall)
  simpa only [Comparison.holds, decide_eq_true_eq] using hbranch

/-- A word below another can be increased without a wrap. -/
theorem toInt_add_one {i j : Int32} (h : i.toInt < j.toInt) : (i + 1).toInt = i.toInt + 1 := by
  have hmax := j.toInt_lt
  have hmin := i.le_toInt
  rw [Int32.toInt_add, Int32.toInt_one, Int.bmod_eq_of_le] <;> omega

/-- **The loop over the digits** from one on. The outcome of a digit that is not zero is the same
wherever it stands. -/
theorem comes_scan {common next n : ℕ} (hx : x.IsAt h this)
    (hhead : p.Segment k (Decision.turn common next)) (hnext : p.Segment next (Decision.turnEnd k))
    (hcommon : p.Segment common (Decision.answer 0)) (hroom : 3 ≤ p.maxStack.toNat)
    (hsmall : k < 2147483648 ∧ next < 2147483648 ∧ common < 2147483648)
    (hfound : ∀ locals : List Value, locals[0]? = some (.obj this) →
      Comes c limits ⟨⟨p, locals, [], k + 10⟩, callers⟩ h o)
    (hthis : locals[0]? = some (.obj this)) (hindex : locals[4]? = some (.int index))
    (hn : (x.count.toInt - index.toInt).toNat = n) :
    Comes c limits ⟨⟨p, locals, [], k⟩, callers⟩ h (x.scan o n index) := by
  -- The number of digits that are left is the fuel of the loop.
  induction n generalizing locals index with
  | zero =>
    have hleft : Leads c limits 4 ⟨⟨p, locals, [], k⟩, callers⟩ h _ h :=
      leads_anyLeft hx hhead.left.left hroom hsmall.2.2 hthis hindex
    rw [if_pos (Int32.le_iff_toInt_le.mpr (by omega))] at hleft
    exact hleft.comes (comes_answer hcommon hroom) rfl
  | succ n ih =>
    have hlt : index.toInt < x.count.toInt := by omega
    have hmore : ¬ x.count ≤ index := fun hle => by
      have := Int32.le_iff_toInt_le.mp hle
      omega
    have hleft : Leads c limits 4 ⟨⟨p, locals, [], k⟩, callers⟩ h _ h :=
      leads_anyLeft hx hhead.left.left hroom hsmall.2.2 hthis hindex
    rw [if_neg hmore] at hleft
    refine hleft.comes (comes_digit hx hhead.left.right hroom hthis hindex fun v hv => ?_) rfl
    have hpush : Leads c limits 1 ⟨⟨p, locals, [.int v], k + 8⟩, callers⟩ h
        ⟨⟨p, locals, [.int 48, .int v], k + 9⟩, callers⟩ h :=
      leads_push hhead.right.head (by simp only [List.length_cons, List.length_nil]; omega)
    have hzero := hpush.trans (leads_branch hhead.right.tail.head rfl hsmall.2.1)
    refine hzero.comes_ite beq_iff_eq (fun _ htaken => ?_)
      fun _ hbehind => hbehind.comes (hfound locals hthis) rfl
    -- A zero: the index goes up, and the loop starts over.
    have hincrement := htaken.trans (leads_increment hnext.head hindex)
    have hgoto := hincrement.trans (leads_branch hnext.tail.head rfl hsmall.1)
    have hone : ((1 : Int16).toInt32 : Int32) = 1 := rfl
    rw [hone] at hgoto
    have hlength : 4 < locals.length := (List.getElem?_eq_some_iff.mp hindex).1
    have hsucc : (index + 1).toInt = index.toInt + 1 := toInt_add_one hlt
    exact hgoto.comes (ih (by simpa using hthis) (by simp [hlength]) (by omega)) rfl

end Pieces

end RoundingPatch.DigitList
