import RoundingPatch.Proofs.DigitList.Receiver
/-!
# The compiled decision

The rounding decision in index form. Around the cases of the modes `HALF_UP` and `HALF_DOWN`, which
differ between builds of the class, all builds are the same up to positions: `Decision.front` stands
before these cases and `Decision.back` behind them. `comes_decision` says what a program with both
comes to, given what its half cases come to.
-/

namespace RoundingPatch.DigitList

open ClassFile Machine

/-! ### The instructions -/

namespace Decision

/-- The loop over the digits from the position on the stack on, at position `k`. -/
def scan (k common : ℕ) (found : List Operation) : List Operation :=
  .storeInt 4 :: turn common (k + 11 + found.length) ++ found ++ turnEnd (k + 1)

/-- Returns whether the value is not negative, at position `k`. -/
def answerPositive (k : ℕ) : List Operation :=
  [.loadRef 0, .getField "isNegative" "Z", goTo (.withZero .ne) (k + 5), .push (.int 1),
    goTo .always (k + 6), .push (.int 0), .returnInt]

/-- Returns whether the value is negative. -/
def answerNegative : List Operation :=
  [.loadRef 0, .getField "isNegative" "Z", .returnInt]

/-- Where the case of a mode starts, with `n` instructions for the half cases. -/
def caseAt (halfDown n : ℕ) : RoundingMode → ℕ
  | .up => 8
  | .down => 24
  | .ceiling => 25
  | .floor => 46
  | .halfUp => 63
  | .halfDown => halfDown
  | .halfEven => 63 + n
  | .unnecessary => 124 + n

/-- Where the answer that all cases share stands. -/
def commonAt (n : ℕ) : ℕ :=
  143 + n

/-- The choice of a case. -/
def choice (halfDown n : ℕ) : List Operation :=
  .loadInt 1 :: count ++ [goTo (.words .ge) (commonAt n)]
    ++ [.loadRef 0, .getField "roundingMode" RoundingMode.descriptor,
      .call .virtual RoundingMode.className "ordinal" "()I",
      .tableSwitch 0 7 (Body.labelAt (commonAt n))
        (RoundingMode.all.map fun mode => Body.labelAt (caseAt halfDown n mode))]

/-- What stands before the half cases. -/
def front (halfDown n : ℕ) : List Operation :=
  choice halfDown n
    ++ .loadInt 1 :: scan 9 (commonAt n) (answer 1)
    ++ [goTo .always (commonAt n)]
    ++ .loadInt 1 :: scan 26 (commonAt n) (answerPositive 37)
    ++ .loadInt 1 :: scan 47 (commonAt n) answerNegative

/-- The end of the case of `HALF_EVEN` at position `k`, for a five at the end: whether the digit
before it is odd. -/
def parity (k : ℕ) : List Operation :=
  .loadInt 1 :: goTo (.withZero .le) (k + 13)
    :: [.loadRef 0, .getField "digits" "[C", .loadInt 1, .push (.int 1), .arith .sub]
    ++ .arrayLoad Opcode.caload :: [.push (.int 2), .arith .rem]
    ++ goTo (.withZero .eq) (k + 13) :: answer 1
    ++ answer 0

/-- What the case of `HALF_EVEN` does at a five, at position `k`. -/
def evenFive (k common : ℕ) : List Operation :=
  decisiveAndLast ++ [goTo (.words .ne) (k + 29)]
    ++ .loadInt 2 :: goTo (.withZero .eq) (k + 10) :: answer 0
    ++ .loadInt 3 :: goTo (.withZero .ne) (k + 14) :: answer 1
    ++ parity (k + 14)
    ++ [.loadInt 1, .push (.int 1), .arith .add]
    ++ scan (k + 32) common (answer 1)

/-- The case of `HALF_EVEN` at position `k`. -/
def halfEven (k common : ℕ) : List Operation :=
  unlessFive (k + 8) common ++ evenFive (k + 14) common

/-- What stands behind `n` instructions for the half cases. -/
def back (n : ℕ) : List Operation :=
  halfEven (63 + n) (commonAt n)
    ++ .loadInt 1 :: scan (124 + n + 1) (commonAt n)
      (throwing "java/lang/ArithmeticException" RoundingMode.roundingNeeded)
    ++ answer 0

end Decision

/-! ### What the cases come to -/

namespace Receiver

variable (x : Receiver)

/-- Goes through the digits from a position on. -/
def scanFrom (found : Outcome) (index : Int32) : Outcome :=
  (x.scan found (x.count.toInt - index.toInt).toNat index).after 1

/-- Whether the digit before the place is odd. -/
def parity (place : Int32) : Outcome :=
  if place ≤ 0 then (answered 0).after 2
  else (x.reading 6 (place - 1) fun v => (answered (if v % 2 = 0 then 0 else 1)).after 3).after 2

/-- The case of `HALF_EVEN` with a five at the place. -/
def evenFive (place rounded exact : Int32) : Outcome :=
  if place ≠ x.count - 1 then (x.scanFrom (answered 1) (place + 1)).after 9
  else if rounded ≠ 0 then (answered 0).after 8
  else if exact = 0 then (answered 1).after 10
  else (x.parity place).after 10

/-- What the decision comes to, given what a five at the place comes to in the half cases. -/
def decision (place rounded exact : Int32) (halfUp halfDown : Outcome) : Outcome :=
  if x.count ≤ place then (answered 0).after 4
  else
    (match x.roundingMode with
    | .up => (x.scanFrom (answered 1) place).after 1
    | .down => (answered 0).after 1
    | .ceiling =>
      (x.scanFrom (if x.isNegative = 0 then ⟨6, .ok (some (.int 1))⟩ else ⟨5, .ok (some (.int 0))⟩)
        place).after 1
    | .floor => (x.scanFrom ⟨3, .ok (some (.int x.isNegative))⟩ place).after 1
    | .halfUp => halfUp
    | .halfDown => halfDown
    | .halfEven => x.unlessFive place (x.evenFive place rounded exact)
    | .unnecessary =>
      (x.scanFrom ⟨5, .error (.execution
        (.uncaught "java.lang.ArithmeticException" (some RoundingMode.roundingNeeded)))⟩
        place).after 1).after 8

end Receiver

/-! ### Decisions in programs -/

section Program

variable {c : LoadedClass} {limits : Limits} {p : Program} {locals : List Value} {k n halfDown : ℕ}
  {callers : List (CallSite × Activation)} {h : Heap} {x : Receiver} {this : ObjRef}
  {place rounded exact index : Int32} {o : Outcome}

theorem length_scan (k common : ℕ) (found : List Operation) :
    (Decision.scan k common found).length = 13 + found.length := by
  simp [Decision.scan, Decision.turn, Decision.turnEnd, Decision.count, Decision.digit,
    Decision.digitPlace]
  omega

/-- The loop, entered with an index on the stack, behaves as the scan from that index. -/
theorem comes_scanFrom {common : ℕ} {found : List Operation} (hx : x.IsAt h this)
    (hk : p.Segment k (Decision.scan k common found))
    (hcommon : p.Segment common (Decision.answer 0))
    (hroom : 3 ≤ p.maxStack.toNat)
    (hsmall : k + 11 + found.length < 2147483648 ∧ common < 2147483648)
    (hthis : locals[0]? = some (.obj this)) (hlength : 4 < locals.length)
    (hfound : ∀ locals : List Value, locals[0]? = some (.obj this) →
      Comes c limits ⟨⟨p, locals, [], k + 11⟩, callers⟩ h o) :
    Comes c limits ⟨⟨p, locals, [.int index], k⟩, callers⟩ h (x.scanFrom o index) := by
  have hend : p.Segment (k + 11 + found.length) (Decision.turnEnd (k + 1)) := hk.right.at (by
    have hlength := length_scan k common found
    simp only [Decision.scan, List.length_append, Decision.turnEnd, List.length_cons,
      List.length_nil] at hlength ⊢
    omega)
  refine (leads_storeInt hk.left.left.head hlength).comes
    (comes_scan hx hk.left.left.tail hend hcommon hroom (by omega) hfound ?_ ?_ rfl) rfl
  · simpa using hthis
  · simp [hlength]

/-- A case that goes through the digits from the place on. -/
theorem comes_scanCase {common : ℕ} {found : List Operation} (hx : x.IsAt h this)
    (hk : p.Segment k (.loadInt 1 :: Decision.scan (k + 1) common found))
    (hcommon : p.Segment common (Decision.answer 0)) (hroom : 3 ≤ p.maxStack.toNat)
    (hsmall : k + 12 + found.length < 2147483648 ∧ common < 2147483648)
    (hlocals : Arguments locals this place rounded exact) (hlength : 4 < locals.length)
    (hfound : ∀ locals : List Value, locals[0]? = some (.obj this) →
      Comes c limits ⟨⟨p, locals, [], k + 12⟩, callers⟩ h o) :
    Comes c limits ⟨⟨p, locals, [], k⟩, callers⟩ h ((x.scanFrom o place).after 1) :=
  (leads_loadInt hk.head hlocals.place (by rw [List.length_nil]; omega)).comes
    (comes_scanFrom hx hk.tail hcommon hroom (by omega) hlocals.this hlength
      fun locals hthis => hfound locals hthis) rfl

/-- The sign of the number is on the stack. -/
theorem leads_isNegative {ops : List Operation} (hx : x.IsAt h this)
    (hk : p.Segment k (.loadRef 0 :: .getField "isNegative" "Z" :: ops))
    (hroom : 3 ≤ p.maxStack.toNat) (hthis : locals[0]? = some (.obj this)) :
    Leads c limits 2 ⟨⟨p, locals, [], k⟩, callers⟩ h
      ⟨⟨p, locals, [.int x.isNegative], k + 2⟩, callers⟩ h :=
  (leads_loadRef hk.head hthis (by rw [List.length_nil]; omega)).trans
    (leads_getField hk.tail.head hx.isNegative (by rw [List.length_nil]; omega))

/-- The code for rounding down answers by the sign of the receiver. -/
theorem comes_answerNegative (hx : x.IsAt h this) (hk : p.Segment k Decision.answerNegative)
    (hroom : 3 ≤ p.maxStack.toNat) (hthis : locals[0]? = some (.obj this)) :
    Comes c limits ⟨⟨p, locals, [], k⟩, callers⟩ h ⟨3, .ok (some (.int x.isNegative))⟩ :=
  (leads_isNegative hx hk hroom hthis).comes (ends_returnInt hk.tail.tail.head).comes rfl

/-- The code for rounding up answers by the sign turned round. -/
theorem comes_answerPositive (hx : x.IsAt h this) (hk : p.Segment k (Decision.answerPositive k))
    (hroom : 3 ≤ p.maxStack.toNat) (hsmall : k + 6 < 2147483648)
    (hthis : locals[0]? = some (.obj this)) :
    Comes c limits ⟨⟨p, locals, [], k⟩, callers⟩ h
      (if x.isNegative = 0 then ⟨6, .ok (some (.int 1))⟩ else ⟨5, .ok (some (.int 0))⟩) := by
  have htest : Leads c limits 3 ⟨⟨p, locals, [], k⟩, callers⟩ h _ h :=
    (leads_isNegative hx hk hroom hthis).trans (leads_branch hk.tail.tail.head rfl (by omega))
  -- The code pushes one and jumps over the zero, or takes the branch to it.
  refine htest.comes_ite_not bne_eq_false_iff_eq (fun _ hbehind => ?_) fun _ htaken => ?_
  · have hone := hbehind.trans (leads_push hk.tail.tail.tail.head (by rw [List.length_nil]; omega))
    have hdone := hone.trans (leads_branch hk.tail.tail.tail.tail.head rfl hsmall)
    exact hdone.comes (ends_returnInt hk.tail.tail.tail.tail.tail.tail.head).comes rfl
  · have hnone := htaken.trans
      (leads_push hk.tail.tail.tail.tail.tail.head (by rw [List.length_nil]; omega))
    exact hnone.comes (ends_returnInt hk.tail.tail.tail.tail.tail.tail.head).comes rfl

/-- The class of a program with decisions calls other classes for the ordinals of modes and for
exceptions. -/
structure IsHost (c : LoadedClass) : Prop where
  name : c.name = Bytecode.className
  ordinal : c.hasMethod "ordinal" "()I" = false
  construct : c.hasMethod "<init>" messageConstructor = false

/-- **The choice of a case.** -/
theorem leads_choice (hc : IsHost c) (hx : x.IsAt h this)
    (hk : p.Segment 0 (Decision.choice halfDown n))
    (hroom : 3 ≤ p.maxStack.toNat) (hn : n < 1000) (hhalf : halfDown < 2147483648)
    (hthis : locals[0]? = some (.obj this)) (hplace : locals[1]? = some (.int place))
    (hmore : ¬ x.count ≤ place) :
    Leads c limits 8 ⟨⟨p, locals, [], 0⟩, callers⟩ h
      ⟨⟨p, locals, [], Decision.caseAt halfDown n x.roundingMode⟩, callers⟩ h := by
  obtain ⟨modes, hmodes, hfield⟩ := hx.roundingMode
  have hleft : Leads c limits 4 ⟨⟨p, locals, [], 0⟩, callers⟩ h _ h :=
    leads_anyLeft hx hk.left hroom (by simp only [Decision.commonAt]; omega) hthis hplace
  rw [if_neg hmore] at hleft
  have hrest : p.Segment 4 _ := hk.right
  have hmode := (hleft.trans
      (leads_loadRef hrest.head hthis (by rw [List.length_nil]; omega))).trans
    (leads_getField hrest.tail.head hfield (by rw [List.length_nil]; omega))
  have hordinal := hmode.trans (leads_ordinal hrest.tail.tail.head (by rw [hc.name]; decide)
    hc.ordinal (hmodes x.roundingMode).2 (by rw [List.length_nil]; omega))
  -- Each ordinal selects its own case, so the default is never taken.
  refine hordinal.trans (leads_tableSwitch hrest.tail.tail.tail.head ?_ ?_ ?_ ?_)
  · cases x.roundingMode <;> decide
  · cases x.roundingMode <;> decide
  · cases x.roundingMode <;> rfl
  · cases x.roundingMode <;> simp only [Decision.caseAt] <;> omega

/-- The code that reads the digit before the place answers by its parity. -/
theorem comes_parity (hx : x.IsAt h this) (hk : p.Segment k (Decision.parity k))
    (hroom : 3 ≤ p.maxStack.toNat) (hsmall : k + 13 < 2147483648)
    (hthis : locals[0]? = some (.obj this)) (hplace : locals[1]? = some (.int place)) :
    Comes c limits ⟨⟨p, locals, [], k⟩, callers⟩ h (x.parity place) := by
  have htest : Leads c limits 2 ⟨⟨p, locals, [], k⟩, callers⟩ h _ h :=
    (leads_loadInt hk.head hplace (by rw [List.length_nil]; omega)).trans
      (leads_branch hk.tail.head rfl hsmall)
  have hzero : p.Segment (k + 13) (Decision.answer 0) := hk.right
  unfold Receiver.parity
  -- At the first place there is no digit in front, and the answer is no.
  refine htest.comes_ite decide_eq_true_iff
    (fun _ htaken => htaken.comes (comes_answer hzero hroom) rfl) fun _ hbehind => ?_
  obtain ⟨array, hfield, harray⟩ := hx.digits
  -- Else the digit in front is read, and its lowest bit is the answer.
  have hindex : Leads c limits 5 ⟨⟨p, locals, [], k + 2⟩, callers⟩ h
      ⟨⟨p, locals, [.int (place - 1), .ref array], k + 7⟩, callers⟩ h := by
    refine hk.left.left.left.tail.tail.leads hroom ?_
    simp [straightLine, Operation.straight, put, Value.obj, hthis, hplace, hfield, Arith.eval]
  have hread : Comes c limits ⟨⟨p, locals, [.int (place - 1), .ref array], k + 7⟩, callers⟩ h
      (x.reading 1 (place - 1) fun v =>
        (Receiver.answered (if v % 2 = 0 then 0 else 1)).after 3) := by
    refine comes_reading harray hk.left.left.right.head hroom fun v _ => ?_
    have hrem : Leads c limits 2 ⟨⟨p, locals, [.int v], k + 8⟩, callers⟩ h
        ⟨⟨p, locals, [.int (v % 2)], k + 10⟩, callers⟩ h :=
      (leads_push hk.left.left.right.tail.head
        (by simp only [List.length_cons, List.length_nil]; omega)).trans
        (leads_arith hk.left.left.right.tail.tail.head rfl (by rw [List.length_nil]; omega))
    have hodd := hrem.trans (leads_branch hk.left.right.head rfl hsmall)
    rw [apply_ite Receiver.answered, apply_ite (Outcome.after 3)]
    exact hodd.comes_ite beq_iff_eq (fun _ htaken => htaken.comes (comes_answer hzero hroom) rfl)
      fun _ hbehind => hbehind.comes (comes_answer hk.left.right.tail hroom) rfl
  have hindexed := hindex.comes hread rfl
  rw [Receiver.after_reading] at hindexed
  exact hbehind.comes hindexed rfl

/-- **A five at the place** in the case of `HALF_EVEN`. -/
theorem comes_evenFive {common : ℕ} (hx : x.IsAt h this)
    (hk : p.Segment k (Decision.evenFive k common)) (hcommon : p.Segment common (Decision.answer 0))
    (hroom : 3 ≤ p.maxStack.toNat) (hsmall : k + 45 < 2147483648 ∧ common < 2147483648)
    (hlocals : Arguments locals this place rounded exact) (hlength : 4 < locals.length) :
    Comes c limits ⟨⟨p, locals, [], k⟩, callers⟩ h (x.evenFive place rounded exact) := by
  have hbehind := hk.left.left.left.left
  have hlast : Leads c limits 6 ⟨⟨p, locals, [], k⟩, callers⟩ h _ h :=
    (leads_decisiveAndLast hx hbehind.left.left hroom hlocals.this hlocals.place).trans
      (leads_branch hbehind.left.right.head rfl (by omega))
  unfold Receiver.evenFive
  -- Five is the last digit or not: only then do the two flags matter.
  refine hlast.comes_ite bne_iff_ne (fun _ hfollowed => ?_) fun _ hlast => ?_
  · have hnext : Leads c limits 3 ⟨⟨p, locals, [], k + 29⟩, callers⟩ h
        ⟨⟨p, locals, [.int (place + 1)], k + 32⟩, callers⟩ h := by
      refine hk.left.right.leads hroom ?_
      simp [straightLine, Operation.straight, put, hlocals.place, Arith.eval]
    have hscan : p.Segment (k + 32) (Decision.scan (k + 32) common (Decision.answer 1)) := hk.right
    refine (hfollowed.trans hnext).comes
      (comes_scanFrom hx hscan hcommon hroom ?_ hlocals.this hlength
        fun locals _ => comes_answer hscan.left.right hroom) rfl
    simp only [Decision.answer, List.length_cons, List.length_nil]
    omega
  · have hrounded := hlast.trans ((leads_loadInt hbehind.right.head hlocals.rounded
      (by rw [List.length_nil]; omega)).trans (leads_branch hbehind.right.tail.head rfl (by omega)))
    refine hrounded.comes_ite_not beq_eq_false_iff_ne
      (fun _ hdone => hdone.comes (comes_answer hbehind.right.tail.tail hroom) rfl)
      fun _ hfresh => ?_
    have htest := hk.left.left.left.right
    have hexact := hfresh.trans ((leads_loadInt htest.head hlocals.exact
      (by rw [List.length_nil]; omega)).trans (leads_branch htest.tail.head rfl (by omega)))
    have hparity : p.Segment (k + 14) (Decision.parity (k + 14)) := hk.left.left.right
    exact hexact.comes_ite_not bne_eq_false_iff_eq
      (fun _ hinexact => hinexact.comes (comes_answer htest.tail.tail hroom) rfl)
      fun _ htie => htie.comes (comes_parity hx hparity hroom (show k + 14 + 13 < _ by omega)
        hlocals.this hlocals.place) rfl

/-- The decision stands in a program, with `n` instructions for the half cases. -/
structure Decision.StandsIn (p : Program) (halfDown n : ℕ) : Prop where
  front : p.Segment 0 (front halfDown n)
  back : p.Segment (63 + n) (back n)
  room : 3 ≤ p.maxStack.toNat
  small : n < 1000 ∧ halfDown < 1000

/-- **The compiled decision.** -/
theorem comes_decision {halfUp halfDownOutcome : Outcome} (hc : IsHost c) (hx : x.IsAt h this)
    (hp : Decision.StandsIn p halfDown n) (hlocals : Arguments locals this place rounded exact)
    (hlength : 4 < locals.length)
    (hhalfUp : x.roundingMode = .halfUp → ¬ x.count ≤ place →
      Comes c limits ⟨⟨p, locals, [], 63⟩, callers⟩ h halfUp)
    (hhalfDown : x.roundingMode = .halfDown → ¬ x.count ≤ place →
      Comes c limits ⟨⟨p, locals, [], halfDown⟩, callers⟩ h halfDownOutcome) :
    Comes c limits ⟨⟨p, locals, [], 0⟩, callers⟩ h
      (x.decision place rounded exact halfUp halfDownOutcome) := by
  have hroom := hp.room
  have hsmall := hp.small
  have hcommon : p.Segment (Decision.commonAt n) (Decision.answer 0) :=
    hp.back.right.at (show 63 + n + 80 = 143 + n by omega)
  have hbound : Decision.commonAt n < 2147483648 := by
    rw [Decision.commonAt]
    omega
  unfold Receiver.decision
  -- First the test on the count, then the switch over the mode.
  by_cases hpast : x.count ≤ place
  · have hleft : Leads c limits 4 ⟨⟨p, locals, [], 0⟩, callers⟩ h _ h :=
      leads_anyLeft hx hp.front.left.left.left.left.left hroom hbound hlocals.this hlocals.place
    rw [if_pos hpast] at hleft ⊢
    exact hleft.comes (comes_answer hcommon hroom) rfl
  rw [if_neg hpast]
  have hcase : Leads c limits 8 ⟨⟨p, locals, [], 0⟩, callers⟩ h _ h :=
    leads_choice hc hx hp.front.left.left.left.left hroom hsmall.1 (by omega) hlocals.this
      hlocals.place hpast
  -- Each case stands in a segment of its own, at the offset that the switch jumps to.
  refine hcase.comes ?_ rfl
  cases hmode : x.roundingMode with
  | up =>
    have hup : p.Segment 8 _ := hp.front.left.left.left.right
    exact comes_scanCase hx hup hcommon hroom ⟨show 8 + 12 + 2 < _ by decide, hbound⟩
      hlocals hlength fun locals _ => comes_answer hup.tail.left.right hroom
  | down =>
    have hdown : p.Segment 24 _ := hp.front.left.left.right
    exact (leads_branch hdown.head rfl hbound).comes (comes_answer hcommon hroom) rfl
  | ceiling =>
    have hceiling : p.Segment 25 _ := hp.front.left.right
    exact comes_scanCase hx hceiling hcommon hroom ⟨show 25 + 12 + 7 < _ by decide, hbound⟩
      hlocals hlength fun locals hthis => comes_answerPositive hx hceiling.tail.left.right hroom
        (show 37 + 6 < 2147483648 by decide) hthis
  | floor =>
    have hfloor : p.Segment 46 _ := hp.front.right
    exact comes_scanCase hx hfloor hcommon hroom ⟨show 46 + 12 + 3 < _ by decide, hbound⟩
      hlocals hlength fun locals hthis => comes_answerNegative hx hfloor.tail.left.right hroom hthis
  | halfUp => exact hhalfUp hmode hpast
  | halfDown => exact hhalfDown hmode hpast
  | halfEven =>
    have heven : p.Segment (63 + n) _ := hp.back.left.left
    exact comes_unlessFive hx heven.left hroom (show 63 + n + 8 < _ by omega) hbound hlocals.this
      hlocals.place hcommon fun _ =>
        comes_evenFive hx heven.right hcommon hroom ⟨show 63 + n + 14 + 45 < _ by omega, hbound⟩
          hlocals hlength
  | unnecessary =>
    have hunnecessary : p.Segment (124 + n) _ :=
      hp.back.left.right.at (show 63 + n + 61 = 124 + n by omega)
    have hname : dotted "java/lang/ArithmeticException" = "java.lang.ArithmeticException" := by
      decide +kernel
    refine comes_scanCase hx hunnecessary hcommon hroom ⟨show 124 + n + 12 + 5 < _ by omega, hbound⟩
      hlocals hlength fun locals _ => ?_
    rw [← hname]
    exact comes_throwing hunnecessary.tail.left.right (by rw [hc.name]; decide) hc.construct
      (by rw [List.length_nil]; omega)

end Program

end RoundingPatch.DigitList
