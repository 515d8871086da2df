import RoundingPatch.Proofs.DigitList.Decision
/-!
# Half cases

The cases of `HALF_UP` and `HALF_DOWN` in index form, with what a five at the place comes to in
them: in the fixed build (`comes_halfFixed`).
-/

namespace RoundingPatch.DigitList

open ClassFile Machine

/-! ### The instructions -/

namespace Decision

/-- Answers one unless the place is the last one, where it goes on; at position `k`. -/
def unlessLast (k : ℕ) : List Operation :=
  decisiveAndLast ++ goTo (.words .eq) (k + 8) :: answer 1

/-- Returns whether the mode is `HALF_UP`, at position `k`. -/
def isHalfUp (k : ℕ) : List Operation :=
  [.loadRef 0, .getField "roundingMode" RoundingMode.descriptor,
    .getStatic RoundingMode.className RoundingMode.halfUp.name RoundingMode.descriptor,
    goTo (.sameObject false) (k + 6), .push (.int 1), goTo .always (k + 7), .push (.int 0),
    .returnInt]

/-- Returns whether the digits were not rounded before, at position `k`. -/
def unlessRounded (k : ℕ) : List Operation :=
  .loadInt 2 :: goTo (.withZero .ne) (k + 4) :: answer 1 ++ answer 0

/-- The fixed body of both cases at position `k`. -/
def halfFixed (k common : ℕ) : List Operation :=
  unlessFive (k + 8) common ++ unlessLast (k + 14)
    ++ .loadInt 3 :: goTo (.withZero .eq) (k + 32) :: isHalfUp (k + 24)
    ++ unlessRounded (k + 32)

end Decision

/-! ### What the cases come to -/

namespace Receiver

variable (x : Receiver)

/-- A five at the place in the fixed body. -/
def fixedFive (place rounded exact : Int32) : Outcome :=
  if place ≠ x.count - 1 then (answered 1).after 6
  else if exact = 0 then (answered (if rounded = 0 then 1 else 0)).after 10
  else if x.roundingMode = .halfUp then ⟨15, .ok (some (.int 1))⟩
  else ⟨14, .ok (some (.int 0))⟩

/-- What the fixed build comes to. -/
def fixed (place rounded exact : Int32) : Outcome :=
  let half := x.unlessFive place (x.fixedFive place rounded exact)
  x.decision place rounded exact half half

end Receiver

section Program

variable {c : LoadedClass} {limits : Limits} {p : Program} {locals : List Value} {k : ℕ}
  {callers : List (CallSite × Activation)} {h : Heap} {x : Receiver} {this : ObjRef}
  {place rounded exact : Int32} {o : Outcome}

/-- The code answers at once where digits stand behind the place, and goes on where none do. -/
theorem comes_unlessLast (hx : x.IsAt h this) (hk : p.Segment k (Decision.unlessLast k))
    (hroom : 3 ≤ p.maxStack.toNat) (hsmall : k + 8 < 2147483648)
    (hlocals : Arguments locals this place rounded exact)
    (hlast : place = x.count - 1 → Comes c limits ⟨⟨p, locals, [], k + 8⟩, callers⟩ h o) :
    Comes c limits ⟨⟨p, locals, [], k⟩, callers⟩ h
      (if place ≠ x.count - 1 then (Receiver.answered 1).after 6 else o.after 6) := by
  have htest : Leads c limits 6 ⟨⟨p, locals, [], k⟩, callers⟩ h _ h :=
    (leads_decisiveAndLast hx hk.left hroom hlocals.this hlocals.place).trans
      (leads_branch hk.right.head rfl hsmall)
  exact htest.comes_ite_not beq_eq_false_iff_ne
    (fun _ hbehind => hbehind.comes (comes_answer hk.right.tail hroom) rfl)
    fun hplace htaken => htaken.comes (hlast (not_not.mp hplace)) rfl

/-- The code answers the contrary of the rounded flag. -/
theorem comes_unlessRounded (hk : p.Segment k (Decision.unlessRounded k))
    (hroom : 3 ≤ p.maxStack.toNat) (hsmall : k + 4 < 2147483648)
    (hlocals : Arguments locals this place rounded exact) :
    Comes c limits ⟨⟨p, locals, [], k⟩, callers⟩ h
      ((Receiver.answered (if rounded = 0 then 1 else 0)).after 2) := by
  have htest : Leads c limits 2 ⟨⟨p, locals, [], k⟩, callers⟩ h _ h :=
    (leads_loadInt hk.head hlocals.rounded (by rw [List.length_nil]; omega)).trans
      (leads_branch hk.tail.head rfl hsmall)
  rw [apply_ite Receiver.answered, apply_ite (Outcome.after 2)]
  exact htest.comes_ite_not bne_eq_false_iff_eq
    (fun _ hbehind => hbehind.comes (comes_answer hk.left.tail.tail hroom) rfl)
    fun _ htaken => htaken.comes (comes_answer hk.right hroom) rfl

/-- Different modes are different objects. -/
theorem HasModes.eq_iff {modes : RoundingMode → ObjRef} (hmodes : HasModes h modes)
    (m n : RoundingMode) : modes m = modes n ↔ m = n := by
  refine ⟨fun heq => ?_, fun heq => heq ▸ rfl⟩
  have hm := (hmodes m).2
  rw [heq, (hmodes n).2] at hm
  -- One reference holds one constant, whose ordinal names the mode.
  have hordinal : n.ordinal = m.ordinal := (HeapObject.constant.inj (Except.ok.inj hm)).2.2
  have hmode := congrArg RoundingMode.ofOrdinal? hordinal
  rw [RoundingMode.ofOrdinal?_ordinal, RoundingMode.ofOrdinal?_ordinal] at hmode
  exact (Option.some.inj hmode).symm

/-- The code tests whether the receiver's mode is the one that rounds ties up. -/
theorem comes_isHalfUp (hx : x.IsAt h this) (hk : p.Segment k (Decision.isHalfUp k))
    (hroom : 3 ≤ p.maxStack.toNat) (hsmall : k + 7 < 2147483648)
    (hthis : locals[0]? = some (.obj this)) :
    Comes c limits ⟨⟨p, locals, [], k⟩, callers⟩ h
      (if x.roundingMode = .halfUp then ⟨7, .ok (some (.int 1))⟩
        else ⟨6, .ok (some (.int 0))⟩) := by
  obtain ⟨modes, hmodes, hfield⟩ := hx.roundingMode
  have hstatic : staticField RoundingMode.className RoundingMode.halfUp.name
      RoundingMode.descriptor h = .ok (modes .halfUp) := by
    rw [staticField, (hmodes .halfUp).1]
    exact if_pos (by decide +kernel)
  -- Two references are compared: the modes are objects, one for each.
  have hpushed : Leads c limits 3 ⟨⟨p, locals, [], k⟩, callers⟩ h
      ⟨⟨p, locals, [.obj (modes .halfUp), .obj (modes x.roundingMode)], k + 3⟩, callers⟩ h :=
    ((leads_loadRef hk.head hthis (by rw [List.length_nil]; omega)).trans
      (leads_getField hk.tail.head hfield (by rw [List.length_nil]; omega))).trans
        (leads_getStatic hk.tail.tail.head hstatic
          (by rw [List.length_cons, List.length_nil]; omega))
  have htest := hpushed.trans (leads_branch hk.tail.tail.tail.head rfl (by omega))
  have hsame : ((some (modes x.roundingMode) == some (modes .halfUp)) == false) = false ↔
      x.roundingMode = .halfUp := by
    simp [hmodes.eq_iff]
  refine htest.comes_ite_not hsame (fun _ hbehind => ?_) fun _ htaken => ?_
  · have hone := hbehind.trans
      ((leads_push hk.tail.tail.tail.tail.head (by rw [List.length_nil]; omega)).trans
        (leads_branch hk.tail.tail.tail.tail.tail.head rfl hsmall))
    exact hone.comes (ends_returnInt hk.tail.tail.tail.tail.tail.tail.tail.head).comes rfl
  · have hnone := htaken.trans
      (leads_push hk.tail.tail.tail.tail.tail.tail.head (by rw [List.length_nil]; omega))
    exact hnone.comes (ends_returnInt hk.tail.tail.tail.tail.tail.tail.tail.head).comes rfl

/-- **The fixed body** of the half cases. -/
theorem comes_halfFixed {common : ℕ} (hx : x.IsAt h this)
    (hk : p.Segment k (Decision.halfFixed k common))
    (hcommon : p.Segment common (Decision.answer 0))
    (hroom : 3 ≤ p.maxStack.toNat) (hsmall : k + 38 < 2147483648 ∧ common < 2147483648)
    (hlocals : Arguments locals this place rounded exact) :
    Comes c limits ⟨⟨p, locals, [], k⟩, callers⟩ h
      (x.unlessFive place (x.fixedFive place rounded exact)) := by
  refine comes_unlessFive hx hk.left.left.left hroom (by omega) hsmall.2 hlocals.this hlocals.place
    hcommon fun _ => ?_
  have hlast := hk.left.right
  have htest : Leads c limits 2 ⟨⟨p, locals, [], k + 22⟩, callers⟩ h _ h :=
    (leads_loadInt hlast.head hlocals.exact (by rw [List.length_nil]; omega)).trans
      (leads_branch hlast.tail.head rfl (by omega))
  -- A five that is the last digit: exact digits ask for the mode, others for the direction they
  -- were rounded in.
  have htie : Comes c limits ⟨⟨p, locals, [], k + 22⟩, callers⟩ h
      (if exact = 0 then (Receiver.answered (if rounded = 0 then 1 else 0)).after 4
        else if x.roundingMode = .halfUp then ⟨9, .ok (some (.int 1))⟩
        else ⟨8, .ok (some (.int 0))⟩) := by
    refine htest.comes_ite beq_iff_eq (fun _ hinexact => ?_) fun _ htie => ?_
    · exact hinexact.comes
        (comes_unlessRounded hk.right hroom (show k + 32 + 4 < _ by omega) hlocals) rfl
    · have hmode := htie.comes (comes_isHalfUp hx hlast.tail.tail hroom
        (show k + 24 + 7 < _ by omega) hlocals.this) rfl
      rwa [apply_ite (Outcome.after 2)] at hmode
  have hdone := comes_unlessLast hx hk.left.left.right hroom (show k + 14 + 8 < _ by omega) hlocals
    fun _ => htie
  rw [apply_ite (Outcome.after 6), apply_ite (Outcome.after 6)] at hdone
  exact hdone

/-- **The fixed build.** -/
theorem comes_fixed (hc : IsHost c) (hx : x.IsAt h this) (hp : Decision.StandsIn p 63 38)
    (hhalf : p.Segment 63 (Decision.halfFixed 63 (Decision.commonAt 38)))
    (hlocals : Arguments locals this place rounded exact) (hlength : 4 < locals.length) :
    Comes c limits ⟨⟨p, locals, [], 0⟩, callers⟩ h (x.fixed place rounded exact) := by
  have hcommon : p.Segment (Decision.commonAt 38) (Decision.answer 0) := hp.back.right
  have hboth : Comes c limits ⟨⟨p, locals, [], 63⟩, callers⟩ h _ :=
    comes_halfFixed hx hhalf hcommon hp.room (by decide) hlocals
  exact comes_decision hc hx hp hlocals hlength (fun _ _ => hboth) fun _ _ => hboth

end Program

end RoundingPatch.DigitList
