import RoundingPatch.Proofs.DigitList.Half
import RoundingPatch.Proofs.Machine.Inside
/-!
# The patched decision

In the patched build the case of `HALF_UP` asks the replacement, and the case of `HALF_DOWN` is the
one of the affected build. Both come to `Receiver.lastFive` at a five (`comes_replacement`,
`comes_halfDownAffected`), which is what the fixed body answers there, in other numbers of
instructions. So the patched build answers what the fixed one answers under every budget that
suffices for the half cases (`Receiver.within_patched`).
-/

namespace RoundingPatch.DigitList

open ClassFile Machine

/-! ### The instructions -/

namespace Decision

theorem parse_descriptor :
    MethodDescriptor.parse "(IZZ)Z" = .ok ⟨[.int, .boolean, .boolean], some .boolean⟩ :=
  MethodDescriptor.parse_text (d := ⟨[.int, .boolean, .boolean], some .boolean⟩)
    (by decide) (by decide)

/-- The replacement: the right decision of `HALF_UP`. -/
def replacement : List Operation :=
  unlessFive 8 30 ++ unlessLast 14 ++ .loadInt 3 :: goTo (.withZero .eq) 26 :: answer 1
    ++ unlessRounded 26

/-- The affected case of `HALF_DOWN` at position `k`. -/
def halfDownAffected (k common : ℕ) : List Operation :=
  unlessFive (k + 8) common ++ decisiveAndLast
    ++ goTo (.words .ne) (k + 26) :: [.loadInt 3, goTo (.withZero .ne) (k + 24), .loadInt 2,
      goTo (.withZero .eq) (k + 26)]
    ++ answer 0 ++ answer 1

/-- Asks the replacement. -/
def forwarding (className name : String) : List Operation :=
  [.loadRef 0, .loadInt 1, .loadInt 2, .loadInt 3]
    ++ [.call .virtual className name "(IZZ)Z", .returnInt]

end Decision

/-! ### What the cases come to -/

namespace Receiver

variable (x : Receiver)

/-- A five at the place: an exact one at the end is answered with `v`, and an inexact one there
makes good for the earlier rounding. -/
def lastFive (place rounded exact v : Int32) : Outcome :=
  if place ≠ x.count - 1 then (answered 1).after 6
  else if exact = 0 then (answered (if rounded = 0 then 1 else 0)).after 10
  else (answered v).after 8

/-- What the patched build comes to. -/
def patched (place rounded exact : Int32) : Outcome :=
  x.decision place rounded exact
    ((x.unlessFive place (x.lastFive place rounded exact 1)).handedOn.after 4)
    (x.unlessFive place (x.lastFive place rounded exact 0))

variable {x} {place rounded exact v : Int32} {o o' : Outcome} {limits : Limits}

/-- The fixed body answers the same at a five. -/
theorem result_lastFive (hv : v = if x.roundingMode = .halfUp then 1 else 0) :
    (x.lastFive place rounded exact v).result = (x.fixedFive place rounded exact).result := by
  unfold lastFive fixedFive
  rw [hv]
  split
  · rfl
  split
  · rfl
  split <;> rfl

/-- The replacement's tie costs at most twelve steps. -/
theorem steps_lastFive_le : (x.lastFive place rounded exact v).steps ≤ 12 := by
  unfold lastFive
  split
  · exact show 6 + 2 ≤ 12 by decide
  split
  · exact show 10 + 2 ≤ 12 by decide
  · exact show 8 + 2 ≤ 12 by decide

/-- The fixed build's tie costs at most fifteen steps. -/
theorem steps_fixedFive_le : (x.fixedFive place rounded exact).steps ≤ 15 := by
  unfold fixedFive
  split
  · exact show 6 + 2 ≤ 15 by decide
  split
  · exact show 10 + 2 ≤ 15 by decide
  split
  · exact show 15 ≤ 15 by decide
  · exact show 14 ≤ 15 by decide

/-- The answer around a tie depends on the tie through its result only. -/
theorem result_unlessFive (h : o.result = o'.result) :
    (x.unlessFive place o).result = (x.unlessFive place o').result := by
  unfold unlessFive reading
  split
  · dsimp only
    split
    · rfl
    split
    · exact h
    · rfl
  · rfl

/-- Reading the digit adds at most twelve steps to the tie. -/
theorem steps_unlessFive_le (h : o.steps ≤ 15) : (x.unlessFive place o).steps ≤ 27 := by
  unfold unlessFive reading
  split
  · dsimp only
    split
    · exact show 4 + (2 + 2) ≤ 27 by decide
    split
    · show 4 + (8 + o.steps) ≤ 27
      omega
    · exact show 4 + (8 + 2) ≤ 27 by decide
  · exact show 4 ≤ 27 by decide

/-- A decision about a digit answers a word. -/
theorem exists_of_result_unlessFive {r : Option Value}
    (ho : ∀ r, o.result = .ok r → ∃ w, r = some (.int w))
    (h : (x.unlessFive place o).result = .ok r) :
    ∃ w, r = some (.int w) := by
  unfold unlessFive reading at h
  split at h
  · dsimp only at h
    split at h
    · exact ⟨1, (Except.ok.inj h).symm⟩
    split at h
    · exact ho r h
    · exact ⟨0, (Except.ok.inj h).symm⟩
  · cases h

/-- What the replacement's tie returns is a word. -/
theorem exists_of_result_lastFive {r : Option Value}
    (h : (x.lastFive place rounded exact v).result = .ok r) : ∃ w, r = some (.int w) := by
  unfold lastFive at h
  split at h
  · exact ⟨1, (Except.ok.inj h).symm⟩
  split at h
  · exact ⟨_, (Except.ok.inj h).symm⟩
  · exact ⟨v, (Except.ok.inj h).symm⟩

/-- Outcomes with the same result look the same from outside if the budget suffices for both. -/
theorem within_congr (hresult : o.result = o'.result) (h : o.steps ≤ limits.stepBudget)
    (h' : o'.steps ≤ limits.stepBudget) : o.within limits = o'.within limits := by
  rw [Outcome.within, Outcome.within, if_pos h, if_pos h', hresult]

/-- **The patched decision answers what the fixed one answers**, with any budget that suffices for a
decision about one digit. -/
theorem within_patched (hlimits : 41 ≤ limits.stepBudget) :
    (x.patched place rounded exact).within limits
      = (x.fixed place rounded exact).within limits := by
  have hfixed : (x.unlessFive place (x.fixedFive place rounded exact)).steps ≤ 27 :=
    steps_unlessFive_le steps_fixedFive_le
  have hlast (v : Int32) : (x.unlessFive place (x.lastFive place rounded exact v)).steps ≤ 27 :=
    steps_unlessFive_le (steps_lastFive_le.trans (by decide))
  unfold patched fixed decision
  by_cases hpast : x.count ≤ place
  · rw [if_pos hpast, if_pos hpast]
  rw [if_neg hpast, if_neg hpast]
  -- The two builds differ on ties rounded up or down alone, and on these by steps and not by the
  -- result.
  cases hmode : x.roundingMode with
  | halfUp =>
    have hasked := (Outcome.steps_handedOn_le _).trans (Nat.add_le_add_right (hlast 1) 2)
    refine within_congr ?_ ((Nat.add_le_add_left (Nat.add_le_add_left hasked 4) 8).trans hlimits)
      ((Nat.add_le_add_left hfixed 8).trans (show 8 + 27 ≤ _ by omega))
    exact (Outcome.result_handedOn _).trans
      (result_unlessFive (result_lastFive (by rw [hmode, if_pos rfl])))
  | halfDown =>
    have hbudget : 8 + 27 ≤ limits.stepBudget := by omega
    refine within_congr ?_ ((Nat.add_le_add_left (hlast 0) 8).trans hbudget)
      ((Nat.add_le_add_left hfixed 8).trans hbudget)
    exact result_unlessFive (result_lastFive (by rw [hmode, if_neg (by decide)]))
  | _ => rfl

end Receiver

section Program

variable {c : LoadedClass} {limits : Limits} {p : Program} {locals : List Value} {k : ℕ}
  {callers : List (CallSite × Activation)} {h : Heap} {x : Receiver} {this : ObjRef}
  {place rounded exact : Int32} {o : Outcome}

/-- **The replacement.** -/
theorem comes_replacement (hx : x.IsAt h this) (hp : p.Segment 0 Decision.replacement)
    (hroom : 3 ≤ p.maxStack.toNat) (hlocals : Arguments locals this place rounded exact) :
    Comes c limits ⟨⟨p, locals, [], 0⟩, callers⟩ h
      (x.unlessFive place (x.lastFive place rounded exact 1)) := by
  have hnone : p.Segment 30 (Decision.answer 0) := hp.right.right
  refine comes_unlessFive hx hp.left.left.left hroom (by decide) (by decide)
    hlocals.this hlocals.place
    hnone fun _ => ?_
  have hlast : p.Segment 22 _ := hp.left.right
  have htest : Leads c limits 2 ⟨⟨p, locals, [], 22⟩, callers⟩ h _ h :=
    (leads_loadInt hlast.head hlocals.exact (by rw [List.length_nil]; omega)).trans
      (leads_branch hlast.tail.head rfl (by decide))
  -- The exact flag is tested first; only where it is clear does the rounded flag count.
  have htie : Comes c limits ⟨⟨p, locals, [], 22⟩, callers⟩ h
      (if exact = 0 then (Receiver.answered (if rounded = 0 then 1 else 0)).after 4
        else (Receiver.answered 1).after 2) := by
    exact htest.comes_ite beq_iff_eq
      (fun _ htaken => htaken.comes (comes_unlessRounded hp.right hroom (by decide) hlocals) rfl)
      fun _ hbehind => hbehind.comes (comes_answer hlast.tail.tail hroom) rfl
  have hdone := comes_unlessLast hx hp.left.left.right hroom (by decide) hlocals fun _ => htie
  rw [apply_ite (Outcome.after 6)] at hdone
  exact hdone

/-- **The affected case of `HALF_DOWN`.** -/
theorem comes_halfDownAffected {common : ℕ} (hx : x.IsAt h this)
    (hk : p.Segment k (Decision.halfDownAffected k common))
    (hcommon : p.Segment common (Decision.answer 0)) (hroom : 3 ≤ p.maxStack.toNat)
    (hsmall : k + 26 < 2147483648 ∧ common < 2147483648)
    (hlocals : Arguments locals this place rounded exact) :
    Comes c limits ⟨⟨p, locals, [], k⟩, callers⟩ h
      (x.unlessFive place (x.lastFive place rounded exact 0)) := by
  refine comes_unlessFive hx hk.left.left.left.left hroom (by omega) hsmall.2 hlocals.this
    hlocals.place hcommon fun _ => ?_
  -- The answer is yes exactly if digits follow or the number is not exact and was not rounded up.
  have htests : p.Segment (k + 19) _ := hk.left.left.right
  have hzero : p.Segment (k + 24) (Decision.answer 0) := hk.left.right
  have hone : p.Segment (k + 26) (Decision.answer 1) := hk.right
  have hlast : Leads c limits 6 ⟨⟨p, locals, [], k + 14⟩, callers⟩ h _ h :=
    (leads_decisiveAndLast hx hk.left.left.left.right hroom hlocals.this hlocals.place).trans
      (leads_branch htests.head rfl (by omega))
  unfold Receiver.lastFive
  refine hlast.comes_ite bne_iff_ne
    (fun _ hfollowed => hfollowed.comes (comes_answer hone hroom) rfl) fun _ hlast => ?_
  have hexact := hlast.trans ((leads_loadInt htests.tail.head hlocals.exact
    (by rw [List.length_nil]; omega)).trans (leads_branch htests.tail.tail.head rfl (by omega)))
  refine hexact.comes_ite_not bne_eq_false_iff_eq (fun _ hinexact => ?_)
    fun _ htie => htie.comes (comes_answer hzero hroom) rfl
  have hrounded := hinexact.trans ((leads_loadInt htests.tail.tail.tail.head hlocals.rounded
    (by rw [List.length_nil]; omega)).trans
      (leads_branch htests.tail.tail.tail.tail.head rfl (by omega)))
  rw [apply_ite Receiver.answered, apply_ite (Outcome.after 10)]
  exact hrounded.comes_ite beq_iff_eq
    (fun _ hfresh => hfresh.comes (comes_answer hone hroom) rfl)
    fun _ hdone => hdone.comes (comes_answer hzero hroom) rfl

/-- **The call of the replacement.** -/
theorem comes_forwarding {callee : Program} {name : String} (hx : x.IsAt h this)
    (hk : p.Segment k (Decision.forwarding c.name name)) (hroom : 4 ≤ p.maxStack.toNat)
    (hlocals : Arguments locals this place rounded exact)
    (hcallee : c.program name "(IZZ)Z" = .ok callee)
    (hreplacement : callee.Segment 0 Decision.replacement)
    (hlimits : 3 ≤ callee.maxStack.toNat ∧ 3 < callee.maxLocals.toNat)
    (hdepth : callers.length + 1 ≤ limits.maxDepth) :
    Comes c limits ⟨⟨p, locals, [], k⟩, callers⟩ h
      ((x.unlessFive place (x.lastFive place rounded exact 1)).handedOn.after 4) := by
  let args : List Value := [.int place, .int rounded, .int exact]
  have hloads : Leads c limits 4 ⟨⟨p, locals, [], k⟩, callers⟩ h
      ⟨⟨p, locals, [.int exact, .int rounded, .int place, .obj this], k + 4⟩, callers⟩ h := by
    refine hk.left.leads hroom ?_
    simp [straightLine, Operation.straight, put, Value.obj, hlocals.this, hlocals.place,
      hlocals.rounded, hlocals.exact]
  -- The call takes its arguments off in reverse, the receiver last.
  have hpop : Activation.popMany
      ⟨p, locals, [.int exact, .int rounded, .int place, .obj this], k + 4 + 1⟩ 3 []
        = .ok (args, ⟨p, locals, [.obj this], k + 4 + 1⟩) := rfl
  have hcomes (callers : List (CallSite × Activation)) :
      Comes c limits ⟨⟨callee, callee.locals (.obj this :: args), [], 0⟩, callers⟩ h
        (x.unlessFive place (x.lastFive place rounded exact 1)) :=
    comes_replacement hx hreplacement hlimits.1 ⟨rfl, rfl, rfl, rfl⟩
  exact hloads.comes
    (comes_handOn hk.right Decision.parse_descriptor rfl rfl hcallee hpop hdepth hlimits.2
    (by rw [List.length_nil]; omega) hcomes fun _ hresult =>
      Receiver.exists_of_result_unlessFive (fun _ => Receiver.exists_of_result_lastFive) hresult)
        rfl

/-- **The patched build.** -/
theorem comes_patched {callee : Program} {name : String} (hc : IsHost c) (hx : x.IsAt h this)
    (hp : Decision.StandsIn p 87 52) (hforwarding : p.Segment 63 (Decision.forwarding c.name name))
    (hhalfDown : p.Segment 87 (Decision.halfDownAffected 87 (Decision.commonAt 52)))
    (hroom : 4 ≤ p.maxStack.toNat) (hlocals : Arguments locals this place rounded exact)
    (hlength : 4 < locals.length) (hcallee : c.program name "(IZZ)Z" = .ok callee)
    (hreplacement : callee.Segment 0 Decision.replacement)
    (hlimits : 3 ≤ callee.maxStack.toNat ∧ 3 < callee.maxLocals.toNat)
    (hdepth : callers.length + 1 ≤ limits.maxDepth) :
    Comes c limits ⟨⟨p, locals, [], 0⟩, callers⟩ h (x.patched place rounded exact) := by
  have hcommon : p.Segment (Decision.commonAt 52) (Decision.answer 0) := hp.back.right
  exact comes_decision hc hx hp hlocals hlength
    (fun _ _ => comes_forwarding hx hforwarding hroom hlocals hcallee hreplacement hlimits hdepth)
    fun _ _ => comes_halfDownAffected hx hhalfDown hcommon hp.room (by decide) hlocals

end Program

end RoundingPatch.DigitList
