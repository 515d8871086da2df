import RoundingPatch.Patch.Switch
import RoundingPatch.Proofs.ClassFile.Positions
/-!
# What a decision goes through

A decision sees the instructions and the labels of the target method in order. It only takes a label
if the switch came before it (`exists_taken`, `exists_found`), and it does so once
(`foldl_after_of_patched`). Of the instructions it accepts, one at most is a switch
(`length_switches_le`), and if no labels are found there it has too few cases
(`length_targets_le_max`).
-/

namespace RoundingPatch

open ClassFile MethodEvent

/-- A switch of either kind. -/
def ClassFile.Insn.isSwitch : Insn → Bool
  | .tableSwitch .. | .lookupSwitch .. => true
  | _ => false

namespace Decision

/-- The decision after an event of the target method. -/
def after (d : Decision) : MethodEvent → Decision
  | .insn i => (d.onInsn i).2
  | .label l => (d.takeInjection l).2
  | _ => d

variable {d : Decision} {events : List MethodEvent} {e : MethodEvent} {i : Insn} {l : Label}
  {labels : CaseLabels}

/-! ### One event -/

/-- What an instruction does to the state of a decision. -/
theorem onInsn_eq_ok (h : (d.onInsn i).1 = .ok ()) : ∃ step, d.matcher.observe i
    = (.ok step, (d.onInsn i).2.matcher) ∧ (d.onInsn i).2.state = (match d.state, step with
      | .scanning, .captured labels => .found labels
      | .scanning, .unmatched _ => .unmatched
      | state, _ => state) := by
  unfold onInsn at h ⊢
  split at h
  · cases h
  · next step matcher hobserve =>
    rw [hobserve]
    exact ⟨step, rfl, rfl⟩

/-- A decision once patched stays so. -/
theorem after_of_patched (h : d.state = .patched labels) : (d.after e).state = .patched labels := by
  unfold after
  split
  · unfold onInsn
    split
    · exact h
    · simp only [h]
  · unfold takeInjection
    simp only [h]
  · exact h

theorem takeInjection_of_patched (h : d.state = .patched labels) (l : Label) :
    (d.takeInjection l).1 = false := by
  unfold takeInjection
  simp only [h]

/-- A label is taken as the one that the switch was found to go to. -/
theorem takeInjection_eq_true : (d.takeInjection l).1 = true ↔
    ∃ labels, d.state = .found labels ∧ labels.patched = l := by
  unfold takeInjection
  split
  · next labels h =>
    split
    · next hl => simp [h, hl]
    · next hl => simp [h, hl]
  · next h =>
    simp only [Bool.false_eq_true, false_iff]
    rintro ⟨labels, hfound, _⟩
    exact h labels hfound

theorem switchesSeen_takeInjection :
    (d.takeInjection l).2.matcher.switchesSeen = d.matcher.switchesSeen := by
  unfold takeInjection
  split
  · split <;> rfl
  · rfl

theorem state_takeInjection (h : d.state = .found labels) :
    (d.takeInjection labels.patched).2.state = .patched labels := by
  unfold takeInjection
  simp [h]

/-- No event but the right label makes the decision place the call. -/
theorem after_eq_patched (hd : ∀ labels, d.state ≠ .patched labels)
    (h : (d.after e).state = .patched labels) :
    e = .label labels.patched ∧ d.state = .found labels := by
  unfold after at h
  split at h
  · next i =>
    unfold onInsn at h
    split at h
    · exact absurd h (hd labels)
    · next step matcher hobserve =>
      -- No instruction patches: whatever the state, it ends in another.
      rcases hstate : d.state with _ | _ | _ | _ | _ | _ <;> rcases step with _ | _ | _ <;>
        simp_all
  · next l =>
    unfold takeInjection at h
    split at h
    · next found hfound =>
      split at h
      · next hl =>
        cases h
        exact ⟨by rw [hl], hfound⟩
      · exact absurd h (hd labels)
    · exact absurd h (hd labels)
  · exact absurd h (hd labels)

theorem matcher_after : (d.after e).matcher.patched = d.matcher.patched ∧
    (d.after e).matcher.sibling = d.matcher.sibling := by
  have hobserve (i : Insn) : (d.matcher.observe i).2.patched = d.matcher.patched ∧
      (d.matcher.observe i).2.sibling = d.matcher.sibling := by
    unfold Matcher.observe
    split
    · exact ⟨rfl, rfl⟩
    · dsimp only
      split <;> exact ⟨rfl, rfl⟩
    · exact ⟨rfl, rfl⟩
  -- Only the count of switches ever changes.
  unfold after
  split
  · next i =>
    have h := hobserve i
    unfold onInsn
    split
    · next hi =>
      rw [hi] at h
      exact h
    · next hi =>
      rw [hi] at h
      exact h
  · unfold takeInjection
    split
    · split <;> exact ⟨rfl, rfl⟩
    · exact ⟨rfl, rfl⟩
  · exact ⟨rfl, rfl⟩

/-- A switch goes to a label for each of the two cases. -/
structure Goes (d : Decision) (i : Insn) (labels : CaseLabels) : Prop where
  eq : ∃ low high default targets, i = .tableSwitch low high default targets ∧
    targets[d.matcher.patched.ordinal]? = some labels.patched ∧
    targets[d.matcher.sibling.ordinal]? = some labels.sibling

/-- A matcher that captures goes to the two labels of the switch. -/
theorem goes_of_observe {step : Except Fault MatchStep} {m : Matcher}
    (h : d.matcher.observe i = (step, m)) (hstep : step = .ok (.captured labels)) :
    d.Goes i labels := by
  subst hstep
  unfold Matcher.observe at h
  split at h
  · cases h
  · next low high default targets =>
    dsimp only at h
    split at h
    · cases h
    · refine ⟨low, high, default, targets, rfl, ?_⟩
      obtain ⟨hcapture, -⟩ := Prod.mk.inj h
      unfold Matcher.capture at hcapture
      split at hcapture
      · cases hcapture
      · split at hcapture
        · next patched sibling hpatched hsibling =>
          cases hcapture
          exact ⟨hpatched, hsibling⟩
        · cases hcapture
  · cases h

/-- No event but a switch makes the decision find the labels. -/
theorem after_eq_found (hd : ∀ labels, d.state ≠ .found labels)
    (h : (d.after e).state = .found labels) : ∃ i, e = .insn i ∧ d.Goes i labels := by
  unfold after at h
  split at h
  · next i =>
    unfold onInsn at h
    split at h
    · exact absurd h (hd labels)
    · next step matcher hobserve =>
      refine ⟨i, rfl, goes_of_observe hobserve ?_⟩
      rcases hstate : d.state with _ | _ | _ | _ | _ | _ <;> rcases step with _ | _ | _ <;>
        simp_all
  · next l =>
    unfold takeInjection at h
    split at h
    · next found hfound => exact absurd hfound (hd found)
    · exact absurd h (hd labels)
  · exact absurd h (hd labels)

/-- A decision that has found its labels keeps them, or takes the patched one. -/
theorem after_of_found (h : d.state = .found labels) :
    (d.after e).state = .found labels ∨ (d.after e).state = .patched labels := by
  unfold after
  split
  · unfold onInsn
    split
    · exact .inl h
    · exact .inl (by simp only [h])
  · unfold takeInjection
    simp only [h]
    split
    · exact .inr rfl
    · exact .inl h
  · exact .inl h

/-- **What a verdict comes from**: no labels were found, or the call was placed and the offsets of
both cases are compared. -/
theorem finish_eq_ok {emitted : Emitted} {verdict : Verdict}
    (h : (d.finish emitted).1 = .ok verdict) :
    (d.state = .scanning ∨ d.state = .unmatched) ∧ verdict = .unmatched ∨
      ∃ labels u v, d.state = .patched labels ∧ emitted.offset? labels.patched = some u ∧
        emitted.offset? labels.sibling = some v ∧
        verdict = if u = v then .alreadyFixed else .modified := by
  unfold finish at h
  split at h
  · next hstate =>
    cases h
    exact .inl ⟨.inl hstate, rfl⟩
  · next hstate =>
    cases h
    exact .inl ⟨.inr hstate, rfl⟩
  · cases h
  · next labels hpatched =>
    refine .inr ⟨labels, ?_⟩
    split at h
    · next u v hu hv =>
      refine ⟨u, v, hpatched, hu, hv, ?_⟩
      split at h
      · next heq =>
        cases h
        rw [if_pos heq]
      · next hne =>
        cases h
        rw [if_neg hne]
    · cases h
    · cases h
  · cases h
  · cases h

/-- A method is modified only if the call was placed in it. -/
theorem exists_patched_of_finish {emitted : Emitted} (h : (d.finish emitted).1 = .ok .modified) :
    ∃ labels, d.state = .patched labels := by
  rcases finish_eq_ok h with ⟨-, h⟩ | ⟨labels, _, _, hpatched, -, -, -⟩
  · cases h
  · exact ⟨labels, hpatched⟩

/-! ### All events -/

theorem foldl_after_of_patched (h : d.state = .patched labels) :
    (events.foldl after d).state = .patched labels := by
  induction events generalizing d with
  | nil => exact h
  | cons e events ih => exact ih (after_of_patched h)

/-- **The call is placed at one label**, behind which it stays in place. -/
theorem exists_taken (hd : ∀ labels, d.state ≠ .patched labels)
    (h : (events.foldl after d).state = .patched labels) :
    ∃ front back, events = front ++ .label labels.patched :: back ∧
      (front.foldl after d).state = .found labels := by
  induction events generalizing d with
  | nil => exact absurd h (hd labels)
  | cons e events ih =>
    -- The first event behind which it is patched is the label that was taken.
    by_cases hnext : ∃ labels, (d.after e).state = .patched labels
    · obtain ⟨labels', hnext⟩ := hnext
      have hsame : Decision.State.patched labels' = .patched labels :=
        (foldl_after_of_patched hnext).symm.trans h
      cases hsame
      obtain ⟨rfl, hfound⟩ := after_eq_patched hd hnext
      exact ⟨[], events, rfl, hfound⟩
    · obtain ⟨front, back, rfl, hfront⟩ := ih (fun l hl => hnext ⟨l, hl⟩) h
      exact ⟨e :: front, back, rfl, hfront⟩

theorem foldl_after_of_found (h : d.state = .found labels) :
    (events.foldl after d).state = .found labels ∨
      (events.foldl after d).state = .patched labels := by
  induction events generalizing d with
  | nil => exact .inl h
  | cons e events ih =>
    rcases after_of_found (e := e) h with h | h
    · exact ih h
    · exact .inr (foldl_after_of_patched (d := d.after e) h)

/-- **The labels are found at a switch.** -/
theorem exists_found (hd : ∀ labels, d.state ≠ .found labels)
    (h : (events.foldl after d).state = .found labels) :
    ∃ i, i ∈ insns events ∧ d.Goes i labels := by
  induction events generalizing d with
  | nil => exact absurd h (hd labels)
  | cons e events ih =>
    -- The first event behind which the labels are found is the switch they are of.
    by_cases hnext : ∃ labels, (d.after e).state = .found labels
    · obtain ⟨labels', hnext⟩ := hnext
      have hsame : labels' = labels := by
        rcases @foldl_after_of_found _ events _ hnext with hlast | hlast
        · exact Decision.State.found.inj (hlast.symm.trans h)
        · cases hlast.symm.trans h
      subst hsame
      obtain ⟨i, rfl, hi⟩ := after_eq_found hd hnext
      exact ⟨i, by simp [insns], hi⟩
    · obtain ⟨i, hi, low, high, default, targets, rfl, hpatched, hsibling⟩ :=
        ih (fun l hl => hnext ⟨l, hl⟩) h
      rw [matcher_after.1] at hpatched
      rw [matcher_after.2] at hsibling
      refine ⟨_, ?_, low, high, default, targets, rfl, hpatched, hsibling⟩
      cases e <;> simp_all [insns]

/-! ### Switches -/

/-- The decision accepts every instruction among some events. -/
def Accepts (d : Decision) : List MethodEvent → Prop
  | [] => True
  | e :: events => (∀ i, e = .insn i → (d.onInsn i).1 = .ok ()) ∧ (d.after e).Accepts events

theorem Accepts.append {more : List MethodEvent} (h : d.Accepts events)
    (hmore : (events.foldl after d).Accepts more) : d.Accepts (events ++ more) := by
  induction events generalizing d with
  | nil => exact hmore
  | cons e events ih => exact ⟨h.1, ih h.2 hmore⟩

theorem switchesSeen_of_not_switch (h : i.isSwitch = false) :
    (d.onInsn i).2.matcher.switchesSeen = d.matcher.switchesSeen := by
  have hobserve : d.matcher.observe i = (.ok .proceed, d.matcher) := by
    cases i <;> first | rfl | cases h
  unfold onInsn
  rw [hobserve]

/-- A switch is accepted only if it is the first. -/
theorem switchesSeen_of_switch (hi : i.isSwitch = true) (h : (d.onInsn i).1 = .ok ()) :
    d.matcher.switchesSeen = 0 ∧ (d.onInsn i).2.matcher.switchesSeen = 1 := by
  obtain ⟨step, hobserve, -⟩ := onInsn_eq_ok h
  have hseen := congrArg (fun p : Except Fault MatchStep × Matcher => p.2.switchesSeen) hobserve
  cases i with
  | tableSwitch low high default targets =>
    unfold Matcher.observe at hobserve hseen
    dsimp only at hobserve hseen
    -- A second switch would be refused.
    by_cases hfirst : 1 < d.matcher.switchesSeen + 1
    · rw [if_pos hfirst] at hobserve
      cases hobserve
    · rw [if_neg hfirst] at hseen
      dsimp only at hseen
      omega
  | lookupSwitch default pairs => cases hobserve
  | _ => cases hi

/-- **At most one switch is accepted.** -/
theorem length_switches_le (h : d.Accepts events) :
    d.matcher.switchesSeen + ((insns events).filter Insn.isSwitch).length
      ≤ max 1 d.matcher.switchesSeen := by
  -- Each switch accepted finds none seen and leaves one.
  induction events generalizing d with
  | nil => exact Nat.le_max_right ..
  | cons e events ih =>
    have hrest := ih h.2
    cases e with
    | insn i =>
      rw [insns_cons_insn]
      by_cases hi : i.isSwitch = true
      · obtain ⟨hzero, hone⟩ := switchesSeen_of_switch hi (h.1 i rfl)
        rw [List.filter_cons_of_pos hi, List.length_cons, hzero]
        rw [show d.after (.insn i) = (d.onInsn i).2 from rfl, hone] at hrest
        omega
      · rw [List.filter_cons_of_neg hi]
        rwa [show d.after (.insn i) = (d.onInsn i).2 from rfl,
          switchesSeen_of_not_switch (by simpa using hi)] at hrest
    | label l =>
      rwa [show d.after (.label l) = (d.takeInjection l).2 from rfl, switchesSeen_takeInjection]
        at hrest
    | _ => exact hrest

/-- A switch that is accepted is the only one. -/
theorem switches_of_accepts (h : d.Accepts events) (hseen : d.matcher.switchesSeen = 0)
    (hi : i ∈ insns events) (hswitch : i.isSwitch = true) :
    (insns events).filter Insn.isSwitch = [i] := by
  have hmem : i ∈ (insns events).filter Insn.isSwitch := List.mem_filter.mpr ⟨hi, hswitch⟩
  have hlength := length_switches_le h
  rw [hseen] at hlength
  obtain ⟨j, hj⟩ := List.length_eq_one_iff.mp
    (Nat.le_antisymm (by omega) (List.length_pos_of_mem hmem))
  rw [hj, List.mem_singleton] at hmem
  rw [hj, hmem]

theorem Accepts.exists_onInsn (h : d.Accepts events) (hi : i ∈ insns events) :
    ∃ now : Decision, (now.onInsn i).1 = .ok () := by
  induction events generalizing d with
  | nil => cases hi
  | cons e events ih =>
    cases e with
    | insn j =>
      rcases List.mem_cons.mp hi with rfl | hi
      · exact ⟨d, h.1 i rfl⟩
      · exact ih h.2 hi
    | _ => exact ih h.2 hi

/-- No sparse switch is accepted. -/
theorem onInsn_lookupSwitch {default : Label} {pairs : List (Int32 × Label)} :
    (d.onInsn (.lookupSwitch default pairs)).1 ≠ .ok () :=
  nofun

section Cases

variable {low high : Int32} {default : Label} {targets : List Label}

/-- A dense switch that is accepted is the first, and its cases are looked up. -/
theorem capture_of_onInsn (h : (d.onInsn (.tableSwitch low high default targets)).1 = .ok ()) :
    ∃ step, d.matcher.capture targets = .ok step ∧
      (d.onInsn (.tableSwitch low high default targets)).2.state = (match d.state, step with
        | .scanning, .captured labels => .found labels
        | .scanning, .unmatched _ => .unmatched
        | state, _ => state) := by
  obtain ⟨step, hobserve, hstate⟩ := onInsn_eq_ok h
  refine ⟨step, ?_, hstate⟩
  unfold Matcher.observe at hobserve
  dsimp only at hobserve
  split at hobserve
  · cases hobserve
  · exact (Prod.mk.inj hobserve).1

/-- A dense switch that is accepted has no more cases than there are modes. -/
theorem length_targets_le (h : (d.onInsn (.tableSwitch low high default targets)).1 = .ok ()) :
    targets.length ≤ RoundingMode.all.length := by
  obtain ⟨step, hcapture, -⟩ := capture_of_onInsn h
  unfold Matcher.capture at hcapture
  split at hcapture
  · cases hcapture
  · omega

/-- The labels are found at a dense switch with enough cases. -/
theorem found_of_switch (hscanning : d.state = .scanning)
    (h : (d.onInsn (.tableSwitch low high default targets)).1 = .ok ())
    (henough : max d.matcher.patched.ordinal d.matcher.sibling.ordinal < targets.length) :
    ∃ labels, (d.onInsn (.tableSwitch low high default targets)).2.state = .found labels := by
  obtain ⟨hpatched, hsibling⟩ := Nat.max_lt.mp henough
  obtain ⟨step, hcapture, hstate⟩ := capture_of_onInsn h
  unfold Matcher.capture at hcapture
  split at hcapture
  · cases hcapture
  · rw [List.getElem?_eq_getElem hpatched, List.getElem?_eq_getElem hsibling] at hcapture
    cases hcapture
    rw [hstate, hscanning]
    exact ⟨_, rfl⟩

theorem state_of_not_switch (h : i.isSwitch = false) : (d.onInsn i).2.state = d.state := by
  have hobserve : d.matcher.observe i = (.ok .proceed, d.matcher) := by
    cases i <;> first | rfl | cases h
  unfold onInsn
  rw [hobserve]
  rcases d.state <;> rfl

/-- **A switch at which no labels are found** has too few cases. -/
theorem length_targets_le_max (hscanning : d.state = .scanning) (haccepts : d.Accepts events)
    (hfound : ∀ labels, (events.foldl after d).state ≠ .found labels)
    (hpatched : ∀ labels, (events.foldl after d).state ≠ .patched labels)
    (hi : .tableSwitch low high default targets ∈ insns events) :
    targets.length ≤ max d.matcher.patched.ordinal d.matcher.sibling.ordinal := by
  induction events generalizing d with
  | nil => cases hi
  | cons e events ih =>
    have hnext (hstate : (d.after e).state = .scanning)
        (hmem : .tableSwitch low high default targets ∈ insns events) :
        targets.length ≤ max d.matcher.patched.ordinal d.matcher.sibling.ordinal := by
      have hle := ih hstate haccepts.2 hfound hpatched hmem
      rwa [matcher_after.1, matcher_after.2] at hle
    cases e with
    | insn j =>
      rcases List.mem_cons.mp hi with rfl | hi
      · refine Nat.le_of_not_lt fun hmore => ?_
        obtain ⟨labels, hlabels⟩ := found_of_switch hscanning (haccepts.1 _ rfl) hmore
        rcases @foldl_after_of_found _ events _ hlabels with h | h
        · exact hfound labels h
        · exact hpatched labels h
      · by_cases hj : j.isSwitch = true
        -- A second switch would not have been accepted.
        · have hone := (switchesSeen_of_switch hj (haccepts.1 j rfl)).2
          have hle := length_switches_le haccepts.2
          rw [show d.after (.insn j) = (d.onInsn j).2 from rfl, hone] at hle
          have hmem : .tableSwitch low high default targets ∈ (insns events).filter Insn.isSwitch :=
            List.mem_filter.mpr ⟨hi, rfl⟩
          have hpos := List.length_pos_of_mem hmem
          omega
        · exact hnext ((state_of_not_switch (by simpa using hj)).trans hscanning) hi
    | label l =>
      refine hnext ?_ hi
      unfold after takeInjection
      simp only [hscanning]
    | _ => exact hnext hscanning hi

end Cases

end Decision

end RoundingPatch
