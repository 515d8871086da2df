import Mathlib.Data.List.Induction
import RoundingPatch.Proofs.Patch.Switch
/-!
# Decisions in any order

The transformer shows a decision one method, asks once for the verdict and stops at the first
violation. Here a decision is put through any steps in any order, and those behind a violation are
still taken. Its state and the number of dense switches it has seen decide every answer. A first
dense switch that is refused leaves the decision `Lost`: no label is taken from then on. Any other
instruction that is refused leaves it as it was, up to the number of switches beyond the first
(`Alike`).
-/

namespace RoundingPatch

open ClassFile

/-- A dense switch. -/
def ClassFile.Insn.isDense : Insn → Bool
  | .tableSwitch .. => true
  | _ => false

namespace Decision

/-! ### Steps -/

/-- What a decision is put through. -/
inductive Step
  | insn (i : Insn)
  | label (l : Label)
  | finish (emitted : Emitted)

/-- What a decision says to a step. -/
inductive Answer
  | shown (result : Except Fault Unit)
  | taken (here : Bool)
  | verdict (result : Except Fault Verdict)

/-- A step, taken whatever the answers were so far. -/
def perform (d : Decision) : Step → Answer × Decision
  | .insn i => (.shown (d.onInsn i).1, (d.onInsn i).2)
  | .label l => (.taken (d.takeInjection l).1, (d.takeInjection l).2)
  | .finish emitted => (.verdict (d.finish emitted).1, (d.finish emitted).2)

/-- The decision behind some steps. -/
def through (d : Decision) (steps : List Step) : Decision :=
  steps.foldl (fun now s => (now.perform s).2) d

/-- The answer to a step behind others. -/
def answer (d : Decision) (steps : List Step) (s : Step) : Answer :=
  ((d.through steps).perform s).1

/-- The step shows a dense switch. -/
def Step.isDense : Step → Bool
  | .insn i => i.isDense
  | _ => false

variable {d : Decision} {steps before after : List Step} {s : Step} {i : Insn} {l : Label}
  {emitted : Emitted} {labels : CaseLabels} {fault : Fault}

@[simp]
theorem through_nil : d.through [] = d :=
  rfl

@[simp]
theorem through_cons : d.through (s :: steps) = (d.perform s).2.through steps :=
  rfl

@[simp]
theorem through_append : d.through (before ++ after) = (d.through before).through after := by
  rw [through, List.foldl_append]
  rfl

/-- What every step preserves holds behind all steps. -/
theorem through_induction {P : Decision → Prop} (hstep : ∀ d s, P d → P (d.perform s).2)
    (hd : P d) : P (d.through steps) := by
  induction steps generalizing d with
  | nil => exact hd
  | cons s steps ih => exact ih (hstep d s hd)

theorem answer_label : d.answer steps (.label l) = .taken ((d.through steps).takeInjection l).1 :=
  rfl

/-! ### One instruction -/

/-- Any other instruction changes nothing, and is refused if it is a sparse switch. -/
theorem onInsn_of_not_dense (h : i.isDense = false) : d.onInsn i =
    (match i with
      | .lookupSwitch .. => .error (.violation .lookupSwitch)
      | _ => .ok (), d) := by
  rcases d with ⟨matcher, _ | _ | _ | _ | _ | _⟩ <;> rcases i <;> first | cases h; done | rfl

/-- A dense switch behind another is refused, and counted. -/
theorem onInsn_again (h : i.isDense = true) (hseen : 0 < d.matcher.switchesSeen) :
    d.onInsn i = (.error (.violation .secondSwitch),
      { d with matcher := { d.matcher with switchesSeen := d.matcher.switchesSeen + 1 } }) := by
  cases i with
  | tableSwitch low high default targets =>
    unfold onInsn Matcher.observe
    dsimp only
    rw [if_pos (by omega)]
  | _ => cases h

/-- **The first dense switch.** It has too many cases, too few, or enough for both labels. -/
inductive First (d : Decision) (targets : List Label) : Except Fault Unit → State → Prop
  | refused (h : RoundingMode.all.length < targets.length) :
    First d targets (.error (.violation (.tooManyCases targets.length))) d.state
  | small (h : targets.length ≤ RoundingMode.all.length) (hstate : d.state = .scanning) :
    First d targets (.ok ()) .unmatched
  | found (labels : CaseLabels) (h : targets.length ≤ RoundingMode.all.length)
    (hstate : d.state = .scanning)
    (hpatched : targets[d.matcher.patched.ordinal]? = some labels.patched)
    (hsibling : targets[d.matcher.sibling.ordinal]? = some labels.sibling) :
    First d targets (.ok ()) (.found labels)
  | late (h : targets.length ≤ RoundingMode.all.length) (hstate : d.state ≠ .scanning) :
    First d targets (.ok ()) d.state

/-- **The first dense switch** is refused, comes late, is too small or gives the labels. -/
theorem onInsn_first (low high : Int32) (default : Label) (targets : List Label)
    (hseen : d.matcher.switchesSeen = 0) :
    First d targets (d.onInsn (.tableSwitch low high default targets)).1
        (d.onInsn (.tableSwitch low high default targets)).2.state ∧
      (d.onInsn (.tableSwitch low high default targets)).2.matcher.switchesSeen = 1 := by
  rcases d with ⟨⟨patched, sibling, seen⟩, state⟩
  obtain rfl : seen = 0 := hseen
  unfold onInsn Matcher.observe
  simp only [Nat.zero_add, Nat.lt_irrefl, if_false]
  unfold Matcher.capture
  dsimp only
  -- More targets than modes refuse the switch before its labels are looked up.
  by_cases hmany : RoundingMode.all.length < targets.length
  · rw [if_pos hmany]
    exact ⟨.refused hmany, rfl⟩
  rw [if_neg hmany]
  have hfew := Nat.le_of_not_lt hmany
  by_cases hstate : state = .scanning
  · subst hstate
    rcases hp : targets[patched.ordinal]? with _ | p <;>
      rcases hs : targets[sibling.ordinal]? with _ | s
    · exact ⟨.small hfew rfl, rfl⟩
    · exact ⟨.small hfew rfl, rfl⟩
    · exact ⟨.small hfew rfl, rfl⟩
    · exact ⟨.found ⟨p, s⟩ hfew rfl hp hs, rfl⟩
  · rcases targets[patched.ordinal]? with _ | p <;> rcases targets[sibling.ordinal]? with _ | s <;>
      rcases state with _ | _ | _ | _ | _ | _ <;>
      first | exact absurd rfl hstate | exact ⟨.late hfew nofun, rfl⟩

/-- Only a decision that scans is moved by an instruction. -/
theorem state_onInsn_of_not_scanning (h : d.state ≠ .scanning) :
    (d.onInsn i).2.state = d.state := by
  unfold onInsn
  split
  · rfl
  · rcases hstate : d.state with _ | _ | _ | _ | _ | _ <;> first | exact absurd hstate h | rfl

/-- Behind a dense switch no instruction changes the state. -/
theorem state_onInsn_of_seen (h : 0 < d.matcher.switchesSeen) : (d.onInsn i).2.state = d.state := by
  by_cases hi : i.isDense = true
  · rw [onInsn_again hi h]
  · rw [onInsn_of_not_dense (Bool.eq_false_iff.mpr hi)]

/-! ### One step -/

theorem matcher_finish : (d.finish emitted).2.matcher = d.matcher := by
  rcases d with ⟨matcher, state⟩
  unfold finish
  dsimp only
  repeat' split
  all_goals rfl

theorem switchesSeen_onInsn : (d.onInsn i).2.matcher.switchesSeen
    = d.matcher.switchesSeen + if i.isDense then 1 else 0 := by
  by_cases hi : i.isDense = true
  · rcases Nat.eq_zero_or_pos d.matcher.switchesSeen with hseen | hseen
    · cases i with
      | tableSwitch low high default targets =>
        rw [(onInsn_first _ _ _ _ hseen).2, hseen]
        rfl
      | _ => cases hi
    · rw [onInsn_again hi hseen, if_pos hi]
  · rw [onInsn_of_not_dense (Bool.eq_false_iff.mpr hi), if_neg hi, Nat.add_zero]

/-- The dense switches seen are counted in any state. -/
theorem switchesSeen_perform : (d.perform s).2.matcher.switchesSeen
    = d.matcher.switchesSeen + if s.isDense then 1 else 0 := by
  cases s with
  | insn i => exact switchesSeen_onInsn
  | label l => exact switchesSeen_takeInjection
  | finish emitted => exact congrArg Matcher.switchesSeen matcher_finish

/-- **A decision counts the dense switches it is shown**, accepted or not. -/
theorem switchesSeen_through : (d.through steps).matcher.switchesSeen
    = d.matcher.switchesSeen + steps.countP Step.isDense := by
  induction steps generalizing d with
  | nil => rfl
  | cons s steps ih =>
    rw [through_cons, ih, switchesSeen_perform, List.countP_cons]
    omega

theorem modes_perform : (d.perform s).2.matcher.patched = d.matcher.patched ∧
    (d.perform s).2.matcher.sibling = d.matcher.sibling := by
  cases s with
  | insn i => exact matcher_after (e := .insn i)
  | label l => exact matcher_after (e := .label l)
  | finish emitted => exact ⟨congrArg Matcher.patched matcher_finish,
      congrArg Matcher.sibling matcher_finish⟩

theorem modes_through : (d.through steps).matcher.patched = d.matcher.patched ∧
    (d.through steps).matcher.sibling = d.matcher.sibling :=
  through_induction
    (P := fun now => now.matcher.patched = d.matcher.patched ∧
      now.matcher.sibling = d.matcher.sibling)
    (fun _ _ h => ⟨modes_perform.1.trans h.1, modes_perform.2.trans h.2⟩) ⟨rfl, rfl⟩

/-! ### Behind the call -/

/-- The forwarding call was placed, whatever the verdict on it. -/
def State.isSpent : State → Bool
  | .patched _ | .needed | .notNeeded => true
  | _ => false

theorem takeInjection_of_spent (h : d.state.isSpent = true) : d.takeInjection l = (false, d) := by
  rcases d with ⟨matcher, _ | _ | _ | _ | _ | _⟩ <;> first | rfl | cases h

theorem isSpent_perform (h : d.state.isSpent = true) : (d.perform s).2.state.isSpent = true := by
  cases s with
  | insn i =>
    have hscanning : d.state ≠ .scanning := fun hstate => by rw [hstate] at h; cases h
    rwa [perform, state_onInsn_of_not_scanning hscanning]
  | label l => rwa [perform, takeInjection_of_spent h]
  | finish emitted =>
    unfold perform finish
    dsimp only
    repeat' split
    all_goals first | rfl | exact h | simp_all [State.isSpent]

/-- **The call is placed once.** -/
theorem takeInjection_of_taken (h : (d.takeInjection l).1 = true) (steps : List Step) (l' : Label) :
    (((d.takeInjection l).2.through steps).takeInjection l').1 = false := by
  obtain ⟨labels, hfound, rfl⟩ := takeInjection_eq_true.mp h
  have hspent : (d.takeInjection labels.patched).2.state.isSpent = true := by
    rw [state_takeInjection hfound]
    rfl
  rw [takeInjection_of_spent
    (through_induction (P := fun now => now.state.isSpent = true)
      (fun _ _ => isSpent_perform) hspent)]

/-! ### Where the labels come from -/

/-- The first dense switch among `steps` is accepted while the decision still scans, and goes to
`labels`. -/
structure Captured (patched sibling : RoundingMode) (steps : List Step) (labels : CaseLabels) :
    Prop where
  eq : ∃ front low high default targets back,
    steps = front ++ .insn (.tableSwitch low high default targets) :: back ∧
    front.countP Step.isDense = 0 ∧
    ((start patched sibling).through front).state = .scanning ∧
    (start patched sibling).answer front (.insn (.tableSwitch low high default targets))
      = .shown (.ok ()) ∧
    targets.length ≤ RoundingMode.all.length ∧
    targets[patched.ordinal]? = some labels.patched ∧
    targets[sibling.ordinal]? = some labels.sibling

section Start

variable {patched sibling : RoundingMode}

/-- What was captured stays captured, whatever comes behind. -/
theorem Captured.append (h : Captured patched sibling steps labels) (more : List Step) :
    Captured patched sibling (steps ++ more) labels := by
  obtain ⟨front, low, high, default, targets, back, rfl, hrest⟩ := h.eq
  exact ⟨front, low, high, default, targets, back ++ more, by simp, hrest⟩

theorem switchesSeen_start : ((start patched sibling).through steps).matcher.switchesSeen
    = steps.countP Step.isDense := by
  rw [switchesSeen_through]
  exact Nat.zero_add _

/-- Labels that are found behind an instruction were found before it, or at it. -/
theorem captured_of_onInsn
    (ih : ∀ labels, ((start patched sibling).through steps).state = .found labels →
      Captured patched sibling steps labels)
    (h : (((start patched sibling).through steps).onInsn i).2.state = .found labels) :
    Captured patched sibling (steps ++ [.insn i]) labels := by
  by_cases hstate : (((start patched sibling).through steps).onInsn i).2.state
      = ((start patched sibling).through steps).state
  · exact (ih labels (hstate ▸ h)).append _
  cases i with
  | tableSwitch low high default targets =>
    -- Only the first dense switch changes the state, so this instruction is that switch.
    rcases Nat.eq_zero_or_pos ((start patched sibling).through steps).matcher.switchesSeen
      with hseen | hseen
    · have hfirst := (onInsn_first low high default targets hseen).1
      generalize hanswer : (((start patched sibling).through steps).onInsn
        (.tableSwitch low high default targets)).1 = answer at hfirst
      generalize (((start patched sibling).through steps).onInsn
        (.tableSwitch low high default targets)).2.state = next at hfirst hstate h
      cases hfirst with
      | refused => exact absurd rfl hstate
      | late => exact absurd rfl hstate
      | small => cases h
      | found _ hfew hscanning hpatched hsibling =>
        cases h
        rw [modes_through.1] at hpatched
        rw [modes_through.2] at hsibling
        exact ⟨steps, low, high, default, targets, [], rfl, switchesSeen_start ▸ hseen, hscanning,
          congrArg Answer.shown hanswer, hfew, hpatched, hsibling⟩
    · exact absurd (state_onInsn_of_seen hseen) hstate
  | _ => exact absurd (congrArg (fun p => p.2.state) (onInsn_of_not_dense rfl)) hstate

/-- **Labels are found at the first dense switch only.** -/
theorem captured_of_found (h : ((start patched sibling).through steps).state = .found labels) :
    Captured patched sibling steps labels := by
  -- On the last step: an instruction may find the labels, a label or the end only keeps them.
  induction steps using List.reverseRecOn generalizing labels with
  | nil => cases h
  | append_singleton steps s ih =>
    rw [through_append] at h
    cases s with
    | insn i => exact captured_of_onInsn (fun _ => ih) h
    | label l =>
      refine (ih ?_).append _
      change (((start patched sibling).through steps).takeInjection l).2.state = .found labels at h
      unfold takeInjection at h
      repeat' split at h
      · cases h
      · exact h
      · exact h
    | finish emitted =>
      refine (ih ?_).append _
      change (((start patched sibling).through steps).finish emitted).2.state = .found labels at h
      unfold finish at h
      repeat' split at h
      all_goals first | exact h | cases h

/-- Only its label makes a decision place the call. -/
theorem perform_eq_patched (hd : d.state ≠ .patched labels)
    (h : (d.perform s).2.state = .patched labels) :
    s = .label labels.patched ∧ d.state = .found labels := by
  -- A decision once patched stays so, hence no state before was patched with other labels.
  have hnone (e : MethodEvent) (he : (d.after e).state = .patched labels) :
      ∀ labels', d.state ≠ .patched labels' := fun labels' hlabels' =>
    hd (hlabels'.trans ((after_of_patched (e := e) hlabels').symm.trans he))
  cases s with
  | insn i => cases (after_eq_patched (e := .insn i) (hnone (.insn i) h) h).1
  | label l =>
    obtain ⟨hl, hfound⟩ := after_eq_patched (e := .label l) (hnone (.label l) h) h
    cases hl
    exact ⟨rfl, hfound⟩
  | finish emitted =>
    refine absurd ?_ hd
    unfold perform finish at h
    dsimp only at h
    repeat' split at h
    all_goals first | exact h | cases h

/-- **A decision that has placed the call was asked for the right label.** -/
theorem exists_taken_of_patched
    (h : ((start patched sibling).through steps).state = .patched labels) :
    ∃ front back, steps = front ++ .label labels.patched :: back ∧
      (start patched sibling).answer front (.label labels.patched) = .taken true := by
  induction steps using List.reverseRecOn with
  | nil => cases h
  | append_singleton steps s ih =>
    -- The label was taken before the last step, or at it.
    by_cases hbefore : ((start patched sibling).through steps).state = .patched labels
    · obtain ⟨front, back, rfl, htaken⟩ := ih hbefore
      exact ⟨front, back ++ [s], by simp, htaken⟩
    rw [through_append] at h
    obtain ⟨rfl, hfound⟩ := perform_eq_patched hbefore h
    exact ⟨steps, [], rfl, congrArg Answer.taken (takeInjection_eq_true.mpr ⟨labels, hfound, rfl⟩)⟩

/-- Before the first dense switch there is nothing to take. -/
theorem state_of_none_dense (h : steps.countP Step.isDense = 0) :
    ((start patched sibling).through steps).state = .scanning ∨
      ((start patched sibling).through steps).state = .unmatched := by
  have hstate (d : Decision) (s : Step) (hs : s.isDense = false)
      (hd : d.state = .scanning ∨ d.state = .unmatched) :
      (d.perform s).2.state = .scanning ∨ (d.perform s).2.state = .unmatched := by
    cases s with
    | insn i => rwa [perform, onInsn_of_not_dense hs]
    | label l =>
      rcases d with ⟨matcher, state⟩
      rcases hd with rfl | rfl
      · exact .inl rfl
      · exact .inr rfl
    | finish emitted =>
      rcases d with ⟨matcher, state⟩
      rcases hd with rfl | rfl <;> exact .inr rfl
  -- Without a dense switch only the end is reached, and reaching it finds no match.
  induction steps using List.reverseRecOn with
  | nil => exact .inl rfl
  | append_singleton steps s ih =>
    rw [List.countP_append, Nat.add_eq_zero_iff] at h
    rw [through_append]
    exact hstate _ s (by simpa using h.2) (ih h.1)

end Start

/-! ### Behind a violation -/

/-- No labels will be found: the dense switch is past, or it was too small. -/
structure Lost (d : Decision) : Prop where
  eq : d.state = .scanning ∧ 0 < d.matcher.switchesSeen ∨ d.state = .unmatched

/-- **A lost decision stays lost.** -/
theorem Lost.perform (h : d.Lost) : (d.perform s).2.Lost := by
  cases s with
  | insn i =>
    rcases h.eq with ⟨hstate, hseen⟩ | hstate
    · exact ⟨.inl ⟨(state_onInsn_of_seen hseen).trans hstate,
        by rw [switchesSeen_perform]; omega⟩⟩
    · exact ⟨.inr ((state_onInsn_of_not_scanning (by rw [hstate]; nofun)).trans hstate)⟩
  | label l =>
    rcases h.eq with ⟨hstate, -⟩ | hstate <;> rw [Decision.perform, takeInjection, hstate]
    · exact h
    · exact h
  | finish emitted =>
    rcases h.eq with ⟨hstate, -⟩ | hstate <;> rw [Decision.perform, finish, hstate]
    · exact ⟨.inr rfl⟩
    · exact ⟨.inr rfl⟩

theorem Lost.through (h : d.Lost) : (d.through steps).Lost :=
  through_induction (fun _ _ => Lost.perform) h

theorem Lost.takeInjection (h : d.Lost) (l : Label) : (d.takeInjection l).1 = false := by
  rcases h.eq with ⟨hstate, -⟩ | hstate <;> rw [Decision.takeInjection, hstate]

theorem Lost.finish (h : d.Lost) (emitted : Emitted) : (d.finish emitted).1 = .ok .unmatched := by
  rcases h.eq with ⟨hstate, -⟩ | hstate <;> rw [Decision.finish, hstate]

/-- Two decisions that will answer alike. They may differ in how many dense switches they have seen
if neither waits for the first. -/
structure Alike (d e : Decision) : Prop where
  state : d.state = e.state
  patched : d.matcher.patched = e.matcher.patched
  sibling : d.matcher.sibling = e.matcher.sibling
  seen : d.matcher.switchesSeen = e.matcher.switchesSeen ∨
    0 < d.matcher.switchesSeen ∧ 0 < e.matcher.switchesSeen

/-- Decisions that differ in the count of switches alone answer alike, once a switch was seen. -/
theorem Alike.perform {e : Decision} (h : d.Alike e) :
    (d.perform s).1 = (e.perform s).1 ∧ (d.perform s).2.Alike (e.perform s).2 := by
  rcases d with ⟨⟨patched, sibling, seen⟩, state⟩
  rcases e with ⟨⟨_, _, seen'⟩, _⟩
  obtain ⟨rfl, rfl, rfl, hseen⟩ := h
  rcases hseen with rfl | ⟨hseen, hseen'⟩
  · exact ⟨rfl, rfl, rfl, rfl, .inl rfl⟩
  -- Behind the first dense switch every further one is refused, so the counts no longer matter.
  cases s with
  | insn i =>
    by_cases hi : i.isDense = true
    · rw [Decision.perform, Decision.perform, onInsn_again hi hseen, onInsn_again hi hseen']
      exact ⟨rfl, rfl, rfl, rfl, .inr ⟨Nat.succ_pos _, Nat.succ_pos _⟩⟩
    · have hi := Bool.eq_false_iff.mpr hi
      rw [Decision.perform, Decision.perform, onInsn_of_not_dense hi, onInsn_of_not_dense hi]
      exact ⟨rfl, rfl, rfl, rfl, .inr ⟨hseen, hseen'⟩⟩
  | label l =>
    unfold Decision.perform Decision.takeInjection
    dsimp only
    repeat' split
    all_goals exact ⟨rfl, rfl, rfl, rfl, .inr ⟨hseen, hseen'⟩⟩
  | finish emitted =>
    unfold Decision.perform Decision.finish
    dsimp only
    repeat' split
    all_goals exact ⟨rfl, rfl, rfl, rfl, .inr ⟨hseen, hseen'⟩⟩

theorem Alike.answer {e : Decision} (h : d.Alike e) : d.answer steps s = e.answer steps s := by
  induction steps generalizing d e with
  | nil => exact h.perform.1
  | cons first steps ih => exact ih h.perform.2

/-- Any instruction but the first dense switch leaves no trace. -/
theorem alike_onInsn (h : ¬(i.isDense = true ∧ d.matcher.switchesSeen = 0)) :
    (d.onInsn i).2.Alike d := by
  by_cases hi : i.isDense = true
  · have hseen : 0 < d.matcher.switchesSeen := Nat.pos_of_ne_zero fun hzero => h ⟨hi, hzero⟩
    rw [onInsn_again hi hseen]
    exact ⟨rfl, rfl, rfl, .inr ⟨Nat.succ_pos _, hseen⟩⟩
  · rw [onInsn_of_not_dense (Bool.eq_false_iff.mpr hi)]
    exact ⟨rfl, rfl, rfl, .inl rfl⟩

/-- An instruction is refused as a violation. -/
theorem violation_of_onInsn (h : (d.onInsn i).1 = .error fault) :
    ∃ violation, fault = .violation violation := by
  by_cases hi : i.isDense = true
  · -- The first may have too many targets; a second is refused as such.
    rcases Nat.eq_zero_or_pos d.matcher.switchesSeen with hseen | hseen
    · cases i with
      | tableSwitch low high default targets =>
        have hfirst := (onInsn_first low high default targets hseen).1
        rw [h] at hfirst
        generalize (d.onInsn (.tableSwitch low high default targets)).2.state = next at hfirst
        cases hfirst
        exact ⟨_, rfl⟩
      | _ => cases hi
    · rw [onInsn_again hi hseen] at h
      cases h
      exact ⟨_, rfl⟩
  · rw [onInsn_of_not_dense (Bool.eq_false_iff.mpr hi)] at h
    dsimp only at h
    split at h
    · cases h
      exact ⟨_, rfl⟩
    · cases h

/-- A decision that refuses the first dense switch is lost. -/
theorem lost_of_refused (h : (d.onInsn i).1 = .error fault) (hi : i.isDense = true)
    (hseen : d.matcher.switchesSeen = 0) (hstate : d.state = .scanning ∨ d.state = .unmatched) :
    (d.onInsn i).2.Lost := by
  cases i with
  | tableSwitch low high default targets =>
    obtain ⟨hfirst, hone⟩ := onInsn_first low high default targets hseen
    rw [h] at hfirst
    generalize hnext : (d.onInsn (.tableSwitch low high default targets)).2.state = next at hfirst
    cases hfirst
    exact ⟨hstate.imp (fun hscanning => ⟨hnext.trans hscanning, by omega⟩) hnext.trans⟩
  | _ => cases hi

/-! ### Every order of steps -/

/-- **What a decision answers, in whatever order it is asked.** It takes a label at most once, and
only the one that the first dense switch, accepted while the decision still scanned, has at the
patched case. It calls a method modified only behind a label that was taken. What it refuses is a
violation. Behind a first dense switch that is refused no label is taken and no method is modified;
any other instruction, refused or not, changes no later answer. -/
theorem answers_in_any_order (patched sibling : RoundingMode) (before : List Step) :
    (∀ l between l', (start patched sibling).answer before (.label l) = .taken true →
      (start patched sibling).answer (before ++ .label l :: between) (.label l') = .taken false) ∧
    (∀ l, (start patched sibling).answer before (.label l) = .taken true →
      ∃ labels, labels.patched = l ∧ Captured patched sibling before labels) ∧
    (∀ emitted, (start patched sibling).answer before (.finish emitted) = .verdict (.ok .modified) →
      ∃ front l back, before = front ++ .label l :: back ∧
        (start patched sibling).answer front (.label l) = .taken true) ∧
    (∀ i fault, (start patched sibling).answer before (.insn i) = .shown (.error fault) →
      (∃ violation, fault = .violation violation) ∧
      (i.isDense = true ∧ before.countP Step.isDense = 0 → ∀ after,
        (∀ l, (start patched sibling).answer (before ++ .insn i :: after) (.label l)
          = .taken false) ∧
        ∀ emitted, (start patched sibling).answer (before ++ .insn i :: after) (.finish emitted)
          = .verdict (.ok .unmatched))) ∧
    ∀ i, ¬(i.isDense = true ∧ before.countP Step.isDense = 0) → ∀ after s,
      (start patched sibling).answer (before ++ .insn i :: after) s
        = (start patched sibling).answer (before ++ after) s := by
  refine ⟨?once, ?label, ?modified, ?refused, ?trace⟩
  case once =>
    intro l between l' htaken
    rw [answer_label, through_append, through_cons]
    exact congrArg Answer.taken (takeInjection_of_taken (Answer.taken.inj htaken) between l')
  case label =>
    intro l htaken
    obtain ⟨labels, hfound, rfl⟩ := takeInjection_eq_true.mp (Answer.taken.inj htaken)
    exact ⟨labels, rfl, captured_of_found hfound⟩
  case modified =>
    intro emitted hmodified
    obtain ⟨labels, hpatched⟩ := exists_patched_of_finish (Answer.verdict.inj hmodified)
    obtain ⟨front, back, hbefore, htaken⟩ := exists_taken_of_patched hpatched
    exact ⟨front, labels.patched, back, hbefore, htaken⟩
  case refused =>
    intro i fault hshown
    have hrefused := Answer.shown.inj hshown
    refine ⟨violation_of_onInsn hrefused, fun ⟨hi, hnone⟩ after => ?_⟩
    have hlost : ((start patched sibling).through (before ++ .insn i :: after)).Lost := by
      rw [through_append, through_cons]
      exact (lost_of_refused hrefused hi (switchesSeen_start.trans hnone)
        (state_of_none_dense hnone)).through
    exact ⟨fun l => congrArg Answer.taken (hlost.takeInjection l),
      fun emitted => congrArg Answer.verdict (hlost.finish emitted)⟩
  case trace =>
    intro i hfirst after s
    rw [← show ((start patched sibling).through before).matcher.switchesSeen = _
      from switchesSeen_start] at hfirst
    rw [answer, answer, through_append, through_append, through_cons]
    exact (alike_onInsn hfirst).answer

/-- A switch of eight cases has its label taken, and none behind that; one of nine has none taken.
-/
theorem label_taken_or_lost :
    let eight := .insn (.tableSwitch 0 7 ⟨9⟩ [⟨0⟩, ⟨1⟩, ⟨2⟩, ⟨3⟩, ⟨4⟩, ⟨5⟩, ⟨6⟩, ⟨7⟩])
    let nine := .insn (.tableSwitch 0 8 ⟨9⟩ [⟨0⟩, ⟨1⟩, ⟨2⟩, ⟨3⟩, ⟨4⟩, ⟨5⟩, ⟨6⟩, ⟨7⟩, ⟨8⟩])
    ((start .halfUp .halfDown).answer [eight] (.label ⟨4⟩) = .taken true ∧
      ∀ between l, (start .halfUp .halfDown).answer (eight :: .label ⟨4⟩ :: between) (.label l)
        = .taken false) ∧
    (start .halfUp .halfDown).answer [] nine = .shown (.error (.violation (.tooManyCases 9))) ∧
      ∀ after l, (start .halfUp .halfDown).answer (nine :: after) (.label l) = .taken false :=
  ⟨⟨rfl, fun between l => (answers_in_any_order .halfUp .halfDown [_]).1 ⟨4⟩ between l rfl⟩, rfl,
    fun after l => (((answers_in_any_order .halfUp .halfDown []).2.2.2.1 _ _ rfl).2 ⟨rfl, rfl⟩
      after).1 l⟩

/-- Behind a second dense switch, which is refused, the label is still taken and the method is still
called modified. -/
theorem modified_behind_violation :
    let switch := .insn (.tableSwitch 0 7 ⟨8⟩ [⟨0⟩, ⟨1⟩, ⟨2⟩, ⟨3⟩, ⟨4⟩, ⟨5⟩, ⟨6⟩, ⟨7⟩])
    (start .halfUp .halfDown).answer [switch] switch
        = .shown (.error (.violation .secondSwitch)) ∧
      (start .halfUp .halfDown).answer [switch, switch] (.label ⟨4⟩) = .taken true ∧
      (start .halfUp .halfDown).answer [switch, switch, .label ⟨4⟩]
          (.finish { name := "m", descriptor := "(I)I",
                     offsets := (Std.TreeMap.empty.insert ⟨4⟩ 40).insert ⟨5⟩ 50 })
        = .verdict (.ok .modified) :=
  ⟨rfl, rfl, rfl⟩

end Decision

end RoundingPatch
