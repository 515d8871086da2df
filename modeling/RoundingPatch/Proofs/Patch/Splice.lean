import RoundingPatch.Patch.Splice
import RoundingPatch.Proofs.ClassFile.Method.Insertion
import RoundingPatch.Proofs.Patch.Switch
import RoundingPatch.Proofs.Yields
/-!
# What splicing writes

A splice passes events on until the decision takes a label (`passed_of_replay`). From there to the
next instruction it notes whether there is a stack map frame (`noted_of_replay`), then it writes the
call (`injected_of_step`), and all that follows is passed on again. What it has written in the end
are the events with the call put in (`written_of_replay`).
-/

namespace RoundingPatch

open ClassFile MethodEvent

namespace Decision

variable {d : Decision} {events : List MethodEvent} {labels : CaseLabels}

/-- The decision takes none of the labels among some events. -/
def Skips (d : Decision) : List MethodEvent → Prop
  | [] => True
  | e :: events => (∀ l, e = .label l → (d.takeInjection l).1 = false) ∧ (d.after e).Skips events

theorem skips_of_patched (h : d.state = .patched labels) : d.Skips events := by
  induction events generalizing d with
  | nil => trivial
  | cons e events ih => exact ⟨fun l _ => takeInjection_of_patched h l, ih (after_of_patched h)⟩

/-- As long as the call is not placed, no label was taken. -/
theorem skips_of_not_patched (h : ∀ labels, (events.foldl after d).state ≠ .patched labels) :
    d.Skips events := by
  induction events generalizing d with
  | nil => trivial
  | cons e events ih =>
    refine ⟨?_, ih h⟩
    rintro l rfl
    by_contra htaken
    obtain ⟨labels, hfound, rfl⟩ := takeInjection_eq_true.mp (by simpa using htaken)
    exact h labels (foldl_after_of_patched (d := d.after (.label labels.patched))
      (state_takeInjection hfound))

theorem accepts_of_isNote (h : ∀ e ∈ events, e.isNote = true) : d.Accepts events := by
  induction events generalizing d with
  | nil => trivial
  | cons e events ih =>
    rw [List.forall_mem_cons] at h
    refine ⟨?_, ih h.2⟩
    rintro i rfl
    cases h.1

end Decision

namespace Splice

variable {s s' : Splice} {events : List MethodEvent} {e : MethodEvent} {i : Insn} {l : Label}

/-- Neither the call nor a frame is to be written next. -/
structure Calm (s : Splice) : Prop where
  pending : s.pending = false
  frameOwed : s.frameOwed = false

/-- The splice once it has passed some events on. -/
def passed (s : Splice) (events : List MethodEvent) : Splice :=
  { s with
    written := s.written ++ (events.map (raise s.forwarding.requiredStack)).toArray
    decision := events.foldl Decision.after s.decision
    sawFrame := s.sawFrame || events.any isFrame }

theorem Calm.passed (h : s.Calm) (events : List MethodEvent) : (s.passed events).Calm :=
  ⟨h.pending, h.frameOwed⟩

theorem passed_nil : s.passed [] = s := by
  simp [passed]

theorem passed_cons : s.passed (e :: events) = (s.passed [e]).passed events := by
  simp [passed, Bool.or_assoc]

theorem passed_singleton : s.passed [e] = { s with
    written := s.written.push (raise s.forwarding.requiredStack e)
    decision := s.decision.after e
    sawFrame := s.sawFrame || e.isFrame } := by
  simp [passed]

theorem inject_of_calm (h : s.Calm) : s.inject = s := by
  simp [inject, h.pending]

theorem payFrame_of_calm (h : s.Calm) : s.payFrame = s := by
  simp [payFrame, h.frameOwed]

theorem step_label (s : Splice) (l : Label) : s.step (.label l) = .ok (s.onLabel l) := rfl

theorem step_insn (s : Splice) (i : Insn) : s.step (.insn i) = s.onInsn i := rfl

theorem onInsn_eq_ok (h : s.onInsn i = .ok s') : ∃ t, t = s.inject.payFrame ∧
    (t.decision.onInsn i).1 = .ok () ∧
    s' = { t with decision := (t.decision.onInsn i).2 }.write (.insn i) := by
  unfold onInsn at h
  rcases hdecision : s.inject.payFrame.decision.onInsn i with ⟨_ | _, decision⟩
  · simp only [hdecision] at h
    cases h
  · simp only [hdecision] at h
    cases h
    exact ⟨_, rfl, by rw [hdecision], by rw [hdecision]⟩

/-- A calm splice passes an event on unless its label is taken. -/
theorem passed_of_step (hcalm : s.Calm)
    (hskip : ∀ l, e = .label l → (s.decision.takeInjection l).1 = false)
    (h : s.step e = .ok s') :
    s' = s.passed [e] ∧ ∀ i, e = .insn i → (s.decision.onInsn i).1 = .ok () := by
  rw [passed_singleton]
  -- Nothing is pending and no frame is owed, so each event is only written.
  cases e with
  | label l =>
    cases h
    refine ⟨?_, fun i hi => by cases hi⟩
    have hskip := hskip l rfl
    unfold onLabel
    simp only [inject_of_calm hcalm, write, hskip, Bool.false_eq_true, ↓reduceIte, isFrame,
      Bool.or_false]
    rfl
  | frame f =>
    cases h
    refine ⟨?_, fun i hi => by cases hi⟩
    simp only [onFrame, write, hcalm.pending, hcalm.frameOwed, isFrame, Bool.or_true, Bool.or_false]
    rfl
  | insn i =>
    obtain ⟨t, rfl, haccept, rfl⟩ := onInsn_eq_ok h
    rw [inject_of_calm hcalm, payFrame_of_calm hcalm] at haccept ⊢
    refine ⟨?_, fun j hj => by cases hj; exact haccept⟩
    simp only [write, isFrame, Bool.or_false]
    rfl
  | done =>
    obtain ⟨_, _, h⟩ := except_bind_eq_ok.mp h
    cases h
    refine ⟨?_, fun i hi => by cases hi⟩
    simp only [write, isFrame, Bool.or_false]
    rfl
  | _ =>
    cases h
    refine ⟨?_, fun i hi => by cases hi⟩
    simp only [write, isFrame, Bool.or_false]
    rfl

/-- **A calm splice passes on** all events of which no label is taken. -/
theorem passed_of_replay (hcalm : s.Calm) (hskips : s.decision.Skips events)
    (h : events.foldlM step s = .ok s') : s' = s.passed events ∧ s.decision.Accepts events := by
  induction events generalizing s with
  | nil =>
    cases h
    exact ⟨passed_nil.symm, trivial⟩
  | cons e events ih =>
    rw [List.foldlM_cons] at h
    obtain ⟨t, he, hrest⟩ := except_bind_eq_ok.mp h
    obtain ⟨rfl, haccept⟩ := passed_of_step hcalm hskips.1 he
    obtain ⟨rfl, haccepts⟩ := ih (hcalm.passed [e]) hskips.2 hrest
    exact ⟨passed_cons.symm, haccept, haccepts⟩

/-! ### The call -/

/-- The splice at the label of the patched case. -/
def taking (s : Splice) (l : Label) : Splice :=
  { s.passed [.label l] with pending := true, caseHadFrame := false }

/-- The splice between the label of the case and its instruction. -/
def noted (s : Splice) (events : List MethodEvent) : Splice :=
  { s.passed events with caseHadFrame := s.caseHadFrame || events.any isFrame }

theorem taking_of_step (hcalm : s.Calm) (htaken : (s.decision.takeInjection l).1 = true) :
    s.step (.label l) = .ok (s.taking l) := by
  unfold taking
  rw [passed_singleton]
  simp only [step_label, onLabel, inject_of_calm hcalm, write, htaken, ↓reduceIte, isFrame,
    Bool.or_false]
  rfl

theorem noted_of_step (hpending : s.pending = true) (howed : s.frameOwed = false)
    (he : e.isNote = true) (h : s.step e = .ok s') : s' = s.noted [e] := by
  unfold noted
  rw [passed_singleton]
  cases e with
  | frame f =>
    cases h
    simp only [onFrame, write, hpending, howed, isFrame, List.any_cons, List.any_nil, Bool.or_true,
      Bool.true_or]
    rfl
  | line number start =>
    cases h
    simp only [write, isFrame, List.any_cons, List.any_nil, Bool.or_false]
    rfl
  | _ => cases he

theorem noted_of_replay (hpending : s.pending = true) (howed : s.frameOwed = false)
    (hnotes : ∀ e ∈ events, e.isNote = true) (h : events.foldlM step s = .ok s') :
    s' = s.noted events := by
  induction events generalizing s with
  | nil =>
    cases h
    simp [noted, passed_nil]
  | cons e events ih =>
    rw [List.forall_mem_cons] at hnotes
    rw [List.foldlM_cons] at h
    obtain ⟨t, he, hrest⟩ := except_bind_eq_ok.mp h
    obtain rfl := noted_of_step hpending howed hnotes.1 he
    rw [ih (by exact hpending) (by exact howed) hnotes.2 hrest]
    simp [noted, passed, Bool.or_assoc]

/-- The splice once it has written the call and the instruction behind it. -/
def called (s : Splice) (i : Insn) : Splice :=
  { s with
    written := s.written ++ (s.forwarding.insns.map MethodEvent.insn
      ++ (if s.caseHadFrame then [MethodEvent.frame .same] else []) ++ [MethodEvent.insn i]).toArray
    decision := s.decision.after (.insn i)
    pending := false
    injected := true
    frameOwed := false }

theorem foldl_push_insn (code : List Insn) (written : Array MethodEvent) :
    code.foldl (fun written i => written.push (.insn i)) written
      = written ++ (code.map MethodEvent.insn).toArray := by
  induction code generalizing written with
  | nil => simp
  | cons i code ih =>
    rw [List.foldl_cons, ih]
    simp

theorem called_of_step (hpending : s.pending = true) (h : s.step (.insn i) = .ok s') :
    s' = s.called i ∧ (s.decision.onInsn i).1 = .ok () := by
  obtain ⟨t, rfl, haccept, rfl⟩ := onInsn_eq_ok h
  have hinject : s.inject = { s with
      written := s.written ++ (s.forwarding.insns.map MethodEvent.insn).toArray
      pending := false
      injected := true
      frameOwed := s.caseHadFrame } := by
    rw [inject, if_pos hpending, foldl_push_insn]
  rw [hinject] at haccept ⊢
  unfold payFrame at haccept ⊢
  split at haccept
  · next hframe =>
    have hframe : s.caseHadFrame = true := hframe
    refine ⟨?_, haccept⟩
    simp [called, write, hframe, Decision.after]
  · next hframe =>
    have hframe : s.caseHadFrame = false := by simpa using hframe
    refine ⟨?_, haccept⟩
    simp [called, write, hframe, Decision.after]

/-! ### The whole method -/

variable {front mid rest : List MethodEvent} {labels : CaseLabels}

/-- The splice once it has written the call and instruction `i`, from events in which `mid` stands
between the label of the patched case and `i`. -/
def spliced (s : Splice) (front : List MethodEvent) (l : Label)
    (mid : List MethodEvent) (i : Insn) :
    Splice :=
  (((s.passed front).taking l).noted mid).called i

/-- **A splice comes to the call** behind the label of the patched case. -/
theorem spliced_of_foldlM (hcalm : s.Calm)
    (hfound : (front.foldl Decision.after s.decision).state = .found labels)
    (hnotes : ∀ e ∈ mid, e.isNote = true)
    (h : (front ++ .label labels.patched :: mid ++ .insn i :: rest).foldlM step s = .ok s') :
    rest.foldlM step (s.spliced front labels.patched mid i) = .ok s' ∧
      (s.spliced front labels.patched mid i).decision.state = .patched labels ∧
      s.decision.Accepts (front ++ .label labels.patched :: mid ++ .insn i :: rest) := by
  rw [List.append_assoc, List.foldlM_append] at h
  obtain ⟨s1, hfront, h⟩ := except_bind_eq_ok.mp h
  have hskips : s.decision.Skips front :=
    Decision.skips_of_not_patched fun l hl => by rw [hfound] at hl; cases hl
  obtain ⟨rfl, hacceptsFront⟩ := passed_of_replay hcalm hskips hfront
  rw [List.cons_append, List.foldlM_cons] at h
  obtain ⟨s2, htake, h⟩ := except_bind_eq_ok.mp h
  rw [taking_of_step (hcalm.passed front)
    (Decision.takeInjection_eq_true.mpr ⟨labels, hfound, rfl⟩)]
    at htake
  cases htake
  rw [List.foldlM_append] at h
  obtain ⟨s3, hmid, h⟩ := except_bind_eq_ok.mp h
  obtain rfl := noted_of_replay (by rfl) (by exact hcalm.frameOwed) hnotes hmid
  rw [List.foldlM_cons] at h
  obtain ⟨s4, hcall, h⟩ := except_bind_eq_ok.mp h
  obtain ⟨rfl, haccept⟩ := called_of_step (by rfl) hcall
  have hpatched : (s.spliced front labels.patched mid i).decision.state = .patched labels := by
    refine Decision.after_of_patched ?_
    exact Decision.foldl_after_of_patched (Decision.state_takeInjection hfound)
  -- From here on the decision is made, so no label is taken any more.
  obtain ⟨-, haccepts⟩ := passed_of_replay ⟨rfl, rfl⟩ (Decision.skips_of_patched hpatched) h
  refine ⟨h, hpatched, ?_⟩
  rw [List.append_assoc]
  refine hacceptsFront.append ⟨fun j hj => (by cases hj),
    (Decision.accepts_of_isNote hnotes).append ⟨fun j hj => ?_, haccepts⟩⟩
  cases hj
  exact haccept

/-- **What a splice has written in the end**: the events of the method with the call put in behind
the label of the patched case. -/
theorem written_of_replay (hcalm : s.Calm)
    (hfound : (front.foldl Decision.after s.decision).state = .found labels)
    (hnotes : ∀ e ∈ mid, e.isNote = true)
    (h : (front ++ .label labels.patched :: mid ++ .insn i :: rest).foldlM step s = .ok s') :
    s'.written = s.written ++ (inserted s.forwarding.requiredStack s.forwarding.insns
        (front ++ .label labels.patched :: mid) (.insn i :: rest) (mid.any isFrame)).toArray ∧
      s.decision.Accepts (front ++ .label labels.patched :: mid ++ .insn i :: rest) := by
  obtain ⟨hrest, hpatched, haccepts⟩ := spliced_of_foldlM hcalm hfound hnotes h
  obtain ⟨rfl, -⟩ := passed_of_replay ⟨rfl, rfl⟩ (Decision.skips_of_patched hpatched) hrest
  refine ⟨?_, haccepts⟩
  simp [passed, spliced, called, noted, taking, inserted, raise]

/-- What holds in the end. -/
theorem check_eq_ok {u : Unit} (h : s.check = .ok u) :
    s.pending = false ∧ (s.injected = true → s.sawFrame = true → s.caseHadFrame = true) := by
  unfold check at h
  split at h
  · cases h
  · next hpending =>
    split at h
    · cases h
    · next hcase =>
      refine ⟨by simpa using hpending, fun hinjected hsaw => ?_⟩
      by_contra hnot
      exact hcase ⟨hinjected, hsaw, by simpa using hnot⟩

/-- **The patched case has a frame** if any instruction of the method has one. -/
theorem any_isFrame_of_replay (hcalm : s.Calm)
    (hfound : (front.foldl Decision.after s.decision).state = .found labels)
    (hnotes : ∀ e ∈ mid, e.isNote = true)
    (h : (front ++ .label labels.patched :: mid ++ .insn i :: (rest ++ [MethodEvent.done])).foldlM
      step s = .ok s')
    (hframed : (front ++ mid ++ rest).any isFrame = true) : mid.any isFrame = true := by
  obtain ⟨hrest, hpatched, -⟩ := spliced_of_foldlM hcalm hfound hnotes h
  rw [List.foldlM_append] at hrest
  obtain ⟨s1, hpassed, hlast⟩ := except_bind_eq_ok.mp hrest
  obtain ⟨rfl, -⟩ := passed_of_replay ⟨rfl, rfl⟩ (Decision.skips_of_patched hpatched) hpassed
  rw [List.foldlM_cons] at hlast
  obtain ⟨s2, hdone, -⟩ := except_bind_eq_ok.mp hlast
  obtain ⟨_, hcheck, -⟩ := except_bind_eq_ok.mp (show _ >>= _ = _ from hdone)
  -- At the end the splice refuses a method that has frames, but none at the case.
  have hsaw : ((s.spliced front labels.patched mid i).passed rest).sawFrame = true := by
    simp only [List.any_append, Bool.or_eq_true] at hframed
    simp only [passed, spliced, called, noted, taking, Bool.or_eq_true]
    tauto
  have hcase := (check_eq_ok hcheck).2 rfl hsaw
  simpa [passed, spliced, called, noted, taking] using hcase

/-! ### Decoded methods -/

theorem decision_inject : s.inject.decision = s.decision := by
  unfold inject
  split <;> rfl

theorem decision_payFrame : s.payFrame.decision = s.decision := by
  unfold payFrame
  split <;> rfl

/-- A splice shows its decision every event. -/
theorem decision_of_step (h : s.step e = .ok s') : s'.decision = s.decision.after e := by
  cases e with
  | label l =>
    cases h
    unfold onLabel
    simp only [write, decision_inject, Decision.after]
    split <;> rfl
  | insn i =>
    obtain ⟨t, rfl, -, rfl⟩ := onInsn_eq_ok h
    simp only [write, decision_payFrame, decision_inject, Decision.after]
  | done =>
    obtain ⟨_, -, h⟩ := except_bind_eq_ok.mp h
    cases h
    rfl
  | _ =>
    cases h
    rfl

theorem decision_of_replay (h : events.foldlM step s = .ok s') :
    s'.decision = events.foldl Decision.after s.decision := by
  induction events generalizing s with
  | nil =>
    cases h
    rfl
  | cons e events ih =>
    rw [List.foldlM_cons] at h
    obtain ⟨t, he, hrest⟩ := except_bind_eq_ok.mp h
    rw [ih hrest, decision_of_step he]
    rfl

theorem pending_of_step (htable : e.isTable = true) (hdone : e ≠ .done) (h : s.step e = .ok s') :
    s'.pending = s.pending := by
  cases e with
  | label l => cases htable
  | frame f => cases htable
  | insn i => cases htable
  | done => exact absurd rfl hdone
  | _ =>
    cases h
    rfl

/-- The call cannot be put in behind the last instruction. -/
theorem not_replay_of_isTable (hpending : s.pending = true)
    (htables : ∀ e ∈ events, e.isTable = true)
    (hdone : .done ∈ events) : events.foldlM step s ≠ .ok s' := by
  induction events generalizing s with
  | nil => cases hdone
  | cons e events ih =>
    rw [List.forall_mem_cons] at htables
    intro h
    rw [List.foldlM_cons] at h
    obtain ⟨t, he, hrest⟩ := except_bind_eq_ok.mp h
    by_cases hlast : e = .done
    · subst hlast
      obtain ⟨_, hcheck, -⟩ := except_bind_eq_ok.mp he
      rw [check, if_pos hpending] at hcheck
      cases hcheck
    · have hrestDone : .done ∈ events := (List.mem_cons.mp hdone).resolve_left (Ne.symm hlast)
      exact ih ((pending_of_step htables.1 hlast he).trans hpending) htables.2 hrestDone hrest

/-- A method that is decoded comes to its end. -/
theorem getLast?_decode {pool : ConstantPool} {m : Member}
    (hdecode : (m.decode pool).failure = none) :
    (m.decode pool).events.getLast? = some .done := by
  obtain ⟨body, hevents, -⟩ := decode_eq_eventsOf hdecode
  rw [hevents, Body.eventsOf, List.getLast?_concat]

/-- A label in a method that a splice has written leads to an instruction if it was taken. -/
theorem leads_of_replay {pool : ConstantPool} {m : Member} {back : List MethodEvent}
    (hdecode : (m.decode pool).failure = none) (hcalm : s.Calm)
    (hsplit : (m.decode pool).events = front ++ .label labels.patched :: back)
    (hfound : (front.foldl Decision.after s.decision).state = .found labels)
    (h : (m.decode pool).events.foldlM step s = .ok s') : Body.Leads front back := by
  obtain ⟨body, hevents, -⟩ := decode_eq_eventsOf hdecode
  have hlabel : .label labels.patched ∈ (m.decode pool).events := by
    rw [hsplit]
    exact List.mem_append_right _ List.mem_cons_self
  rcases body with _ | body
  · rw [hevents] at hlabel
    exact absurd (isTable_eventsOf_none _ hlabel) (by simp [isTable])
  · rcases Body.leads_eventsOf (hevents.symm.trans hsplit) with hleads | htables
    · exact hleads
    -- The call would come behind all of the code.
    · exfalso
      have hdone : .done ∈ back := by
        have hlast := getLast?_decode hdecode
        rw [hsplit, List.getLast?_append_of_ne_nil _ (List.cons_ne_nil _ _)] at hlast
        exact (List.mem_cons.mp (List.mem_of_getLast? hlast)).resolve_left MethodEvent.noConfusion
      rw [hsplit, List.foldlM_append] at h
      obtain ⟨s1, hfront, h⟩ := except_bind_eq_ok.mp h
      have hskips : s.decision.Skips front :=
        Decision.skips_of_not_patched fun l hl => by rw [hfound] at hl; cases hl
      obtain ⟨rfl, -⟩ := passed_of_replay hcalm hskips hfront
      rw [List.foldlM_cons] at h
      obtain ⟨s2, htake, h⟩ := except_bind_eq_ok.mp h
      rw [taking_of_step (hcalm.passed front)
        (Decision.takeInjection_eq_true.mpr ⟨labels, hfound, rfl⟩)] at htake
      cases htake
      exact not_replay_of_isTable (by rfl) htables hdone h

/-- The frames between a label and its instruction stand at the instruction. -/
theorem any_framesFrom_of_isNote {n : Nat} (h : ∀ e ∈ events, e.isNote = true) :
    (framesFrom n events).any (·.1 == n) = events.any isFrame := by
  induction events with
  | nil => rfl
  | cons e events ih =>
    rw [List.forall_mem_cons] at h
    cases e with
    | frame f => simp [framesFrom, isFrame]
    | line number start => exact ih h.2
    | _ => cases h.1

theorem any_isFrame_iff {n : Nat} : events.any isFrame = true ↔ framesFrom n events ≠ [] := by
  induction events generalizing n with
  | nil => simp [framesFrom]
  | cons e events ih =>
    cases e with
    | frame f => simp [framesFrom, isFrame]
    | _ => simpa [framesFrom, isFrame] using ih

/-- What a splice has made of the events of a method when it has put the call in at label `label`.
-/
structure Spliced (stack : UInt16) (code : List Insn) (label : Label)
    (events written : List MethodEvent) : Prop where
  /-- Where there are frames, the label has one. -/
  framed : framesFrom 0 events ≠ [] → ∀ n, position label events = some n →
    (framesFrom 0 events).any (·.1 == n) = true
  exists_inserted : ∃ front i rest, events = front ++ .insn i :: rest ∧
    position label events = some (insns front).length ∧
    written = inserted stack code front (.insn i :: rest)
      ((framesFrom 0 front).any (·.1 == (insns front).length))

/-- A label in a decoded method stands where its events are split at it. -/
theorem position_of_split {pool : ConstantPool} {m : Member} {front back : List MethodEvent}
    {l : Label} (hdecode : (m.decode pool).failure = none)
    (hsplit : (m.decode pool).events = front ++ .label l :: back) :
    position l (m.decode pool).events = some (insns front).length := by
  have hnodup := nodup_labels_source hdecode
  have hfresh : position l front = none := by
    rw [← Option.not_isSome_iff_eq_none, position_isSome]
    rw [Member.source, hsplit, labels_append, labels_cons_label] at hnodup
    exact (List.nodup_cons.mp (List.nodup_middle.mp hnodup)).1 ∘ List.mem_append_left _
  rw [hsplit, position_append, hfresh]
  simp [position]

/-- **A decoded method with the call put in.** -/
theorem spliced_of_replay {pool : ConstantPool} {m : Member}
    (hcalm : s.Calm) (hwritten : s.written = #[]) (hscanning : s.decision.state = .scanning)
    (h : (m.decode pool).replay step s = .ok s') (hpatched : s'.decision.state = .patched labels) :
    (m.decode pool).failure = none ∧
      Spliced s.forwarding.requiredStack s.forwarding.insns labels.patched (m.decode pool).events
        s'.written.toList ∧
      (∃ i ∈ insns (m.decode pool).events, s.decision.Goes i labels) ∧
      s.decision.Accepts (m.decode pool).events := by
  -- The decision was taken at one label, with notes alone between it and the instruction behind it.
  obtain ⟨hfailure, hrun⟩ := Transcript.replay_eq_ok.mp h
  rw [decision_of_replay hrun] at hpatched
  obtain ⟨front, back, hsplit, hfound⟩ :=
    Decision.exists_taken (fun l hl => by rw [hscanning] at hl; cases hl) hpatched
  have hleads := leads_of_replay hfailure hcalm hsplit hfound hrun
  obtain ⟨mid, i, rest, rfl, hnotes⟩ := hleads.insn
  obtain ⟨j, hj, hgoes⟩ :=
    Decision.exists_found (fun l hl => by rw [hscanning] at hl; cases hl) hfound
  have hevents : (m.decode pool).events
      = front ++ .label labels.patched :: mid ++ .insn i :: rest := by
    rw [hsplit, List.append_assoc, List.cons_append]
  have hrun' := hrun
  rw [hevents] at hrun'
  obtain ⟨hwrite, haccepts⟩ := written_of_replay hcalm hfound hnotes hrun'
  have hinsns : insns (front ++ .label labels.patched :: mid) = insns front := by
    rw [insns_append, insns_cons (fun _ => MethodEvent.noConfusion), insns_of_isNote hnotes,
      List.append_nil]
  have hposition := position_of_split hfailure hsplit
  -- A frame at the place is among those notes, since the place was not reached before the label.
  have hframed : (framesFrom 0 (front ++ .label labels.patched :: mid)).any
      (·.1 == (insns (front ++ .label labels.patched :: mid)).length) = mid.any isFrame := by
    have hbefore : (framesFrom 0 front).any (·.1 == (insns front).length) = false := by
      rw [List.any_eq_false]
      intro p hp
      simpa using Nat.ne_of_lt (hleads.frames p hp)
    have hlabel (n : Nat) : framesFrom n (.label labels.patched :: mid) = framesFrom n mid := rfl
    rw [hinsns, framesFrom_append, List.any_append, hbefore, Bool.false_or, Nat.zero_add, hlabel,
      any_framesFrom_of_isNote hnotes]
  refine ⟨hfailure, ⟨fun hframes n hn => ?_, _, i, rest, hevents, ?_, ?_⟩, ⟨j, ?_, hgoes⟩,
    hevents ▸ haccepts⟩
  · obtain rfl := Option.some.inj (hposition.symm.trans hn)
    -- If there are frames at all, the check before the call asks for one at the place.
    have hlast := getLast?_decode hfailure
    rw [hevents, List.getLast?_append_of_ne_nil _ (List.cons_ne_nil _ _)] at hlast
    obtain ⟨body, hbody⟩ := List.getLast?_eq_some_iff.mp hlast
    obtain ⟨rest', rfl⟩ : ∃ rest', rest = rest' ++ [.done] := by
      cases body with
      | nil => cases hbody
      | cons _ rest' => exact ⟨rest', (List.cons.inj hbody).2⟩
    have hmid := any_isFrame_of_replay hcalm hfound hnotes hrun' (by
      have hany := any_isFrame_iff.mpr hframes
      rw [hevents] at hany
      simpa [isFrame] using hany)
    rw [hevents, framesFrom_append, List.any_append, ← hinsns, hframed, hmid, Bool.true_or]
  · rw [hinsns]
    exact hposition
  · rw [hframed, hwrite, hwritten]
    simp
  · rw [hsplit, insns_append]
    exact List.mem_append_left _ hj

end Splice

end RoundingPatch
