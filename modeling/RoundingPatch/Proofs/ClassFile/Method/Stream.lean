import RoundingPatch.Proofs.ClassFile.Code.Branches
import RoundingPatch.Proofs.ClassFile.Method.Decoded
/-!
# The order of events

The labels that a decoded body lists are those that something in the body mentions, in the order
of their offsets (`labels_eventsOf_eq`), so each of them is listed once (`count_labels`). A label
stands directly in front of the frame, the line numbers and the instruction of its offset, or at
the end of the code, with nothing but local variables behind it (`placed_of_split`).
-/

namespace RoundingPatch.ClassFile

open MethodEvent

/-- The labels that an event mentions. -/
def MethodEvent.mentions : MethodEvent → List Label
  | .insn i => i.targets
  | .tryCatch h => h.labels
  | .line _ l => [l]
  | .localVariable v => v.labels
  | .frame f => f.labels
  | _ => []

namespace Body

variable {pool : ConstantPool} {attrs : List RawAttribute} {b : Body} {offset : Nat} {l : Label}

/-! ### Labels that are mentioned -/

/-- The labels that the instructions and the tables of a body mention. -/
def mentionedLabels (b : Body) : List Label :=
  (b.insns.flatMap fun p => p.2.targets) ++ (b.handlers.flatMap TryCatch.labels)
    ++ (b.lines.map fun p => labelAt p.1) ++ (b.locals.flatMap LocalVariable.labels)
    ++ (b.frames.flatMap fun p => labelAt p.1 :: p.2.labels)

/-- The events of a body mention nothing but what the body mentions. -/
theorem mem_mentionedLabels_of_event {e : MethodEvent} (he : e ∈ eventsOf attrs (some b))
    (hl : l ∈ e.mentions) : l ∈ b.mentionedLabels := by
  unfold mentionedLabels
  simp only [List.mem_append, List.mem_flatMap, List.mem_map]
  -- Each kind of event was made from one table of the body.
  cases e with
  | insn i =>
    have hi : i ∈ MethodEvent.insns (eventsOf attrs (some b)) :=
      List.mem_filterMap.mpr ⟨.insn i, he, rfl⟩
    rw [insns_eventsOf] at hi
    obtain ⟨p, hp, rfl⟩ := List.mem_map.mp hi
    exact .inl (.inl (.inl (.inl ⟨p, hp, hl⟩)))
  | tryCatch row =>
    have hrow : row ∈ MethodEvent.handlers (eventsOf attrs (some b)) :=
      List.mem_filterMap.mpr ⟨.tryCatch row, he, rfl⟩
    rw [handlers_eventsOf] at hrow
    exact .inl (.inl (.inl (.inr ⟨row, hrow, hl⟩)))
  | line number start =>
    have hline : (number, start) ∈ MethodEvent.lines (eventsOf attrs (some b)) :=
      List.mem_filterMap.mpr ⟨.line number start, he, rfl⟩
    obtain ⟨offset, -, hmem, rfl⟩ := exists_line_of_mem hline
    exact .inl (.inl (.inr ⟨_, hmem, (List.mem_singleton.mp hl).symm⟩))
  | localVariable v =>
    have hv : v ∈ MethodEvent.localsIn v.table (eventsOf attrs (some b)) :=
      List.mem_filterMap.mpr ⟨.localVariable v, he, if_pos rfl⟩
    rw [localsIn_eventsOf] at hv
    exact .inl (.inr ⟨v, (List.mem_filter.mp hv).1, hl⟩)
  | frame f =>
    obtain ⟨n, hf⟩ := exists_framesFrom he 0
    obtain ⟨offset, hmem⟩ := exists_frame_of_mem hf
    exact .inr ⟨_, hmem, List.mem_cons_of_mem _ hl⟩
  | _ => cases hl

section Grounded

variable (h : b.Grounded pool)
include h

/-- The offsets that are mentioned are those of the labels. -/
theorem references_eq : b.references = b.mentionedLabels.map fun l => l.id.toNat := by
  have hlength := h.length_le
  have hoffset {o : Nat} (ho : o ∈ b.references) : (labelAt o).id.toNat = o := by
    have := h.le_length ho
    exact toNat_labelAt (by omega)
  unfold mentionedLabels
  simp only [List.map_append, List.map_flatMap, List.map_map]
  have hlines : b.lines.map (·.1) = b.lines.map ((fun l => l.id.toNat) ∘ fun p => labelAt p.1) :=
    List.map_congr_left fun p hp => (hoffset (mem_references_of_line hp)).symm
  have hframes : (b.frames.flatMap fun p => p.1 :: (frameLabels p.2).map references.offsetOf)
      = b.frames.flatMap fun p => (labelAt p.1 :: p.2.labels).map fun l => l.id.toNat := by
    refine List.flatMap_congr fun p hp => ?_
    rw [List.map_cons, hoffset (mem_references_of_frameOffset hp), Frame.frameLabels_eq]
    rfl
  unfold references
  rw [hlines, hframes]
  rfl

theorem isOffset_of_mentioned (hl : l ∈ b.mentionedLabels) : IsOffset l := by
  have hlength := h.length_le
  have hoffset {o : Nat} (ho : o ∈ b.references) : IsOffset (labelAt o) := by
    have := h.le_length ho
    exact ⟨o, by omega, rfl⟩
  unfold mentionedLabels at hl
  simp only [List.mem_append, List.mem_flatMap, List.mem_map] at hl
  rcases hl with (((⟨p, hp, hl⟩ | ⟨row, hrow, hl⟩) | ⟨p, hp, rfl⟩) | ⟨v, hv, hl⟩) | ⟨p, hp, hl⟩
  · obtain ⟨t, ht, rfl⟩ := (h.code.each p hp).inside l hl
    exact ⟨t, by omega, rfl⟩
  · exact (h.handlers row hrow).1 l hl
  · exact hoffset (mem_references_of_line hp)
  · exact (h.locals v hv).1 l hl
  · rcases List.mem_cons.mp hl with rfl | hl
    · exact hoffset (mem_references_of_frameOffset hp)
    · obtain ⟨type, htype, hlabel⟩ := List.mem_flatMap.mp hl
      exact ((h.frames p hp).2.types type htype).1 l hlabel

/-- A label is mentioned if it is that of an offset that is mentioned. -/
theorem mem_mentionedLabels : l ∈ b.mentionedLabels ↔ ∃ o ∈ b.references, l = labelAt o := by
  rw [references_eq h]
  constructor
  · intro hl
    exact ⟨_, List.mem_map_of_mem hl, (labelAt_toNat (isOffset_of_mentioned h hl)).symm⟩
  · rintro ⟨o, ho, rfl⟩
    obtain ⟨l, hl, rfl⟩ := List.mem_map.mp ho
    rwa [labelAt_toNat (isOffset_of_mentioned h hl)]

/-! ### The order of labels -/

/-- The offsets with a label: those of the instructions that are mentioned, and the end of the
code if it is. -/
def labelled (b : Body) : List Nat :=
  (b.insns.map (·.1) ++ [b.length]).filter b.mentioned.contains

omit h in
theorem labels_eventsOf_eq : labels (eventsOf attrs (some b)) = b.labelled.map labelAt := by
  rw [labels_eventsOf, labelled, List.filter_append, List.filter_singleton, Bool.cond_eq_ite]

/-- **Labels come in the order of their offsets**, each offset once. -/
theorem ascending_labelled : b.labelled.Pairwise (· < ·) := by
  refine List.Pairwise.filter _ (List.pairwise_append.mpr ⟨h.ascending, by simp, ?_⟩)
  intro o ho last hlast
  rw [List.mem_singleton.mp hlast]
  exact h.inside o ho

theorem mem_labelled : offset ∈ b.labelled ↔ offset ∈ b.references := by
  rw [labelled, List.mem_filter, contains_mentioned, List.mem_append, List.mem_singleton]
  exact ⟨And.right, fun ho => ⟨h.bounded offset ho, ho⟩⟩

/-- The labels of the events are the ones that the body mentions. -/
theorem mem_labels_eventsOf : l ∈ labels (eventsOf attrs (some b)) ↔ l ∈ b.mentionedLabels := by
  rw [labels_eventsOf_eq, List.mem_map, mem_mentionedLabels h]
  simp only [mem_labelled h, eq_comm]

/-- **A label that is mentioned is listed once.** -/
theorem count_labels (hl : l ∈ b.mentionedLabels) :
    (labels (eventsOf attrs (some b))).count l = 1 :=
  List.count_eq_one_of_mem (nodup_labels_eventsOf h) ((mem_labels_eventsOf h).mpr hl)

end Grounded

/-! ### The place of a label -/

/-- A label stands directly in front of the frame, the lines and the instruction of its offset, or
at the end of the code, where nothing but local variables follows it. -/
inductive Placed (b : Body) (front : List MethodEvent) (l : Label) (back : List MethodEvent) : Prop
  | before {k offset : Nat} {i : Insn} {rest : List MethodEvent}
      (insn : b.insns[k]? = some (offset, i)) (label : l = labelAt offset)
      (front : MethodEvent.insns front = (b.insns.take k).map (·.2))
      (back : back = (b.framesByOffset[offset]?.toList.map .frame
        ++ (b.lines.filter (·.1 == offset)).map fun p => .line p.2 l) ++ .insn i :: rest)
  | last (label : l = labelAt b.length) (front : MethodEvent.insns front = b.insns.map (·.2))
      (back : back = b.locals.map .localVariable ++ [.done])

/-- A label in a listing stands before an instruction, with its notes in between. -/
theorem split_listing {mentioned : Std.TreeSet Nat} {frames : Std.TreeMap Nat Frame}
    {lines : Std.TreeMap Nat (List UInt16)} {insns : List (Nat × Insn)}
    {front back : List MethodEvent}
    (h : listing mentioned frames lines insns = front ++ .label l :: back) :
    ∃ k offset i rest, insns[k]? = some (offset, i) ∧ l = labelAt offset ∧
      MethodEvent.insns front = (insns.take k).map (·.2) ∧
      back = notesAt frames lines offset ++ .insn i :: rest := by
  induction insns generalizing front with
  | nil => exact absurd h.symm (by simp [listing])
  | cons p insns ih =>
    rw [listing_cons, eventsAt_eq, List.append_assoc] at h
    have hinsns : MethodEvent.insns (notesAt frames lines p.1) = [] :=
      insns_of_isNote isNote_notesAt
    have hnot : .label l ∉ notesAt frames lines p.1 := fun hmem =>
      absurd (isNote_notesAt _ hmem) (by simp [isNote])
    -- The label of a later instruction stands behind the one at `p`.
    have hlater {pre front : List MethodEvent} (hpre : MethodEvent.insns pre = [])
        (hrest : listing mentioned frames lines insns = front ++ .label l :: back) :
        ∃ k offset i rest, (p :: insns)[k]? = some (offset, i) ∧ l = labelAt offset ∧
          MethodEvent.insns (pre ++ .insn p.2 :: front) = ((p :: insns).take k).map (·.2) ∧
          back = notesAt frames lines offset ++ .insn i :: rest := by
      obtain ⟨k, offset, i, rest, hget, hl, hfront, hback⟩ := ih hrest
      refine ⟨k + 1, offset, i, rest, hget, hl, ?_, hback⟩
      rw [insns_append, hpre, List.nil_append, insns_cons_insn, hfront, List.take_succ_cons,
        List.map_cons]
    split at h
    · rcases front with _ | ⟨e, front⟩
      · obtain ⟨hl, rfl⟩ := List.cons.inj h
        exact ⟨0, p.1, p.2, _, rfl, (MethodEvent.label.inj hl).symm, rfl, rfl⟩
      · obtain ⟨rfl, htail⟩ := List.cons.inj h
        obtain ⟨front', rfl, hnext⟩ := exists_of_append_eq hnot htail
        rcases front' with _ | ⟨e, front'⟩
        · cases (List.cons.inj hnext).1
        · obtain ⟨rfl, hrest⟩ := List.cons.inj hnext
          exact @hlater (.label (labelAt p.1) :: notesAt frames lines p.1) _ hinsns hrest
    · rcases front with _ | ⟨e, front⟩
      · cases (List.cons.inj h).1
      · obtain ⟨rfl, hrest⟩ := List.cons.inj h
        exact @hlater [] _ rfl hrest

/-- **Every label stands in its place.** -/
theorem placed_of_split {front back : List MethodEvent}
    (h : eventsOf attrs (some b) = front ++ .label l :: back) : b.Placed front l back := by
  rcases split_eventsOf h with ⟨listed, more, rfl, hlisting, rfl⟩ | ⟨hl, rfl, hback⟩
  · obtain ⟨k, offset, i, rest, hget, rfl, hfront, rfl⟩ := split_listing hlisting
    refine @Placed.before _ _ _ _ k offset i
      (rest ++ (b.endLabel ++ (b.locals.map .localVariable ++ [.done]))) hget rfl ?_ ?_
    · rw [insns_append, insns_of_isTable isTable_tables, List.nil_append, hfront]
    · rw [notesAt, getD_linesByOffset, List.map_map, List.append_assoc, List.cons_append]
      rfl
  · refine .last hl ?_ hback
    rw [insns_append, insns_of_isTable isTable_tables, List.nil_append, insns_listing]

/-! ### Whole streams -/

/-- What the order of events says about a body: its labels ascend, each stands in its place, and
those are listed once that something mentions, in the body or among the events. -/
structure Streams (b : Body) (events : List MethodEvent) : Prop where
  ascending : ∃ offsets : List Nat, offsets.Pairwise (· < ·) ∧ (∀ o ∈ offsets, o ≤ b.length) ∧
    labels events = offsets.map labelAt
  placed : ∀ front l back, events = front ++ .label l :: back → b.Placed front l back
  once : ∀ l, (labels events).count l = if l ∈ b.mentionedLabels then 1 else 0
  closed : ∀ e ∈ events, ∀ l ∈ e.mentions, (labels events).count l = 1

/-- **The events of a decoded body are a closed and ordered description of it.** -/
theorem streams_eventsOf (h : b.Grounded pool) : b.Streams (eventsOf attrs (some b)) where
  ascending := by
    refine ⟨b.labelled, ascending_labelled h, fun o ho => ?_, labels_eventsOf_eq⟩
    exact h.le_length ((mem_labelled h).mp ho)
  placed _ _ _ hsplit := placed_of_split hsplit
  once l := by
    split
    · next hl => exact count_labels h hl
    · next hl =>
      exact List.count_eq_zero_of_not_mem fun hmem => hl ((mem_labels_eventsOf h).mp hmem)
  closed _ he _ hl := count_labels h (mem_mentionedLabels_of_event he hl)

/-! ### Targets -/

/-- **Every distance leads to an instruction.** -/
theorem exists_insn_of_displacement {info : Bytes} (hparse : parse pool info = .ok b) {pc : Nat}
    {i : Insn} (hi : (pc, i) ∈ b.insns) {r : Int32}
    (hr : r ∈ displacements (codeArray info) pc) : ∃ (k target : Nat) (i' : Insn),
      b.insns[k]? = some (target, i') ∧ (target : Int) = pc + r.toInt ∧
      labelOver pc r = labelAt target ∧ target ∈ b.references := by
  have hgrounded := grounded_of_parse hparse
  have hlength := hgrounded.length_le
  obtain ⟨hcode, hlaid⟩ := laid_of_parse hparse
  obtain ⟨htargets, hinside⟩ := hlaid.aims hi
  obtain ⟨hpos, hlt⟩ := hinside r hr
  rw [← hcode] at hlt
  -- The body mentions the target, and it is in front of the end: so an instruction starts there.
  have hmem : labelOver pc r ∈ i.targets := htargets ▸ List.mem_map_of_mem hr
  have href := mem_references_of_target hi hmem
  rw [labelOver, toNat_labelAt (by omega)] at href
  have hoffset := mem_offsets_of_lt hgrounded href (by omega)
  obtain ⟨⟨target, i'⟩, hinsn, htarget⟩ := List.mem_map.mp hoffset
  have htarget : target = (pc + r.toInt).toNat := htarget
  obtain ⟨k, hk⟩ := List.mem_iff_getElem?.mp hinsn
  exact ⟨k, target, i', hk, by omega, by rw [labelOver, htarget], htarget ▸ href⟩

end Body

/-! ### The body of a method -/

section Method

variable {pool : ConstantPool} {m : Member} {attrs : List RawAttribute} {info : Bytes}

/-- The code that is found is that of every `Code` attribute there is. -/
theorem splitCode_of_mem {method : String} {code answer : Option Bytes} {events : List MethodEvent}
    (h : splitCode method code attrs = (events, .ok answer)) (hinfo : ⟨"Code", info⟩ ∈ attrs) :
    answer = some info := by
  induction attrs generalizing code events with
  | nil => cases hinfo
  | cons a attrs ih =>
    unfold splitCode at h
    by_cases hname : a.name = "Code"
    · rw [if_pos hname] at h
      split at h
      · cases h
      · -- No other attribute is one, since a body was found already.
        obtain ⟨-, ⟨hanswer, hnone⟩ | ⟨hsome, -⟩⟩ := splitCode_eq_ok h
        · rcases List.mem_cons.mp hinfo with rfl | hinfo
          · exact hanswer
          · exact absurd rfl (hnone _ hinfo)
        · cases hsome
    · rw [if_neg hname] at h
      rcases hrest : splitCode method code attrs with ⟨rest, found⟩
      rw [hrest] at h
      obtain ⟨-, rfl⟩ := Prod.mk.inj h
      rcases List.mem_cons.mp hinfo with rfl | hinfo
      · exact absurd rfl hname
      · exact ih hrest hinfo

/-- **A method with code that decodes** lists the body in its code. -/
theorem exists_body_of_code (h : (m.decode pool).failure = none)
    (hinfo : ⟨"Code", info⟩ ∈ m.attributes) : ∃ b, Body.parse pool info = .ok b ∧
      (m.decode pool).events = Body.eventsOf (RawAttribute.others m.attributes) (some b) := by
  rcases hsplit : splitCode m.name none m.attributes with ⟨events, fault | found⟩
  · simp only [Member.decode, hsplit] at h
    cases h
  · obtain rfl := splitCode_of_mem hsplit hinfo
    obtain ⟨rfl, -⟩ := splitCode_eq_ok hsplit
    rcases hparse : Body.parse pool info with fault | b
    · simp only [Member.decode, hsplit, hparse] at h
      cases h
    · refine ⟨b, rfl, ?_⟩
      simp only [Member.decode, hsplit, hparse]
      rfl

end Method

end RoundingPatch.ClassFile
