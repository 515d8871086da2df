import Mathlib.Data.List.Nodup
import RoundingPatch.Proofs.ClassFile.Code.Bodies
import RoundingPatch.Proofs.ClassFile.Code.Keyed
/-!
# The events of a body

A body lists its instructions with their labels, stack map frames and line numbers in between. An
offset that is mentioned has the position of its instruction (`position_events`), and frames and
line numbers stand at the position of their offset (`framesFrom_events`, `lines_events`).
-/

namespace RoundingPatch.ClassFile

open MethodEvent

namespace Body

/-! ### Instructions and what stands in front of them -/

section Listing

variable (mentioned : Std.TreeSet Nat) (frames : Std.TreeMap Nat Frame)
  (lines : Std.TreeMap Nat (List UInt16))

/-- The instructions of a body, each behind its label, its frame and its line numbers. -/
def listing (insns : List (Nat × Insn)) : List MethodEvent :=
  insns.flatMap fun p => eventsAt mentioned frames lines p.1 p.2

/-- Every offset with a frame or a line number is mentioned. -/
structure Mentions : Prop where
  frame : ∀ offset f, frames[offset]? = some f → mentioned.contains offset = true
  line : ∀ offset, lines.getD offset [] ≠ [] → mentioned.contains offset = true

variable {mentioned frames lines} {insns : List (Nat × Insn)} {offset : Nat} {i : Insn}

theorem listing_cons (p : Nat × Insn) : listing mentioned frames lines (p :: insns)
    = eventsAt mentioned frames lines p.1 p.2 ++ listing mentioned frames lines insns := rfl

theorem insns_eventsAt : MethodEvent.insns (eventsAt mentioned frames lines offset i) = [i] := by
  unfold eventsAt
  split
  · simp [MethodEvent.insns, List.filterMap_map]
  · rfl

theorem labels_eventsAt : labels (eventsAt mentioned frames lines offset i)
    = if mentioned.contains offset then [labelAt offset] else [] := by
  unfold eventsAt
  split
  · simp [labels, List.filterMap_map]
  · rfl

/-- Only the label of its own offset stands before an instruction. -/
theorem position_eventsAt (l : Label) : position l (eventsAt mentioned frames lines offset i)
    = if mentioned.contains offset ∧ labelAt offset = l then some 0 else none := by
  have hlabels := @position_isSome (eventsAt mentioned frames lines offset i) l
  rw [labels_eventsAt] at hlabels
  by_cases hm : mentioned.contains offset = true
  · by_cases hl : labelAt offset = l
    · unfold eventsAt
      simp [hm, hl, position]
    · simp only [hm, hl, ↓reduceIte, List.mem_singleton, Ne.symm hl, iff_false,
        Bool.not_eq_true, Option.isSome_eq_false_iff, Option.isNone_iff_eq_none,
        and_false] at hlabels ⊢
      exact hlabels
  · simp only [hm, Bool.false_eq_true, ↓reduceIte, List.not_mem_nil, iff_false, Bool.not_eq_true,
      Option.isSome_eq_false_iff, Option.isNone_iff_eq_none, false_and] at hlabels ⊢
    exact hlabels

/-- Before an instruction stands the frame of its offset, if it has one. -/
theorem framesFrom_eventsAt (h : Mentions mentioned frames lines) (n : Nat) :
    framesFrom n (eventsAt mentioned frames lines offset i)
      = frames[offset]?.toList.map fun f => (n, f) := by
  by_cases hm : mentioned.contains offset = true
  · -- The offset is mentioned; the lines between the label and the frame do not count.
    have hlines : ∀ e ∈ (lines.getD offset []).map fun line =>
        MethodEvent.line line (labelAt offset), e.isTable = true := by
      rw [List.forall_mem_map]
      exact fun _ _ => rfl
    unfold eventsAt
    rw [if_pos hm, List.append_assoc, List.cons_append]
    show framesFrom n (_ ++ (_ ++ _)) = _
    rw [framesFrom_append, framesFrom_append, framesFrom_of_isTable hlines]
    cases frames[offset]? <;> rfl
  · have hnone : frames[offset]? = none := by
      rcases hf : frames[offset]? with _ | f
      · rfl
      · exact absurd (h.frame offset f hf) hm
    unfold eventsAt
    rw [if_neg hm, hnone]
    rfl

/-- The lines before an instruction are those of its offset. -/
theorem lines_eventsAt (h : Mentions mentioned frames lines) :
    MethodEvent.lines (eventsAt mentioned frames lines offset i)
      = (lines.getD offset []).map fun line => (line, labelAt offset) := by
  by_cases hm : mentioned.contains offset = true
  · unfold eventsAt
    rw [if_pos hm]
    simp [MethodEvent.lines, List.filterMap_map]
  · have hnil : lines.getD offset [] = [] := by
      by_contra hne
      exact hm (h.line offset hne)
    unfold eventsAt
    rw [if_neg hm, hnil]
    rfl

/-! #### Labels -/

/-- What stands in front of the instruction at an offset that is mentioned, behind its label. -/
def notesAt (frames : Std.TreeMap Nat Frame) (lines : Std.TreeMap Nat (List UInt16))
    (offset : Nat) : List MethodEvent :=
  frames[offset]?.toList.map MethodEvent.frame
    ++ (lines.getD offset []).map fun line => .line line (labelAt offset)

/-- An instruction comes last, behind its label and its notes. -/
theorem eventsAt_eq : eventsAt mentioned frames lines offset i
    = (if mentioned.contains offset then .label (labelAt offset) :: notesAt frames lines offset
      else []) ++ [.insn i] := by
  unfold eventsAt notesAt
  split <;> simp

theorem isNote_notesAt : ∀ e ∈ notesAt frames lines offset, e.isNote = true := by
  intro e he
  rcases List.mem_append.mp he with he | he <;> obtain ⟨_, _, rfl⟩ := List.mem_map.mp he <;> rfl

/-- A part of a list that does not have some element lies in front of the element. -/
theorem exists_of_append_eq {α : Type} {part more front back : List α} {a : α} (ha : a ∉ part)
    (h : part ++ more = front ++ a :: back) :
    ∃ front', front = part ++ front' ∧ more = front' ++ a :: back := by
  induction part generalizing front with
  | nil => exact ⟨front, rfl, h⟩
  | cons b part ih =>
    rw [List.mem_cons, not_or] at ha
    rcases front with _ | ⟨c, front⟩
    · exact absurd (List.cons.inj h).1.symm ha.1
    · obtain ⟨rfl, htail⟩ := List.cons.inj h
      obtain ⟨front', rfl, hmore⟩ := ih ha.2 htail
      exact ⟨front', rfl, hmore⟩

/-- A label leads to an instruction, and no frame stands between the instruction before it and the
label. -/
structure Leads (front back : List MethodEvent) : Prop where
  insn : ∃ mid i rest, back = mid ++ .insn i :: rest ∧ ∀ e ∈ mid, e.isNote = true
  frames : ∀ p ∈ framesFrom 0 front, p.1 < (MethodEvent.insns front).length

/-- Events with an instruction in front lead to the same label. -/
theorem Leads.insn_cons {front back : List MethodEvent} (h : Leads front back)
    (pre : List MethodEvent) (hpre : MethodEvent.insns pre = []) :
    Leads (pre ++ .insn i :: front) back where
  insn := h.insn
  frames := by
    intro p hp
    rw [framesFrom_append, hpre, List.length_nil, List.mem_append] at hp
    rw [insns_append, hpre, List.nil_append, insns_cons_insn, List.length_cons]
    rcases hp with hp | hp
    · have hle := (framesFrom_bounds hp).2
      rw [hpre, List.length_nil] at hle
      omega
    · rw [framesFrom, framesFrom_add, List.mem_map] at hp
      obtain ⟨q, hq, rfl⟩ := hp
      have hlt := h.frames q hq
      dsimp only
      omega

theorem Leads.append {front back : List MethodEvent} (h : Leads front back)
    (more : List MethodEvent) : Leads front (back ++ more) where
  insn := by
    obtain ⟨mid, i, rest, rfl, hmid⟩ := h.insn
    exact ⟨mid, i, rest ++ more, by simp, hmid⟩
  frames := h.frames

theorem Leads.tables {pre front back : List MethodEvent} (h : Leads front back)
    (hpre : ∀ e ∈ pre, e.isTable = true) : Leads (pre ++ front) back where
  insn := h.insn
  frames := by
    rw [framesFrom_append, framesFrom_of_isTable hpre, insns_append, insns_of_isTable hpre]
    exact h.frames

/-- **Every label in a listing leads to an instruction.** -/
theorem leads_listing {front back : List MethodEvent} {l : Label}
    (h : listing mentioned frames lines insns = front ++ .label l :: back) : Leads front back := by
  induction insns generalizing front with
  | nil => exact absurd h.symm (by simp [listing])
  | cons p insns ih =>
    rw [listing_cons, eventsAt_eq, List.append_assoc] at h
    have hinsns (offset : Nat) : MethodEvent.insns (notesAt frames lines offset) = [] :=
      insns_of_isNote isNote_notesAt
    have hnot (offset : Nat) : .label l ∉ notesAt frames lines offset := fun hmem =>
      absurd (isNote_notesAt _ hmem) (by simp [isNote])
    split at h
    · -- The label is the first one of the listing, or it comes in the rest.
      rcases front with _ | ⟨e, front⟩
      · obtain ⟨-, rfl⟩ := List.cons.inj h
        exact ⟨⟨_, _, _, rfl, isNote_notesAt⟩, by simp [framesFrom]⟩
      · obtain ⟨rfl, htail⟩ := List.cons.inj h
        obtain ⟨front', rfl, hnext⟩ := exists_of_append_eq (hnot p.1) htail
        rcases front' with _ | ⟨e, front'⟩
        · cases (List.cons.inj hnext).1
        · obtain ⟨rfl, hrest⟩ := List.cons.inj hnext
          exact (ih hrest).insn_cons (.label (labelAt p.1) :: notesAt frames lines p.1) (hinsns p.1)
    · rcases front with _ | ⟨e, front⟩
      · cases (List.cons.inj h).1
      · obtain ⟨rfl, hrest⟩ := List.cons.inj h
        exact (ih hrest).insn_cons [] rfl

/-- The instructions of a listing are those of the body. -/
theorem insns_listing :
    MethodEvent.insns (listing mentioned frames lines insns) = insns.map (·.2) := by
  induction insns with
  | nil => rfl
  | cons p insns ih =>
    rw [listing_cons, insns_append, insns_eventsAt, ih]
    rfl

/-- The labels of a listing are those of the offsets that are mentioned, in order. -/
theorem labels_listing : labels (listing mentioned frames lines insns)
    = ((insns.map (·.1)).filter mentioned.contains).map labelAt := by
  induction insns with
  | nil => rfl
  | cons p insns ih =>
    rw [listing_cons, labels_append, labels_eventsAt, ih, List.map_cons, List.filter_cons]
    split <;> rfl

/-- A label that is mentioned stands before the instruction of its offset. -/
theorem position_listing (hin : ∀ p ∈ insns, p.1 < 2147483648) (hoffset : offset < 2147483648) :
    position (labelAt offset) (listing mentioned frames lines insns)
      = if mentioned.contains offset ∧ offset ∈ insns.map (·.1)
        then some ((insns.map (·.1)).idxOf offset) else none := by
  induction insns with
  | nil => simp [listing, position]
  | cons p insns ih =>
    rw [List.forall_mem_cons] at hin
    rw [listing_cons, position_append, position_eventsAt, insns_eventsAt, ih hin.2, List.map_cons]
    -- Either this instruction is the one, or the label is looked for behind it.
    by_cases hp : p.1 = offset
    · subst hp
      by_cases hm : mentioned.contains p.1 = true
      · simp [hm]
      · simp [hm]
    · have hfirst : ¬ (mentioned.contains p.1 = true ∧ labelAt p.1 = labelAt offset) := fun h =>
        hp (labelAt_inj hin.1 hoffset h.2)
      rw [if_neg hfirst, List.idxOf_cons_ne _ hp]
      simp only [List.mem_cons, Ne.symm hp, false_or]
      split <;> rfl

/-- The frames of a listing are numbered like the instructions they stand before. -/
theorem framesFrom_listing (h : Mentions mentioned frames lines) (n : Nat) :
    framesFrom n (listing mentioned frames lines insns)
      = (insns.zipIdx n).flatMap fun p => frames[p.1.1]?.toList.map fun f => (p.2, f) := by
  induction insns generalizing n with
  | nil => rfl
  | cons p insns ih =>
    rw [listing_cons, framesFrom_append, framesFrom_eventsAt h, insns_eventsAt,
      List.length_singleton, ih, List.zipIdx_cons, List.flatMap_cons]

theorem lines_listing (h : Mentions mentioned frames lines) :
    MethodEvent.lines (listing mentioned frames lines insns)
      = insns.flatMap fun p => (lines.getD p.1 []).map fun line => (line, labelAt p.1) := by
  induction insns with
  | nil => rfl
  | cons p insns ih =>
    rw [listing_cons, lines_append, lines_eventsAt h, ih, List.flatMap_cons]

end Listing

/-! ### What is mentioned -/

/-- The offsets a body mentions. -/
def mentioned (body : Body) : Std.TreeSet Nat :=
  Std.TreeSet.ofList body.references

/-- The frame at each offset. -/
def framesByOffset (body : Body) : Std.TreeMap Nat Frame :=
  Std.TreeMap.ofList body.frames

variable {body : Body} {offset : Nat}

/-- The mentioned offsets are those that the body refers to. -/
theorem contains_mentioned : body.mentioned.contains offset = true ↔ offset ∈ body.references := by
  rw [mentioned, Std.TreeSet.contains_ofList, List.contains_iff_mem]

/-- At each offset stands the last frame of the table that has it. -/
theorem toList_framesByOffset (o : Nat) : body.framesByOffset[o]?.toList
    = ((lastRows body.frames).filter (·.1 == o)).map (·.2) :=
  toList_getElem?_ofList o

theorem mem_frames_of_getElem? {f : Frame} (h : body.framesByOffset[offset]? = some f) :
    (offset, f) ∈ body.frames := by
  have hmem : f ∈ body.framesByOffset[offset]?.toList := Option.mem_toList.mpr h
  rw [toList_framesByOffset] at hmem
  obtain ⟨p, hp, rfl⟩ := List.mem_map.mp hmem
  obtain ⟨hp, hkey⟩ := List.mem_filter.mp hp
  have hkey : p.1 = offset := by simpa using hkey
  rw [← hkey]
  exact lastRows_subset hp

/-- The lines of an offset are its rows of the table, in order. -/
theorem getD_linesByOffset : body.linesByOffset.getD offset []
    = (body.lines.filter (·.1 == offset)).map (·.2) := by
  unfold linesByOffset
  induction body.lines with
  | nil => rfl
  | cons p lines ih =>
    rw [List.foldr_cons, Std.TreeMap.getD_insert, List.filter_cons]
    by_cases h : p.1 = offset
    · subst h
      simp [ih]
    · simp [h, ih]

theorem mem_references_of_line {p : Nat × UInt16} (hp : p ∈ body.lines) :
    p.1 ∈ body.references := by
  unfold references
  simp only [List.mem_append]
  exact .inl (.inl (.inr (List.mem_map_of_mem hp)))

theorem mem_references_of_frameOffset {p : Nat × Frame} (hp : p ∈ body.frames) :
    p.1 ∈ body.references := by
  unfold references
  exact List.mem_append_right _ (List.mem_flatMap.mpr ⟨p, hp, List.mem_cons_self ..⟩)

/-- A body mentions the offsets of its frames and lines. -/
theorem mentions : Mentions body.mentioned body.framesByOffset body.linesByOffset where
  frame offset f h :=
    contains_mentioned.mpr (mem_references_of_frameOffset (mem_frames_of_getElem? h))
  line offset h := by
    rw [getD_linesByOffset, ne_eq, List.map_eq_nil_iff, List.filter_eq_nil_iff] at h
    push Not at h
    obtain ⟨p, hp, heq⟩ := h
    have heq : p.1 = offset := by simpa using heq
    rw [contains_mentioned, ← heq]
    exact mem_references_of_line hp

/-! ### Whole bodies -/

/-- The label at the end of the code, if it is mentioned. -/
def endLabel (body : Body) : List MethodEvent :=
  if body.mentioned.contains body.length then [.label (labelAt body.length)] else []

/-- The listing of a body. -/
def listed (body : Body) : List MethodEvent :=
  listing body.mentioned body.framesByOffset body.linesByOffset body.insns ++ body.endLabel

/-- The events of a body are its head, its listing and its variables. -/
theorem events_eq : body.events
    = (.code body.maxStack body.maxLocals :: body.handlers.map .tryCatch) ++ body.listed
      ++ body.locals.map .localVariable := by
  unfold listed
  rw [← List.append_assoc]
  rfl

/-- The events of a method with some attributes and maybe a body. -/
def eventsOf (attrs : List RawAttribute) (body : Option Body) : List MethodEvent :=
  attrs.map .attribute ++ body.elim [] events ++ [.done]

section Whole

variable {pool : ConstantPool} {attrs : List RawAttribute}

/-- The position of an offset: that of its instruction, or behind the last one. -/
def indexOf (body : Body) (offset : Nat) : Nat :=
  (body.insns.map (·.1)).idxOf offset

theorem isTable_attributes : ∀ e ∈ attrs.map MethodEvent.attribute, e.isTable = true := by
  rw [List.forall_mem_map]
  exact fun _ _ => rfl

theorem isTable_handlers : ∀ e ∈ MethodEvent.code body.maxStack body.maxLocals
    :: body.handlers.map MethodEvent.tryCatch, e.isTable = true := by
  rw [List.forall_mem_cons, List.forall_mem_map]
  exact ⟨rfl, fun _ _ => rfl⟩

theorem isTable_locals : ∀ e ∈ body.locals.map MethodEvent.localVariable, e.isTable = true := by
  rw [List.forall_mem_map]
  exact fun _ _ => rfl

theorem insns_eventsOf : MethodEvent.insns (eventsOf attrs (some body)) = body.insns.map (·.2) := by
  have hend : MethodEvent.insns body.endLabel = [] := by
    unfold endLabel
    split <;> rfl
  unfold eventsOf
  simp only [Option.elim_some, events_eq, insns_append, insns_of_isTable isTable_attributes,
    insns_of_isTable isTable_handlers, insns_of_isTable isTable_locals, listed, insns_listing, hend,
    List.nil_append, List.append_nil]
  exact List.append_nil _

theorem framesFrom_eventsOf : framesFrom 0 (eventsOf attrs (some body))
    = body.insns.zipIdx.flatMap fun p =>
        body.framesByOffset[p.1.1]?.toList.map fun f => (p.2, f) := by
  have hend (n : Nat) : framesFrom n body.endLabel = [] := by
    unfold endLabel
    split <;> rfl
  unfold eventsOf
  simp only [Option.elim_some, events_eq, framesFrom_append,
    framesFrom_of_isTable isTable_attributes, framesFrom_of_isTable isTable_handlers,
    framesFrom_of_isTable isTable_locals, listed,
    framesFrom_listing mentions, hend, insns_of_isTable isTable_attributes,
    insns_of_isTable isTable_handlers, List.nil_append, List.append_nil, List.length_nil,
    Nat.add_zero]
  exact List.append_nil _

/-- The lines of a body are told instruction by instruction. -/
theorem lines_eventsOf : MethodEvent.lines (eventsOf attrs (some body))
    = body.insns.flatMap fun p =>
        (body.lines.filter (·.1 == p.1)).map fun l => (l.2, labelAt p.1) := by
  have hend : MethodEvent.lines body.endLabel = [] := by
    unfold endLabel
    split <;> rfl
  unfold eventsOf
  simp only [Option.elim_some, events_eq, lines_append, listed, lines_listing mentions, hend,
    getD_linesByOffset, List.map_map, List.append_nil]
  simp [MethodEvent.lines, List.filterMap_map, Function.comp_def]

/-- The frames among the events of a body are frames of its table. -/
theorem exists_frame_of_mem {p : Nat × Frame} (hp : p ∈ framesFrom 0 (eventsOf attrs (some body))) :
    ∃ offset, (offset, p.2) ∈ body.frames := by
  rw [framesFrom_eventsOf] at hp
  obtain ⟨q, -, hp⟩ := List.mem_flatMap.mp hp
  obtain ⟨f, hf, rfl⟩ := List.mem_map.mp hp
  exact ⟨_, mem_frames_of_getElem? (Option.mem_toList.mp hf)⟩

/-- The line numbers among the events of a body are lines of its table, at an instruction. -/
theorem exists_line_of_mem {line : UInt16 × Label}
    (hline : line ∈ MethodEvent.lines (eventsOf attrs (some body))) :
    ∃ offset ∈ body.insns.map (·.1), (offset, line.1) ∈ body.lines ∧ line.2 = labelAt offset := by
  rw [lines_eventsOf] at hline
  obtain ⟨p, hp, hline⟩ := List.mem_flatMap.mp hline
  obtain ⟨row, hrow, rfl⟩ := List.mem_map.mp hline
  obtain ⟨hrow, hkey⟩ := List.mem_filter.mp hrow
  have hkey : row.1 = p.1 := by simpa using hkey
  exact ⟨p.1, List.mem_map_of_mem hp, hkey ▸ hrow, rfl⟩

/-- A label, a frame, a line number or an instruction. -/
def isListed : MethodEvent → Bool
  | .label _ | .frame _ | .line .. | .insn _ => true
  | _ => false

/-- In the listing there are only labels, notes and instructions. -/
theorem isListed_listed : ∀ e ∈ body.listed, isListed e = true := by
  intro e he
  rcases List.mem_append.mp he with he | he
  · obtain ⟨p, _, he⟩ := List.mem_flatMap.mp he
    unfold eventsAt at he
    split at he
    · simp only [List.cons_append, List.mem_cons, List.mem_append, List.mem_map,
        List.not_mem_nil, or_false] at he
      rcases he with rfl | (⟨_, _, rfl⟩ | ⟨_, _, rfl⟩) | rfl <;> rfl
    · rw [List.mem_singleton.mp he]
      rfl
  · unfold endLabel at he
    split at he
    · rw [List.mem_singleton.mp he]
      rfl
    · cases he

/-- A table that has no rows among the instructions. -/
theorem filterMap_listed {α : Type} {f : MethodEvent → Option α}
    (h : ∀ e, isListed e = true → f e = none) : body.listed.filterMap f = [] := by
  rw [List.filterMap_eq_nil_iff]
  exact fun e he => h e (isListed_listed e he)

theorem handlers_eventsOf : MethodEvent.handlers (eventsOf attrs (some body)) = body.handlers := by
  have hlisted : MethodEvent.handlers body.listed = [] :=
    filterMap_listed fun e he => by cases e <;> first | rfl | cases he
  unfold eventsOf
  simp only [Option.elim_some, events_eq, handlers_append, hlisted]
  simp [MethodEvent.handlers, List.filterMap_map]

theorem localsIn_eventsOf (table : LocalTable) :
    MethodEvent.localsIn table (eventsOf attrs (some body))
      = body.locals.filter (·.table = table) := by
  have hlisted : MethodEvent.localsIn table body.listed = [] :=
    filterMap_listed fun e he => by cases e <;> first | rfl | cases he
  unfold eventsOf
  simp only [Option.elim_some, events_eq, localsIn_append, hlisted]
  rw [← List.filterMap_eq_filter]
  simp [MethodEvent.localsIn, List.filterMap_map, Option.guard]

theorem attributes_eventsOf (body : Option Body) :
    MethodEvent.attributes (eventsOf attrs body) = attrs := by
  unfold eventsOf
  rcases body with _ | body
  · simp [MethodEvent.attributes, List.filterMap_map]
  · have hlisted : MethodEvent.attributes body.listed = [] :=
      filterMap_listed fun e he => by cases e <;> first | rfl | cases he
    simp only [Option.elim_some, events_eq, attributes_append, hlisted]
    simp [MethodEvent.attributes, List.filterMap_map]

/-- The limits are told once, by the body itself. -/
theorem limits_eventsOf : MethodEvent.limits (eventsOf attrs (some body))
    = some (body.maxStack, body.maxLocals) := by
  -- No other event has limits.
  have hlisted : MethodEvent.limits body.listed = none := limits_eq_none fun e he found => by
    have he := isListed_listed e he
    cases e <;> first | rfl | cases he
  have hlocals : MethodEvent.limits (body.locals.map .localVariable) = none := limits_eq_none (by
    rw [List.forall_mem_map]
    exact fun _ _ _ => rfl)
  have hhandlers : MethodEvent.limits (body.handlers.map .tryCatch) = none := limits_eq_none (by
    rw [List.forall_mem_map]
    exact fun _ _ _ => rfl)
  have hcode : MethodEvent.limits
      (.code body.maxStack body.maxLocals :: body.handlers.map .tryCatch)
        = some (body.maxStack, body.maxLocals) := by
    rw [← List.singleton_append, limits_append, hhandlers]
    rfl
  unfold eventsOf
  simp only [Option.elim_some, events_eq, limits_append, hlisted, hlocals, Option.none_or, hcode]
  rfl

/-- What stands in front of the instructions. -/
def tables (attrs : List RawAttribute) (body : Body) : List MethodEvent :=
  attrs.map .attribute ++ (.code body.maxStack body.maxLocals :: body.handlers.map .tryCatch)

theorem isTable_tables : ∀ e ∈ tables attrs body, e.isTable = true :=
  List.forall_mem_append.mpr ⟨isTable_attributes, isTable_handlers⟩

/-- **Where a label stands**: in the listing, or at the end of the code. -/
theorem split_eventsOf {front back : List MethodEvent} {l : Label}
    (h : eventsOf attrs (some body) = front ++ .label l :: back) :
    (∃ listed more, front = tables attrs body ++ listed ∧
        listing body.mentioned body.framesByOffset body.linesByOffset body.insns
          = listed ++ .label l :: more ∧
        back = more ++ (body.endLabel ++ (body.locals.map .localVariable ++ [.done]))) ∨
      (l = labelAt body.length ∧
        front = tables attrs body
          ++ listing body.mentioned body.framesByOffset body.linesByOffset body.insns ∧
        back = body.locals.map .localVariable ++ [.done]) := by
  have hnot {part : List MethodEvent} (hpart : ∀ e ∈ part, e.isTable = true) : .label l ∉ part :=
    fun hmem => absurd (hpart _ hmem) (by simp [isTable])
  have htail : ∀ e ∈ body.locals.map MethodEvent.localVariable ++ [.done], e.isTable = true := by
    rw [List.forall_mem_append]
    exact ⟨isTable_locals, by simp [isTable]⟩
  have hparts : eventsOf attrs (some body) = tables attrs body
      ++ (listing body.mentioned body.framesByOffset body.linesByOffset body.insns
        ++ (body.endLabel ++ (body.locals.map .localVariable ++ [.done]))) := by
    simp only [eventsOf, Option.elim_some, events_eq, tables, listed, List.append_assoc]
  rw [hparts] at h
  obtain ⟨front, rfl, hrest⟩ := exists_of_append_eq (hnot isTable_tables) h
  -- Behind the listing there is one label at most, that of the end of the code.
  have hlast {more : List MethodEvent}
      (hend : body.endLabel ++ (body.locals.map MethodEvent.localVariable ++ [.done])
        = more ++ .label l :: back) : more = [] ∧ l = labelAt body.length ∧
          back = body.locals.map .localVariable ++ [.done] := by
    unfold endLabel at hend
    split at hend
    · rcases more with _ | ⟨e, more⟩
      · obtain ⟨hl, rfl⟩ := List.cons.inj hend
        exact ⟨rfl, (MethodEvent.label.inj hl).symm, rfl⟩
      · have hmore : body.locals.map MethodEvent.localVariable ++ [.done]
            = more ++ .label l :: back :=
          (List.cons.inj hend).2
        exact absurd (by simp [hmore]) (hnot htail)
    · rw [List.nil_append] at hend
      exact absurd (by simp [hend]) (hnot htail)
  rcases List.append_eq_append_iff.mp hrest with ⟨more, rfl, hend⟩ | ⟨more, hlisting, hback⟩
  · obtain ⟨rfl, hl, hback⟩ := hlast hend
    exact .inr ⟨hl, by rw [List.append_nil], hback⟩
  · rcases more with _ | ⟨e, more⟩
    · obtain ⟨-, hl, hback⟩ := @hlast [] hback.symm
      exact .inr ⟨hl, by rw [hlisting, List.append_nil], hback⟩
    · obtain ⟨rfl, rfl⟩ := List.cons.inj hback
      exact .inl ⟨front, more, rfl, hlisting, rfl⟩

/-- **Every label leads to an instruction**, unless it stands at the end of the code. -/
theorem leads_eventsOf {front back : List MethodEvent} {l : Label}
    (h : eventsOf attrs (some body) = front ++ .label l :: back) :
    Leads front back ∨ ∀ e ∈ back, e.isTable = true := by
  rcases split_eventsOf h with ⟨listed, more, rfl, hlisting, rfl⟩ | ⟨-, -, rfl⟩
  · exact .inl (((leads_listing hlisting).append _).tables isTable_tables)
  · rw [List.forall_mem_append]
    exact .inr ⟨isTable_locals, by simp [isTable]⟩

variable (h : body.Grounded pool)
include h

theorem Grounded.ascending : (body.insns.map (·.1)).Pairwise (· < ·) :=
  List.pairwise_map.mpr h.code.ascending

theorem Grounded.inside : ∀ offset ∈ body.insns.map (·.1), offset < body.length := by
  rw [List.forall_mem_map]
  exact fun p hp => (h.code.bounds p hp).2

theorem Grounded.le_length (hoffset : offset ∈ body.references) : offset ≤ body.length := by
  rcases h.bounded offset hoffset with hmem | rfl
  · exact Nat.le_of_lt (h.inside offset hmem)
  · exact Nat.le_refl _

/-- **The position of an offset that is mentioned** is that of its instruction. -/
theorem position_eventsOf (hoffset : offset ∈ body.references) :
    position (labelAt offset) (eventsOf attrs (some body)) = some (body.indexOf offset) := by
  have hlength := h.length_le
  have hle := h.le_length hoffset
  have hlisted : position (labelAt offset) body.listed = some (body.indexOf offset) := by
    have hlisting := @position_listing body.mentioned body.framesByOffset
      body.linesByOffset body.insns offset
      (fun p hp => by have := (h.code.bounds p hp).2; omega) (by omega)
    rw [listed, position_append, hlisting]
    by_cases hmem : offset ∈ body.insns.map (·.1)
    · rw [if_pos ⟨contains_mentioned.mpr hoffset, hmem⟩]
      rfl
    · -- No instruction stands there, so it is the end of the code, behind the last instruction.
      have hend : offset = body.length := (h.bounded offset hoffset).resolve_left hmem
      have hindex : body.indexOf offset = body.insns.length := by
        rw [indexOf, List.idxOf_eq_length hmem, List.length_map]
      rw [if_neg fun hand => hmem hand.2, hindex, insns_listing, List.length_map]
      subst hend
      simp [endLabel, contains_mentioned.mpr hoffset, position]
  unfold eventsOf
  simp only [Option.elim_some, events_eq, position_append, position_of_isTable isTable_attributes,
    position_of_isTable isTable_handlers, hlisted, insns_of_isTable isTable_attributes,
    insns_of_isTable isTable_handlers]
  rfl

omit h in
/-- **The labels of a body** are its mentioned offsets in order, the end of the code last. -/
theorem labels_eventsOf : labels (eventsOf attrs (some body))
    = ((body.insns.map (·.1)).filter body.mentioned.contains
        ++ if body.mentioned.contains body.length then [body.length] else []).map labelAt := by
  have hend : labels body.endLabel
      = (if body.mentioned.contains body.length then [body.length] else []).map labelAt := by
    unfold endLabel
    split <;> rfl
  unfold eventsOf
  simp only [Option.elim_some, events_eq, labels_append, labels_of_isTable isTable_attributes,
    labels_of_isTable isTable_handlers, labels_of_isTable isTable_locals, listed, labels_listing,
    hend, List.nil_append, List.append_nil, List.map_append]
  exact List.append_nil _

/-- No label stands twice in the events of a body. -/
theorem nodup_labels_eventsOf : (labels (eventsOf attrs (some body))).Nodup := by
  have hlength := h.length_le
  have hinside := h.inside
  have hoffsets : ((body.insns.map (·.1)).filter body.mentioned.contains).Nodup :=
    (h.ascending.imp Nat.ne_of_lt).filter _
  rw [labels_eventsOf]
  refine List.Nodup.map_on (fun s hs t ht heq => ?_) (List.nodup_append.mpr ⟨hoffsets, ?_, ?_⟩)
  · have hle (o : Nat) (ho : o ∈ (body.insns.map (·.1)).filter body.mentioned.contains
        ++ if body.mentioned.contains body.length then [body.length] else []) :
        o ≤ body.length := by
      rcases List.mem_append.mp ho with ho | ho
      · exact Nat.le_of_lt (hinside o (List.mem_filter.mp ho).1)
      · split at ho
        · exact Nat.le_of_eq (List.mem_singleton.mp ho)
        · cases ho
    have := hle s hs
    have := hle t ht
    exact labelAt_inj (by omega) (by omega) heq
  · -- The label behind the code is one label.
    split <;> simp
  · intro s hs t ht heq
    split at ht
    · have := hinside s (List.mem_filter.mp hs).1
      rw [List.mem_singleton.mp ht] at heq
      omega
    · cases ht

theorem indexOf_of_getElem? {k : Nat} {p : Nat × Insn} (hp : body.insns[k]? = some p) :
    body.indexOf p.1 = k := by
  have hnodup : (body.insns.map (·.1)).Nodup := h.ascending.imp Nat.ne_of_lt
  obtain ⟨hk, rfl⟩ := List.getElem?_eq_some_iff.mp hp
  have hidx := hnodup.idxOf_getElem k (by rwa [List.length_map])
  rwa [List.getElem_map] at hidx

/-- Greater offsets have greater positions. -/
theorem indexOf_le {s t : Nat} (hs : s ∈ body.references) (hst : s ≤ t) :
    body.indexOf s ≤ body.indexOf t := by
  by_cases ht : t ∈ body.insns.map (·.1)
  · have hmem : s ∈ body.insns.map (·.1) := (h.bounded s hs).resolve_right fun heq => by
      have := h.inside t ht
      omega
    by_contra hlt
    have hpair := List.pairwise_iff_getElem.mp h.ascending _ _ (List.idxOf_lt_length_of_mem ht)
      (List.idxOf_lt_length_of_mem hmem) (Nat.lt_of_not_le hlt)
    rw [List.getElem_idxOf, List.getElem_idxOf] at hpair
    omega
  · rw [indexOf, indexOf, List.idxOf_eq_length ht]
    exact List.idxOf_le_length

/-- What a body refers to before its end is one of its instructions. -/
theorem mem_offsets_of_lt (hoffset : offset ∈ body.references) (hlt : offset < body.length) :
    offset ∈ body.insns.map (·.1) := by
  rcases h.bounded offset hoffset with hmem | rfl
  · exact hmem
  · exact absurd hlt (Nat.lt_irrefl _)

/-- The frames come by the offsets of the instructions. -/
theorem framesFrom_eventsOf_eq : framesFrom 0 (eventsOf attrs (some body))
    = ((body.insns.map (·.1)).flatMap fun o => (lastRows body.frames).filter (·.1 == o)).map
        fun p => (body.indexOf p.1, p.2) := by
  calc framesFrom 0 (eventsOf attrs (some body))
      = body.insns.zipIdx.flatMap fun p =>
          ((lastRows body.frames).filter (·.1 == p.1.1)).map fun f => (body.indexOf f.1, f.2) := by
        rw [framesFrom_eventsOf]
        refine List.flatMap_congr fun p hp => ?_
        rw [toList_framesByOffset, List.map_map]
        refine List.map_congr_left fun f hf => ?_
        have hkey : f.1 = p.1.1 := by simpa using (List.mem_filter.mp hf).2
        have hget := indexOf_of_getElem? h (List.mem_zipIdx_iff_getElem?.mp hp)
        rw [Function.comp_apply, hkey, hget]
    _ = _ := by
        rw [List.map_flatMap, List.flatMap_map]
        conv_rhs => rw [← List.zipIdx_map_fst 0 body.insns, List.flatMap_map]

theorem mem_offsets_of_frame {p : Nat × Frame} (hp : p ∈ body.frames) :
    p.1 ∈ body.insns.map (·.1) :=
  mem_offsets_of_lt h (mem_references_of_frameOffset hp) (h.frames p hp).1

theorem mem_offsets_of_line {p : Nat × UInt16} (hp : p ∈ body.lines) (hlt : p.1 < body.length) :
    p.1 ∈ body.insns.map (·.1) :=
  mem_offsets_of_lt h (mem_references_of_line hp) hlt

/-- **Frames that ascend** stand at the positions of their offsets. -/
theorem framesFrom_eventsOf_of_sorted (hframes : body.frames.Pairwise fun p q => p.1 < q.1) :
    framesFrom 0 (eventsOf attrs (some body))
      = body.frames.map fun p => (body.indexOf p.1, p.2) := by
  have hkeys : (body.frames.map (·.1)).Nodup := List.pairwise_map.mpr (hframes.imp Nat.ne_of_lt)
  rw [framesFrom_eventsOf_eq h, lastRows_eq_self hkeys, flatMap_filter_of_sorted h.ascending
    (hframes.imp Nat.le_of_lt) fun p hp => mem_offsets_of_frame h hp]

/-- **The frames that no later one replaces** are listed, each once and at the position of its
offset. -/
theorem perm_framesFrom_eventsOf : (framesFrom 0 (eventsOf attrs (some body))).Perm
    ((lastRows body.frames).map fun p => (body.indexOf p.1, p.2)) := by
  rw [framesFrom_eventsOf_eq h]
  exact (perm_flatMap_filter (h.ascending.imp Nat.ne_of_lt) fun p hp =>
    mem_offsets_of_frame h (lastRows_subset hp)).map _

omit h in
/-- The line numbers come by the offsets of the instructions. -/
theorem lines_eventsOf_eq : MethodEvent.lines (eventsOf attrs (some body))
    = ((body.insns.map (·.1)).flatMap fun o => body.lines.filter (·.1 == o)).map
        fun p => (p.2, labelAt p.1) := by
  rw [lines_eventsOf, List.map_flatMap, List.flatMap_map]
  refine List.flatMap_congr fun p _ => List.map_congr_left fun l hl => ?_
  have hkey : l.1 = p.1 := by simpa using (List.mem_filter.mp hl).2
  rw [hkey]

/-- **Line numbers that ascend** stand in the order of their table. -/
theorem lines_eventsOf_of_sorted (hlines : body.lines.Pairwise fun p q => p.1 ≤ q.1)
    (hlt : ∀ p ∈ body.lines, p.1 < body.length) :
    MethodEvent.lines (eventsOf attrs (some body))
      = body.lines.map fun p => (p.2, labelAt p.1) := by
  rw [lines_eventsOf_eq, flatMap_filter_of_sorted h.ascending hlines
    fun p hp => mem_offsets_of_line h hp (hlt p hp)]

/-- **Line numbers of one place** stand in the order of their table. -/
theorem filter_lines_eventsOf (hlt : ∀ p ∈ body.lines, p.1 < body.length)
    {P : UInt16 × Label → Bool}
    (hP : ∀ p ∈ body.lines, ∀ q ∈ body.lines, P (p.2, labelAt p.1) = true →
      (P (q.2, labelAt q.1) = true ↔ q.1 = p.1)) :
    (MethodEvent.lines (eventsOf attrs (some body))).filter P
      = (body.lines.map fun p => (p.2, labelAt p.1)).filter P := by
  rw [lines_eventsOf_eq, List.filter_map, List.filter_map]
  exact congrArg _ (filter_flatMap_filter (h.ascending.imp Nat.ne_of_lt)
    (fun p hp => mem_offsets_of_line h hp (hlt p hp)) hP)

/-- **The line numbers in front of the end of the code** are listed, each once. One at the end of
the code is not: no instruction stands there. -/
theorem perm_lines_eventsOf : (MethodEvent.lines (eventsOf attrs (some body))).Perm
    ((body.lines.filter (·.1 < body.length)).map fun p => (p.2, labelAt p.1)) := by
  -- The key of an instruction is in front of the end, so the filter removes no row of such a key.
  have hinside : ((body.insns.map (·.1)).flatMap fun o => body.lines.filter (·.1 == o))
      = (body.insns.map (·.1)).flatMap fun o =>
          (body.lines.filter (·.1 < body.length)).filter (·.1 == o) := by
    refine List.flatMap_congr fun o ho => ?_
    have hlt := h.inside o ho
    rw [List.filter_filter]
    refine List.filter_congr fun p _ => ?_
    by_cases hp : p.1 = o
    · simp [hp, hlt]
    · simp [hp]
  rw [lines_eventsOf_eq, hinside]
  refine (perm_flatMap_filter (h.ascending.imp Nat.ne_of_lt) fun p hp => ?_).map _
  obtain ⟨hp, hlt⟩ := List.mem_filter.mp hp
  exact mem_offsets_of_line h hp (of_decide_eq_true hlt)

end Whole

end Body

end RoundingPatch.ClassFile
