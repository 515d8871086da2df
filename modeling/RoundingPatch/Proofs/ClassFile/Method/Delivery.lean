import RoundingPatch.Proofs.ClassFile.Code.Contents
import RoundingPatch.Proofs.ClassFile.Method.Stream
/-!
# What decoding delivers

A body that is decoded delivers its code, its handlers and its local variables, each in one event
(`Accounted`). Of the line numbers it delivers those in front of the end of the code, and of the
stack map frames those that no later one at the same offset replaces; bytes behind a table are not
looked at. So nothing is lost exactly if a `Code` attribute has nothing of this kind
(`lossless_iff`). A body that cannot be decoded delivers nothing at all (`attributes_of_failure`).
-/

namespace RoundingPatch.ClassFile

open MethodEvent

namespace Body.Contents

variable {pool : ConstantPool} {t : Contents} {info : Bytes} {events : List MethodEvent}

/-- Events that have the limits, the handlers and the local variables of a `Code` attribute, and
of its line numbers and its stack map frames some: each in one event, with the same contents. A
frame stands at the position of the label of its offset. -/
structure Delivers (t : Contents) (lineRows : List (Nat × UInt16)) (frameRows : List (Nat × Frame))
    (events : List MethodEvent) : Prop where
  limits : MethodEvent.limits events = some (t.maxStack, t.maxLocals)
  handlers : MethodEvent.handlers events = t.handlers
  locals : ∀ table, localsIn table events = t.locals.filter (·.table = table)
  lines : (MethodEvent.lines events).Perm (lineRows.map fun p => (p.2, labelAt p.1))
  frames : ((framesFrom 0 events).map fun p => (some p.1, p.2)).Perm
    (frameRows.map fun p => (position (labelAt p.1) events, p.2))

/-- **Nothing in a `Code` attribute is lost**: every entry of its tables is delivered, and its
bytes and those of its tables are used up. -/
structure Lossless (t : Contents) (events : List MethodEvent) : Prop where
  delivers : t.Delivers t.lines t.frames events
  rest : t.rest = []
  tables : ∀ table ∈ t.tables, table.rest = []

/-- What becomes of a `Code` attribute that is decoded: its code is instructions to the end, some
line numbers and frames are passed over, and the readers leave the bytes that spell no entries. -/
structure Accounted (pool : ConstantPool) (t : Contents) (info : Bytes)
    (events : List MethodEvent) : Prop where
  insns : ∃ insns, Laid pool t.code 0 insns ∧ MethodEvent.insns events = insns.map (·.2)
  delivers : t.Delivers (t.lines.filter (·.1 < t.code.length)) (lastRows t.frames) events
  bounded : ∀ p ∈ t.lines, p.1 ≤ t.code.length
  rest : ∃ b, Read.Leaves (read pool) info b t.rest
  tables : ∀ table ∈ t.tables, table.rows.Leaves pool t.code.length table.info table.rest

/-- No line number stands at the end of the code, no frame has the offset of another, and no bytes
are left over. -/
structure Tidy (t : Contents) : Prop where
  lines : ∀ p ∈ t.lines, p.1 < t.code.length
  frames : (t.frames.map (·.1)).Nodup
  rest : t.rest = []
  tables : ∀ table ∈ t.tables, table.rest = []

/-- **Nothing is lost of a `Code` attribute exactly if it is tidy.** -/
theorem lossless_iff (h : t.Accounted pool info events) : t.Lossless events ↔ t.Tidy := by
  constructor
  · -- What is delivered has the length of the whole table, so nothing was dropped from it.
    rintro ⟨hdelivers, hrest, htables⟩
    have hlines := (hdelivers.lines.symm.trans h.delivers.lines).length_eq
    have hframes := (hdelivers.frames.symm.trans h.delivers.frames).length_eq
    rw [List.length_map, List.length_map] at hlines hframes
    refine ⟨fun p hp => ?_, nodup_of_length_lastRows hframes.symm, hrest, htables⟩
    exact of_decide_eq_true (List.length_filter_eq_length_iff.mp hlines.symm p hp)
  · rintro ⟨hlines, hframes, hrest, htables⟩
    have hall : t.lines.filter (·.1 < t.code.length) = t.lines :=
      List.filter_eq_self.mpr fun p hp => decide_eq_true (hlines p hp)
    refine ⟨?_, hrest, htables⟩
    have hdelivers := h.delivers
    rwa [hall, lastRows_eq_self hframes] at hdelivers

/-- **What becomes of the contents** that are spelled by the bytes of a body. -/
theorem accounted_of_spelled {attrs : List RawAttribute} {b : Body} (ht : t.Spelled pool info)
    (hparse : parse pool info = .ok b) : t.Accounted pool info (eventsOf attrs (some b)) := by
  have h := grounded_of_parse hparse
  obtain ⟨hrest, insns, hinsns, rfl⟩ := read_of_spelled ht hparse
  obtain ⟨_, ⟨_, _, _, _, _, _, _, htables, _, _⟩, _⟩ := ht
  refine ⟨⟨insns, laid_of_decodeInsns hinsns, insns_eventsOf⟩, ?_, ?_, ⟨_, hrest⟩,
    fun table htable => (htables table htable).leaves⟩
  · refine ⟨limits_eventsOf, handlers_eventsOf, localsIn_eventsOf, perm_lines_eventsOf h, ?_⟩
    -- The position of a frame is that of the label of its offset, which the frame mentions.
    have hframes := (@perm_framesFrom_eventsOf _ _ attrs h).map fun p => (some p.1, p.2)
    rw [List.map_map] at hframes
    refine hframes.trans (List.Perm.of_eq (List.map_congr_left fun p hp => ?_))
    have hmem := mem_references_of_frameOffset (lastRows_subset hp)
    rw [Function.comp_apply, position_eventsOf h hmem]
  · exact fun p hp => h.le_length (mem_references_of_line hp)

end Body.Contents

/-! ### Methods -/

variable {pool : ConstantPool} {m : Member}

/-- Before the body only attributes are told. -/
theorem mem_splitCode {method : String} {code : Option Bytes} {attrs : List RawAttribute}
    {e : MethodEvent} (he : e ∈ (splitCode method code attrs).1) :
    ∃ a ∈ attrs, e = .attribute a := by
  induction attrs generalizing code with
  | nil => cases he
  | cons attr attrs ih =>
    have hlater {code : Option Bytes} (he : e ∈ (splitCode method code attrs).1) :
        ∃ a ∈ attr :: attrs, e = .attribute a := by
      obtain ⟨a, ha, rfl⟩ := ih he
      exact ⟨a, List.mem_cons_of_mem _ ha, rfl⟩
    unfold splitCode at he
    split at he
    · split at he
      · cases he
      · exact hlater he
    · rcases List.mem_cons.mp he with rfl | he
      · exact ⟨attr, List.mem_cons_self .., rfl⟩
      · exact hlater he

/-- **A method that cannot be decoded** delivers nothing of its body. -/
theorem attributes_of_failure (h : (m.decode pool).failure ≠ none) :
    ∀ e ∈ (m.decode pool).events, ∃ a ∈ m.attributes, e = .attribute a := by
  intro e he
  have hmem := @mem_splitCode m.name none m.attributes e
  unfold Member.decode at h he
  split at h
  · next hsplit =>
    simp only [hsplit] at he hmem
    exact hmem he
  · exact absurd rfl h
  · next hsplit =>
    simp only [hsplit] at he hmem
    split at h
    · next hparse =>
      simp only [hparse] at he
      exact hmem he
    · exact absurd rfl h

/-- **Decoding accounts for every byte of a `Code` attribute.** If a method with such an attribute
decodes, then the bytes of the attribute spell some contents: its limits, its code, its handlers,
the rows of its tables, and what is left over. Whatever contents they spell, the code, the
handlers and the local variables are delivered, each in one event, and so are the line numbers in
front of the end of the code and the stack map frames that no later one replaces; nothing is lost
exactly if a `Code` attribute is tidy. If the method does not decode, nothing of its body is
delivered. -/
theorem decode_accounts (pool : ConstantPool) (m : Member) (info : Bytes)
    (hinfo : ⟨"Code", info⟩ ∈ m.attributes) :
    ((m.decode pool).failure = none → ∃ t : Body.Contents, t.Spelled pool info) ∧
    (∀ t : Body.Contents, t.Spelled pool info → (m.decode pool).failure = none →
      t.Accounted pool info (m.decode pool).events ∧
      (t.Lossless (m.decode pool).events ↔ t.Tidy)) ∧
    ((m.decode pool).failure ≠ none →
      ∀ e ∈ (m.decode pool).events, ∃ a ∈ m.attributes, e = .attribute a) := by
  refine ⟨fun hdecode => ?_, fun t ht hdecode => ?_, attributes_of_failure⟩
  · obtain ⟨b, hparse, -⟩ := exists_body_of_code hdecode hinfo
    exact Body.Contents.exists_contents hparse
  · obtain ⟨b, hparse, hevents⟩ := exists_body_of_code hdecode hinfo
    have haccounted : t.Accounted pool info (m.decode pool).events :=
      hevents ▸ Body.Contents.accounted_of_spelled ht hparse
    exact ⟨haccounted, Body.Contents.lossless_iff haccounted⟩

/-! #### A method with one entry in each table, and one with a line number at the end of its code -/

/-- The names and texts that the tables need. -/
def namePool : ConstantPool where
  slots := #[none, some (.utf8 "LineNumberTable"), some (.utf8 "LocalVariableTable"),
    some (.utf8 "StackMapTable"), some (.utf8 "x"), some (.utf8 "I")]
  raw := []
  fingerprint := 0

/-- A method with some code. -/
def methodOf (code : Bytes) : Member where
  access := 0x0008
  name := "f"
  descriptor := "()V"
  raw := []
  attributes := [⟨"Code", code⟩]

/-- Three instructions, a handler, a line number, a local variable and a frame. -/
def tabledCode : Bytes :=
  [0, 1, 0, 1, 0, 0, 0, 3, 0x03, 0x57, 0xb1, 0, 1, 0, 0, 0, 2, 0, 2, 0, 0, 0, 3,
    0, 1, 0, 0, 0, 6, 0, 1, 0, 0, 0, 7,
    0, 2, 0, 0, 0, 12, 0, 1, 0, 0, 0, 3, 0, 4, 0, 5, 0, 0,
    0, 3, 0, 0, 0, 3, 0, 1, 2]

/-- What they spell. -/
def tabledContents : Body.Contents where
  maxStack := 1
  maxLocals := 1
  code := [0x03, 0x57, 0xb1]
  handlers := [⟨Body.labelAt 0, Body.labelAt 2, Body.labelAt 2, none⟩]
  tables := [
    ⟨.lines [(0, 7)], [0, 1, 0, 0, 0, 7], []⟩,
    ⟨.locals .descriptors [⟨.descriptors, "x", "I", Body.labelAt 0, Body.labelAt 3, 0⟩],
      [0, 1, 0, 0, 0, 3, 0, 4, 0, 5, 0, 0], []⟩,
    ⟨.frames [(2, .same)], [0, 1, 2], []⟩]
  rest := []

theorem counted_singleton {α : Type} {p : α → Bytes → Prop} {a : α} {bytes : Bytes}
    (h : p a bytes) : Bytes.Counted p [a] (0 :: 1 :: bytes) :=
  ⟨1, bytes, rfl, ⟨[bytes], by simp, .cons h .nil⟩, rfl⟩

theorem spelled_tabledContents : tabledContents.Spelled namePool tabledCode := by
  refine ⟨tabledCode, ⟨3, (tabledCode.drop 11).take 10, tabledCode.drop 21, rfl, by decide,
    by decide, counted_singleton ⟨0, 2, 2, 0, rfl, rfl, rfl, rfl, rfl⟩, ?_, ?_, by decide⟩,
    by decide⟩
  · intro table htable
    simp only [tabledContents, List.mem_cons, List.not_mem_nil, or_false] at htable
    rcases htable with rfl | rfl | rfl
    · exact ⟨[0, 1, 0, 0, 0, 7], counted_singleton ⟨0, rfl, by decide⟩, rfl⟩
    · exact ⟨[0, 1, 0, 0, 0, 3, 0, 4, 0, 5, 0, 0],
        counted_singleton ⟨0, 3, 4, 5, rfl, rfl, rfl, rfl, rfl, by decide⟩, rfl⟩
    · have hframe : Body.SpelledFrame namePool (2, .same) [2] :=
        @Body.SpelledFrame.same _ 2 (by decide)
      exact ⟨[0, 1, 2], ⟨1, [2], rfl, .frame hframe (by decide) .done, rfl⟩, rfl⟩
  · refine ⟨3, tabledCode.drop 23, rfl,
      ⟨[(tabledCode.drop 23).take 12, (tabledCode.drop 35).take 18, tabledCode.drop 53], by decide,
        ?_⟩,
      by decide⟩
    exact .cons ⟨by decide, 1, rfl, by decide⟩ (.cons ⟨by decide, 2, rfl, by decide⟩
      (.cons ⟨by decide, 3, rfl, by decide⟩ .nil))

/-- Nothing of the method with an entry in each table is lost. -/
theorem decode_accounts_tabled : ((methodOf tabledCode).decode namePool).failure = none ∧
    tabledContents.Spelled namePool tabledCode ∧
    tabledContents.Lossless ((methodOf tabledCode).decode namePool).events := by
  have hdecode : ((methodOf tabledCode).decode namePool).failure = none := by decide +kernel
  obtain ⟨-, haccounts, -⟩ :=
    decode_accounts namePool (methodOf tabledCode) tabledCode (List.mem_cons_self ..)
  obtain ⟨-, hlossless⟩ := haccounts tabledContents spelled_tabledContents hdecode
  refine ⟨hdecode, spelled_tabledContents, hlossless.mpr ⟨?_, ?_, rfl, ?_⟩⟩
  · decide
  · decide
  · decide

/-- A `return` and a line number behind it. -/
def endingCode : Bytes :=
  [0, 0, 0, 0, 0, 0, 0, 1, 0xb1, 0, 0, 0, 1, 0, 1, 0, 0, 0, 6, 0, 1, 0, 1, 0, 7]

/-- What they spell. -/
def endingContents : Body.Contents where
  maxStack := 0
  maxLocals := 0
  code := [0xb1]
  handlers := []
  tables := [⟨.lines [(1, 7)], [0, 1, 0, 1, 0, 7], []⟩]
  rest := []

/-- **A line number is lost**: the method decodes, but no event has the line at the end of its
code. -/
theorem decode_drops_line : ((methodOf endingCode).decode namePool).failure = none ∧
    endingContents.Spelled namePool endingCode ∧ endingContents.lines = [(1, 7)] ∧
    lines ((methodOf endingCode).decode namePool).events = [] ∧
    ¬ endingContents.Lossless ((methodOf endingCode).decode namePool).events := by
  have hlines : lines ((methodOf endingCode).decode namePool).events = [] := by decide +kernel
  refine ⟨by decide +kernel, ?_, rfl, hlines, fun h => ?_⟩
  · refine ⟨endingCode, ⟨1, [0, 0], endingCode.drop 11, rfl, by decide, by decide,
      ⟨0, [], rfl, ⟨[], rfl, .nil⟩, rfl⟩, ?_, ?_, by decide⟩, by decide⟩
    · intro table htable
      obtain rfl := List.mem_singleton.mp htable
      exact ⟨[0, 1, 0, 1, 0, 7], counted_singleton ⟨1, rfl, by decide⟩, rfl⟩
    · exact counted_singleton ⟨by decide, 1, rfl, by decide⟩
  · have hperm := h.delivers.lines
    rw [hlines] at hperm
    exact absurd hperm.length_eq (by decide)

end RoundingPatch.ClassFile
