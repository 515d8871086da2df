import RoundingPatch.Proofs.ClassFile.Code.Events
import RoundingPatch.Proofs.ClassFile.Method.Outline
/-!
# Methods that were decoded

Decoding a method yields its attributes and the events of its body (`exists_body_of_decode`). Such a
method is in the form in which methods are decoded (`readable_source`), and the pool it was decoded
with has the names it needs (`within_source`).
-/

namespace RoundingPatch.ClassFile

open MethodEvent Body

variable {pool : ConstantPool} {m : Member} {attrs : List RawAttribute}

/-- A transcript is replayed if it is whole and every step goes well. -/
theorem Transcript.replay_eq_ok {σ : Type} {step : σ → MethodEvent → Except Fault σ}
    {start answer : σ} {t : Transcript} : t.replay step start = .ok answer ↔
      t.failure = none ∧ t.events.foldlM step start = .ok answer := by
  rw [replay, except_bind_eq_ok]
  rcases t.failure with _ | fault
  · simp [pure, Except.pure]
  · simp

/-! ### Attributes and code -/

/-- The attributes that become events. -/
def RawAttribute.others (attrs : List RawAttribute) : List RawAttribute :=
  attrs.filter (·.name ≠ "Code")

/-- Attributes without the code are told as they are, and the code is found if there is one. -/
theorem splitCode_eq_ok {method : String} {code answer : Option Bytes}
    {events : List MethodEvent} (h : splitCode method code attrs = (events, .ok answer)) :
    events = (RawAttribute.others attrs).map .attribute ∧
      (answer = code ∧ (∀ a ∈ attrs, a.name ≠ "Code") ∨
        code = none ∧ ∃ info, answer = some info ∧ ⟨"Code", info⟩ ∈ attrs) := by
  induction attrs generalizing code events with
  | nil =>
    cases h
    exact ⟨rfl, .inl ⟨rfl, by simp⟩⟩
  | cons a attrs ih =>
    unfold splitCode at h
    -- A second `Code` attribute is refused, so at most one of the two sources gives the answer.
    by_cases hcode : a.name = "Code"
    · rw [if_pos hcode] at h
      by_cases hsome : code.isSome = true
      · rw [if_pos hsome] at h
        cases h
      · rw [if_neg hsome] at h
        have hnone : code = none := by simpa using hsome
        obtain ⟨rfl, hanswer⟩ := ih h
        refine ⟨?_, .inr ⟨hnone, ?_⟩⟩
        · simp [RawAttribute.others, hcode]
        · rcases hanswer with ⟨rfl, _⟩ | ⟨h, _⟩
          · exact ⟨a.info, rfl, by simp [← hcode]⟩
          · cases h
    · rw [if_neg hcode] at h
      rcases hrest : splitCode method code attrs with ⟨rest, found⟩
      rw [hrest] at h
      obtain ⟨rfl, rfl⟩ := Prod.mk.injEq .. |>.mp h
      obtain ⟨rfl, hanswer⟩ := ih hrest
      refine ⟨by simp [RawAttribute.others, hcode], ?_⟩
      rcases hanswer with ⟨rfl, hall⟩ | ⟨hnone, info, rfl, hmem⟩
      · exact .inl ⟨rfl, List.forall_mem_cons.mpr ⟨hcode, hall⟩⟩
      · exact .inr ⟨hnone, info, rfl, List.mem_cons_of_mem a hmem⟩

theorem splitCode_of_ne {method : String} {code : Option Bytes}
    (h : ∀ a ∈ attrs, a.name ≠ "Code") :
    splitCode method code attrs = (attrs.map .attribute, .ok code) := by
  induction attrs with
  | nil => rfl
  | cons a attrs ih =>
    rw [List.forall_mem_cons] at h
    unfold splitCode
    rw [if_neg h.1, ih h.2]
    rfl

theorem splitCode_cons_code {method : String} {info : Bytes} (h : ∀ a ∈ attrs, a.name ≠ "Code") :
    splitCode method none (⟨"Code", info⟩ :: attrs) = (attrs.map .attribute, .ok (some info)) :=
  splitCode_of_ne h

/-- The body of a method, if it has one. -/
def Member.body (pool : ConstantPool) (m : Member) : Except Fault (Option Body) :=
  match (splitCode m.name none m.attributes).2 with
  | .ok none => .ok none
  | .ok (some info) => (Body.parse pool info).map some
  | .error fault => .error fault

/-- **What a method decodes to**: its attributes and the events of its body, if it has one. -/
theorem exists_body_of_decode (h : (m.decode pool).failure = none) :
    ∃ body, m.body pool = .ok body ∧
      (m.decode pool).events = eventsOf (RawAttribute.others m.attributes) body ∧
      ∀ b ∈ body, ∃ info, ⟨"Code", info⟩ ∈ m.attributes ∧ Body.parse pool info = .ok b := by
  rcases hsplit : splitCode m.name none m.attributes with ⟨events, _ | _ | info⟩
  · simp only [Member.decode, hsplit] at h
    cases h
  · obtain ⟨rfl, _⟩ := splitCode_eq_ok hsplit
    refine ⟨none, by simp only [Member.body, hsplit], ?_, by simp⟩
    simp only [Member.decode, hsplit, eventsOf, Option.elim_none, List.append_nil]
  · -- There is one body, and it is the one that was parsed.
    obtain ⟨rfl, hinfo⟩ := splitCode_eq_ok hsplit
    have hmem : ⟨"Code", info⟩ ∈ m.attributes := by
      rcases hinfo with ⟨h, _⟩ | ⟨_, _, h, hmem⟩
      · cases h
      · cases h
        exact hmem
    rcases hparse : Body.parse pool info with fault | body
    · simp only [Member.decode, hsplit, hparse] at h
      cases h
    · refine ⟨some body, ?_, ?_, ?_⟩
      · simp only [Member.body, hsplit, hparse, Except.map]
      · simp only [Member.decode, hsplit, hparse]
        rfl
      · rintro _ ⟨rfl⟩
        exact ⟨info, hmem, hparse⟩

/-- A method that is decoded has the events of its body, if it has one. -/
theorem decode_eq_eventsOf (h : (m.decode pool).failure = none) :
    ∃ body : Option Body, (m.decode pool).events
        = eventsOf (RawAttribute.others m.attributes) body ∧
      ∀ b ∈ body, ∃ info, ⟨"Code", info⟩ ∈ m.attributes ∧ Body.parse pool info = .ok b := by
  obtain ⟨body, -, hbody⟩ := exists_body_of_decode h
  exact ⟨body, hbody⟩

/-! ### Methods without code -/

theorem isTable_eventsOf_none : ∀ e ∈ eventsOf attrs none, e.isTable = true := by
  unfold eventsOf
  intro e he
  simp only [Option.elim_none, List.append_nil, List.mem_append, List.mem_map,
    List.mem_singleton] at he
  rcases he with ⟨a, _, rfl⟩ | rfl <;> rfl

theorem mem_eventsOf_none {e : MethodEvent} (he : e ∈ eventsOf attrs none) :
    (∃ a, e = .attribute a) ∨ e = .done := by
  unfold eventsOf at he
  simp only [Option.elim_none, List.append_nil, List.mem_append, List.mem_map,
    List.mem_singleton] at he
  rcases he with ⟨a, _, rfl⟩ | rfl
  · exact .inl ⟨a, rfl⟩
  · exact .inr rfl

/-- A method that has nothing but attributes has no rows in any table. -/
theorem filterMap_of_bodiless {α : Type} {events : List MethodEvent} {f : MethodEvent → Option α}
    (h : ∀ e ∈ events, (∃ a, e = .attribute a) ∨ e = .done)
    (hf : ∀ a, f (.attribute a) = none) (hdone : f .done = none) : events.filterMap f = [] := by
  rw [List.filterMap_eq_nil_iff]
  intro e he
  rcases h e he with ⟨a, rfl⟩ | rfl
  · exact hf a
  · exact hdone

/-! ### Decoded methods are readable -/

section Grounded

variable {b : Body} (h : b.Grounded pool)
include h

/-- A label inside the code stands before an instruction. -/
theorem exists_position_of_lt {offset : Nat} (hoffset : offset ∈ b.references)
    (hlt : offset < b.length) :
    ∃ n < (MethodEvent.insns (eventsOf attrs (some b))).length,
      position (labelAt offset) (eventsOf attrs (some b)) = some n := by
  refine ⟨b.indexOf offset, ?_, position_eventsOf h hoffset⟩
  rw [insns_eventsOf, List.length_map, ← @List.length_map _ _ b.insns (·.1)]
  exact List.idxOf_lt_length_of_mem (mem_offsets_of_lt h hoffset hlt)

omit h in
theorem mem_references_of_target {p : Nat × Insn} (hp : p ∈ b.insns) {l : Label}
    (hl : l ∈ p.2.targets) : l.id.toNat ∈ b.references := by
  unfold references
  simp only [List.mem_append, List.mem_flatMap]
  exact .inl (.inl (.inl (.inl ⟨p, hp, List.mem_map_of_mem hl⟩)))

omit h in
theorem mem_references_of_handler {row : TryCatch} (hrow : row ∈ b.handlers)
    {l : Label} (hl : l ∈ row.labels) : l.id.toNat ∈ b.references := by
  unfold Body.references
  simp only [List.mem_append, List.mem_flatMap]
  exact .inl (.inl (.inl (.inr ⟨row, hrow, List.mem_map_of_mem (f := (·.id.toNat)) hl⟩)))

omit h in
theorem mem_references_of_local {v : LocalVariable} (hv : v ∈ b.locals) {l : Label}
    (hl : l ∈ v.labels) : l.id.toNat ∈ b.references := by
  unfold Body.references
  simp only [List.mem_append, List.mem_flatMap]
  exact .inl (.inr ⟨v, hv, List.mem_map_of_mem (f := (·.id.toNat)) hl⟩)

omit h in
theorem mem_references_of_frame {p : Nat × Frame} (hp : p ∈ b.frames) {l : Label}
    (hl : l ∈ p.2.labels) : l.id.toNat ∈ b.references := by
  unfold Body.references
  simp only [List.mem_append, List.mem_flatMap]
  rw [← Frame.frameLabels_eq] at hl
  exact .inr ⟨p, hp, List.mem_cons_of_mem _ (List.mem_map_of_mem (f := (·.id.toNat)) hl)⟩

/-- The events of a body are in the form in which methods are decoded. -/
theorem readable_eventsOf (access : Access) (name descriptor : String) :
    MethodSource.Readable pool
      ⟨access, name, descriptor, eventsOf (RawAttribute.others attrs) (some b)⟩ where
  bodied hlimits := by
    rw [MethodSource.limits_eq, limits_eventsOf] at hlimits
    cases hlimits
  insns i hi := by
    rw [insns_eventsOf] at hi
    obtain ⟨p, hp, rfl⟩ := List.mem_map.mp hi
    exact (h.code.each p hp).readable
  targets i hi l hl := by
    dsimp only at hi ⊢
    rw [insns_eventsOf] at hi
    obtain ⟨p, hp, rfl⟩ := List.mem_map.mp hi
    have hmem := mem_references_of_target hp hl
    obtain ⟨t, ht, rfl⟩ := (h.code.each p hp).inside l hl
    have hlength := h.length_le
    rw [toNat_labelAt (by omega)] at hmem
    exact exists_position_of_lt h hmem ht
  frames p hp := by
    dsimp only at hp ⊢
    rw [framesFrom_eventsOf] at hp
    obtain ⟨q, hq, hp⟩ := List.mem_flatMap.mp hp
    obtain ⟨f, _, rfl⟩ := List.mem_map.mp hp
    rw [insns_eventsOf, List.length_map]
    have := List.mem_zipIdx hq
    omega
  lines l hl := by
    rw [MethodSource.lines_eq] at hl
    obtain ⟨offset, hoffset, hline, heq⟩ := exists_line_of_mem hl
    rw [heq]
    exact exists_position_of_lt h (mem_references_of_line hline) (h.inside offset hoffset)
  linesSorted := by
    -- A line has the position of the instruction whose offset it names.
    have hposition (k : Nat) (hk : k < b.insns.length) (x : UInt16 × Label)
        (hx : x ∈ (b.lines.filter (·.1 == b.insns[k].1)).map fun l => (l.2, labelAt b.insns[k].1)) :
        position x.2 (eventsOf (RawAttribute.others attrs) (some b)) = some k := by
      obtain ⟨row, hrow, rfl⟩ := List.mem_map.mp hx
      obtain ⟨hrow, hkey⟩ := List.mem_filter.mp hrow
      have hmem := mem_references_of_line hrow
      rw [show row.1 = b.insns[k].1 by simpa using hkey] at hmem
      rw [position_eventsOf h hmem, indexOf_of_getElem? h (List.getElem?_eq_getElem hk)]
    rw [MethodSource.lines_eq]
    dsimp only
    rw [lines_eventsOf, List.pairwise_flatMap]
    -- Lines of one instruction share a position; those of a later one come later.
    refine ⟨fun p hp => ?_, ?_⟩
    · refine List.pairwise_map.mpr (List.pairwise_of_forall fun a b s t hs ht => ?_)
      rw [hs] at ht
      cases ht
      exact Nat.le_refl _
    · rw [List.pairwise_iff_getElem]
      intro i j hi hj hij x hx y hy s t hs ht
      have hs' := hposition i hi x hx
      have ht' := hposition j hj y hy
      rw [hs] at hs'
      rw [ht] at ht'
      cases hs'
      cases ht'
      exact Nat.le_of_lt hij
  attributes a ha := by
    rw [MethodSource.attributes_eq] at ha
    dsimp only at ha
    rw [attributes_eventsOf] at ha
    simpa using (List.mem_filter.mp ha).2

end Grounded

/-- **A method that was decoded** is in the form in which methods are decoded. -/
theorem readable_source (h : (m.decode pool).failure = none) : (m.source pool).Readable pool := by
  obtain ⟨body, hevents, hbody⟩ := decode_eq_eventsOf h
  unfold Member.source
  rw [hevents]
  rcases body with _ | b
  · -- Without a body every list of events but that of the attributes is empty.
    have hnil {α : Type} {f : MethodEvent → Option α} (hf : ∀ a, f (.attribute a) = none)
        (hdone : f .done = none) :
        (eventsOf (RawAttribute.others m.attributes) none).filterMap f = [] :=
      filterMap_of_bodiless (fun e he => mem_eventsOf_none he) hf hdone
    have hinsns : MethodEvent.insns (eventsOf (RawAttribute.others m.attributes) none) = [] :=
      insns_of_isTable isTable_eventsOf_none
    have hlines : MethodEvent.lines (eventsOf (RawAttribute.others m.attributes) none) = [] :=
      hnil (fun _ => rfl) rfl
    refine ⟨⟨?_, ?_, ?_⟩, fun _ e he => mem_eventsOf_none he, ?_, ?_, ?_⟩
    · simp [hinsns]
    · simp [framesFrom_of_isTable isTable_eventsOf_none]
    · simp [MethodSource.lines_eq, hlines]
    · simp [hinsns]
    · simp [MethodSource.lines_eq, hlines]
    · intro a ha
      rw [MethodSource.attributes_eq] at ha
      dsimp only at ha
      rw [attributes_eventsOf] at ha
      simpa using (List.mem_filter.mp ha).2
  · obtain ⟨info, _, hparse⟩ := hbody b rfl
    exact readable_eventsOf (grounded_of_parse hparse) _ _ _

/-- **Every label of a decoded body is bound** by one of its events. -/
theorem closed_eventsOf {b : Body} (h : b.Grounded pool) (access : Access)
    (name descriptor : String) :
    MethodSource.Closed ⟨access, name, descriptor, eventsOf attrs (some b)⟩ := by
  -- A label of an offset that the body refers to is bound.
  have hbinds {l : Label} (hoffset : IsOffset l) (hmem : l.id.toNat ∈ b.references) :
      Binds (eventsOf attrs (some b)) l := by
    rw [← labelAt_toNat hoffset]
    exact ⟨_, position_eventsOf h hmem⟩
  refine ⟨fun i hi l hl => ?_, fun row hrow l hl => ?_, fun row hrow => ?_,
    fun table v hv l hl => ?_, fun p hp l hl => ?_⟩
  · rw [insns_eventsOf] at hi
    obtain ⟨p, hp, rfl⟩ := List.mem_map.mp hi
    have hmem := mem_references_of_target hp hl
    obtain ⟨t, ht, rfl⟩ := (h.code.each p hp).inside l hl
    have hlength := h.length_le
    exact hbinds ⟨t, by omega, rfl⟩ hmem
  · rw [MethodSource.handlers_eq, handlers_eventsOf] at hrow
    exact hbinds ((h.handlers row hrow).1 l hl) (mem_references_of_handler hrow hl)
  · rw [MethodSource.lines_eq] at hrow
    obtain ⟨offset, -, hline, heq⟩ := exists_line_of_mem hrow
    rw [heq]
    exact ⟨_, position_eventsOf h (mem_references_of_line hline)⟩
  · rw [MethodSource.localsIn_eq, localsIn_eventsOf] at hv
    have hv := List.mem_of_mem_filter hv
    exact hbinds ((h.locals v hv).1 l hl) (mem_references_of_local hv hl)
  · obtain ⟨offset, hmem⟩ := exists_frame_of_mem hp
    obtain ⟨v, hv, hlv⟩ := List.mem_flatMap.mp hl
    exact hbinds (((h.frames _ hmem).2.types v hv).1 l hlv) (mem_references_of_frame hmem hl)

/-- Every label that a decoded method mentions stands in its code. -/
theorem closed_source (h : (m.decode pool).failure = none) : (m.source pool).Closed := by
  obtain ⟨body, hevents, hbody⟩ := decode_eq_eventsOf h
  unfold Member.source
  rw [hevents]
  rcases body with _ | b
  · -- Without a body there are only attributes.
    have hbodiless (e : MethodEvent) := @mem_eventsOf_none (RawAttribute.others m.attributes) e
    refine ⟨?_, ?_, ?_, ?_, ?_⟩
    · rw [insns_of_isTable isTable_eventsOf_none]
      simp
    · rw [MethodSource.handlers_eq, MethodEvent.handlers,
        filterMap_of_bodiless hbodiless (fun _ => rfl) rfl]
      simp
    · rw [MethodSource.lines_eq, MethodEvent.lines,
        filterMap_of_bodiless hbodiless (fun _ => rfl) rfl]
      simp
    · intro table
      rw [MethodSource.localsIn_eq, localsIn, filterMap_of_bodiless hbodiless (fun _ => rfl) rfl]
      simp
    · rw [framesFrom_of_isTable isTable_eventsOf_none]
      simp
  · obtain ⟨info, _, hparse⟩ := hbody b rfl
    exact closed_eventsOf (grounded_of_parse hparse) ..

/-- No label of a decoded method is bound twice. -/
theorem nodup_labels_source (h : (m.decode pool).failure = none) :
    (labels (m.source pool).events).Nodup := by
  obtain ⟨body, hevents, hbody⟩ := decode_eq_eventsOf h
  unfold Member.source
  rw [hevents]
  rcases body with _ | b
  · rw [labels_of_isTable isTable_eventsOf_none]
    exact List.nodup_nil
  · obtain ⟨info, _, hparse⟩ := hbody b rfl
    exact nodup_labels_eventsOf (grounded_of_parse hparse)

/-! ### The pool has what decoded methods need -/

/-- The pool has the names in a member. -/
structure Member.Named (pool : ConstantPool) (m : Member) : Prop where
  name : pool.Has (.utf8 m.name)
  descriptor : pool.Has (.utf8 m.descriptor)
  attributes : ∀ a ∈ m.attributes, pool.Has (.utf8 a.name)

theorem ConstantPool.Supplies.utf8 {text : String} (h : pool.Supplies (.utf8 text)) :
    pool.Has (.utf8 text) :=
  h _ (Symbol.mem_parts _)

theorem within_eventsOf_none {access : Access} {name descriptor : String}
    (hname : pool.Has (.utf8 name)) (hdescriptor : pool.Has (.utf8 descriptor))
    (hattrs : ∀ a ∈ attrs, pool.Has (.utf8 a.name)) :
    MethodSource.Within pool.Has ⟨access, name, descriptor, eventsOf attrs none⟩ := by
  -- Neither an attribute nor the end is an event of a table.
  have hnil {α : Type} {f : MethodEvent → Option α} (hf : ∀ a, f (.attribute a) = none)
      (hdone : f .done = none) : (eventsOf attrs none).filterMap f = [] :=
    filterMap_of_bodiless (fun e he => mem_eventsOf_none he) hf hdone
  have hlimits : MethodEvent.limits (eventsOf attrs none) = none := by
    refine limits_eq_none fun e he found => ?_
    rcases mem_eventsOf_none he with ⟨a, rfl⟩ | rfl <;> rfl
  have hinsns : MethodEvent.insns (eventsOf attrs none) = [] :=
    insns_of_isTable isTable_eventsOf_none
  have hframes : framesFrom 0 (eventsOf attrs none) = [] :=
    framesFrom_of_isTable isTable_eventsOf_none
  have hhandlers : MethodEvent.handlers (eventsOf attrs none) = [] := hnil (fun _ => rfl) rfl
  have hlines : MethodEvent.lines (eventsOf attrs none) = [] := hnil (fun _ => rfl) rfl
  have hlocals (table : LocalTable) : MethodEvent.localsIn table (eventsOf attrs none) = [] :=
    hnil (fun _ => rfl) rfl
  refine ⟨hname, hdescriptor, ?_, ?_, ?_, ?_, ?_, ?_, ?_, ?_⟩
  · rwa [MethodSource.attributes_eq, attributes_eventsOf]
  · simp [MethodSource.limits_eq, hlimits]
  · simp [hinsns]
  · simp [MethodSource.handlers_eq, hhandlers]
  · simp [MethodSource.lines_eq, hlines]
  · simp [MethodSource.localsIn_eq, hlocals]
  · simp [hframes]
  · simp [hframes]

/-- The entries of a decoded body are in its pool. -/
theorem within_eventsOf {b : Body} (h : b.Grounded pool) {access : Access}
    {name descriptor : String} (hname : pool.Has (.utf8 name))
    (hdescriptor : pool.Has (.utf8 descriptor)) (hattrs : ∀ a ∈ attrs, pool.Has (.utf8 a.name))
    (hcode : pool.Has (.utf8 "Code")) :
    MethodSource.Within pool.Has ⟨access, name, descriptor, eventsOf attrs (some b)⟩ where
  name := hname
  descriptor := hdescriptor
  attributes := by rwa [MethodSource.attributes_eq, attributes_eventsOf]
  code _ := hcode
  insns i hi s hs := by
    rw [insns_eventsOf] at hi
    obtain ⟨p, hp, rfl⟩ := List.mem_map.mp hi
    exact (h.code.each p hp).supplied s hs
  handlers := by
    rw [MethodSource.handlers_eq, handlers_eventsOf]
    exact fun handler hhandler => (h.handlers handler hhandler).2
  lines hne := by
    rw [MethodSource.lines_eq, lines_eventsOf] at hne
    refine (h.lines fun hnil => hne ?_).utf8
    simp [hnil]
  locals table v hv := by
    rw [MethodSource.localsIn_eq, localsIn_eventsOf] at hv
    obtain ⟨hv, htable⟩ := List.mem_filter.mp hv
    have htable : v.table = table := by simpa using htable
    obtain ⟨_, hn, hd, ht⟩ := h.locals v hv
    rw [htable] at ht
    exact ⟨hn.utf8, hd.utf8, ht.utf8⟩
  frames p hp v hv name hname := by
    obtain ⟨offset, hmem⟩ := exists_frame_of_mem hp
    exact ((h.frames _ hmem).2.types v hv).2 name hname
  stackMap hne := by
    refine (h.stackMap fun hnil => hne ?_).utf8
    rw [framesFrom_eventsOf, List.flatMap_eq_nil_iff]
    intro q _
    rcases hf : b.framesByOffset[q.1.1]? with _ | f
    · rfl
    · have hmem := mem_frames_of_getElem? hf
      rw [hnil] at hmem
      cases hmem

/-- **The pool has what a decoded method needs.** -/
theorem within_source (h : (m.decode pool).failure = none) (hnamed : m.Named pool) :
    (m.source pool).Within pool.Has := by
  obtain ⟨body, hevents, hbody⟩ := decode_eq_eventsOf h
  have hattrs : ∀ a ∈ RawAttribute.others m.attributes, pool.Has (.utf8 a.name) := fun a ha =>
    hnamed.attributes a (List.mem_filter.mp ha).1
  unfold Member.source
  rw [hevents]
  rcases body with _ | b
  · exact within_eventsOf_none hnamed.name hnamed.descriptor hattrs
  · obtain ⟨info, hmem, hparse⟩ := hbody b rfl
    exact within_eventsOf (grounded_of_parse hparse) hnamed.name hnamed.descriptor hattrs
      (hnamed.attributes _ hmem)

end RoundingPatch.ClassFile
