import RoundingPatch.Proofs.ClassFile.Members
import RoundingPatch.Proofs.ClassFile.Method.Normal
/-!
# Finished methods read back

The bytes of a method that was finished are read as a member, and this member decodes to a method
with the same outline (`read_finish`). In between stands the body `layout.body m limits`, as which
the bytes of the `Code` attribute are parsed (`reads_body`).
-/

namespace RoundingPatch.ClassFile

open Read MethodEvent

variable {m : MethodSource} {b c : PoolBuilder} {bytes : Bytes} {pool : ConstantPool}
  {layout : Layout} {limits : UInt16 × UInt16} {l : Label}

/-! ### Offsets of instructions -/

namespace Placed

variable {placed : Placed} (h : placed.Contiguous 0)
include h

theorem ascending : (placed.map (·.1)).Pairwise (· < ·) := by
  rw [List.pairwise_iff_getElem]
  intro i j hi hj hij
  rw [List.length_map] at hi hj
  rw [List.getElem_map, List.getElem_map, ← @offsetAt_eq 0 _ _ hi, ← @offsetAt_eq 0 _ _ hj]
  exact offsetAt_lt h hij hi

omit h in
/-- Every offset is that of an instruction or the end of the code. -/
theorem offsetAt_boundary (n : Nat) :
    placed.offsetAt 0 n ∈ placed.map (·.1) ∨ placed.offsetAt 0 n = placed.stop 0 := by
  by_cases hn : n < placed.length
  · rw [offsetAt_eq hn]
    exact .inl (List.mem_map_of_mem (List.getElem_mem hn))
  · exact .inr (offsetAt_of_length_le (Nat.le_of_not_lt hn))

/-- The offset of an instruction tells its number. -/
theorem idxOf_offsetAt {n : Nat} (hn : n ≤ placed.length) :
    (placed.map (·.1)).idxOf (placed.offsetAt 0 n) = n := by
  rcases Nat.lt_or_eq_of_le hn with hlt | rfl
  · have hnodup : (placed.map (·.1)).Nodup := (ascending h).imp Nat.ne_of_lt
    have hidx := hnodup.idxOf_getElem n (by rwa [List.length_map])
    rwa [List.getElem_map, ← @offsetAt_eq 0 _ _ hlt] at hidx
  · rw [List.idxOf_eq_length, List.length_map]
    intro hmem
    obtain ⟨k, hk, heq⟩ := List.getElem_of_mem hmem
    rw [List.length_map] at hk
    rw [List.getElem_map, ← @offsetAt_eq 0 _ _ hk] at heq
    exact Nat.ne_of_lt (offsetAt_lt h hk hk) heq

end Placed

/-! ### The body behind a layout -/

theorem map_fst_rows {offsets : Offsets} {placed : Placed} {insns : List Insn}
    (h : placed.length = insns.length) :
    (rows offsets placed insns).map (·.1) = placed.map (·.1) := by
  induction placed generalizing insns with
  | nil => rfl
  | cons p placed ih =>
    rcases insns with _ | ⟨i, insns⟩
    · cases h
    · exact congrArg (List.cons p.1) (ih (Nat.succ.inj h))

theorem map_snd_rows {offsets : Offsets} {placed : Placed} {insns : List Insn}
    (h : placed.length = insns.length) :
    (rows offsets placed insns).map (·.2) = insns.map (·.mapLabels (labelIn offsets)) := by
  induction placed generalizing insns with
  | nil =>
    rcases insns with _ | ⟨i, insns⟩
    · rfl
    · cases h
  | cons p placed ih =>
    rcases insns with _ | ⟨i, insns⟩
    · cases h
    · exact congrArg (List.cons _) (ih (Nat.succ.inj h))

namespace Layout

/-- The body that is written from a layout, without its tables. -/
def bare (layout : Layout) (m : MethodSource) (limits : UInt16 × UInt16) : Body where
  maxStack := limits.1
  maxLocals := limits.2
  length := layout.size
  insns := rows layout.offsets layout.placedList (insns m.events)
  handlers := m.handlers.map (·.mapLabels layout.relabel)

/-- The body that is written from a layout. -/
def body (layout : Layout) (m : MethodSource) (limits : UInt16 × UInt16) : Body :=
  layout.fill m (layout.bare m limits)

/-- A layout whose code can be written with all its tables. -/
structure Written (layout : Layout) (m : MethodSource) : Prop
    extends Places layout m, Binds layout m where
  size_le : layout.size ≤ 65535
  size_ne : layout.size ≠ 0

variable (h : layout.Written m)
include h

/-- A label that is bound becomes the label of the offset of the instruction behind it. -/
theorem Written.relabel_eq (hl : layout.Bound l) : ∃ n, position l m.events = some n ∧
    n ≤ layout.placedList.length ∧ layout.placedList.offsetAt 0 n ≤ 65535 ∧
      layout.offsetOf l = layout.placedList.offsetAt 0 n ∧
      layout.relabel l = Body.labelAt (layout.placedList.offsetAt 0 n) := by
  obtain ⟨t, ht⟩ := hl
  obtain ⟨n, hn, rfl, hle⟩ := h.position_of_offset ht
  exact ⟨n, hn, hle, h.fits h.size_le _ _ ht, offsetOf_eq ht, labelIn_eq ht⟩

omit h in
theorem Written.normal (h : layout.Written m) : layout.Written m.normal where
  toPlaces := h.toPlaces.normal
  toBinds := h.toBinds.normal
  size_le := h.size_le
  size_ne := h.size_ne

theorem Written.offsetOf_boundary (hl : layout.Bound l) :
    layout.offsetOf l ∈ layout.placedList.map (·.1) ∨ layout.offsetOf l = layout.size := by
  obtain ⟨n, _, _, _, heq, _⟩ := h.relabel_eq hl
  rw [heq, h.size_eq]
  exact Placed.offsetAt_boundary n

theorem Written.toNat_relabel (hl : layout.Bound l) :
    (layout.relabel l).id.toNat = layout.offsetOf l := by
  obtain ⟨n, _, _, hle, heq, hrelabel⟩ := h.relabel_eq hl
  rw [hrelabel, heq, Body.toNat_labelAt (by omega)]

theorem Written.offsets_body :
    (layout.body m limits).insns.map (·.1) = layout.placedList.map (·.1) :=
  map_fst_rows h.length_eq

theorem Written.insns_body : (layout.body m limits).insns.map (·.2)
    = (insns m.events).map (·.mapLabels layout.relabel) :=
  map_snd_rows h.length_eq

theorem Written.bound_target (hm : m.Anchored) {i : Insn} (hi : i ∈ insns m.events)
    (hl : l ∈ i.targets) : layout.Bound l := by
  obtain ⟨n, _, hn⟩ := hm.targets i hi l hl
  exact ⟨_, h.offset_of_position hn⟩

/-- **Every offset in the body is a boundary**, since it is the offset of a position. -/
theorem Written.bounded_body (hm : m.Anchored) : (layout.body m limits).Bounded := by
  have hlabel {l : Label} (hl : layout.Bound l) :
      (layout.relabel l).id.toNat ∈ layout.placedList.map (·.1) ∨
        (layout.relabel l).id.toNat = layout.size := by
    rw [h.toNat_relabel hl]
    exact h.offsetOf_boundary hl
  intro r hr
  rw [h.offsets_body]
  show _ ∨ r = layout.size
  unfold Body.references at hr
  simp only [List.mem_append] at hr
  -- The references are those of the instructions, the handlers, the lines, the variables and the
  -- frames.
  rcases hr with (((hr | hr) | hr) | hr) | hr
  · obtain ⟨p, hp, hr⟩ := List.mem_flatMap.mp hr
    obtain ⟨target, htarget, rfl⟩ := List.mem_map.mp hr
    have hmem : p.2 ∈ (layout.body m limits).insns.map (·.2) := List.mem_map_of_mem hp
    rw [h.insns_body] at hmem
    obtain ⟨i, hi, heq⟩ := List.mem_map.mp hmem
    rw [← heq, Insn.targets_mapLabels] at htarget
    obtain ⟨l, hl, rfl⟩ := List.mem_map.mp htarget
    exact hlabel (h.bound_target hm hi hl)
  · obtain ⟨handler', hrow, hr⟩ := List.mem_flatMap.mp hr
    obtain ⟨handler, hhandler, rfl⟩ := List.mem_map.mp hrow
    have hlabels := h.handlers handler hhandler
    simp only [TryCatch.labels, List.mem_cons, List.not_mem_nil, or_false, forall_eq_or_imp,
      forall_eq] at hlabels
    simp only [TryCatch.mapLabels, Body.references.offsetOf, List.mem_cons, List.not_mem_nil,
      or_false] at hr
    rcases hr with rfl | rfl | rfl
    · exact hlabel hlabels.1
    · exact hlabel hlabels.2.1
    · exact hlabel hlabels.2.2
  · obtain ⟨row, hrow, rfl⟩ := List.mem_map.mp hr
    obtain ⟨line, hline, rfl⟩ := List.mem_map.mp hrow
    exact h.offsetOf_boundary (h.lines line hline)
  · obtain ⟨v', hrow, hr⟩ := List.mem_flatMap.mp hr
    -- The two tables of variables are read the same way.
    have hsource : ∃ table, ∃ v ∈ m.localsIn table, v' = v.mapLabels layout.relabel := by
      rcases List.mem_append.mp hrow with hrow | hrow
      · obtain ⟨v, hv, rfl⟩ := List.mem_map.mp hrow
        exact ⟨.descriptors, v, hv, rfl⟩
      · obtain ⟨v, hv, rfl⟩ := List.mem_map.mp hrow
        exact ⟨.signatures, v, hv, rfl⟩
    obtain ⟨table, v, hv, rfl⟩ := hsource
    have hlabels := h.locals table v hv
    simp only [LocalVariable.labels, List.mem_cons, List.not_mem_nil, or_false, forall_eq_or_imp,
      forall_eq] at hlabels
    simp only [LocalVariable.mapLabels, Body.references.offsetOf, List.mem_cons, List.not_mem_nil,
      or_false] at hr
    rcases hr with rfl | rfl
    · exact hlabel hlabels.1
    · exact hlabel hlabels.2
  · obtain ⟨p', hrow, hr⟩ := List.mem_flatMap.mp hr
    obtain ⟨p, hp, rfl⟩ := List.mem_map.mp hrow
    rcases List.mem_cons.mp hr with rfl | hr
    · rw [h.frames_eq] at hp
      obtain ⟨q, _, rfl⟩ := List.mem_map.mp hp
      rw [h.size_eq]
      exact Placed.offsetAt_boundary q.1
    · obtain ⟨target, htarget, rfl⟩ := List.mem_map.mp hr
      rw [Frame.frameLabels_eq, Frame.labels_mapLabels] at htarget
      obtain ⟨l, hl, rfl⟩ := List.mem_map.mp htarget
      exact hlabel (h.frames p hp l hl)

/-- Branches lead into the code. -/
theorem Written.targets_inside (hm : m.Anchored) :
    ∀ i ∈ insns m.events, ∀ l ∈ i.targets, Inside layout.offsets layout.size l := by
  intro i hi l hl
  obtain ⟨n, hlt, hn⟩ := hm.targets i hi l hl
  exact h.inside hn hlt

/-- Frames stand before the end of the code. -/
theorem Written.frames_inside (hm : m.Anchored) :
    ∀ p ∈ layout.frames.toList, p.1 < layout.size := by
  intro p hp
  rw [h.frames_eq] at hp
  obtain ⟨q, hq, rfl⟩ := List.mem_map.mp hp
  rw [h.size_eq]
  exact Placed.offsetAt_lt_stop h.contiguous (h.length_eq ▸ hm.frames q hq)

variable {d : PoolBuilder} {code : Bytes}

/-- **The `Code` attribute reads back** as the body behind the layout, if its code array reads back.
-/
theorem Written.reads_body (hm : m.Anchored) (hsize : layout.size = code.length)
    (hinsns : Body.decodeInsns pool code
      = .ok (rows layout.offsets layout.placedList (insns m.events)))
    (hy : Yields (layout.codeAttribute m limits code) c bytes d) (hmeans : d.Means pool)
    (hzero : ∀ e, pool.get 0 ≠ .ok e) :
    ∃ info, Reads (readAttribute pool) bytes ⟨"Code", info⟩ ∧
      Body.parse pool info = .ok (layout.body m limits) := by
  have hwithin := m.within_true
  obtain ⟨length, handlers, s, attributes, t, count, hlength, hhandlers, hattributes, hcount,
    hnamed⟩ := yields_codeAttribute.mp hy
  refine ⟨_, reads_namedAttribute hnamed hmeans, runOn_of_reads ?_⟩
  -- The parts of the attribute were written with smaller pools than the last, which gives their
  -- symbols the same meaning.
  have hfits := h.fits h.size_le
  have ht : t.Means pool := hmeans.of_grows ((uses_namedAttribute (R := fun _ => True) _
    trivial).grows hnamed)
  have hs : s.Means pool := ht.of_grows ((uses_codeAttributes hwithin h.toPlaces).grows hattributes)
  have hspelled := spelled_table
    (fun handler hhandler => uses_encodeHandler (hwithin.handlers handler hhandler))
    (fun handler _ _ _ _ hy hmeans => spelled_handler hfits hzero hy hmeans) hhandlers hs
  have hhandlers := reads_counted Body.reads_readHandler hspelled "exception_table_length"
  obtain ⟨attrs, hattrs, hfold⟩ := @adds_codeAttributes _ _ _ _ _ layout.size _ hfits
    (h.frames_inside hm) hattributes ht
  obtain ⟨hfold, _⟩ := hfold (layout.bare m limits) rfl
  have hcheck : (layout.body m limits).checkReferences = .ok () :=
    Body.checkReferences_eq_ok.mpr (h.bounded_body hm)
  have hread : Reads (readAttributes pool) (Bytes.ofU2 count ++ attributes.flatten) attrs := by
    refine (reads_u2 count _).bind ?_
    rw [toNat_countU2 hcount]
    exact reads_many hattrs
  have hlength : length.toNat = layout.size := by
    rw [toNat_lengthU4 hlength, hsize]
  have hsize_le := h.size_le
  -- The length is one that the reader accepts.
  have hbad : ¬ (layout.size = 0 ∨ 65536 ≤ layout.size) := by
    rintro (h0 | hlong)
    · exact h.size_ne h0
    · omega
  -- Assembled from the back: the tables, then the array, then the limits.
  have htables := hhandlers.bind (f := fun handlers => do
    let attributes ← readAttributes pool
    let body ← lift (attributes.foldlM (Body.addTable pool) { layout.bare m limits with handlers })
    lift body.checkReferences
    pure body)
    (hread.bind_nil ((reads_lift hfold).bind_nil ((reads_lift hcheck).bind_nil (reads_pure _))))
  simp only [bind_assoc] at htables
  simp only [List.append_assoc]
  refine (reads_u2 limits.1 _).bind ((reads_u2 limits.2 _).bind ((reads_u4 length _).bind ?_))
  simp only [hlength, hbad, ↓reduceIte]
  exact (reads_take hsize.symm _).bind ((reads_lift hinsns).bind (p := []) htables)

end Layout

/-! ### The outline of the body -/

namespace Layout

variable {attrs : List RawAttribute} (h : layout.Written m)
  (hground : (layout.body m limits).Grounded pool)
include h hground

/-- **A label and the label of its offset** have the same position. -/
theorem Written.indexLabel_relabel (hl : layout.Bound l)
    (hmem : layout.offsetOf l ∈ (layout.body m limits).references) :
    indexLabel (Body.eventsOf attrs (some (layout.body m limits))) (layout.relabel l)
      = indexLabel m.events l := by
  obtain ⟨n, hn, hle, _, hoffset, hrelabel⟩ := h.relabel_eq hl
  have hindex : (layout.body m limits).indexOf (layout.placedList.offsetAt 0 n) = n := by
    rw [Body.indexOf, h.offsets_body]
    exact Placed.idxOf_offsetAt h.contiguous hle
  rw [hoffset] at hmem
  unfold indexLabel
  rw [hrelabel, hn, Body.position_eventsOf hground hmem, hindex]

/-- **A label keeps its number** when the body is read back. -/
theorem Written.indexLabel_of_mem (hl : layout.Bound l)
    (hmem : (layout.relabel l).id.toNat ∈ (layout.body m limits).references) :
    indexLabel (Body.eventsOf attrs (some (layout.body m limits))) (layout.relabel l)
      = indexLabel m.events l := by
  rw [h.toNat_relabel hl] at hmem
  exact h.indexLabel_relabel hground hl hmem

/-- The instructions are read back with their targets. -/
theorem Written.outline_insns (hm : m.Anchored) :
    (insns (Body.eventsOf attrs (some (layout.body m limits)))).map
        (·.mapLabels (indexLabel (Body.eventsOf attrs (some (layout.body m limits)))))
      = (insns m.events).map (·.mapLabels (indexLabel m.events)) := by
  rw [Body.insns_eventsOf, h.insns_body, List.map_map]
  refine List.map_congr_left fun i hi => ?_
  rw [Function.comp_apply, Insn.mapLabels_mapLabels]
  refine Insn.mapLabels_congr fun l hl => ?_
  refine h.indexLabel_of_mem hground (h.bound_target hm hi hl) ?_
  have hrow : i.mapLabels layout.relabel ∈ (layout.body m limits).insns.map (·.2) := by
    rw [h.insns_body]
    exact List.mem_map_of_mem hi
  obtain ⟨p, hp, heq⟩ := List.mem_map.mp hrow
  refine mem_references_of_target hp ?_
  rw [heq, Insn.targets_mapLabels]
  exact List.mem_map_of_mem hl

/-- So are the handlers. -/
theorem Written.outline_handlers :
    (handlers (Body.eventsOf attrs (some (layout.body m limits)))).map
        (·.mapLabels (indexLabel (Body.eventsOf attrs (some (layout.body m limits)))))
      = m.handlers.map (·.mapLabels (indexLabel m.events)) := by
  rw [Body.handlers_eventsOf]
  show (m.handlers.map (·.mapLabels layout.relabel)).map _ = _
  rw [List.map_map]
  refine List.map_congr_left fun row hrow => ?_
  rw [Function.comp_apply, TryCatch.mapLabels_mapLabels]
  refine TryCatch.mapLabels_congr fun l hl => ?_
  refine h.indexLabel_of_mem hground (h.handlers row hrow l hl) ?_
  have hrow' : row.mapLabels layout.relabel ∈ (layout.body m limits).handlers :=
    List.mem_map_of_mem hrow
  exact mem_references_of_handler hrow' (List.mem_map_of_mem (f := layout.relabel) hl)

omit h hground in
/-- The variables of a table are those of the body that are of the table. -/
theorem filter_locals_body (table : LocalTable) :
    (layout.body m limits).locals.filter (·.table = table)
      = (m.localsIn table).map (·.mapLabels layout.relabel) := by
  let relabelled (other : LocalTable) : List LocalVariable :=
    (m.localsIn other).map fun v => v.mapLabels layout.relabel
  have hall (other : LocalTable) : ∀ v ∈ relabelled other, v.table = other := by
    intro v hv
    obtain ⟨w, hw, rfl⟩ := List.mem_map.mp hv
    have htable : w.table = other := table_of_mem_localsIn hw
    exact htable
  show (([] ++ relabelled .descriptors) ++ relabelled .signatures).filter _ = relabelled table
  rw [List.nil_append, List.filter_append]
  cases table with
  | descriptors =>
    rw [List.filter_eq_self.mpr fun v hv => by simp [hall _ v hv],
      List.filter_eq_nil_iff.mpr fun v hv => by simp [hall _ v hv], List.append_nil]
  | signatures =>
    rw [List.filter_eq_nil_iff.mpr fun v hv => by simp [hall _ v hv],
      List.filter_eq_self.mpr fun v hv => by simp [hall _ v hv], List.nil_append]

/-- So are the variables of each table. -/
theorem Written.outline_locals (table : LocalTable) :
    (localsIn table (Body.eventsOf attrs (some (layout.body m limits)))).map
        (·.mapLabels (indexLabel (Body.eventsOf attrs (some (layout.body m limits)))))
      = (m.localsIn table).map (·.mapLabels (indexLabel m.events)) := by
  have hrows := @filter_locals_body m layout limits table
  rw [Body.localsIn_eventsOf, hrows, List.map_map]
  refine List.map_congr_left fun v hv => ?_
  rw [Function.comp_apply, LocalVariable.mapLabels_mapLabels]
  refine LocalVariable.mapLabels_congr fun l hl => ?_
  refine h.indexLabel_of_mem hground (h.locals table v hv l hl) ?_
  have hrow : v.mapLabels layout.relabel ∈ (layout.body m limits).locals := by
    refine List.mem_of_mem_filter (p := (·.table = table)) ?_
    rw [hrows]
    exact List.mem_map_of_mem hv
  exact mem_references_of_local hrow (List.mem_map_of_mem (f := layout.relabel) hl)

/-- And so are the frames. -/
theorem Written.outline_frames :
    (framesFrom 0 (Body.eventsOf attrs (some (layout.body m limits)))).map
        (fun p => (p.1, p.2.mapLabels
          (indexLabel (Body.eventsOf attrs (some (layout.body m limits))))))
      = (framesFrom 0 m.events).map fun p => (p.1, p.2.mapLabels (indexLabel m.events)) := by
  have hframes : (layout.body m limits).frames
      = layout.frames.toList.map fun p => (p.1, p.2.mapLabels layout.relabel) := rfl
  rw [Body.framesFrom_eventsOf_of_sorted hground (by
    rw [hframes, List.pairwise_map]
    exact h.ascending), hframes, h.frames_eq, List.map_map, List.map_map, List.map_map]
  refine List.map_congr_left fun p hp => ?_
  have hrow : (layout.placedList.offsetAt 0 p.1, p.2) ∈ layout.frames.toList := by
    rw [h.frames_eq]
    exact List.mem_map_of_mem (f := fun p => (layout.placedList.offsetAt 0 p.1, p.2)) hp
  -- The offset of the frame tells the number of its instruction.
  have hindex : (layout.body m limits).indexOf (layout.placedList.offsetAt 0 p.1) = p.1 := by
    have hle := (framesFrom_bounds hp).2
    rw [Nat.zero_add, ← h.length_eq] at hle
    rw [Body.indexOf, h.offsets_body]
    exact Placed.idxOf_offsetAt h.contiguous hle
  simp only [Function.comp_apply]
  rw [hindex, Frame.mapLabels_mapLabels]
  refine congrArg (Prod.mk p.1) (Frame.mapLabels_congr fun l hl => ?_)
  refine h.indexLabel_of_mem hground (h.frames _ hrow l hl) ?_
  refine mem_references_of_frame (p := (layout.placedList.offsetAt 0 p.1,
    p.2.mapLabels layout.relabel)) ?_ ?_
  · rw [hframes]
    exact List.mem_map_of_mem (f := fun p => (p.1, p.2.mapLabels layout.relabel)) hrow
  · rw [Frame.labels_mapLabels]
    exact List.mem_map_of_mem hl

omit hground in
theorem Written.offsetOf_line (hm : m.Anchored) {l : UInt16 × Label} (hl : l ∈ m.lines) :
    ∃ n < layout.placedList.length, position l.2 m.events = some n ∧
      layout.offsetOf l.2 = layout.placedList.offsetAt 0 n := by
  obtain ⟨n, hlt, hn⟩ := hm.lines l hl
  rw [← h.length_eq] at hlt
  exact ⟨n, hlt, hn, offsetOf_eq (h.offset_of_position hn)⟩

omit hground in
/-- Lines stand before the end of the code. -/
theorem Written.lines_inside (hm : m.Anchored) :
    ∀ p ∈ (layout.body m limits).lines, p.1 < (layout.body m limits).length := by
  show ∀ p ∈ m.lines.map fun l => (layout.offsetOf l.2, l.1), p.1 < layout.size
  rw [List.forall_mem_map]
  intro l hl
  obtain ⟨n, hlt, _, heq⟩ := h.offsetOf_line hm hl
  rw [heq, h.size_eq]
  exact Placed.offsetAt_lt_stop h.contiguous hlt

theorem Written.indexLabel_line {row : UInt16 × Label} (hrow : row ∈ m.lines) :
    indexLabel (Body.eventsOf attrs (some (layout.body m limits)))
        (Body.labelAt (layout.offsetOf row.2)) = indexLabel m.events row.2 := by
  obtain ⟨_, _, _, _, heq, hrelabel⟩ := h.relabel_eq (h.lines row hrow)
  rw [heq, ← hrelabel]
  refine h.indexLabel_relabel hground (h.lines row hrow) ?_
  exact Body.mem_references_of_line (p := (layout.offsetOf row.2, row.1))
    (List.mem_map_of_mem (f := fun l => (layout.offsetOf l.2, l.1)) hrow)

/-- The lines of the body, seen from the method. -/
theorem Written.map_lines :
    ((layout.body m limits).lines.map fun p => (p.2, Body.labelAt p.1)).map
        (fun l => (l.1, indexLabel (Body.eventsOf attrs (some (layout.body m limits))) l.2))
      = m.lines.map fun l => (l.1, indexLabel m.events l.2) := by
  rw [List.map_map]
  refine List.map_map.trans (List.map_congr_left fun l hl => congrArg (Prod.mk l.1) ?_)
  exact h.indexLabel_line hground hl

/-- Line numbers in the order of their positions stay as they are. -/
theorem Written.outline_lines (hm : m.Readable pool) :
    (lines (Body.eventsOf attrs (some (layout.body m limits)))).map
        (fun l => (l.1, indexLabel (Body.eventsOf attrs (some (layout.body m limits))) l.2))
      = m.lines.map fun l => (l.1, indexLabel m.events l.2) := by
  rw [Body.lines_eventsOf_of_sorted hground _ (h.lines_inside hm.toAnchored), h.map_lines hground]
  show (m.lines.map fun l => (layout.offsetOf l.2, l.1)).Pairwise _
  rw [List.pairwise_map]
  refine hm.linesSorted.imp_of_mem fun {a b} ha hb hle => ?_
  obtain ⟨s, _, hs, hsoffset⟩ := h.offsetOf_line hm.toAnchored ha
  obtain ⟨t, _, ht, htoffset⟩ := h.offsetOf_line hm.toAnchored hb
  show layout.offsetOf a.2 ≤ layout.offsetOf b.2
  rw [hsoffset, htoffset]
  rcases Nat.lt_or_eq_of_le (hle s t hs ht) with hlt | rfl
  · exact Nat.le_of_lt (Placed.offsetAt_lt h.contiguous hlt (by omega))
  · exact Nat.le_refl _

/-- Line numbers in any order keep the order of those at one position. -/
theorem Written.filter_outline_lines (hm : m.Anchored) (l : Label) :
    ((lines (Body.eventsOf attrs (some (layout.body m limits)))).map fun row =>
        (row.1, indexLabel (Body.eventsOf attrs (some (layout.body m limits))) row.2)).filter
        (·.2 = l)
      = (m.lines.map fun row => (row.1, indexLabel m.events row.2)).filter (·.2 = l) := by
  rw [← @Written.map_lines m pool layout limits attrs h hground, List.filter_map,
    List.filter_map (l := List.map _ _),
    Body.filter_lines_eventsOf hground (h.lines_inside hm)]
  show ∀ p ∈ m.lines.map fun row => (layout.offsetOf row.2, row.1),
    ∀ q ∈ m.lines.map fun row => (layout.offsetOf row.2, row.1), _
  rw [List.forall_mem_map]
  intro row hrow
  rw [List.forall_mem_map]
  intro row' hrow' hl
  obtain ⟨n, hn, hposition, hoffset⟩ := h.offsetOf_line hm hrow
  obtain ⟨k, hk, hposition', hoffset'⟩ := h.offsetOf_line hm hrow'
  have hlength : layout.placedList.length ≤ 65535 := by
    have hle := Placed.length_le_stop h.contiguous
    have hsize := h.size_le
    rw [h.size_eq] at hsize
    omega
  have hl : indexLabel m.events row.2 = l := by
    rw [← h.indexLabel_line hground hrow]
    exact of_decide_eq_true hl
  show decide (indexLabel _ (Body.labelAt (layout.offsetOf row'.2)) = l) = true ↔
    layout.offsetOf row'.2 = layout.offsetOf row.2
  rw [decide_eq_true_eq, h.indexLabel_line hground hrow', hoffset, hoffset', ← hl, indexLabel,
    indexLabel, hposition, hposition']
  -- Positions, offsets and labels determine each other.
  constructor
  · intro heq
    rw [Body.labelAt_inj (by omega) (by omega) heq]
  · intro heq
    rw [Placed.offsetAt_inj h.contiguous (by omega) (by omega) heq]

/-- The body behind a layout has the outline of the method, but for the order of the line numbers.
-/
theorem Written.outline_eq_upto (hm : m.Anchored) (hlimits : m.limits = some limits) :
    ∃ lines, MethodSource.outline ⟨m.access, m.name, m.descriptor,
        Body.eventsOf m.attributes (some (layout.body m limits))⟩ = { m.outline with lines } ∧
      ∀ l, lines.filter (·.2 = l) = m.outline.lines.filter (·.2 = l) := by
  refine ⟨_, ?_, @Written.filter_outline_lines m pool layout limits m.attributes h hground hm⟩
  unfold MethodSource.outline
  simp only [MethodSource.limits_eq, MethodSource.handlers_eq, MethodSource.lines_eq,
    MethodSource.localsIn_eq, MethodSource.attributes_eq]
  rw [h.outline_insns hground hm, h.outline_handlers hground, h.outline_frames hground,
    h.outline_locals hground, h.outline_locals hground,
    Body.limits_eventsOf, Body.attributes_eventsOf, ← MethodSource.limits_eq, hlimits]
  rfl

/-- The body behind a layout has the outline of the method. -/
theorem Written.outline_eq (hm : m.Readable pool) (hlimits : m.limits = some limits) :
    MethodSource.outline ⟨m.access, m.name, m.descriptor,
      Body.eventsOf m.attributes (some (layout.body m limits))⟩ = m.outline := by
  have hlines := @Written.outline_lines m pool layout limits m.attributes h hground hm
  obtain ⟨lines, houtline, -⟩ := h.outline_eq_upto hground hm.toAnchored hlimits
  rw [houtline]
  obtain rfl : lines = m.outline.lines :=
    (congrArg Outline.lines houtline).symm.trans hlines
  rfl

end Layout

/-! ### Finished methods -/

namespace MethodSource

/-- A method without code has nothing but attributes in its outline. -/
theorem outline_of_bodiless (h : ∀ e ∈ m.events, (∃ a, e = .attribute a) ∨ e = .done) :
    m.outline = ⟨m.access, m.name, m.descriptor, none, [], [], [], [], [], [], m.attributes⟩ := by
  have hnil {α : Type} {f : MethodEvent → Option α} (hf : ∀ a, f (.attribute a) = none)
      (hdone : f .done = none) : m.events.filterMap f = [] :=
    filterMap_of_bodiless h hf hdone
  have htable : ∀ e ∈ m.events, e.isTable = true := by
    intro e he
    rcases h e he with ⟨a, rfl⟩ | rfl <;> rfl
  have hlimits : m.limits = none := by
    refine limits_eq_none fun e he found => ?_
    rcases h e he with ⟨a, rfl⟩ | rfl <;> rfl
  have hhandlers : m.handlers = [] := hnil (fun _ => rfl) rfl
  have hlines : m.lines = [] := hnil (fun _ => rfl) rfl
  have hlocals (table : LocalTable) : m.localsIn table = [] := hnil (fun _ => rfl) rfl
  unfold outline
  rw [insns_of_isTable htable, framesFrom_of_isTable htable, hlimits, hhandlers, hlines, hlocals,
    hlocals]
  rfl

/-- **The code of a method reads back** as the body behind a layout of the normal form. -/
theorem reads_emitCode (hm : m.Anchored)
    (hlegible : ∀ i ∈ MethodEvent.insns m.events, i.Legible pool)
    {emitted : Emitted} (hy : Yields (m.emitCode limits) b (bytes, emitted) c)
    (hmeans : c.Means pool) (hzero : ∀ e, pool.get 0 ≠ .ok e) :
    ∃ (layout : Layout) (info : Bytes), layout.Written m.normal ∧
      Reads (readAttribute pool) bytes ⟨"Code", info⟩ ∧
      Body.parse pool info = .ok (layout.body m.normal limits) := by
  obtain ⟨layout, s, code, hlayout, hcode, hsize, hne, hattr, -⟩ := yields_emitCode.mp hy
  have hlays := Layout.lays_of_ofMethod hlayout
  have hwritten : layout.Written m := {
    toPlaces := hlays.toPlaces
    toBinds := Layout.binds_of_codeAttribute hattr
    size_le := hsize
    size_ne := hne }
  have hresolves := code_eq_ok.mp hcode
  have hlength : layout.size = code.length := by
    rw [hlays.size_eq, Layout.placedList, length_of_resolvesAll hresolves, Nat.zero_add]
  -- The pool only grows behind the code, so the indices in it keep their meaning.
  have hs : s.Means pool := hmeans.of_grows ((Layout.uses_codeAttribute (R := fun _ => True)
    m.within_true trivial hlays.toPlaces).grows hattr)
  have hinsns : Body.decodeInsns pool code = .ok (rows layout.offsets layout.placedList
      (MethodEvent.insns m.normal.events)) := by
    rw [insns_normal]
    refine decodeInsns_of_encodeAll hlays.encodes hs hlegible ?_ hresolves (hlength ▸ hsize)
    rw [← hlength]
    exact hwritten.targets_inside hm
  rw [← Layout.codeAttribute_normal] at hattr
  obtain ⟨info, hread, hparse⟩ :=
    hwritten.normal.reads_body hm.normal hlength hinsns hattr hmeans hzero
  exact ⟨layout, info, hwritten.normal, hread, hparse⟩

/-- A member with one `Code` attribute decodes to the events of its body. -/
theorem decode_of_parse (m : MethodSource) (raw : Bytes) {info : Bytes} {body : Body}
    {attrs : List RawAttribute}
    (hattrs : ∀ a ∈ attrs, a.name ≠ "Code") (hparse : Body.parse pool info = .ok body) :
    Member.decode pool ⟨m.access, m.name, m.descriptor, raw, ⟨"Code", info⟩ :: attrs⟩
      = { events := Body.eventsOf attrs (some body) } := by
  simp only [Member.decode, splitCode_cons_code hattrs, hparse]
  rfl

/-- The attributes of a member that was finished, with what it decodes to. -/
theorem reads_codePart (hm : m.Readable pool) {code : List Bytes} {emitted : Emitted}
    (hy : Yields m.codePart b (code, emitted) c) (hmeans : c.Means pool)
    (hzero : ∀ e, pool.get 0 ≠ .ok e) :
    ∃ attrs, List.Forall₂ (fun bytes a => Reads (readAttribute pool) bytes a) code attrs ∧
      ∀ raw, let found : Member := ⟨m.access, m.name, m.descriptor, raw, attrs ++ m.attributes⟩
        (found.decode pool).failure = none ∧ found.outline pool = m.outline := by
  rcases yields_codePart.mp hy with ⟨hlimits, rfl, -, -⟩ | ⟨limits, bytes, hlimits, rfl, hcode⟩
  · -- A method without limits has no code and is read back as its attributes.
    refine ⟨[], .nil, fun raw => ?_⟩
    have hbodiless := hm.bodied hlimits
    have hdecode : Member.decode pool ⟨m.access, m.name, m.descriptor, raw, m.attributes⟩
        = { events := Body.eventsOf m.attributes none } := by
      simp only [Member.decode, splitCode_of_ne hm.attributes, Body.eventsOf, Option.elim_none,
        List.append_nil]
    have hattributes : MethodSource.attributes ⟨m.access, m.name, m.descriptor,
        Body.eventsOf m.attributes none⟩ = m.attributes := Body.attributes_eventsOf none
    refine ⟨by rw [List.nil_append, hdecode], ?_⟩
    rw [List.nil_append, Member.outline, Member.source, hdecode, outline_of_bodiless hbodiless,
      outline_of_bodiless fun e he => mem_eventsOf_none he, hattributes]
  · obtain ⟨layout, info, hwritten, hread, hparse⟩ := reads_emitCode hm.toAnchored
      (fun i hi => .readable (hm.insns i hi)) hcode hmeans hzero
    rw [hm.normal_eq] at hwritten hparse
    refine ⟨[⟨"Code", info⟩], .cons hread .nil, fun raw => ?_⟩
    have hdecode := m.decode_of_parse raw hm.attributes hparse
    refine ⟨by rw [List.singleton_append, hdecode], ?_⟩
    rw [List.singleton_append, Member.outline, Member.source, hdecode]
    exact hwritten.outline_eq (Body.grounded_of_parse hparse) hm hlimits

/-- The same for a method that need not be in the form in which methods are decoded. -/
theorem reads_codePart_upto (hm : m.Anchored)
    (hlegible : ∀ i ∈ MethodEvent.insns m.events, i.Legible pool)
    (hattributes : ∀ a ∈ m.attributes, a.name ≠ "Code") (hlimits : m.limits.isSome)
    {code : List Bytes} {emitted : Emitted} (hy : Yields m.codePart b (code, emitted) c)
    (hmeans : c.Means pool) (hzero : ∀ e, pool.get 0 ≠ .ok e) :
    ∃ attrs, List.Forall₂ (fun bytes a => Reads (readAttribute pool) bytes a) code attrs ∧
      ∀ raw, let found : Member := ⟨m.access, m.name, m.descriptor, raw, attrs ++ m.attributes⟩
        (found.decode pool).failure = none ∧ m.outline.ReadsAs (found.outline pool) := by
  rcases yields_codePart.mp hy with ⟨hnone, -⟩ | ⟨limits, bytes, hsome, rfl, hcode⟩
  · rw [hnone] at hlimits
    cases hlimits
  · -- What is read back is the normal form of the method.
    obtain ⟨layout, info, hwritten, hread, hparse⟩ := reads_emitCode hm hlegible hcode hmeans hzero
    refine ⟨[⟨"Code", info⟩], .cons hread .nil, fun raw => ?_⟩
    obtain ⟨lines, houtline, hlines⟩ := hwritten.outline_eq_upto (Body.grounded_of_parse hparse)
      hm.normal (limits_normal.trans hsome)
    rw [attributes_normal, outline_normal] at houtline
    rw [outline_normal] at hlines
    have hdecode := m.decode_of_parse raw hattributes hparse
    have hshown : MethodSource.outline ⟨m.access, m.name, m.descriptor,
        Body.eventsOf m.attributes (some (layout.body m.normal limits))⟩ =
        { m.outline with insns := m.outline.insns.map Insn.normal, lines } := houtline
    refine ⟨by rw [List.singleton_append, hdecode], ?_⟩
    rw [List.singleton_append, Member.outline, Member.source, hdecode, hshown]
    exact ⟨rfl, hlines⟩

/-- The code of a method reads as attributes. -/
theorem exists_reads_codePart {code : List Bytes} {emitted : Emitted}
    (hy : Yields m.codePart b (code, emitted) c) (hmeans : c.Means pool) :
    ∃ attrs, List.Forall₂ (fun bytes a => Reads (readAttribute pool) bytes a) code attrs := by
  rcases yields_codePart.mp hy with ⟨-, rfl, -, -⟩ | ⟨limits, bytes, -, rfl, hcode⟩
  · exact ⟨[], .nil⟩
  · obtain ⟨layout, s, codeBytes, -, -, -, -, hattr, -⟩ := yields_emitCode.mp hcode
    obtain ⟨_, _, _, _, _, _, _, _, _, _, hnamed⟩ := Layout.yields_codeAttribute.mp hattr
    exact ⟨_, .cons (Layout.reads_namedAttribute hnamed hmeans) .nil⟩

/-- The bytes of a finished method are those of a member with its name and descriptor. Its
attributes are whatever its code reads as, and those of the method. -/
theorem reads_finish (what : String) {P : List RawAttribute → Prop} {emitted : Emitted}
    (hy : Yields m.finish b (bytes, emitted) c) (hmeans : c.Means pool)
    (hcode : ∀ {b code emitted c}, Yields m.codePart b (code, emitted) c → c.Means pool →
      ∃ attrs, List.Forall₂ (fun bytes a => Reads (readAttribute pool) bytes a) code attrs ∧
      P attrs) :
    ∃ attrs, P attrs ∧ Reads (readMember pool what) bytes
      ⟨m.access, m.name, m.descriptor, bytes, attrs ++ m.attributes⟩ := by
  obtain ⟨name, s, descriptor, t, code, u, others, count, hname, hdescriptor, hpart, -, hothers,
    hcount, rfl⟩ := yields_finish.mp hy
  have hwithin := m.within_true
  have hu : u.Means pool := hmeans.of_grows
    ((Layout.uses_namedAttributes (R := fun _ => True) hwithin.attributes).grows hothers)
  have ht : t.Means pool := hu.of_grows (grows_codePart hwithin hpart)
  have hs : s.Means pool :=
    ht.of_grows ((uses_utf8 (R := fun _ => True) trivial).grows hdescriptor)
  -- Each part was written with a pool that the last one extends.
  obtain ⟨attrs, hattrs, hP⟩ := hcode hpart hu
  have hall : List.Forall₂ (fun bytes a => Reads (readAttribute pool) bytes a) (code ++ others)
      (attrs ++ m.attributes) :=
    List.rel_append hattrs (Layout.reads_namedAttributes hothers hmeans)
  have hname := ConstantPool.denotes_utf8.mp (denotes_of_index (s := .utf8 m.name) hname hs)
  have hdescriptor :=
    ConstantPool.denotes_utf8.mp (denotes_of_index (s := .utf8 m.descriptor) hdescriptor ht)
  have hread : Reads (readAttributes pool) (Bytes.ofU2 count ++ (code ++ others).flatten)
      (attrs ++ m.attributes) := by
    refine (reads_u2 count _).bind ?_
    rw [Layout.toNat_countU2 hcount]
    exact reads_many hall
  refine ⟨attrs, hP,
    reads_readMember (p := (m.access, m.name, m.descriptor, attrs ++ m.attributes)) ?_⟩
  simp only [List.append_assoc]
  exact (reads_u2 m.access _).bind ((reads_u2 name _).bind ((reads_lift hname).bind (p := [])
    ((reads_u2 descriptor _).bind ((reads_lift hdescriptor).bind (p := [])
      ((reads_relabel hread).map _)))))

/-- **A finished method reads back.** Its bytes are those of a member that decodes to a method with
the same outline. -/
theorem read_finish (what : String) (hm : m.Readable pool) {emitted : Emitted}
    (hy : Yields m.finish b (bytes, emitted) c) (hmeans : c.Means pool)
    (hzero : ∀ e, pool.get 0 ≠ .ok e) :
    ∃ found : Member, Reads (readMember pool what) bytes found ∧
      (found.decode pool).failure = none ∧ found.outline pool = m.outline := by
  obtain ⟨attrs, hfound, hread⟩ := reads_finish what hy hmeans
    fun hpart hu => reads_codePart hm hpart hu hzero
  exact ⟨_, hread, hfound bytes⟩

/-- **A finished method reads back in normal form**, whatever form it was given in. -/
theorem read_finish_upto (what : String) (hm : m.Anchored)
    (hlegible : ∀ i ∈ MethodEvent.insns m.events, i.Legible pool)
    (hattributes : ∀ a ∈ m.attributes, a.name ≠ "Code") (hlimits : m.limits.isSome)
    {emitted : Emitted} (hy : Yields m.finish b (bytes, emitted) c) (hmeans : c.Means pool)
    (hzero : ∀ e, pool.get 0 ≠ .ok e) :
    ∃ found : Member, Reads (readMember pool what) bytes found ∧
      (found.decode pool).failure = none ∧ m.outline.ReadsAs (found.outline pool) := by
  obtain ⟨attrs, hfound, hread⟩ := reads_finish what hy hmeans
    fun hpart hu => reads_codePart_upto hm hlegible hattributes hlimits hpart hu hzero
  exact ⟨_, hread, hfound bytes⟩

/-- The bytes of any method that was finished are those of a member. -/
theorem exists_reads_finish (what : String) {emitted : Emitted}
    (hy : Yields m.finish b (bytes, emitted) c) (hmeans : c.Means pool) :
    ∃ attrs, Reads (readMember pool what) bytes
      ⟨m.access, m.name, m.descriptor, bytes, attrs⟩ := by
  obtain ⟨attrs, -, hread⟩ := reads_finish what hy hmeans fun hpart hu =>
    (exists_reads_codePart hpart hu).imp fun _ h => And.intro h trivial
  exact ⟨_, hread⟩

/-! ### Several methods -/

variable {sources : List MethodSource} {pairs : List (Bytes × Emitted)}

/-- Finishing methods one after the other only adds entries. -/
theorem grows_finishes {R : Symbol → Prop} (h : ∀ m ∈ sources, m.Within R)
    (hy : Yields (sources.mapM MethodSource.finish) b pairs c) : b.Grows R c := by
  induction sources generalizing b pairs with
  | nil =>
    obtain ⟨rfl, rfl⟩ := yields_mapM_nil.mp hy
    exact .refl
  | cons m sources ih =>
    obtain ⟨⟨bytes, e⟩, rest, s, rfl, hm, hrest⟩ := yields_mapM_cons.mp hy
    rw [List.forall_mem_cons] at h
    exact (grows_finish h.1 hm).trans (ih h.2 hrest)

/-- **Methods that were finished** in a row read back as members with their outlines. -/
theorem read_finishes (what : String) (h : ∀ m ∈ sources, m.Readable pool)
    (hy : Yields (sources.mapM MethodSource.finish) b pairs c) (hmeans : c.Means pool)
    (hzero : ∀ e, pool.get 0 ≠ .ok e) :
    ∃ methods, List.Forall₂ (fun bytes m => Reads (readMember pool what) bytes m)
        (pairs.map (·.1)) methods ∧
      (∀ m ∈ methods, (m.decode pool).failure = none) ∧
      methods.map (Member.outline pool) = sources.map MethodSource.outline := by
  induction sources generalizing b pairs with
  | nil =>
    obtain ⟨rfl, -⟩ := yields_mapM_nil.mp hy
    exact ⟨[], .nil, by simp, by simp⟩
  | cons m sources ih =>
    obtain ⟨⟨bytes, e⟩, rest, s, rfl, hm, hrest⟩ := yields_mapM_cons.mp hy
    rw [List.forall_mem_cons] at h
    have hgrows := grows_finishes (R := fun _ => True) (fun m _ => m.within_true) hrest
    obtain ⟨methods, hreads, hdecode, houtlines⟩ := ih h.2 hrest
    obtain ⟨found, hread, hfound, houtline⟩ :=
      read_finish what h.1 hm (hmeans.of_grows hgrows) hzero
    refine ⟨found :: methods, .cons hread hreads, List.forall_mem_cons.mpr ⟨hfound, hdecode⟩, ?_⟩
    rw [List.map_cons, List.map_cons, houtline, houtlines]

end MethodSource

end RoundingPatch.ClassFile
