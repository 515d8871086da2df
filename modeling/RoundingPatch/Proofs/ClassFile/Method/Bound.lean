import RoundingPatch.Proofs.ClassFile.Method.Finish
/-!
# Labels that have offsets

If the `Code` attribute of a method can be written, then every label in the tables of the method has
an offset, and the stack map frames ascend (`binds_of_codeAttribute`).
-/

namespace RoundingPatch.ClassFile

variable {m : MethodSource} {b c : PoolBuilder} {bytes : Bytes} {layout : Layout}

namespace Layout

/-- A label has an offset. -/
def Bound (layout : Layout) (label : Label) : Prop :=
  ∃ t, layout.offsets[label]? = some t

theorem bound_of_offsetU2 {label : Label} {v : UInt16} (h : layout.offsetU2 label = .ok v) :
    layout.Bound label := by
  obtain ⟨t, ht, _⟩ := offsetU2_eq_ok.mp h
  exact ⟨t, ht⟩

/-- What is written has an offset: the labels of a handler are bound. -/
theorem bound_handler {h : TryCatch} (hy : Yields (layout.encodeHandler h) b bytes c) :
    ∀ l ∈ h.labels, layout.Bound l := by
  obtain ⟨_, hstart, hy⟩ := Pooling.yields_lift_bind.mp hy
  obtain ⟨_, hstop, hy⟩ := Pooling.yields_lift_bind.mp hy
  obtain ⟨_, hentry, _⟩ := Pooling.yields_lift_bind.mp hy
  simp only [TryCatch.labels, List.mem_cons, List.not_mem_nil, or_false, forall_eq_or_imp,
    forall_eq]
  exact ⟨bound_of_offsetU2 hstart, bound_of_offsetU2 hstop, bound_of_offsetU2 hentry⟩

theorem bound_line {line : UInt16 × Label} (hy : Yields (layout.encodeLine line) b bytes c) :
    layout.Bound line.2 := by
  obtain ⟨_, hstart, _⟩ := Pooling.yields_lift_bind.mp hy
  exact bound_of_offsetU2 hstart

theorem bound_local {v : LocalVariable} (hy : Yields (layout.encodeLocal v) b bytes c) :
    ∀ l ∈ v.labels, layout.Bound l := by
  obtain ⟨_, hstart, hy⟩ := Pooling.yields_lift_bind.mp hy
  obtain ⟨_, hstop, _⟩ := Pooling.yields_lift_bind.mp hy
  simp only [LocalVariable.labels, List.mem_cons, List.not_mem_nil, or_false, forall_eq_or_imp,
    forall_eq]
  exact ⟨bound_of_offsetU2 hstart, bound_of_offsetU2 hstop⟩

theorem bound_vtype {v : VType} (hy : Yields (layout.encodeVType v) b bytes c) :
    ∀ l ∈ v.labels, layout.Bound l := by
  cases v with
  | uninitialized label =>
    obtain ⟨_, hoffset, _⟩ := Pooling.yields_lift_bind.mp hy
    simpa [VType.labels, Body.vtypeLabels] using bound_of_offsetU2 hoffset
  | _ => simp [VType.labels, Body.vtypeLabels]

theorem bound_vtypes {vs : List VType} {bs : List Bytes}
    (hy : Yields (vs.mapM layout.encodeVType) b bs c) :
    ∀ v ∈ vs, ∀ l ∈ v.labels, layout.Bound l := by
  intro v hv
  obtain ⟨_, _, _, hy⟩ := exists_yields_of_mapM hy v hv
  exact bound_vtype hy

theorem yields_rows_of_table {α : Type} {what : String} {rows : List α}
    {encode : α → Pooling Bytes} (hy : Yields (table what rows encode) b bytes c) :
    ∃ pieces, Yields (rows.mapM encode) b pieces c := by
  obtain ⟨_, _, hy⟩ := Pooling.yields_lift_bind.mp hy
  obtain ⟨pieces, _, hpieces, hp⟩ := yields_bind.mp hy
  obtain ⟨_, rfl⟩ := yields_pure.mp hp
  exact ⟨pieces, hpieces⟩

/-- The labels in the types of a frame that is written are bound. -/
theorem bound_frame {delta : Nat} {frame : Frame}
    (hy : Yields (layout.encodeFrame delta frame) b bytes c) :
    ∀ l ∈ frame.labels, layout.Bound l := by
  obtain ⟨_, hy⟩ := Pooling.yields_unless.mp hy
  -- Only the types of a frame have labels.
  have htypes : ∀ v ∈ frame.types, ∀ l ∈ v.labels, layout.Bound l := by
    cases frame with
    | same => simp [Frame.types]
    | chop count => simp [Frame.types]
    | sameWithOne stack =>
      obtain ⟨_, _, hstack, _⟩ := yields_bind.mp hy
      simpa [Frame.types] using bound_vtype hstack
    | append locals =>
      obtain ⟨_, hy⟩ := Pooling.yields_unless.mp hy
      obtain ⟨_, _, hlocals, _⟩ := yields_bind.mp hy
      exact bound_vtypes hlocals
    | full locals stack =>
      obtain ⟨_, _, hlocals, hy⟩ := yields_bind.mp hy
      obtain ⟨_, _, hstack, _⟩ := yields_bind.mp hy
      obtain ⟨_, hlocals⟩ := yields_rows_of_table hlocals
      obtain ⟨_, hstack⟩ := yields_rows_of_table hstack
      intro v hv
      rcases List.mem_append.mp hv with hv | hv
      · exact bound_vtypes hlocals v hv
      · exact bound_vtypes hstack v hv
  intro l hl
  obtain ⟨v, hv, hl⟩ := List.mem_flatMap.mp hl
  exact htypes v hv l hl

/-- Frames that were written ascend, and their labels are bound. -/
theorem bound_frames {previous : Option Nat} {frames : List (Nat × Frame)}
    (hy : Yields (layout.encodeFrames previous frames) b bytes c) :
    (∀ p ∈ frames, (∀ before ∈ previous, before < p.1) ∧ ∀ l ∈ p.2.labels, layout.Bound l) ∧
      frames.Pairwise fun p q => p.1 < q.1 := by
  induction frames generalizing previous b bytes with
  | nil => exact ⟨by simp, .nil⟩
  | cons p frames ih =>
    obtain ⟨_, _, _, _, _, _, hprevious, hframe, hrest⟩ := yields_encodeFrames_cons hy
    obtain ⟨hall, hsorted⟩ := ih hrest
    refine ⟨?_, List.pairwise_cons.mpr ⟨fun q hq => (hall q hq).1 p.1 rfl, hsorted⟩⟩
    rw [List.forall_mem_cons]
    refine ⟨⟨hprevious, bound_frame hframe⟩, fun q hq => ⟨fun before hbefore => ?_, (hall q hq).2⟩⟩
    exact Nat.lt_trans (hprevious before hbefore) ((hall q hq).1 p.1 rfl)

/-- Every label in the tables of a method is bound, and the frames ascend. -/
structure Binds (layout : Layout) (m : MethodSource) : Prop where
  handlers : ∀ h ∈ m.handlers, ∀ l ∈ h.labels, layout.Bound l
  lines : ∀ line ∈ m.lines, layout.Bound line.2
  locals : ∀ table, ∀ v ∈ m.localsIn table, ∀ l ∈ v.labels, layout.Bound l
  frames : ∀ p ∈ layout.frames.toList, ∀ l ∈ p.2.labels, layout.Bound l
  ascending : layout.frames.toList.Pairwise fun p q => p.1 < q.1

/-- Each row of a table that is written is written on its own. -/
theorem yields_rows_of_tableAttribute {α : Type} {name what : String} {rows : List α}
    {encode : α → Pooling Bytes} {pieces : List Bytes}
    (hy : Yields (tableAttribute name what rows encode) b pieces c) :
    ∀ row ∈ rows, ∃ b bs c, Yields (encode row) b bs c := by
  rcases tableAttribute_cases hy with ⟨rfl, -⟩ | ⟨_, _, _, -, htable, -⟩
  · simp
  · obtain ⟨_, hrows⟩ := yields_rows_of_table htable
    exact exists_yields_of_mapM hrows

/-- **Every label in the tables of code that is written is bound.** -/
theorem binds_of_codeAttribute {limits : UInt16 × UInt16} {code : Bytes}
    (hy : Yields (layout.codeAttribute m limits code) b bytes c) : layout.Binds m := by
  obtain ⟨_, _, _, _, _, _, _, hhandlers, hattributes, _, _⟩ := yields_codeAttribute.mp hy
  obtain ⟨_, hhandlers⟩ := yields_rows_of_table hhandlers
  rw [codeAttributes_eq] at hattributes
  obtain ⟨_, _, hlines, hy⟩ := yields_bind.mp hattributes
  obtain ⟨_, _, hlocals, hy⟩ := yields_bind.mp hy
  obtain ⟨_, _, hsignatures, hy⟩ := yields_bind.mp hy
  obtain ⟨_, _, hframes, _⟩ := yields_bind.mp hy
  -- Without frames there is no stack map, and nothing to show.
  have hsorted : (∀ p ∈ layout.frames.toList, ∀ l ∈ p.2.labels, layout.Bound l) ∧
      layout.frames.toList.Pairwise fun p q => p.1 < q.1 := by
    unfold frameAttribute at hframes
    by_cases hnil : layout.frames.isEmpty = true
    · have hnil : layout.frames.toList = [] := by simpa using hnil
      rw [hnil]
      exact ⟨by simp, .nil⟩
    · simp only [hnil, Bool.false_eq_true, ↓reduceIte] at hframes
      obtain ⟨_, _, hmap, _⟩ := yields_bind.mp hframes
      obtain ⟨_, _, hmap⟩ := Pooling.yields_lift_bind.mp hmap
      obtain ⟨_, _, hmap, _⟩ := yields_bind.mp hmap
      obtain ⟨hall, hsorted⟩ := bound_frames hmap
      exact ⟨fun p hp => (hall p hp).2, hsorted⟩
  refine ⟨fun h hh => ?_, fun line hline => ?_, fun table v hv => ?_, hsorted.1, hsorted.2⟩
  · obtain ⟨_, _, _, hy⟩ := exists_yields_of_mapM hhandlers h hh
    exact bound_handler hy
  · obtain ⟨_, _, _, hy⟩ := yields_rows_of_tableAttribute hlines line hline
    exact bound_line hy
  · have hrows : ∃ b bs c, Yields (layout.encodeLocal v) b bs c := by
      cases table with
      | descriptors => exact yields_rows_of_tableAttribute hlocals v hv
      | signatures => exact yields_rows_of_tableAttribute hsignatures v hv
    obtain ⟨_, _, _, hy⟩ := hrows
    exact bound_local hy

end Layout

end RoundingPatch.ClassFile
