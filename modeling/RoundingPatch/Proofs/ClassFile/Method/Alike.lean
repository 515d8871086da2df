import RoundingPatch.Proofs.ClassFile.Code.Decoding
import RoundingPatch.Proofs.ClassFile.Code.Renaming
/-!
# Methods with the same outline

A method is written as the same bytes as any other with the same outline, provided that its labels
are bound once (`finish_of_outline_eq`). If the pool has all that was used, finishing it again
changes nothing (`finish_again`).
-/

namespace RoundingPatch.ClassFile

open MethodEvent

variable {m m' : MethodSource} {b c q : PoolBuilder} {bytes : Bytes} {layout layout' : Layout}
  {limits : UInt16 × UInt16}

/-! ### Positions -/

/-- A label that was made up is not that of an offset. -/
theorem synthetic_ne_labelAt (id : UInt32) (n : Nat) : Label.synthetic id ≠ Body.labelAt n := by
  intro h
  have h := congrArg (fun l : Label => l.id.toBitVec.getLsbD 31) h
  simp [Label.synthetic, Body.labelAt, Label.atOffset, Label.madeBit] at h

/-- Labels in the same index form have the same position. -/
theorem position_of_indexLabel_eq {events events' : List MethodEvent} {l l' : Label} {n : Nat}
    (h : indexLabel events' l' = indexLabel events l) (hn : position l events = some n)
    (hlt : n < 2147483648) (hlength : (insns events').length < 2147483648) :
    position l' events' = some n := by
  unfold indexLabel at h
  rw [hn] at h
  rcases hp : position l' events' with _ | k
  · rw [hp] at h
    exact absurd h (synthetic_ne_labelAt _ _)
  · rw [hp] at h
    have hk := position_le hp
    rw [Body.labelAt_inj (by omega) hlt h]

/-! ### Laying out -/

/-- Frames that can be written stand at positions that ascend. -/
theorem Layout.frames_ascend (hlays : layout.Lays m b c) (hbinds : layout.Binds m) :
    (framesFrom 0 m.events).Pairwise fun p q => p.1 < q.1 := by
  have hascending := hbinds.ascending
  rw [hlays.frames_eq, List.pairwise_map] at hascending
  refine hascending.imp_of_mem fun {p q} hp _ hlt => ?_
  have hle := (framesFrom_bounds hp).2
  rw [Nat.zero_add, ← hlays.length_eq] at hle
  rcases Nat.lt_trichotomy p.1 q.1 with h | h | h
  · exact h
  · rw [h] at hlt
    exact absurd hlt (Nat.lt_irrefl _)
  · have := Placed.offsetAt_lt hlays.contiguous h (by omega)
    omega

section Outlines

variable (hout : m'.outline = m.outline)
include hout

theorem insns_of_outline_eq : (insns m'.events).map (·.mapLabels (indexLabel m'.events))
    = (insns m.events).map (·.mapLabels (indexLabel m.events)) :=
  congrArg Outline.insns hout

theorem frames_of_outline_eq :
    ((framesFrom 0 m'.events).map fun p => (p.1, p.2.mapLabels (indexLabel m'.events)))
      = (framesFrom 0 m.events).map fun p => (p.1, p.2.mapLabels (indexLabel m.events)) :=
  congrArg Outline.frames hout

theorem attributes_of_outline_eq : m'.attributes = m.attributes :=
  congrArg Outline.attributes hout

/-- The layout of one method goes with a layout of the other. -/
structure Layout.Matches (layout layout' : Layout) (m m' : MethodSource) : Prop where
  agrees : layout.Agrees (indexLabel m.events) (indexLabel m'.events) layout'
  placed : layout'.placedList.mapLabels (indexLabel m'.events)
    = layout.placedList.mapLabels (indexLabel m.events)
  size_eq : layout'.size = layout.size
  frames : (layout'.frames.toList.map fun p => (p.1, p.2.mapLabels (indexLabel m'.events)))
    = layout.frames.toList.map fun p => (p.1, p.2.mapLabels (indexLabel m.events))

/-- **Methods of one outline are laid out alike.** -/
theorem matches_of_outline_eq (hlays : layout.Lays m b c) (hsize : layout.size ≤ 65535)
    (hframes : (framesFrom 0 m.events).Pairwise fun p q => p.1 < q.1)
    (hlabels : (labels m'.events).Nodup) :
    ∃ layout', Yields (Layout.ofMethod m') b layout' c ∧ layout.Matches layout' m m' := by
  -- With the labels turned into positions, the two methods have the same instructions; encoding
  -- goes through that form and back.
  have hencodes : Yields (encodeAll 0 ((insns m'.events).map
      (Insn.mapLabels (indexLabel m'.events)))) b
      (layout.placedList.mapLabels (indexLabel m.events)) c := by
    rw [insns_of_outline_eq hout, encodeAll_mapLabels]
    exact yields_map.mpr ⟨_, hlays.encodes, rfl⟩
  rw [encodeAll_mapLabels] at hencodes
  obtain ⟨placed', hencodes', hplaced⟩ := yields_map.mp hencodes
  -- Positions have the same offsets in both layouts.
  have hstop : placed'.stop 0 = layout.size := by
    rw [← Placed.stop_mapLabels (f := indexLabel m'.events), hplaced, Placed.stop_mapLabels,
      hlays.size_eq]
  have hoffset (n : Nat) : placed'.offsetAt 0 n = layout.placedList.offsetAt 0 n := by
    rw [← Placed.offsetAt_mapLabels (f := indexLabel m'.events), hplaced,
      Placed.offsetAt_mapLabels]
  have hpositions : (framesFrom 0 m'.events).map (·.1) = (framesFrom 0 m.events).map (·.1) := by
    have h := congrArg (List.map (·.1)) (frames_of_outline_eq hout)
    rwa [List.map_map, List.map_map] at h
  have hframes' : (framesFrom 0 m'.events).Pairwise fun p q => p.1 < q.1 := by
    have h := List.pairwise_map (f := Prod.fst) (R := (· < ·)) (l := framesFrom 0 m.events)
    rw [← h, ← hpositions, List.pairwise_map] at hframes
    exact hframes
  obtain ⟨layout', hy⟩ := @Layout.place_of_encodeAll m'.name {} _ _ _ _ hencodes'
    (hstop ▸ hsize) (fun _ _ => Std.TreeMap.getElem?_emptyc) hlabels (by simp) hframes'
  have hlays' := Layout.lays_of_ofMethod hy
  have hplaced' : layout'.placedList = placed' := (hlays'.encodes.unique hencodes').1
  have hlength : layout.placedList.length ≤ 65535 := by
    have hle := Placed.length_le_stop hlays.contiguous
    rw [← hlays.size_eq] at hle
    omega
  -- Labels at one position, the placed bytes, the size and the frames all match.
  refine ⟨layout', hy, ⟨fun l l' t hl ht => ?_, ?_, ?_, ?_⟩⟩
  · obtain ⟨n, hn, rfl, hle⟩ := hlays.position_of_offset ht
    have hlength' : (insns m'.events).length = layout.placedList.length := by
      have h := congrArg List.length (insns_of_outline_eq hout)
      rw [List.length_map, List.length_map] at h
      rw [h, hlays.length_eq]
    have hposition := position_of_indexLabel_eq hl hn (by omega) (by omega)
    rw [hlays'.offset_of_position hposition, hplaced', hoffset]
  · rw [hplaced', hplaced]
  · rw [hlays'.size_eq, hplaced', hstop]
  · rw [hlays'.frames_eq, hlays.frames_eq, hplaced', List.map_map, List.map_map]
    have h := congrArg (List.map fun p : Nat × Frame => (layout.placedList.offsetAt 0 p.1, p.2))
      (frames_of_outline_eq hout)
    rw [List.map_map, List.map_map] at h
    refine Eq.trans (List.map_congr_left fun p _ => ?_) h
    exact congrArg (·, p.2.mapLabels (indexLabel m'.events)) (hoffset p.1)

/-- Methods with the same outline have the same `Code` attribute. -/
theorem codeAttribute_of_outline_eq (hmatches : layout.Matches layout' m m')
    (hbinds : layout.Binds m) (code : Bytes) :
    layout'.codeAttribute m' limits code = layout.codeAttribute m limits code := by
  -- Table by table: the rows differ in their labels alone, and those have the same offsets.
  have hagrees := hmatches.agrees
  have hhandlers : Layout.table "exception handlers" m'.handlers layout'.encodeHandler
      = Layout.table "exception handlers" m.handlers layout.encodeHandler :=
    Layout.table_congr (congrArg Outline.handlers hout) fun row hrow _ heq =>
      hagrees.encodeHandler heq (hbinds.handlers row hrow)
  have hlines : Layout.tableAttribute "LineNumberTable" "line numbers" m'.lines layout'.encodeLine
      = Layout.tableAttribute "LineNumberTable" "line numbers" m.lines layout.encodeLine :=
    Layout.tableAttribute_congr (congrArg Outline.lines hout) fun row hrow _ heq =>
      hagrees.encodeLine heq (hbinds.lines row hrow)
  have hlocals (name : String) (table : LocalTable)
      (hrows : (m'.localsIn table).map (·.mapLabels (indexLabel m'.events))
        = (m.localsIn table).map (·.mapLabels (indexLabel m.events))) :
      Layout.tableAttribute name "local variables" (m'.localsIn table) layout'.encodeLocal
        = Layout.tableAttribute name "local variables" (m.localsIn table) layout.encodeLocal :=
    Layout.tableAttribute_congr hrows fun row hrow _ heq =>
      hagrees.encodeLocal heq (hbinds.locals table row hrow)
  have hframes : layout'.frameAttribute = layout.frameAttribute := by
    have hlength := congrArg List.length hmatches.frames
    rw [List.length_map, List.length_map, Array.length_toList, Array.length_toList] at hlength
    have hempty : layout'.frames.isEmpty = layout.frames.isEmpty := by
      unfold Array.isEmpty
      rw [hlength]
    have hmap : layout'.stackMap = layout.stackMap := by
      unfold Layout.stackMap
      rw [hlength, hagrees.encodeFrames hmatches.frames hbinds.frames]
    unfold Layout.frameAttribute
    rw [hempty, hmap]
  have hattributes : layout'.codeAttributes m' = layout.codeAttributes m := by
    rw [Layout.codeAttributes_eq, Layout.codeAttributes_eq, hlines,
      hlocals _ .descriptors (congrArg Outline.descriptors hout),
      hlocals _ .signatures (congrArg Outline.signatures hout), hframes]
  unfold Layout.codeAttribute
  rw [hhandlers, hattributes]

/-- **A method is written as any other with the same outline.** -/
theorem finish_of_outline_eq (hlabels : (labels m'.events).Nodup) {emitted : Emitted}
    (hy : Yields m.finish b (bytes, emitted) c) :
    ∃ emitted', Yields m'.finish b (bytes, emitted') c := by
  obtain ⟨name, s, descriptor, t, code, u, others, count, hname, hdescriptor, hcode, horigin,
    hothers, hcount, hbytes⟩ := MethodSource.yields_finish.mp hy
  have hlimits : m'.limits = m.limits := congrArg Outline.limits hout
  have hattributes := attributes_of_outline_eq hout
  -- The code is the part where labels matter; the rest is read off the outline.
  have hpart : ∃ emitted', Yields m'.codePart t (code, emitted') u := by
    rcases MethodSource.yields_codePart.mp hcode with ⟨hnone, rfl, -, rfl⟩ |
      ⟨limits, attr, hsome, rfl, hattr⟩
    · exact ⟨_, MethodSource.yields_codePart.mpr (.inl ⟨hlimits ▸ hnone, rfl, rfl, rfl⟩)⟩
    · obtain ⟨layout, v, code, hlayout, hresolved, hsize, hne, hattr, -⟩ :=
        MethodSource.yields_emitCode.mp hattr
      have hlays := Layout.lays_of_ofMethod hlayout
      have hbinds := Layout.binds_of_codeAttribute hattr
      obtain ⟨layout', hlayout', hmatches⟩ :=
        matches_of_outline_eq hout hlays hsize (Layout.frames_ascend hlays hbinds) hlabels
      refine ⟨_, MethodSource.yields_codePart.mpr (.inr ⟨limits, attr, hlimits ▸ hsome, rfl,
        MethodSource.yields_emitCode.mpr ⟨layout', v, code, hlayout', ?_, ?_, ?_, ?_, rfl⟩⟩)⟩
      · exact code_eq_ok.mpr (hmatches.agrees.resolvesAll hmatches.placed (code_eq_ok.mp hresolved))
      · rw [hmatches.size_eq]
        exact hsize
      · rw [hmatches.size_eq]
        exact hne
      · rw [codeAttribute_of_outline_eq hout hmatches hbinds]
        exact hattr
  obtain ⟨emitted', hpart⟩ := hpart
  have haccess : m'.access = m.access := congrArg Outline.access hout
  refine ⟨emitted', MethodSource.yields_finish.mpr ⟨name, s, descriptor, t, code, u, others, count,
    ?_, ?_, hpart, ?_, ?_, hcount, ?_⟩⟩
  · rw [show m'.name = m.name from congrArg Outline.name hout]
    exact hname
  · rw [show m'.descriptor = m.descriptor from congrArg Outline.descriptor hout]
    exact hdescriptor
  · rw [hattributes]
    exact horigin
  · rw [hattributes]
    exact hothers
  · rw [haccess]
    exact hbytes

end Outlines

/-! ### Writing a method again -/

/-- **A method that is written again** comes out the same if the pool has all that it took, and adds
nothing to the pool. -/
theorem finish_again {emitted : Emitted} (hy : Yields m.finish b (bytes, emitted) c)
    (hq : q.Covers c) : Yields m.finish q (bytes, emitted) q := by
  obtain ⟨name, s, descriptor, t, code, u, others, count, hname, hdescriptor, hcode, horigin,
    hothers, hcount, hbytes⟩ := MethodSource.yields_finish.mp hy
  have hwithin := m.within_true
  have huses := Layout.uses_namedAttributes (R := fun _ => True) hwithin.attributes
  -- The last pool covers every earlier one, and what it covers is replayed without change.
  have hu : q.Covers u := hq.of_grows (huses.grows hothers)
  have ht : q.Covers t := hu.of_grows (MethodSource.grows_codePart hwithin hcode)
  have hutf8 (text : String) : Pooling.Uses (fun _ => True) (Pooling.utf8 text) := uses_utf8 trivial
  have hs : q.Covers s := ht.of_grows ((hutf8 _).grows hdescriptor)
  refine MethodSource.yields_finish.mpr ⟨name, q, descriptor, q, code, q, others, count,
    (hutf8 _).replays hname hs, (hutf8 _).replays hdescriptor ht, ?_, ?_, huses.replays hothers hq,
    hcount, hbytes⟩
  · -- A method without code asks for nothing more.
    rcases MethodSource.yields_codePart.mp hcode with ⟨hnone, rfl, rfl, -⟩ |
      ⟨limits, attr, hsome, rfl, hattr⟩
    · exact MethodSource.yields_codePart.mpr (.inl ⟨hnone, rfl, rfl, rfl⟩)
    · obtain ⟨layout, v, resolved, hlayout, hresolved, hsize, hne, hattr, hemitted⟩ :=
        MethodSource.yields_emitCode.mp hattr
      have hcodeUses := @Layout.uses_codeAttribute _ _ limits _ resolved hwithin
        trivial (Layout.lays_of_ofMethod hlayout).toPlaces
      exact MethodSource.yields_codePart.mpr (.inr ⟨limits, attr, hsome, rfl,
        MethodSource.yields_emitCode.mpr ⟨layout, q, resolved,
          (Layout.uses_ofMethod hwithin).replays hlayout (hu.of_grows (hcodeUses.grows hattr)),
          hresolved, hsize, hne, hcodeUses.replays hattr hu, hemitted⟩⟩)
  · exact horigin.imp_right hu.origin

end RoundingPatch.ClassFile
