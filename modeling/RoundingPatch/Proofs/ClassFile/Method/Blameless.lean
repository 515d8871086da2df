import RoundingPatch.Proofs.Blameless
import RoundingPatch.Proofs.ClassFile.Code.Bodies
import RoundingPatch.Proofs.ClassFile.Method.Bound
/-!
# Finishing is blameless

A method is `Finishable` if its events are consistent in what they say about labels, operands and
frames. Finishing such a method does not fail with a fault of kind `internal`
(`MethodSource.Finishable.blamelessFrom_finish`). What is left to fail for is a want of room, in the
pool, in a table or in a branch.
-/

namespace RoundingPatch.ClassFile

open MethodEvent

/-! ### Adding to the pool -/

namespace Pooling

variable {α β : Type} (b : PoolBuilder)

theorem blamelessFrom_fail {fault : Fault} (h : fault.kind ≠ .internal) :
    BlamelessFrom (fail fault : Pooling α) b :=
  blamelessFrom_throw h b

theorem blamelessFrom_lift {answer : Except Fault α} (h : Blameless answer) :
    BlamelessFrom (lift answer) b :=
  h.from b

/-- A check in front of a step, whose fault is not the library's or never comes up. -/
theorem blamelessFrom_check {fails : Prop} [Decidable fails] {fault : Fault} {rest : Pooling α}
    (hfault : fails → fault.kind ≠ .internal) (h : BlamelessFrom rest b) : BlamelessFrom (do
      if fails then fail fault
      rest) b := by
  split
  · next hfails =>
    exact (blamelessFrom_fail b (hfault hfails)).bind fun _ _ hy => absurd hy yields_fail
  · exact h

theorem blamelessFrom_push (s : Symbol) (e : PoolEntry) : BlamelessFrom (push s e) b := by
  refine blamelessFrom_get_bind ?_
  split
  · exact (blamelessFrom_set _ _).bind fun _ _ _ => blamelessFrom_pure _ _
  · exact blamelessFrom_fail b nofun

/-- Asking for an entry is blameless if making it is: a full pool is a limit of the format. -/
theorem blamelessFrom_intern {s : Symbol} {make : Pooling PoolEntry} (h : BlamelessFrom make b) :
    BlamelessFrom (intern s make) b := by
  refine blamelessFrom_get_bind ?_
  split
  · exact blamelessFrom_pure _ _
  · exact h.bind fun _ t _ => blamelessFrom_push t _ _

theorem blamelessFrom_utf8 (text : String) : BlamelessFrom (utf8 text) b := by
  refine blamelessFrom_intern b ?_
  split
  · exact blamelessFrom_pure _ _
  · exact blamelessFrom_fail b nofun

theorem blamelessFrom_classRef (name : String) : BlamelessFrom (classRef name) b :=
  blamelessFrom_intern b ((blamelessFrom_utf8 b _).bind fun _ _ _ => blamelessFrom_pure _ _)

theorem blamelessFrom_nameAndType (name descriptor : String) :
    BlamelessFrom (nameAndType name descriptor) b :=
  blamelessFrom_intern b ((blamelessFrom_utf8 b _).bind fun _ t _ =>
    (blamelessFrom_utf8 t _).bind fun _ _ _ => blamelessFrom_pure _ _)

theorem blamelessFrom_member (ref : MemberRef) : BlamelessFrom (member ref) b :=
  blamelessFrom_intern b ((blamelessFrom_classRef b _).bind fun _ t _ =>
    (blamelessFrom_nameAndType t _ _).bind fun _ _ _ => blamelessFrom_pure _ _)

/-- So is asking for a constant. -/
theorem blamelessFrom_constant (constant : Constant) :
    BlamelessFrom (Pooling.constant constant) b := by
  cases constant with
  | integer value => exact blamelessFrom_intern b (blamelessFrom_pure _ _)
  | float bits => exact blamelessFrom_intern b (blamelessFrom_pure _ _)
  | long value => exact blamelessFrom_intern b (blamelessFrom_pure _ _)
  | double bits => exact blamelessFrom_intern b (blamelessFrom_pure _ _)
  | string text =>
    exact blamelessFrom_intern b ((blamelessFrom_utf8 b _).bind fun _ _ _ => blamelessFrom_pure _ _)
  | classRef name => exact blamelessFrom_classRef b _
  | pooled index =>
    exact blamelessFrom_get_bind (blamelessFrom_check b (fun _ => nofun) (blamelessFrom_pure _ _))

end Pooling

/-! ### Instructions -/

theorem blameless_methodDescriptor (s : String) : Blameless (MethodDescriptor.parse s) := by
  unfold MethodDescriptor.parse
  split
  · split
    · exact failsAs_error nofun
    · exact failsAs_ok _
    · split
      · exact failsAs_ok _
      · exact failsAs_error nofun
  · exact failsAs_error nofun

namespace Insn

open Pooling

theorem blameless_encodeVar {op : Opcode} (h : Opcode.isVar op = true) (index : UInt16) :
    Blameless (encodeVar op index) := by
  unfold encodeVar
  rw [if_neg (by simp [h])]
  split
  · split <;> exact failsAs_ok _
  · exact failsAs_ok _

/-- An encodable instruction is encoded unless the pool is full. -/
theorem Encodable.blamelessFrom {i : Insn} (h : i.Encodable) (offset : Nat) (b : PoolBuilder) :
    BlamelessFrom (i.encode offset) b := by
  cases i with
  | int op operand =>
    obtain ⟨bytes, hbytes⟩ := h
    refine (blamelessFrom_lift b ?_).bind fun _ _ _ => blamelessFrom_pure _ _
    rw [hbytes]
    exact failsAs_ok _
  | var op index =>
    exact (blamelessFrom_lift b (blameless_encodeVar h index)).bind fun _ _ _ =>
      blamelessFrom_pure _ _
  | type op name => exact (blamelessFrom_classRef b _).bind fun _ _ _ => blamelessFrom_pure _ _
  | field op owner name descriptor =>
    exact (blamelessFrom_member b _).bind fun _ _ _ => blamelessFrom_pure _ _
  | method op owner name descriptor onInterface =>
    refine (blamelessFrom_member b _).bind fun _ t _ => ?_
    split
    · exact (blamelessFrom_lift t (blameless_methodDescriptor _)).bind fun _ _ _ =>
        blamelessFrom_pure _ _
    · exact blamelessFrom_pure _ _
  | callSite index =>
    exact blamelessFrom_get_bind (blamelessFrom_check b (fun _ => nofun) (blamelessFrom_pure _ _))
  | ldc constant => exact (blamelessFrom_constant b _).bind fun _ _ _ => blamelessFrom_pure _ _
  | jump op target =>
    rw [encode]
    split <;> exact blamelessFrom_pure _ _
  -- The number of targets is what could be blamed on the writer.
  | tableSwitch low high default targets =>
    exact blamelessFrom_check b (fun hfails => absurd h hfails) (blamelessFrom_pure _ _)
  | multiArray name dimensions =>
    exact (blamelessFrom_classRef b _).bind fun _ _ _ => blamelessFrom_pure _ _
  | _ => exact blamelessFrom_pure _ _

end Insn

/-! ### Layouts -/

namespace Layout

variable {layout : Layout} {name : String} {events : List MethodEvent}

theorem blameless_next (layout : Layout) : Blameless layout.next := by
  unfold next
  split
  · exact failsAs_ok _
  · exact failsAs_error nofun

/-- **Events are placed** unless there is no room: their operands are right, no label is bound
twice, and no two frames stand at one position. -/
theorem blamelessFrom_place (hinsns : ∀ i ∈ insns events, i.Encodable)
    (hfresh : ∀ l ∈ labels events, layout.offsets[l]? = none) (hlabels : (labels events).Nodup)
    (hback : ∀ p ∈ layout.frames.back?, p.1 ≤ layout.size ∧
      ∀ q ∈ framesFrom 0 events, p.1 = layout.size → q.1 ≠ 0)
    (hframes : (framesFrom 0 events).Pairwise fun p q => p.1 < q.1) (b : PoolBuilder) :
    BlamelessFrom (events.foldlM (place name) layout) b := by
  -- Each event can be refused for one reason of its own besides room; that the reason is absent is
  -- one of the hypotheses, and each of them is handed on.
  induction events generalizing layout b with
  | nil => exact blamelessFrom_pure _ _
  | cons e events ih =>
    rw [List.foldlM_cons]
    cases e with
    | label l =>
      rw [labels_cons_label, List.nodup_cons] at hlabels
      rw [labels_cons_label, List.forall_mem_cons] at hfresh
      refine BlamelessFrom.bind ?_ fun next t hnext => ?_
      · refine (Pooling.blamelessFrom_lift b (blameless_next _)).bind fun offset t _ => ?_
        have hcontains : layout.offsets.contains l = false := by
          rw [Std.TreeMap.contains_eq_isSome_getElem?, hfresh.1]
          rfl
        exact Pooling.blamelessFrom_check t (by simp [hcontains]) (blamelessFrom_pure _ _)
      · obtain ⟨-, -, rfl, rfl⟩ := yields_place_label.mp hnext
        refine ih hinsns (fun l' hl' => ?_) hlabels.2 ?_ hframes t
        · rw [offsets_insert, if_neg (by rintro rfl; exact hlabels.1 hl')]
          exact hfresh.2 l' hl'
        · exact hback
    | frame f =>
      rw [framesFrom, List.pairwise_cons] at hframes
      refine BlamelessFrom.bind ?_ fun next t hnext => ?_
      · refine (Pooling.blamelessFrom_lift b (blameless_next _)).bind fun offset t hoffset => ?_
        obtain ⟨hnext, rfl⟩ := Pooling.yields_lift.mp hoffset
        obtain ⟨-, rfl⟩ := next_eq_ok.mp hnext
        have hbefore : layout.frames.back?.any (·.1 == layout.size) = false := by
          rw [Option.any_eq_false]
          intro p hp
          have hne := (hback p hp).2 (0, f) List.mem_cons_self
          simpa using fun h => hne h rfl
        exact Pooling.blamelessFrom_check _ (by simp [hbefore]) (blamelessFrom_pure _ _)
      · obtain ⟨-, -, rfl, rfl⟩ := yields_place_frame.mp hnext
        refine ih hinsns ?_ hlabels (fun p hp => ?_) hframes.2 t
        · exact hfresh
        · rw [Array.back?_push, Option.mem_some] at hp
          subst hp
          exact ⟨Nat.le_refl _, fun q hq _ => Nat.ne_of_gt (hframes.1 q hq)⟩
    | insn i =>
      rw [insns_cons_insn, List.forall_mem_cons] at hinsns
      rw [framesFrom, framesFrom_add] at hframes
      refine BlamelessFrom.bind ?_ fun next t hnext => ?_
      · exact (Pooling.blamelessFrom_lift b (blameless_next _)).bind fun offset t _ =>
          (hinsns.1.blamelessFrom offset t).bind fun _ _ _ => blamelessFrom_pure _ _
      · obtain ⟨chunks, -, hencode, rfl⟩ := yields_place_insn.mp hnext
        -- Behind an instruction the last frame no longer stands at the place reached.
        have hpos := chunksSize_pos_of_encode hencode
        refine ih hinsns.2 ?_ hlabels (fun p hp => ?_) ?_ t
        · exact hfresh
        · have hle := (hback p hp).1
          dsimp only
          exact ⟨by omega, fun _ _ heq => by omega⟩
        · rw [List.pairwise_map] at hframes
          exact hframes.imp fun h => by simpa using h
    | _ =>
      refine (blamelessFrom_pure _ _).bind fun next t hnext => ?_
      obtain ⟨rfl, rfl⟩ := yields_pure.mp hnext
      exact ih hinsns hfresh hlabels hback hframes _

/-! ### Distances -/

/-- The labels whose distances a chunk holds. -/
def chunkLabels : Chunk → List Label
  | .bytes _ => []
  | .near l | .far l => [l]

/-- The chunks of an instruction hold distances to its own targets. -/
theorem mem_targets_of_encode {i : Insn} {offset : Nat} {b c : PoolBuilder} {chunks : List Chunk}
    (h : Yields (i.encode offset) b chunks c) :
    ∀ chunk ∈ chunks, ∀ l ∈ chunkLabels chunk, l ∈ i.targets := by
  have hplain (bytes : Bytes) : ∀ chunk ∈ [Chunk.bytes bytes], ∀ l ∈ chunkLabels chunk,
      l ∈ i.targets := by
    simp [chunkLabels]
  -- Only jumps and switches have chunks with labels; the others are plain bytes.
  cases i with
  | jump op target =>
    rw [Insn.encode] at h
    split at h
    all_goals
      obtain ⟨rfl, rfl⟩ := yields_pure.mp h
      simp [chunkLabels, Insn.targets]
  | tableSwitch low high default targets =>
    rw [Insn.encode] at h
    split at h
    · exact absurd h Pooling.yields_fail_bind
    · obtain ⟨rfl, rfl⟩ := yields_pure.mp h
      simp only [List.cons_append, List.nil_append, List.mem_cons, List.mem_map]
      rintro chunk (rfl | rfl | rfl | ⟨l, hl, rfl⟩) <;> simp_all [chunkLabels, Insn.targets]
  | lookupSwitch default pairs =>
    obtain ⟨rfl, rfl⟩ := yields_pure.mp h
    simp only [List.cons_append, List.nil_append, List.mem_cons, List.mem_flatMap,
      List.not_mem_nil, or_false]
    rintro chunk (rfl | rfl | rfl | ⟨p, hp, rfl | rfl⟩) <;>
      simp [chunkLabels, Insn.targets]
    exact .inr ⟨_, hp⟩
  | int op operand =>
    obtain ⟨_, _, h⟩ := Pooling.yields_lift_bind.mp h
    obtain ⟨rfl, rfl⟩ := yields_pure.mp h
    exact hplain _
  | var op index =>
    obtain ⟨_, _, h⟩ := Pooling.yields_lift_bind.mp h
    obtain ⟨rfl, rfl⟩ := yields_pure.mp h
    exact hplain _
  | method op owner name descriptor onInterface =>
    obtain ⟨_, _, _, h⟩ := yields_bind.mp h
    split at h
    · obtain ⟨_, _, h⟩ := Pooling.yields_lift_bind.mp h
      obtain ⟨rfl, rfl⟩ := yields_pure.mp h
      exact hplain _
    · obtain ⟨rfl, rfl⟩ := yields_pure.mp h
      exact hplain _
  | callSite index =>
    rw [Insn.encode, yields_get_bind] at h
    split at h
    · exact absurd h Pooling.yields_fail_bind
    · obtain ⟨rfl, rfl⟩ := yields_pure.mp h
      exact hplain _
  | simple op =>
    obtain ⟨rfl, rfl⟩ := yields_pure.mp h
    exact hplain _
  | iinc index delta =>
    obtain ⟨rfl, rfl⟩ := yields_pure.mp h
    exact hplain _
  | _ =>
    obtain ⟨_, _, _, h⟩ := yields_bind.mp h
    obtain ⟨rfl, rfl⟩ := yields_pure.mp h
    exact hplain _

/-- The labels in the chunks are targets of the instructions. -/
theorem mem_targets_of_encodeAll {start : Nat} {code : List Insn} {b c : PoolBuilder}
    {placed : Placed} (h : Yields (encodeAll start code) b placed c) :
    ∀ p ∈ placed, ∀ chunk ∈ p.2, ∀ l ∈ chunkLabels chunk, ∃ i ∈ code, l ∈ i.targets := by
  induction code generalizing start b placed with
  | nil =>
    obtain ⟨rfl, rfl⟩ := yields_pure.mp h
    simp
  | cons i code ih =>
    obtain ⟨chunks, rest, m, rfl, hi, hrest⟩ := yields_encodeAll_cons.mp h
    rw [List.forall_mem_cons]
    refine ⟨fun chunk hchunk l hl =>
      ⟨i, List.mem_cons_self, mem_targets_of_encode hi chunk hchunk l hl⟩,
      fun p hp chunk hchunk l hl => ?_⟩
    obtain ⟨j, hj, hl⟩ := ih hrest p hp chunk hchunk l hl
    exact ⟨j, List.mem_cons_of_mem _ hj, hl⟩

theorem blameless_offsetIn {l : Label} (h : layout.Bound l) :
    Blameless (offsetIn layout.offsets l) := by
  obtain ⟨t, ht⟩ := h
  rw [offsetIn_eq_ok.mpr ht]
  exact failsAs_ok _

/-- A chunk whose labels are bound resolves, or its distance is too far. -/
theorem blameless_resolve {offset : Nat} {chunk : Chunk}
    (h : ∀ l ∈ chunkLabels chunk, layout.Bound l) :
    Blameless (resolve layout.offsets offset chunk) := by
  cases chunk with
  | bytes bs => exact failsAs_ok _
  | near l =>
    refine (blameless_offsetIn (h l List.mem_cons_self)).bind fun t _ => ?_
    dsimp only
    split
    · exact failsAs_ok _
    · exact failsAs_error nofun
  | far l => exact (blameless_offsetIn (h l List.mem_cons_self)).bind fun t _ => failsAs_ok _

/-- **Distances are filled in** unless a branch is too long: every label has an offset. -/
theorem blameless_code
    (h : ∀ p ∈ layout.placedList, ∀ chunk ∈ p.2, ∀ l ∈ chunkLabels chunk, layout.Bound l) :
    Blameless layout.code := by
  refine (failsAs_mapM fun piece hpiece => ?_).bind fun _ _ => failsAs_ok _
  obtain ⟨p, hp, hpiece⟩ := List.mem_flatMap.mp hpiece
  obtain ⟨chunk, hchunk, rfl⟩ := List.mem_map.mp hpiece
  exact blameless_resolve (h p hp chunk hchunk)

/-! ### Tables -/

variable (b : PoolBuilder)

theorem blameless_offsetU2 {l : Label} (h : layout.Bound l) : Blameless (layout.offsetU2 l) :=
  (blameless_offsetIn h).map _

theorem blamelessFrom_namedAttribute (name : String) (info : Bytes) :
    BlamelessFrom (namedAttribute name info) b :=
  (Pooling.blamelessFrom_utf8 b _).bind fun _ t _ =>
    (Pooling.blamelessFrom_lift t (blameless_lengthU4 _ _)).bind fun _ _ _ => blamelessFrom_pure _ _

theorem blamelessFrom_table {α : Type} {what : String} {rows : List α} {encode : α → Pooling Bytes}
    (h : ∀ row ∈ rows, ∀ b, BlamelessFrom (encode row) b) :
    BlamelessFrom (table what rows encode) b :=
  (Pooling.blamelessFrom_lift b (blameless_countU2 _ _)).bind fun _ t _ =>
    (blamelessFrom_mapM h t).bind fun _ _ _ => blamelessFrom_pure _ _

theorem blamelessFrom_tableAttribute {α : Type} {name what : String} {rows : List α}
    {encode : α → Pooling Bytes} (h : ∀ row ∈ rows, ∀ b, BlamelessFrom (encode row) b) :
    BlamelessFrom (tableAttribute name what rows encode) b := by
  unfold tableAttribute
  split
  · exact blamelessFrom_pure _ _
  · exact (blamelessFrom_table b h).bind fun _ t _ =>
      (blamelessFrom_namedAttribute t _ _).bind fun _ _ _ => blamelessFrom_pure _ _

/-- A handler is written if its labels are bound. -/
theorem blamelessFrom_encodeHandler {handler : TryCatch}
    (h : ∀ l ∈ handler.labels, layout.Bound l) :
    BlamelessFrom (layout.encodeHandler handler) b := by
  have hlift {l : Label} (hl : l ∈ handler.labels) (b : PoolBuilder) :
      BlamelessFrom (Pooling.lift (layout.offsetU2 l)) b :=
    Pooling.blamelessFrom_lift b (blameless_offsetU2 (h l hl))
  refine (hlift (by simp [TryCatch.labels]) b).bind fun _ t _ =>
    (hlift (by simp [TryCatch.labels]) t).bind fun _ u _ =>
    (hlift (by simp [TryCatch.labels]) u).bind fun _ v _ => ?_
  dsimp only
  split
  · exact (Pooling.blamelessFrom_classRef v _).bind fun _ _ _ => blamelessFrom_pure _ _
  · exact (blamelessFrom_pure _ _).bind fun _ _ _ => blamelessFrom_pure _ _

theorem blamelessFrom_encodeLine {line : UInt16 × Label} (h : layout.Bound line.2) :
    BlamelessFrom (layout.encodeLine line) b :=
  (Pooling.blamelessFrom_lift b (blameless_offsetU2 h)).bind fun _ _ _ => blamelessFrom_pure _ _

/-- A variable is written if its range ends behind its start. -/
theorem blamelessFrom_encodeLocal {v : LocalVariable} {start stop : Nat}
    (hstart : layout.offsets[v.start]? = some start) (hstop : layout.offsets[v.stop]? = some stop)
    (hle : start ≤ stop) (hfits : stop ≤ 65535) : BlamelessFrom (layout.encodeLocal v) b := by
  refine (Pooling.blamelessFrom_lift b (blameless_offsetU2 ⟨_, hstart⟩)).bind fun s _ hs =>
    (Pooling.blamelessFrom_lift _ (blameless_offsetU2 ⟨_, hstop⟩)).bind fun t _ ht => ?_
  have hvalue {l : Label} {n : Nat} (hl : layout.offsets[l]? = some n) :
      layout.offsetU2 l = .ok (UInt16.ofNat n) := by
    rw [offsetU2, offsetIn_eq_ok.mpr hl]
    rfl
  rw [hvalue hstart] at hs
  rw [hvalue hstop] at ht
  obtain ⟨hs, -⟩ := Pooling.yields_lift.mp hs
  obtain ⟨ht, -⟩ := Pooling.yields_lift.mp ht
  cases hs
  cases ht
  -- Offsets fit in a short, so their order survives.
  have hforward : ¬ UInt16.ofNat stop < UInt16.ofNat start := by
    have hsize : UInt16.size = 65536 := rfl
    rw [UInt16.lt_iff_toNat_lt, UInt16.toNat_ofNat_of_lt' (by omega),
      UInt16.toNat_ofNat_of_lt' (by omega)]
    omega
  exact Pooling.blamelessFrom_check _ (fun h => absurd h hforward)
    ((Pooling.blamelessFrom_utf8 _ _).bind fun _ _ _ =>
      (Pooling.blamelessFrom_utf8 _ _).bind fun _ _ _ => blamelessFrom_pure _ _)

theorem blamelessFrom_encodeVType {v : VType} (h : ∀ l ∈ v.labels, layout.Bound l) :
    BlamelessFrom (layout.encodeVType v) b := by
  cases v with
  | object name =>
    exact (Pooling.blamelessFrom_classRef b _).bind fun _ _ _ => blamelessFrom_pure _ _
  | uninitialized l =>
    exact (Pooling.blamelessFrom_lift b (blameless_offsetU2
      (h l List.mem_cons_self))).bind fun _ _ _ => blamelessFrom_pure _ _
  | _ => exact blamelessFrom_pure _ _

/-- A frame is written if its numbers fit and its labels are bound. -/
theorem blamelessFrom_encodeFrame {frame : Frame} (hframe : frame.Encodable)
    (h : ∀ l ∈ frame.labels, layout.Bound l) (delta : Nat) :
    BlamelessFrom (layout.encodeFrame delta frame) b := by
  have htypes {v : VType} (hv : v ∈ frame.types) (b : PoolBuilder) :
      BlamelessFrom (layout.encodeVType v) b :=
    blamelessFrom_encodeVType b fun l hl => h l (List.mem_flatMap.mpr ⟨v, hv, hl⟩)
  refine Pooling.blamelessFrom_check b (fun _ => nofun) ?_
  cases frame with
  | same => exact blamelessFrom_pure _ _
  | sameWithOne stack =>
    exact (htypes List.mem_cons_self b).bind fun _ _ _ => blamelessFrom_pure _ _
  | chop count =>
    refine Pooling.blamelessFrom_check b (fun hfails => ?_) (blamelessFrom_pure _ _)
    obtain ⟨hlow, hhigh⟩ := hframe
    rw [UInt8.le_iff_toNat_le] at hlow hhigh
    rw [UInt8.lt_iff_toNat_lt, UInt8.lt_iff_toNat_lt] at hfails
    omega
  | append locals =>
    refine Pooling.blamelessFrom_check b (fun hfails => ?_)
      ((blamelessFrom_mapM (fun v hv => htypes hv) b).bind fun _ _ _ => blamelessFrom_pure _ _)
    obtain ⟨hlow, hhigh⟩ := hframe
    omega
  | full locals stack =>
    exact (blamelessFrom_table b fun v hv => htypes (List.mem_append_left _ hv)).bind fun _ t _ =>
      (blamelessFrom_table t fun v hv => htypes (List.mem_append_right _ hv)).bind fun _ _ _ =>
      blamelessFrom_pure _ _

/-- **Frames are written** if they come in order, each at an offset of its own. -/
theorem blamelessFrom_encodeFrames {frames : List (Nat × Frame)} {previous : Option Nat}
    (hframes : ∀ p ∈ frames, p.2.Encodable ∧ ∀ l ∈ p.2.labels, layout.Bound l)
    (hprevious : ∀ before ∈ previous, ∀ p ∈ frames, before < p.1)
    (hascending : frames.Pairwise fun p q => p.1 < q.1) :
    BlamelessFrom (layout.encodeFrames previous frames) b := by
  induction frames generalizing previous b with
  | nil => exact blamelessFrom_pure _ _
  | cons p frames ih =>
    obtain ⟨offset, frame⟩ := p
    rw [List.forall_mem_cons] at hframes
    rw [List.pairwise_cons] at hascending
    -- Behind the first frame the others count from it, whatever its distance is.
    have hrest (delta : Nat) (b : PoolBuilder) : BlamelessFrom (do
        let bytes ← layout.encodeFrame delta frame
        return bytes ++ (← layout.encodeFrames (some offset) frames)) b :=
      (blamelessFrom_encodeFrame b hframes.1.1 hframes.1.2 delta).bind fun _ t _ =>
        (ih t hframes.2 (by rintro _ ⟨⟩; exact hascending.1) hascending.2).bind fun _ _ _ =>
        blamelessFrom_pure _ _
    rw [encodeFrames.eq_def]
    dsimp only
    split
    · exact (blamelessFrom_pure _ _).bind fun _ t _ => hrest _ t
    · next before =>
      rw [if_pos (hprevious before rfl (offset, frame) List.mem_cons_self)]
      exact (blamelessFrom_pure _ _).bind fun _ t _ => hrest _ t

end Layout

/-! ### Whole methods -/

/-- A method whose events are consistent. -/
structure MethodSource.Finishable (m : MethodSource) : Prop where
  closed : m.Closed
  nodup : (MethodEvent.labels m.events).Nodup
  insns : ∀ i ∈ MethodEvent.insns m.events, i.Encodable
  /-- No two frames stand at one instruction, and none behind the last one. -/
  ascending : (framesFrom 0 m.events).Pairwise fun p q => p.1 < q.1
  inside : ∀ p ∈ framesFrom 0 m.events, p.1 < (MethodEvent.insns m.events).length
  frames : ∀ p ∈ framesFrom 0 m.events, p.2.Encodable
  /-- The variables end where they start or behind it. -/
  forwards : ∀ table, ∀ v ∈ m.localsIn table, ∀ s t, position v.start m.events = some s →
    position v.stop m.events = some t → s ≤ t
  nonempty : m.limits.isSome → MethodEvent.insns m.events ≠ []

namespace Layout

variable {m : MethodSource} {layout : Layout} {b c : PoolBuilder} (hlays : layout.Lays m b c)
include hlays

/-- A label that an event binds has an offset. -/
theorem Lays.bound {l : Label} (h : MethodEvent.Binds m.events l) : layout.Bound l := by
  obtain ⟨n, hn⟩ := h
  exact ⟨_, hlays.offset_of_position hn⟩

/-- Later instructions have later offsets. -/
theorem Lays.offsetAt_mono {s t : Nat} (hst : s ≤ t) :
    layout.placedList.offsetAt 0 s ≤ layout.placedList.offsetAt 0 t := by
  rcases Nat.lt_or_eq_of_le hst with hlt | rfl
  · rcases Nat.lt_or_ge s layout.placedList.length with hs | hs
    · exact Nat.le_of_lt (Placed.offsetAt_lt hlays.contiguous hlt hs)
    · rw [Placed.offsetAt_of_length_le hs, Placed.offsetAt_of_length_le (by omega)]
  · exact Nat.le_refl _

/-- Every label in a layout of a finishable method has an offset, and the frames ascend. -/
theorem Lays.binds (h : m.Finishable) : layout.Binds m where
  handlers row hrow l hl := hlays.bound (h.closed.handlers row hrow l hl)
  lines line hline := hlays.bound (h.closed.lines line hline)
  locals table v hv l hl := hlays.bound (h.closed.locals table v hv l hl)
  frames p hp l hl := by
    rw [hlays.frames_eq] at hp
    obtain ⟨q, hq, rfl⟩ := List.mem_map.mp hp
    exact hlays.bound (h.closed.frames q hq l hl)
  ascending := by
    rw [hlays.frames_eq, List.pairwise_map]
    refine h.ascending.imp_of_mem fun {p q} hp hq hpq => ?_
    exact Placed.offsetAt_lt hlays.contiguous hpq (hlays.length_eq ▸ h.inside p hp)

theorem Lays.frames_encodable (h : m.Finishable) : ∀ p ∈ layout.frames.toList, p.2.Encodable := by
  intro p hp
  rw [hlays.frames_eq] at hp
  obtain ⟨q, hq, rfl⟩ := List.mem_map.mp hp
  exact h.frames q hq

/-- The code of a method that can be finished resolves, or a distance is too far. -/
theorem Lays.blameless_code (h : m.Finishable) : Blameless layout.code := by
  refine Layout.blameless_code fun p hp chunk hchunk l hl => ?_
  obtain ⟨i, hi, hl⟩ := mem_targets_of_encodeAll hlays.encodes p hp chunk hchunk l hl
  exact hlays.bound (h.closed.insns i hi l hl)

/-- The tables of such a method can be written. -/
theorem Lays.blamelessFrom_codeAttributes (h : m.Finishable) (hsize : layout.size ≤ 65535)
    (d : PoolBuilder) : BlamelessFrom (layout.codeAttributes m) d := by
  have hbinds := hlays.binds h
  -- Both tables of variables are written in the same way.
  have hlocals (name : String) (table : LocalTable) (d : PoolBuilder) : BlamelessFrom
      (tableAttribute name "local variables" (m.localsIn table) layout.encodeLocal) d := by
    refine blamelessFrom_tableAttribute d fun v hv d => ?_
    obtain ⟨s, hs⟩ := h.closed.locals table v hv v.start (by simp [LocalVariable.labels])
    obtain ⟨t, ht⟩ := h.closed.locals table v hv v.stop (by simp [LocalVariable.labels])
    refine blamelessFrom_encodeLocal d (hlays.offset_of_position hs) (hlays.offset_of_position ht)
      (hlays.offsetAt_mono (h.forwards table v hv s t hs ht)) ?_
    rw [hlays.size_eq] at hsize
    exact Nat.le_trans (Placed.offsetAt_le_stop hlays.contiguous t) hsize
  rw [codeAttributes_eq]
  refine (blamelessFrom_tableAttribute d fun line hline d =>
    blamelessFrom_encodeLine d (hbinds.lines line hline)).bind fun _ d1 _ =>
    (hlocals _ .descriptors d1).bind fun _ d2 _ => (hlocals _ .signatures d2).bind fun _ d3 _ =>
    BlamelessFrom.bind ?_ fun _ _ _ => blamelessFrom_pure _ _
  unfold frameAttribute
  split
  · exact blamelessFrom_pure _ _
  · refine BlamelessFrom.bind ?_ fun _ d4 _ =>
      (blamelessFrom_namedAttribute d4 _ _).bind fun _ _ _ => blamelessFrom_pure _ _
    exact (Pooling.blamelessFrom_lift d3 (blameless_countU2 _ _)).bind fun _ d4 _ =>
      (blamelessFrom_encodeFrames d4 (fun p hp => ⟨hlays.frames_encodable h p hp,
        hbinds.frames p hp⟩) (by simp) hbinds.ascending).bind fun _ _ _ => blamelessFrom_pure _ _

theorem Lays.blamelessFrom_codeAttribute (h : m.Finishable) (hsize : layout.size ≤ 65535)
    (limits : UInt16 × UInt16) (code : Bytes) (d : PoolBuilder) :
    BlamelessFrom (layout.codeAttribute m limits code) d :=
  (Pooling.blamelessFrom_lift d (blameless_lengthU4 _ _)).bind fun _ d1 _ =>
    (blamelessFrom_table d1 fun row hrow d =>
      blamelessFrom_encodeHandler d ((hlays.binds h).handlers row hrow)).bind fun _ d2 _ =>
    (hlays.blamelessFrom_codeAttributes h hsize d2).bind fun _ d3 _ =>
    (Pooling.blamelessFrom_lift d3 (blameless_countU2 _ _)).bind fun _ d4 _ =>
    blamelessFrom_namedAttribute d4 _ _

end Layout

namespace MethodSource

variable {m : MethodSource}

/-- **The code of such a method can be emitted**, if it has an instruction. -/
theorem Finishable.blamelessFrom_emitCode (h : m.Finishable)
    (hinsns : MethodEvent.insns m.events ≠ [])
    (limits : UInt16 × UInt16) (b : PoolBuilder) : BlamelessFrom (m.emitCode limits) b := by
  refine BlamelessFrom.bind (Layout.blamelessFrom_place h.insns (fun _ _ => rfl) h.nodup (by simp)
    h.ascending b) fun layout c hlayout => ?_
  have hlays := Layout.lays_of_ofMethod hlayout
  refine (Pooling.blamelessFrom_lift c (hlays.blameless_code h)).bind fun code c1 _ =>
    (Pooling.blamelessFrom_lift c1 (Layout.blameless_next layout)).bind fun length c2 hlength => ?_
  obtain ⟨hnext, -⟩ := Pooling.yields_lift.mp hlength
  obtain ⟨hsize, rfl⟩ := Layout.next_eq_ok.mp hnext
  refine Pooling.blamelessFrom_check c2 (fun hempty => ?_)
    ((hlays.blamelessFrom_codeAttribute h hsize _ _ c2).bind fun _ _ _ => blamelessFrom_pure _ _)
  have hlength := Placed.length_le_stop hlays.contiguous
  have hpos := List.length_pos_of_ne_nil hinsns
  rw [hlays.length_eq, ← hlays.size_eq] at hlength
  omega

/-- **A finishable method is finished** unless there is no room for it. -/
theorem Finishable.blamelessFrom_finish (h : m.Finishable) (b : PoolBuilder) :
    BlamelessFrom m.finish b := by
  rw [finish_eq]
  refine (Pooling.blamelessFrom_utf8 b _).bind fun _ c _ =>
    (Pooling.blamelessFrom_utf8 c _).bind fun _ d _ => BlamelessFrom.bind ?_ fun part e _ =>
    blamelessFrom_get_bind (Pooling.blamelessFrom_check e (fun _ => nofun)
      ((blamelessFrom_mapM (fun attr _ b => Layout.blamelessFrom_namedAttribute b _ _) e).bind
        fun _ f _ => (Pooling.blamelessFrom_lift f (blameless_countU2 _ _)).bind
        fun _ _ _ => blamelessFrom_pure _ _))
  unfold codePart
  split
  · next limits hlimits =>
    exact (h.blamelessFrom_emitCode (h.nonempty (by rw [hlimits]; rfl)) limits d).bind
      fun _ _ _ => blamelessFrom_pure _ _
  · exact blamelessFrom_pure _ _

end MethodSource

end RoundingPatch.ClassFile
