import RoundingPatch.Proofs.ClassFile.Code.CodeArray
import RoundingPatch.Proofs.ClassFile.Code.Rows
/-!
# The tables of a body are spelled

Each row of the tables of a `Code` attribute is written with the offsets of its labels, and the
bytes spell the row with the labels of those offsets: exception handlers (`spelled_handler`), line
numbers (`spelled_line`), local variables (`spelled_local`) and stack map frames
(`spelled_frame`), whose offsets are written as steps from one frame to the next
(`spelled_frames`). `spelled_table` does a whole table.
-/

namespace RoundingPatch.ClassFile

open Read

variable {α β : Type} {R : Symbol → Prop} {b c : PoolBuilder} {pool : ConstantPool}

namespace Layout

/-- Every offset fits a field of two bytes. -/
def Fits (layout : Layout) : Prop :=
  ∀ (l : Label) (t : Nat), layout.offsets[l]? = some t → t ≤ 65535

/-- The offset of a label that is bound. -/
def offsetOf (layout : Layout) (label : Label) : Nat :=
  layout.offsets.getD label 0

/-- The label of the offset of a label. -/
def relabel (layout : Layout) (label : Label) : Label :=
  labelIn layout.offsets label

variable {layout : Layout} {bytes : Bytes}

theorem offsetOf_eq {label : Label} {t : Nat} (h : layout.offsets[label]? = some t) :
    layout.offsetOf label = t := by
  rw [offsetOf, Std.TreeMap.getD_eq_getD_getElem?, h]
  rfl

/-- A label is written as a short if it has an offset. -/
theorem offsetU2_eq_ok {label : Label} {v : UInt16} :
    layout.offsetU2 label = .ok v ↔
      ∃ t, layout.offsets[label]? = some t ∧ v = UInt16.ofNat t := by
  unfold offsetU2
  rw [← bind_pure_comp, except_bind_eq_ok]
  refine exists_congr fun t => and_congr offsetIn_eq_ok ?_
  constructor
  · intro h
    cases h
    rfl
  · rintro rfl
    rfl

theorem toNat_offsetU2 (hfits : layout.Fits) {label : Label} {v : UInt16}
    (h : layout.offsetU2 label = .ok v) : v.toNat = layout.offsetOf label := by
  obtain ⟨t, ht, rfl⟩ := offsetU2_eq_ok.mp h
  have hle := hfits label t ht
  rw [offsetOf_eq ht]
  exact UInt16.toNat_ofNat_of_lt' (show t < 65536 by omega)

/-- A label that is written and read again is the label of its offset. -/
theorem labelAt_offsetU2 (hfits : layout.Fits) {label : Label} {v : UInt16}
    (h : layout.offsetU2 label = .ok v) : Body.labelAt v.toNat = layout.relabel label := by
  rw [toNat_offsetU2 hfits h]
  rfl

/-! ### Whole tables -/

theorem countU2_eq_ok {count : Nat} {what : String} {v : UInt16} :
    countU2 count what = .ok v ↔ count < 65536 ∧ v = UInt16.ofNat count := by
  unfold countU2
  split
  · next h => simp [h, eq_comm]
  · next h => simp [h]

/-- A count that is written is the count itself, not a remainder of it. -/
theorem toNat_countU2 {count : Nat} {what : String} {v : UInt16} (h : countU2 count what = .ok v) :
    v.toNat = count := by
  obtain ⟨hlt, rfl⟩ := countU2_eq_ok.mp h
  exact UInt16.toNat_ofNat_of_lt' hlt

theorem lengthU4_eq_ok {length : Nat} {what : String} {v : UInt32} :
    lengthU4 length what = .ok v ↔ length < 4294967296 ∧ v = UInt32.ofNat length := by
  unfold lengthU4
  split
  · next h => simp [h, eq_comm]
  · next h => simp [h]

theorem toNat_lengthU4 {length : Nat} {what : String} {v : UInt32}
    (h : lengthU4 length what = .ok v) : v.toNat = length := by
  obtain ⟨hlt, rfl⟩ := lengthU4_eq_ok.mp h
  exact UInt32.toNat_ofNat_of_lt' hlt

theorem uses_table {what : String} {rows : List α} {encode : α → Pooling Bytes}
    (h : ∀ row ∈ rows, Pooling.Uses R (encode row)) : Pooling.Uses R (table what rows encode) :=
  (Pooling.uses_lift _).bind fun _ => (Pooling.uses_mapM h).map _

/-- Rows one after the other. -/
theorem spelled_rows {rows : List α} {encode : α → Pooling Bytes} {p : β → Bytes → Prop}
    {value : α → β} {pieces : List Bytes}
    (huses : ∀ row ∈ rows, Pooling.Uses (fun _ => True) (encode row))
    (hitem : ∀ row ∈ rows, ∀ {b c piece}, Yields (encode row) b piece c → c.Means pool →
      p (value row) piece)
    (h : Yields (rows.mapM encode) b pieces c) (hmeans : c.Means pool) :
    Bytes.Row p (rows.map value) pieces.flatten := by
  refine ⟨pieces, rfl, ?_⟩
  induction rows generalizing pieces b with
  | nil =>
    obtain ⟨rfl, rfl⟩ := yields_mapM_nil.mp h
    exact .nil
  | cons row rows ih =>
    obtain ⟨piece, rest, m, rfl, hrow, hrest⟩ := yields_mapM_cons.mp h
    have hgrows := (Pooling.uses_mapM fun x hx => huses x (List.mem_cons_of_mem row hx)).grows hrest
    exact .cons (hitem row (List.mem_cons_self ..) hrow (hmeans.of_grows hgrows))
      (ih (fun x hx => huses x (List.mem_cons_of_mem row hx))
        (fun x hx => hitem x (List.mem_cons_of_mem row hx)) hrest)

/-- **A table is spelled** row by row. -/
theorem spelled_table {what : String} {rows : List α} {encode : α → Pooling Bytes}
    {p : β → Bytes → Prop} {value : α → β}
    (huses : ∀ row ∈ rows, Pooling.Uses (fun _ => True) (encode row))
    (hitem : ∀ row ∈ rows, ∀ {b c piece}, Yields (encode row) b piece c → c.Means pool →
      p (value row) piece)
    (h : Yields (table what rows encode) b bytes c) (hmeans : c.Means pool) :
    Bytes.Counted p (rows.map value) bytes := by
  obtain ⟨count, hcount, h⟩ := Pooling.yields_lift_bind.mp h
  obtain ⟨pieces, _, hpieces, hp⟩ := yields_bind.mp h
  obtain ⟨rfl, rfl⟩ := yields_pure.mp hp
  refine ⟨count, pieces.flatten, ?_, spelled_rows huses hitem hpieces hmeans, rfl⟩
  rw [List.length_map, toNat_countU2 hcount]

/-! ### Rows -/

theorem uses_offsetU2 (label : Label) : Pooling.Uses R (Pooling.lift (layout.offsetU2 label)) :=
  Pooling.uses_lift _

theorem uses_encodeHandler {h : TryCatch}
    (hR : ∀ name ∈ h.catchType, ∀ t ∈ (Symbol.classRef name).parts, R t) :
    Pooling.Uses R (layout.encodeHandler h) := by
  refine (uses_offsetU2 _).bind fun start => (uses_offsetU2 _).bind fun stop =>
    (uses_offsetU2 _).bind fun entry => ?_
  rcases hc : h.catchType with _ | name
  · exact (Pooling.uses_pure 0).map _
  · exact (Pooling.uses_index (s := .classRef name) (hR name hc)).map _

/-- **A handler is written as a spelling of it**, its labels turned into those of their offsets. -/
theorem spelled_handler (hfits : layout.Fits) (hzero : ∀ e, pool.get 0 ≠ .ok e) {h : TryCatch}
    (hy : Yields (layout.encodeHandler h) b bytes c) (hmeans : c.Means pool) :
    Body.SpelledHandler pool (h.mapLabels layout.relabel) bytes := by
  obtain ⟨start, hstart, hy⟩ := Pooling.yields_lift_bind.mp hy
  obtain ⟨stop, hstop, hy⟩ := Pooling.yields_lift_bind.mp hy
  obtain ⟨entry, hentry, hy⟩ := Pooling.yields_lift_bind.mp hy
  have hcatch : ∃ catchType, pool.className? catchType = .ok h.catchType ∧
      bytes = Bytes.ofU2 start ++ Bytes.ofU2 stop ++ Bytes.ofU2 entry ++ Bytes.ofU2 catchType := by
    rcases hc : h.catchType with _ | name
    · simp only [hc] at hy
      obtain ⟨catchType, _, hcatch, hp⟩ := yields_bind.mp hy
      obtain ⟨rfl, rfl⟩ := yields_pure.mp hp
      obtain ⟨rfl, -⟩ := yields_pure.mp hcatch
      exact ⟨0, rfl, rfl⟩
    · simp only [hc] at hy
      obtain ⟨catchType, _, hcatch, hp⟩ := yields_bind.mp hy
      obtain ⟨rfl, rfl⟩ := yields_pure.mp hp
      have hdenotes := ConstantPool.denotes_classRef.mp
        (denotes_of_index (s := .classRef name) hcatch hmeans)
      -- Index 0 says that everything is caught, so a class must not have it.
      have hne : catchType ≠ 0 := by
        rintro rfl
        obtain ⟨_, hget, _⟩ := ConstantPool.className_eq_ok.mp hdenotes
        exact hzero _ hget
      refine ⟨catchType, ?_, rfl⟩
      simp only [ConstantPool.className?, hne, ↓reduceIte, hdenotes]
      rfl
  obtain ⟨catchType, hname, rfl⟩ := hcatch
  exact ⟨start, stop, entry, catchType, (labelAt_offsetU2 hfits hstart).symm,
    (labelAt_offsetU2 hfits hstop).symm, (labelAt_offsetU2 hfits hentry).symm, hname,
    by simp only [List.append_assoc]⟩

theorem uses_encodeLine (line : UInt16 × Label) : Pooling.Uses R (layout.encodeLine line) :=
  (uses_offsetU2 _).map _

/-- A line is written as a spelling of it. -/
theorem spelled_line (hfits : layout.Fits) {line : UInt16 × Label}
    (hy : Yields (layout.encodeLine line) b bytes c) :
    Body.SpelledLine (layout.offsetOf line.2, line.1) bytes := by
  obtain ⟨start, hstart, hp⟩ := Pooling.yields_lift_bind.mp hy
  obtain ⟨rfl, rfl⟩ := yields_pure.mp hp
  exact ⟨start, (toNat_offsetU2 hfits hstart).symm, rfl⟩

theorem uses_encodeLocal {v : LocalVariable} (hname : R (.utf8 v.name))
    (hdescriptor : R (.utf8 v.descriptor)) : Pooling.Uses R (layout.encodeLocal v) := by
  have hutf8 {text : String} (h : R (.utf8 text)) : Pooling.Uses R (Pooling.utf8 text) := by
    refine Pooling.uses_index (s := .utf8 text) fun t ht => ?_
    rw [Symbol.parts, List.mem_singleton] at ht
    · rw [ht]
      exact h
    all_goals simp
  exact (uses_offsetU2 _).bind fun start => (uses_offsetU2 _).bind fun stop =>
    Pooling.Uses.unless ((hutf8 hname).bind fun _ => (hutf8 hdescriptor).map _)

/-- A variable is written as a spelling of it, its range as a start and a length. -/
theorem spelled_local (hfits : layout.Fits) {v : LocalVariable}
    (hy : Yields (layout.encodeLocal v) b bytes c) (hmeans : c.Means pool) :
    Body.SpelledLocal pool v.table (v.mapLabels layout.relabel) bytes := by
  obtain ⟨start, hstart, hy⟩ := Pooling.yields_lift_bind.mp hy
  obtain ⟨stop, hstop, hy⟩ := Pooling.yields_lift_bind.mp hy
  split at hy
  · exact absurd hy Pooling.yields_fail_bind
  next hle =>
  have hle : start.toNat ≤ stop.toNat := Nat.le_of_not_lt hle
  obtain ⟨name, m, hname, hy⟩ := yields_bind.mp hy
  obtain ⟨descriptor, _, hdescriptor, hp⟩ := yields_bind.mp hy
  obtain ⟨rfl, rfl⟩ := yields_pure.mp hp
  have hdescriptor' := ConstantPool.denotes_utf8.mp
    (denotes_of_index (s := .utf8 v.descriptor) hdescriptor hmeans)
  have hgrows := (Pooling.grows_index (s := .utf8 v.descriptor) hdescriptor).1
  have hname' := ConstantPool.denotes_utf8.mp
    (denotes_of_index (s := .utf8 v.name) hname (hmeans.of_grows hgrows))
  -- The length is no remainder, as the range ends behind its start.
  have hstop' : start.toNat + (stop - start).toNat = stop.toNat := by
    rw [UInt16.toNat_sub_of_le _ _ hle]
    omega
  refine ⟨start, stop - start, name, descriptor, rfl, (labelAt_offsetU2 hfits hstart).symm, ?_,
    hname', hdescriptor', by simp only [List.append_assoc]; rfl⟩
  rw [hstop', labelAt_offsetU2 hfits hstop]
  rfl

/-! ### Frames -/

theorem uses_encodeVType {v : VType}
    (hR : ∀ name, v = .object name → ∀ t ∈ (Symbol.classRef name).parts, R t) :
    Pooling.Uses R (layout.encodeVType v) := by
  cases v with
  | object name => exact (Pooling.uses_index (s := .classRef name) (hR name rfl)).map _
  | uninitialized label => exact (uses_offsetU2 label).map _
  | _ => exact Pooling.uses_pure _

/-- A type is written as a spelling of it. -/
theorem spelled_type (hfits : layout.Fits) {v : VType}
    (hy : Yields (layout.encodeVType v) b bytes c) (hmeans : c.Means pool) :
    Body.SpelledType pool (v.mapLabels layout.relabel) bytes := by
  cases v with
  | object name =>
    obtain ⟨i, _, hi, hp⟩ := yields_bind.mp hy
    obtain ⟨rfl, rfl⟩ := yields_pure.mp hp
    exact .object (ConstantPool.denotes_classRef.mp
      (denotes_of_index (s := .classRef name) hi hmeans))
  | uninitialized label =>
    obtain ⟨v, hv, hp⟩ := Pooling.yields_lift_bind.mp hy
    obtain ⟨rfl, rfl⟩ := yields_pure.mp hp
    rw [VType.mapLabels, ← labelAt_offsetU2 hfits hv]
    exact .uninitialized v
  | top =>
    obtain ⟨rfl, -⟩ := yields_pure.mp hy
    exact .top
  | integer =>
    obtain ⟨rfl, -⟩ := yields_pure.mp hy
    exact .integer
  | float =>
    obtain ⟨rfl, -⟩ := yields_pure.mp hy
    exact .float
  | double =>
    obtain ⟨rfl, -⟩ := yields_pure.mp hy
    exact .double
  | long =>
    obtain ⟨rfl, -⟩ := yields_pure.mp hy
    exact .long
  | null =>
    obtain ⟨rfl, -⟩ := yields_pure.mp hy
    exact .null
  | uninitializedThis =>
    obtain ⟨rfl, -⟩ := yields_pure.mp hy
    exact .uninitializedThis

theorem uses_encodeFrame {delta : Nat} {frame : Frame}
    (hR : ∀ v ∈ frame.types, ∀ name, v = .object name → ∀ t ∈ (Symbol.classRef name).parts, R t) :
    Pooling.Uses R (layout.encodeFrame delta frame) := by
  have huses {types : List VType} (h : ∀ v ∈ types, v ∈ frame.types) :
      ∀ v ∈ types, Pooling.Uses R (layout.encodeVType v) := fun v hv =>
    uses_encodeVType (hR v (h v hv))
  refine Pooling.Uses.unless ?_
  cases frame with
  | same => exact Pooling.uses_pure _
  | sameWithOne stack => exact (uses_encodeVType (hR stack (List.mem_singleton.mpr rfl))).map _
  | chop count => exact Pooling.Uses.unless (Pooling.uses_pure _)
  | append locals =>
    exact Pooling.Uses.unless ((Pooling.uses_mapM (huses fun _ h => h)).map _)
  | full locals stack =>
    exact (uses_table (huses fun _ h => List.mem_append_left _ h)).bind fun _ =>
      (uses_table (huses fun _ h => List.mem_append_right _ h)).map _

/-- A frame is spelled with its step from the frame before it. -/
theorem spelled_frame (hfits : layout.Fits) {delta : Nat} {frame : Frame}
    (hy : Yields (layout.encodeFrame delta frame) b bytes c) (hmeans : c.Means pool) :
    Body.SpelledFrame pool (delta, frame.mapLabels layout.relabel) bytes := by
  obtain ⟨hdelta, hy⟩ := Pooling.yields_unless.mp hy
  have hwide : (UInt16.ofNat delta).toNat = delta :=
    UInt16.toNat_ofNat_of_lt' (show delta < 65536 by omega)
  have hbyte {n : Nat} (h : n < 256) : (UInt8.ofNat n).toNat = n := UInt8.toNat_ofNat_of_lt' h
  -- A short step is part of the tag, a long one has a field of its own.
  cases frame with
  | same =>
    obtain ⟨rfl, rfl⟩ := yields_pure.mp hy
    by_cases hshort : delta ≤ 63
    · have htag := hbyte (show delta < 256 by omega)
      have hspelled := @Body.SpelledFrame.same pool (UInt8.ofNat delta) (by omega)
      simp only [hshort, ↓reduceIte]
      rwa [htag] at hspelled
    · have hspelled := @Body.SpelledFrame.sameFar pool (UInt16.ofNat delta)
      simp only [hshort, ↓reduceIte]
      rwa [hwide] at hspelled
  | sameWithOne stack =>
    obtain ⟨bs, _, hbs, hp⟩ := yields_bind.mp hy
    obtain ⟨rfl, rfl⟩ := yields_pure.mp hp
    have hstack := spelled_type hfits hbs hmeans
    by_cases hshort : delta ≤ 63
    · have htag := hbyte (show 64 + delta < 256 by omega)
      have hspelled := @Body.SpelledFrame.sameWithOne pool (UInt8.ofNat (64 + delta)) _ _ (by omega)
        (by omega) hstack
      simp only [hshort, ↓reduceIte]
      rwa [htag, Nat.add_sub_cancel_left] at hspelled
    · have hspelled := Body.SpelledFrame.sameWithOneFar (UInt16.ofNat delta) hstack
      simp only [hshort, ↓reduceIte]
      rwa [hwide] at hspelled
  | chop count =>
    obtain ⟨hcount, hy⟩ := Pooling.yields_unless.mp hy
    obtain ⟨rfl, rfl⟩ := yields_pure.mp hy
    have hn : 1 ≤ count.toNat ∧ count.toNat ≤ 3 := by
      rw [not_or, UInt8.lt_iff_toNat_lt, UInt8.lt_iff_toNat_lt] at hcount
      exact ⟨Nat.le_of_not_lt hcount.1, Nat.le_of_not_lt hcount.2⟩
    have htag : (251 - count).toNat = 251 - count.toNat := by
      rw [UInt8.toNat_sub_of_le _ _ (UInt8.le_iff_toNat_le.mpr (show count.toNat ≤ 251 by omega))]
      rfl
    have hspelled := @Body.SpelledFrame.chop pool (UInt16.ofNat delta) (251 - count) (by omega)
      (by omega)
    rwa [hwide, htag, show 251 - (251 - count.toNat) = count.toNat by omega,
      UInt8.ofNat_toNat] at hspelled
  | append locals =>
    obtain ⟨hcount, hy⟩ := Pooling.yields_unless.mp hy
    obtain ⟨types, _, htypes, hp⟩ := yields_bind.mp hy
    obtain ⟨rfl, rfl⟩ := yields_pure.mp hp
    have hlocals := spelled_rows (fun v _ => uses_encodeVType fun _ _ _ _ => trivial)
      (fun v _ => spelled_type hfits) htypes hmeans
    have htag := hbyte (show 251 + locals.length < 256 by omega)
    have hspelled := @Body.SpelledFrame.append pool (UInt16.ofNat delta)
      (UInt8.ofNat (251 + locals.length)) _ _ (by omega) (by omega)
      (by rw [List.length_map]; omega) hlocals
    rwa [hwide] at hspelled
  | full locals stack =>
    obtain ⟨localBytes, m, hlocals, hy⟩ := yields_bind.mp hy
    obtain ⟨stackBytes, _, hstack, hp⟩ := yields_bind.mp hy
    obtain ⟨rfl, rfl⟩ := yields_pure.mp hp
    have huses : ∀ v, Pooling.Uses (fun _ => True) (layout.encodeVType v) := fun v =>
      uses_encodeVType fun _ _ _ _ => trivial
    have hgrows := (uses_table fun v _ => huses v).grows hstack
    have hlocals := spelled_table (fun v _ => huses v) (fun v _ => spelled_type hfits) hlocals
      (hmeans.of_grows hgrows)
    have hstack := spelled_table (fun v _ => huses v) (fun v _ => spelled_type hfits) hstack hmeans
    have hspelled := Body.SpelledFrame.full (UInt16.ofNat delta) hlocals hstack
    rw [hwide] at hspelled
    rw [List.append_assoc]
    exact hspelled

/-- Frames use the classes in their types. -/
theorem uses_encodeFrames {frames : List (Nat × Frame)} (previous : Option Nat)
    (hR : ∀ p ∈ frames, ∀ v ∈ p.2.types, ∀ name, v = .object name →
      ∀ t ∈ (Symbol.classRef name).parts, R t) :
    Pooling.Uses R (layout.encodeFrames previous frames) := by
  induction frames generalizing previous with
  | nil => exact Pooling.uses_pure []
  | cons p frames ih =>
    have hrest (delta : Nat) : Pooling.Uses R (do
        let bytes ← layout.encodeFrame delta p.2
        return bytes ++ (← layout.encodeFrames (some p.1) frames)) :=
      (uses_encodeFrame (hR p (List.mem_cons_self ..))).bind fun _ =>
        (ih (some p.1) fun q hq => hR q (List.mem_cons_of_mem p hq)).map _
    cases previous with
    | none => exact (Pooling.uses_pure p.1).bind hrest
    | some previous =>
      unfold encodeFrames
      by_cases h : previous < p.1
      · simp only [h, ↓reduceIte]
        exact (Pooling.uses_pure _).bind hrest
      · simp only [h, ↓reduceIte]
        exact (Pooling.uses_fail _).bind hrest

/-- The first of some frames is written with the step that leads to its offset. -/
theorem yields_encodeFrames_cons {previous : Option Nat} {offset : Nat} {frame : Frame}
    {rest : List (Nat × Frame)}
    (hy : Yields (layout.encodeFrames previous ((offset, frame) :: rest)) b bytes c) :
    ∃ delta b1 b2 m, Body.frameOffset previous delta = offset ∧ bytes = b1 ++ b2 ∧
      (∀ p ∈ previous, p < offset) ∧ Yields (layout.encodeFrame delta frame) b b1 m ∧
      Yields (layout.encodeFrames (some offset) rest) m b2 c := by
  have hrest {delta : Nat} {s : PoolBuilder} (h : Yields (do
      let bytes ← layout.encodeFrame delta frame
      return bytes ++ (← layout.encodeFrames (some offset) rest)) s bytes c) :
      ∃ b1 b2 m, bytes = b1 ++ b2 ∧ Yields (layout.encodeFrame delta frame) s b1 m ∧
        Yields (layout.encodeFrames (some offset) rest) m b2 c := by
    obtain ⟨b1, m, h1, h⟩ := yields_bind.mp h
    obtain ⟨b2, _, h2, hp⟩ := yields_bind.mp h
    obtain ⟨rfl, rfl⟩ := yields_pure.mp hp
    exact ⟨b1, b2, m, rfl, h1, h2⟩
  -- The first frame is written with its offset, a later one with the distance less one.
  cases previous with
  | none =>
    obtain ⟨delta, _, hdelta, h⟩ := yields_bind.mp hy
    obtain ⟨rfl, rfl⟩ := yields_pure.mp hdelta
    obtain ⟨b1, b2, m, rfl, h1, h2⟩ := hrest h
    exact ⟨_, b1, b2, m, rfl, rfl, by simp, h1, h2⟩
  | some previous =>
    unfold encodeFrames at hy
    by_cases hlt : previous < offset
    · simp only [hlt, ↓reduceIte] at hy
      obtain ⟨delta, _, hdelta, h⟩ := yields_bind.mp hy
      obtain ⟨rfl, rfl⟩ := yields_pure.mp hdelta
      obtain ⟨b1, b2, m, rfl, h1, h2⟩ := hrest h
      refine ⟨_, b1, b2, m, ?_, rfl, by simpa using hlt, h1, h2⟩
      show previous + (offset - previous - 1) + 1 = offset
      omega
    · simp only [hlt, ↓reduceIte] at hy
      exact absurd hy Pooling.yields_fail_bind

/-- **The stack map frames are spelled**, each at its offset. -/
theorem spelled_frames (hfits : layout.Fits) {length : Nat} {frames : List (Nat × Frame)}
    (hin : ∀ p ∈ frames, p.1 < length) {previous : Option Nat}
    (hy : Yields (layout.encodeFrames previous frames) b bytes c) (hmeans : c.Means pool) :
    Body.SpelledFrames pool length previous
      (frames.map fun p => (p.1, p.2.mapLabels layout.relabel)) bytes := by
  induction frames generalizing previous b bytes with
  | nil =>
    obtain ⟨rfl, -⟩ := yields_pure.mp hy
    exact .done
  | cons p rest ih =>
    obtain ⟨delta, b1, b2, m, hoffset, rfl, _, h1, h2⟩ := yields_encodeFrames_cons hy
    have hgrows := (uses_encodeFrames (R := fun _ => True) (some p.1)
      fun _ _ _ _ _ _ _ _ => trivial).grows h2
    -- The next frame counts from this one.
    have hrest := ih (fun q hq => hin q (List.mem_cons_of_mem p hq)) h2
    rw [← hoffset] at hrest
    have hlt := hin p (List.mem_cons_self ..)
    rw [← hoffset] at hlt
    rw [List.map_cons, ← hoffset]
    exact .frame (spelled_frame hfits h1 (hmeans.of_grows hgrows)) hlt hrest

theorem uses_stackMap
    (hR : ∀ p ∈ layout.frames.toList, ∀ v ∈ p.2.types, ∀ name, v = .object name →
      ∀ t ∈ (Symbol.classRef name).parts, R t) : Pooling.Uses R layout.stackMap :=
  (Pooling.uses_lift _).bind fun _ => (uses_encodeFrames none hR).map _

/-- **The stack map is written as a spelling of it.** -/
theorem spelled_stackMap (hfits : layout.Fits) {length : Nat}
    (hin : ∀ p ∈ layout.frames.toList, p.1 < length)
    (hy : Yields layout.stackMap b bytes c) (hmeans : c.Means pool) :
    Body.SpelledFrameTable pool length
      (layout.frames.toList.map fun p => (p.1, p.2.mapLabels layout.relabel)) bytes := by
  obtain ⟨count, hcount, hy⟩ := Pooling.yields_lift_bind.mp hy
  obtain ⟨bs, _, hbs, hp⟩ := yields_bind.mp hy
  obtain ⟨rfl, rfl⟩ := yields_pure.mp hp
  refine ⟨count, bs, ?_, spelled_frames hfits hin hbs hmeans, rfl⟩
  rw [List.length_map, toNat_countU2 hcount, Array.length_toList]

end Layout

end RoundingPatch.ClassFile
