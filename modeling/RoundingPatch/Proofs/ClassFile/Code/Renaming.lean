import RoundingPatch.Proofs.ClassFile.Code.Attribute
import RoundingPatch.Proofs.ClassFile.Method.Bound
/-!
# Code with other labels

The names of labels do not matter: instructions that are equal up to their labels are encoded as
chunks that are equal up to their labels (`encodeAll_mapLabels`). If two layouts give labels that
stand for each other the same offset (`Layout.Agrees`), the chunks come out as the same bytes
(`Agrees.resolvesAll`), and rows of tables that are equal up to their labels are encoded alike.
-/

namespace RoundingPatch.ClassFile

variable {α : Type} {f f' : Label → Label} {layout layout' : Layout}

/-! ### Chunks -/

/-- A chunk with its label replaced. -/
def Chunk.mapLabels (f : Label → Label) : Chunk → Chunk
  | bytes bs => bytes bs
  | near target => near (f target)
  | far target => far (f target)

theorem chunksSize_mapLabels (chunks : List Chunk) :
    chunksSize (chunks.map (Chunk.mapLabels f)) = chunksSize chunks := by
  induction chunks with
  | nil => rfl
  | cons chunk chunks ih =>
    rw [List.map_cons, chunksSize_cons, chunksSize_cons, ih]
    cases chunk <;> rfl

/-- **Renamed labels are encoded alike**: only the labels in the chunks change. -/
theorem encode_mapLabels (i : Insn) (offset : Nat) :
    (i.mapLabels f).encode offset = List.map (Chunk.mapLabels f) <$> i.encode offset := by
  cases i with
  | jump op target =>
    simp only [Insn.mapLabels, Insn.encode]
    split <;> rfl
  | tableSwitch low high default targets =>
    simp only [Insn.mapLabels, Insn.encode, List.length_map]
    split
    · rfl
    · simp [Chunk.mapLabels, Function.comp_def]
  | lookupSwitch default pairs =>
    simp [Insn.mapLabels, Insn.encode, Chunk.mapLabels, List.flatMap_map, List.map_flatMap]
  | method op owner name descriptor onInterface =>
    simp only [Insn.mapLabels, Insn.encode, map_bind]
    refine bind_congr fun index => ?_
    split
    · simp [Chunk.mapLabels]
    · simp [Chunk.mapLabels]
  -- Whether the index is refused depends on the pool alone.
  | callSite index =>
    simp only [Insn.mapLabels, Insn.encode, map_bind]
    refine bind_congr fun pool => ?_
    split
    · rfl
    · rfl
  | _ => simp [Insn.mapLabels, Insn.encode, Chunk.mapLabels]

/-- Placed instructions with their labels replaced. -/
def Placed.mapLabels (f : Label → Label) (placed : Placed) : Placed :=
  placed.map fun p => (p.1, p.2.map (Chunk.mapLabels f))

theorem Placed.stop_mapLabels (placed : Placed) (start : Nat) :
    (placed.mapLabels f).stop start = placed.stop start := by
  induction placed generalizing start with
  | nil => rfl
  | cons p placed ih =>
    show stop (start + chunksSize (p.2.map (Chunk.mapLabels f))) (mapLabels f placed) = _
    rw [chunksSize_mapLabels, ih]
    rfl

/-- Renaming moves no instruction. -/
theorem Placed.offsetAt_mapLabels (placed : Placed) (start n : Nat) :
    (placed.mapLabels f).offsetAt start n = placed.offsetAt start n := by
  induction placed generalizing start n with
  | nil => rfl
  | cons p placed ih =>
    cases n with
    | zero => rfl
    | succ n =>
      show offsetAt (start + chunksSize (p.2.map (Chunk.mapLabels f))) (mapLabels f placed) n = _
      rw [chunksSize_mapLabels, ih]
      rfl

/-- **The names of labels** make no difference to how instructions are encoded. -/
theorem encodeAll_mapLabels (insns : List Insn) (start : Nat) :
    encodeAll start (insns.map (Insn.mapLabels f))
      = Placed.mapLabels f <$> encodeAll start insns := by
  induction insns generalizing start with
  | nil => rfl
  | cons i insns ih =>
    simp only [List.map_cons, encodeAll, encode_mapLabels, ih, bind_map_left, map_bind, map_pure,
      chunksSize_mapLabels]
    rfl

/-! ### Layouts that agree -/

/-- Labels that `f` and `f'` take to the same label have the same offset, if the first has one. -/
def Layout.Agrees (f f' : Label → Label) (layout layout' : Layout) : Prop :=
  ∀ l l' t, f' l' = f l → layout.offsets[l]? = some t → layout'.offsets[l']? = some t

/-- Rows that are equal in some form are handled alike if this form decides. -/
theorem mapM_congr_of_map {α β γ : Type} {m : Type → Type} [Monad m]
    [LawfulMonad m] {g g' : α → β} {step step' : α → m γ} {rows rows' : List α}
    (h : rows'.map g' = rows.map g)
    (hstep : ∀ row ∈ rows, ∀ row', g' row' = g row → step' row' = step row) :
    rows'.mapM step' = rows.mapM step := by
  induction rows generalizing rows' with
  | nil =>
    rw [List.map_eq_nil_iff.mp h]
    rfl
  | cons row rows ih =>
    obtain ⟨row', rest', rfl, hrow, hrest⟩ := List.map_eq_cons_iff.mp h
    rw [List.forall_mem_cons] at hstep
    rw [List.mapM_cons, List.mapM_cons, hstep.1 row' hrow, ih hrest hstep.2]

namespace Layout

variable {bytes : Bytes} (h : layout.Agrees f f' layout')
include h

theorem Agrees.offsetU2 {l l' : Label} (hl : f' l' = f l) (hbound : layout.Bound l) :
    layout'.offsetU2 l' = layout.offsetU2 l := by
  obtain ⟨t, ht⟩ := hbound
  have ht' := h l l' t hl ht
  rw [offsetU2_eq_ok.mpr ⟨t, ht, rfl⟩, offsetU2_eq_ok.mpr ⟨t, ht', rfl⟩]

/-- A chunk that resolves with one layout resolves to the same bytes with one that agrees. -/
theorem Agrees.resolve {offset : Nat} {chunk chunk' : Chunk}
    (hchunk : chunk'.mapLabels f' = chunk.mapLabels f)
    (hbytes : resolve layout.offsets offset chunk = .ok bytes) :
    resolve layout'.offsets offset chunk' = .ok bytes := by
  cases chunk with
  | bytes bs =>
    cases chunk' <;> cases hchunk
    exact hbytes
  -- A distance is between two offsets, which the layouts agree on.
  | near target =>
    cases chunk' with
    | near target' =>
      obtain ⟨t, ht, hrest⟩ := resolve_near.mp hbytes
      exact resolve_near.mpr ⟨t, h _ _ t (Chunk.near.inj hchunk) ht, hrest⟩
    | _ => cases hchunk
  | far target =>
    cases chunk' with
    | far target' =>
      obtain ⟨t, ht, hrest⟩ := resolve_far.mp hbytes
      exact resolve_far.mpr ⟨t, h _ _ t (Chunk.far.inj hchunk) ht, hrest⟩
    | _ => cases hchunk

/-- So do all the chunks of an instruction. -/
theorem Agrees.resolves {offset : Nat} {chunks chunks' : List Chunk}
    (hchunks : chunks'.map (Chunk.mapLabels f') = chunks.map (Chunk.mapLabels f))
    (hbytes : Resolves layout.offsets offset chunks bytes) :
    Resolves layout'.offsets offset chunks' bytes := by
  induction chunks generalizing chunks' bytes with
  | nil =>
    rw [List.map_eq_nil_iff.mp hchunks]
    exact resolves_nil.mpr (resolves_nil.mp hbytes)
  | cons chunk chunks ih =>
    obtain ⟨chunk', rest', rfl, hchunk, hrest⟩ := List.map_eq_cons_iff.mp hchunks
    obtain ⟨b1, b2, rfl, h1, h2⟩ := resolves_cons.mp hbytes
    exact resolves_cons.mpr ⟨b1, b2, rfl, h.resolve hchunk h1, ih hrest h2⟩

/-- **Chunks come out as the same bytes** under layouts that agree. -/
theorem Agrees.resolvesAll {placed placed' : Placed}
    (hplaced : placed'.mapLabels f' = placed.mapLabels f)
    (hbytes : ResolvesAll layout.offsets placed bytes) :
    ResolvesAll layout'.offsets placed' bytes := by
  induction placed generalizing placed' bytes with
  | nil =>
    rw [List.map_eq_nil_iff.mp hplaced]
    exact hbytes
  | cons p placed ih =>
    obtain ⟨⟨offset', chunks'⟩, rest', rfl, hp, hrest⟩ := List.map_eq_cons_iff.mp hplaced
    obtain ⟨offset, chunks⟩ := p
    obtain ⟨rfl, hchunks⟩ := Prod.mk.injEq .. |>.mp hp
    obtain ⟨b1, b2, rfl, h1, h2⟩ := hbytes
    exact ⟨b1, b2, rfl, h.resolves hchunks h1, ih hrest h2⟩

/-! ### Rows -/

theorem Agrees.encodeHandler {row row' : TryCatch} (hrow : row'.mapLabels f' = row.mapLabels f)
    (hbound : ∀ l ∈ row.labels, layout.Bound l) :
    layout'.encodeHandler row' = layout.encodeHandler row := by
  simp only [TryCatch.labels, List.mem_cons, List.not_mem_nil, or_false, forall_eq_or_imp,
    forall_eq] at hbound
  obtain ⟨hstart, hstop, hentry, htype⟩ := (TryCatch.mk.injEq ..).mp hrow
  unfold Layout.encodeHandler
  rw [h.offsetU2 hstart hbound.1, h.offsetU2 hstop hbound.2.1, h.offsetU2 hentry hbound.2.2, htype]

theorem Agrees.encodeLine {row row' : UInt16 × Label}
    (hrow : (row'.1, f' row'.2) = (row.1, f row.2))
    (hbound : layout.Bound row.2) : layout'.encodeLine row' = layout.encodeLine row := by
  obtain ⟨hnumber, hstart⟩ := (Prod.mk.injEq ..).mp hrow
  unfold Layout.encodeLine
  rw [h.offsetU2 hstart hbound, hnumber]

theorem Agrees.encodeLocal {row row' : LocalVariable}
    (hrow : row'.mapLabels f' = row.mapLabels f) (hbound : ∀ l ∈ row.labels, layout.Bound l) :
    layout'.encodeLocal row' = layout.encodeLocal row := by
  simp only [LocalVariable.labels, List.mem_cons, List.not_mem_nil, or_false, forall_eq_or_imp,
    forall_eq] at hbound
  obtain ⟨-, hname, hdescriptor, hstart, hstop, hindex⟩ := (LocalVariable.mk.injEq ..).mp hrow
  unfold Layout.encodeLocal
  rw [h.offsetU2 hstart hbound.1, h.offsetU2 hstop hbound.2, hname, hdescriptor, hindex]

theorem Agrees.encodeVType {v v' : VType} (hv : v'.mapLabels f' = v.mapLabels f)
    (hbound : ∀ l ∈ v.labels, layout.Bound l) :
    layout'.encodeVType v' = layout.encodeVType v := by
  cases v with
  | uninitialized label =>
    cases v' with
    | uninitialized label' =>
      have hbound : layout.Bound label := hbound label (by simp [VType.labels, Body.vtypeLabels])
      unfold Layout.encodeVType
      dsimp only
      rw [h.offsetU2 (VType.uninitialized.inj hv) hbound]
    | _ => cases hv
  | _ =>
    cases v' <;> cases hv
    rfl

theorem Agrees.encodeVTypes {vs vs' : List VType}
    (hvs : vs'.map (VType.mapLabels f') = vs.map (VType.mapLabels f))
    (hbound : ∀ v ∈ vs, ∀ l ∈ v.labels, layout.Bound l) :
    vs'.mapM layout'.encodeVType = vs.mapM layout.encodeVType :=
  mapM_congr_of_map hvs fun v hv _ heq => h.encodeVType heq (hbound v hv)

omit h in
/-- Two tables are encoded alike if each row is. -/
theorem table_congr {β : Type} {what : String} {g g' : α → β} {step step' : α → Pooling Bytes}
    {rows rows' : List α} (hrows : rows'.map g' = rows.map g)
    (hstep : ∀ row ∈ rows, ∀ row', g' row' = g row → step' row' = step row) :
    table what rows' step' = table what rows step := by
  have hlength := congrArg List.length hrows
  rw [List.length_map, List.length_map] at hlength
  unfold table
  rw [hlength, mapM_congr_of_map hrows hstep]

omit h in
theorem tableAttribute_congr {β : Type} {name what : String} {g g' : α → β}
    {step step' : α → Pooling Bytes} {rows rows' : List α} (hrows : rows'.map g' = rows.map g)
    (hstep : ∀ row ∈ rows, ∀ row', g' row' = g row → step' row' = step row) :
    tableAttribute name what rows' step' = tableAttribute name what rows step := by
  have hempty : rows'.isEmpty = rows.isEmpty := by
    rw [← List.isEmpty_map (f := g'), hrows, List.isEmpty_map]
  unfold tableAttribute
  rw [hempty, table_congr hrows hstep]

theorem Agrees.encodeFrame {delta : Nat} {frame frame' : Frame}
    (hframe : frame'.mapLabels f' = frame.mapLabels f)
    (hbound : ∀ l ∈ frame.labels, layout.Bound l) :
    layout'.encodeFrame delta frame' = layout.encodeFrame delta frame := by
  have hbound : ∀ v ∈ frame.types, ∀ l ∈ v.labels, layout.Bound l := fun v hv l hl =>
    hbound l (List.mem_flatMap.mpr ⟨v, hv, hl⟩)
  -- Frames of one kind are compared part by part; frames of two kinds cannot be renamed to the
  -- same.
  cases frame with
  | same =>
    cases frame' <;> cases hframe
    rfl
  | chop count =>
    cases frame' <;> cases hframe
    rfl
  | sameWithOne stack =>
    cases frame' with
    | sameWithOne stack' =>
      have hstack := h.encodeVType (Frame.sameWithOne.inj hframe)
        (hbound stack (List.mem_singleton_self _))
      unfold Layout.encodeFrame
      simp only [hstack]
    | _ => cases hframe
  | append locals =>
    cases frame' with
    | append locals' =>
      have hlocals := Frame.append.inj hframe
      have hlength : locals'.length = locals.length := by
        rw [← List.length_map (VType.mapLabels f'), hlocals, List.length_map]
      unfold Layout.encodeFrame
      simp only [hlength, h.encodeVTypes hlocals hbound]
    | _ => cases hframe
  | full locals stack =>
    cases frame' with
    | full locals' stack' =>
      obtain ⟨hlocals, hstack⟩ := Frame.full.inj hframe
      have hbound1 : ∀ v ∈ locals, ∀ l ∈ v.labels, layout.Bound l := fun v hv =>
        hbound v (List.mem_append_left _ hv)
      have hbound2 : ∀ v ∈ stack, ∀ l ∈ v.labels, layout.Bound l := fun v hv =>
        hbound v (List.mem_append_right _ hv)
      have hlocals (what : String) : table what locals' layout'.encodeVType
          = table what locals layout.encodeVType :=
        table_congr hlocals fun v hv _ heq => h.encodeVType heq (hbound1 v hv)
      have hstack (what : String) : table what stack' layout'.encodeVType
          = table what stack layout.encodeVType :=
        table_congr hstack fun v hv _ heq => h.encodeVType heq (hbound2 v hv)
      unfold Layout.encodeFrame
      simp only [hlocals, hstack]
    | _ => cases hframe

/-- A row of frames is encoded alike, if their labels are bound. -/
theorem Agrees.encodeFrames {previous : Option Nat} {frames frames' : List (Nat × Frame)}
    (hframes : (frames'.map fun p => (p.1, p.2.mapLabels f'))
      = frames.map fun p => (p.1, p.2.mapLabels f))
    (hbound : ∀ p ∈ frames, ∀ l ∈ p.2.labels, layout.Bound l) :
    layout'.encodeFrames previous frames' = layout.encodeFrames previous frames := by
  induction frames generalizing previous frames' with
  | nil =>
    rw [List.map_eq_nil_iff.mp hframes]
    rfl
  | cons p frames ih =>
    obtain ⟨⟨offset', frame'⟩, rest', rfl, hp, hrest⟩ := List.map_eq_cons_iff.mp hframes
    obtain ⟨offset, frame⟩ := p
    obtain ⟨rfl, hframe⟩ := Prod.mk.injEq .. |>.mp hp
    rw [List.forall_mem_cons] at hbound
    simp only [Layout.encodeFrames, h.encodeFrame hframe hbound.1, ih hrest hbound.2]

end Layout

end RoundingPatch.ClassFile
