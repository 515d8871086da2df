import RoundingPatch.Proofs.ClassFile.Code.Tables
/-!
# The Code attribute read back

`layout.Places m` says what the layout of a method has to do with its events, and
`layout.Lays m b c` says besides that the placed instructions are those of the method. The tables
of the `Code` attribute are read back with every label turned into the label of its offset
(`adds_codeAttributes`).
-/

namespace RoundingPatch.ClassFile

open Read MethodEvent

variable {R : Symbol → Prop} {b c : PoolBuilder} {pool : ConstantPool} {layout : Layout}
  {m : MethodSource}

/-! ### Layouts of methods -/

namespace Layout

/-- The placed instructions of a layout. -/
def placedList (layout : Layout) : Placed :=
  layout.placed.toList

/-- A layout that gives the events of a method their offsets: the instructions stand one behind the
other, and labels and frames have the offsets of their positions. -/
structure Places (layout : Layout) (m : MethodSource) : Prop where
  contiguous : layout.placedList.Contiguous 0
  length_eq : layout.placedList.length = (insns m.events).length
  size_eq : layout.size = layout.placedList.stop 0
  offsets_eq : ∀ l : Label,
    layout.offsets[l]? = (position l m.events).map (layout.placedList.offsetAt 0)
  frames_eq : layout.frames.toList =
    (framesFrom 0 m.events).map fun p => (layout.placedList.offsetAt 0 p.1, p.2)

/-- The layout of the events of a method, with its instructions encoded. -/
structure Lays (layout : Layout) (m : MethodSource) (b c : PoolBuilder) : Prop
    extends Places layout m where
  encodes : Yields (encodeAll 0 (insns m.events)) b layout.placedList c

theorem lays_of_ofMethod (h : Yields (ofMethod m) b layout c) : layout.Lays m b c := by
  obtain ⟨placed, hencode, hplaced, hsize, hoffsets, hframes⟩ := place_spec h
  obtain rfl : layout.placedList = placed := hplaced
  exact {
    encodes := hencode
    contiguous := contiguous_of_encodeAll hencode
    length_eq := length_of_encodeAll hencode
    size_eq := hsize
    offsets_eq := fun l => by
      rw [hoffsets]
      show (∅ : Std.TreeMap Label Nat)[l]?.or _ = _
      rw [Std.TreeMap.getElem?_emptyc, Option.none_or]
    frames_eq := hframes }

variable (h : layout.Places m)
include h

/-- A label that stands before the instruction of some number has its offset. -/
theorem Places.offset_of_position {l : Label} {n : Nat} (hn : position l m.events = some n) :
    layout.offsets[l]? = some (layout.placedList.offsetAt 0 n) := by
  rw [h.offsets_eq, hn]
  rfl

/-- An offset that a label has is that of the instruction behind it, or the end of the code. -/
theorem Places.position_of_offset {l : Label} {t : Nat} (ht : layout.offsets[l]? = some t) :
    ∃ n, position l m.events = some n ∧ t = layout.placedList.offsetAt 0 n ∧
      n ≤ layout.placedList.length := by
  rw [h.offsets_eq] at ht
  obtain ⟨n, hn, rfl⟩ := Option.map_eq_some_iff.mp ht
  exact ⟨n, hn, rfl, h.length_eq ▸ position_le hn⟩

theorem Places.fits (hsize : layout.size ≤ 65535) : layout.Fits := by
  intro l t ht
  obtain ⟨n, _, rfl, _⟩ := h.position_of_offset ht
  rw [h.size_eq] at hsize
  exact Nat.le_trans (Placed.offsetAt_le_stop h.contiguous n) hsize

theorem Places.inside {l : Label} {n : Nat} (hn : position l m.events = some n)
    (hlt : n < (insns m.events).length) : Inside layout.offsets layout.size l := by
  refine ⟨_, h.offset_of_position hn, ?_⟩
  rw [h.size_eq]
  exact Placed.offsetAt_lt_stop h.contiguous (h.length_eq ▸ hlt)

end Layout

/-! ### Attributes -/

theorem uses_utf8 {text : String} (h : R (.utf8 text)) : Pooling.Uses R (Pooling.utf8 text) := by
  refine Pooling.uses_index (s := .utf8 text) fun t ht => ?_
  have ht : t ∈ [Symbol.utf8 text] := ht
  rw [List.mem_singleton.mp ht]
  exact h

namespace Layout

theorem uses_namedAttribute {name : String} (info : Bytes) (h : R (.utf8 name)) :
    Pooling.Uses R (namedAttribute name info) :=
  (uses_utf8 h).bind fun _ => (Pooling.uses_lift _).map _

/-- An attribute reads back by its name. -/
theorem reads_namedAttribute {name : String} {info bytes : Bytes}
    (hy : Yields (namedAttribute name info) b bytes c) (hmeans : c.Means pool) :
    Reads (readAttribute pool) bytes ⟨name, info⟩ := by
  obtain ⟨i, m, hi, hy⟩ := yields_bind.mp hy
  obtain ⟨length, hlength, hp⟩ := Pooling.yields_lift_bind.mp hy
  obtain ⟨rfl, rfl⟩ := yields_pure.mp hp
  have hname := ConstantPool.denotes_utf8.mp (denotes_of_index (s := .utf8 name) hi hmeans)
  rw [List.append_assoc]
  exact (reads_u2 i _).bind ((reads_lift hname).bind (p := []) ((reads_u4 length _).bind
    ((reads_take (toNat_lengthU4 hlength).symm _).map _)))

/-- The bytes of attributes. -/
def namedAttributes (attributes : List RawAttribute) : Pooling (List Bytes) :=
  attributes.mapM fun attr => namedAttribute attr.name attr.info

theorem uses_namedAttributes {attributes : List RawAttribute}
    (h : ∀ a ∈ attributes, R (.utf8 a.name)) : Pooling.Uses R (namedAttributes attributes) :=
  Pooling.uses_mapM fun attr hattr => uses_namedAttribute attr.info (h attr hattr)

/-- Attributes are read back one by one, with any pool that means what the builder did. -/
theorem reads_namedAttributes {attributes : List RawAttribute} {pieces : List Bytes}
    (hy : Yields (namedAttributes attributes) b pieces c) (hmeans : c.Means pool) :
    List.Forall₂ (fun bytes a => Reads (readAttribute pool) bytes a) pieces attributes := by
  induction attributes generalizing b pieces with
  | nil =>
    obtain ⟨rfl, -⟩ := yields_mapM_nil.mp hy
    exact .nil
  | cons a attributes ih =>
    obtain ⟨bytes, rest, s, rfl, ha, hrest⟩ := yields_mapM_cons.mp hy
    have hgrows := (uses_namedAttributes (R := fun _ => True) fun _ _ => trivial).grows hrest
    exact .cons (reads_namedAttribute ha (hmeans.of_grows hgrows)) (ih hrest)

theorem uses_tableAttribute {α : Type} {name what : String} {rows : List α}
    {encode : α → Pooling Bytes} (h : ∀ row ∈ rows, Pooling.Uses R (encode row))
    (hname : rows ≠ [] → R (.utf8 name)) :
    Pooling.Uses R (tableAttribute name what rows encode) := by
  unfold tableAttribute
  cases rows with
  | nil => exact Pooling.uses_pure []
  | cons row rows =>
    exact (uses_table h).bind fun info => (uses_namedAttribute info (hname (by simp))).map _

/-- The attribute of a table is left out if there are no rows. -/
theorem tableAttribute_cases {α : Type} {name what : String} {rows : List α}
    {encode : α → Pooling Bytes} {pieces : List Bytes}
    (hy : Yields (tableAttribute name what rows encode) b pieces c) :
    rows = [] ∧ pieces = [] ∨ ∃ info bytes s, pieces = [bytes] ∧
      Yields (table what rows encode) b info s ∧ Yields (namedAttribute name info) s bytes c := by
  unfold tableAttribute at hy
  cases rows with
  | nil =>
    obtain ⟨rfl, -⟩ := yields_pure.mp hy
    exact .inl ⟨rfl, rfl⟩
  | cons row rows =>
    obtain ⟨info, s, hinfo, hy⟩ := yields_bind.mp hy
    obtain ⟨bytes, _, hbytes, hp⟩ := yields_bind.mp hy
    obtain ⟨rfl, rfl⟩ := yields_pure.mp hp
    exact .inr ⟨info, bytes, s, rfl, hinfo, hbytes⟩

end Layout

/-! ### What the attributes of the code add -/

/-- The attributes with bytes `pieces` change a body for code of `length` bytes by `change`. -/
def Adds (pool : ConstantPool) (length : Nat) (pieces : List Bytes) (change : Body → Body) : Prop :=
  ∃ attrs, List.Forall₂ (fun bytes a => Reads (readAttribute pool) bytes a) pieces attrs ∧
    ∀ body : Body, body.length = length →
      attrs.foldlM (Body.addTable pool) body = .ok (change body) ∧ (change body).length = length

variable {length : Nat}

theorem adds_nil {change : Body → Body} (h : ∀ body, change body = body) :
    Adds pool length [] change :=
  ⟨[], .nil, fun body hbody => ⟨congrArg Except.ok (h body).symm, by rw [h, hbody]⟩⟩

theorem adds_singleton {bytes : Bytes} {attr : RawAttribute} {change : Body → Body}
    (hread : Reads (readAttribute pool) bytes attr)
    (hadd : ∀ body : Body, body.length = length →
      Body.addTable pool body attr = .ok (change body) ∧ (change body).length = length) :
    Adds pool length [bytes] change := by
  refine ⟨[attr], .cons hread .nil, fun body hbody => ⟨?_, (hadd body hbody).2⟩⟩
  rw [List.foldlM_cons, (hadd body hbody).1]
  rfl

/-- What two groups of attributes add is added one after the other. -/
theorem Adds.append {p1 p2 : List Bytes} {c1 c2 : Body → Body} (h1 : Adds pool length p1 c1)
    (h2 : Adds pool length p2 c2) : Adds pool length (p1 ++ p2) (c2 ∘ c1) := by
  obtain ⟨a1, hr1, hb1⟩ := h1
  obtain ⟨a2, hr2, hb2⟩ := h2
  refine ⟨a1 ++ a2, List.rel_append hr1 hr2, fun body hbody => ?_⟩
  obtain ⟨hfold1, hlen1⟩ := hb1 body hbody
  obtain ⟨hfold2, hlen2⟩ := hb2 _ hlen1
  refine ⟨?_, hlen2⟩
  rw [List.foldlM_append, hfold1]
  exact hfold2

namespace Layout

variable {pieces : List Bytes}

/-- The lines that are written are added to the lines of a body, at their offsets. -/
theorem adds_lines (hfits : layout.Fits) {lines : List (UInt16 × Label)}
    (hy : Yields (tableAttribute "LineNumberTable" "line numbers" lines layout.encodeLine) b
      pieces c) (hmeans : c.Means pool) :
    Adds pool length pieces fun body =>
      { body with lines := body.lines ++ lines.map fun l => (layout.offsetOf l.2, l.1) } := by
  rcases tableAttribute_cases hy with ⟨rfl, rfl⟩ | ⟨info, bytes, s, rfl, htable, hname⟩
  · exact adds_nil fun body => by simp
  · have hgrows := (uses_namedAttribute (R := fun _ => True) info trivial).grows hname
    have hspelled := spelled_table (fun line _ => uses_encodeLine line)
      (fun line _ _ _ _ h _ => spelled_line hfits h) htable (hmeans.of_grows hgrows)
    refine adds_singleton (reads_namedAttribute hname hmeans) fun body hbody => ⟨?_, hbody⟩
    exact except_bind_eq_ok.mpr ⟨_, runOn_of_reads (Body.reads_readLines hspelled), rfl⟩

/-- The name of the attribute that holds a table of local variables. -/
def localsName : LocalTable → String
  | .descriptors => "LocalVariableTable"
  | .signatures => "LocalVariableTypeTable"

/-- The variables of one table are added to the variables of a body. -/
theorem adds_locals (hfits : layout.Fits) {table : LocalTable} {locals : List LocalVariable}
    (htable : ∀ v ∈ locals, v.table = table)
    (hy : Yields (tableAttribute (localsName table) "local variables" locals layout.encodeLocal) b
      pieces c) (hmeans : c.Means pool) :
    Adds pool length pieces fun body =>
      { body with locals := body.locals ++ locals.map (·.mapLabels layout.relabel) } := by
  rcases tableAttribute_cases hy with ⟨rfl, rfl⟩ | ⟨info, bytes, s, rfl, hinfo, hname⟩
  · exact adds_nil fun body => by simp
  · have hgrows := (uses_namedAttribute (R := fun _ => True) info trivial).grows hname
    have hspelled : Bytes.Counted (Body.SpelledLocal pool table)
        (locals.map (·.mapLabels layout.relabel)) info := by
      refine spelled_table (fun v _ => uses_encodeLocal trivial trivial)
        (fun v hv _ _ _ h hmeans => ?_) hinfo (hmeans.of_grows hgrows)
      rw [← htable v hv]
      exact spelled_local hfits h hmeans
    have hread := runOn_of_reads (Body.reads_readLocals hspelled)
    refine adds_singleton (reads_namedAttribute hname hmeans) fun body hbody => ⟨?_, hbody⟩
    cases table <;> exact except_bind_eq_ok.mpr ⟨_, hread, rfl⟩

/-- The attribute of the stack map, which is left out if there are no frames. -/
def frameAttribute (layout : Layout) : Pooling (List Bytes) := do
  if layout.frames.isEmpty then pure [] else do
    let info ← layout.stackMap
    pure [← namedAttribute "StackMapTable" info]

theorem uses_frameAttribute
    (hR : ∀ p ∈ layout.frames.toList, ∀ v ∈ p.2.types, ∀ name, v = .object name →
      ∀ t ∈ (Symbol.classRef name).parts, R t)
    (hname : layout.frames.toList ≠ [] → R (.utf8 "StackMapTable")) :
    Pooling.Uses R layout.frameAttribute := by
  unfold frameAttribute
  by_cases h : layout.frames.isEmpty = true
  · simp only [h, ↓reduceIte]
    exact Pooling.uses_pure []
  · simp only [h, Bool.false_eq_true, ↓reduceIte]
    have hne : layout.frames.toList ≠ [] := by simpa using h
    exact (uses_stackMap hR).bind fun info => (uses_namedAttribute info (hname hne)).map _

/-- The frames that are written are added to the frames of a body. -/
theorem adds_frames (hfits : layout.Fits) (hin : ∀ p ∈ layout.frames.toList, p.1 < length)
    (hy : Yields layout.frameAttribute b pieces c) (hmeans : c.Means pool) :
    Adds pool length pieces fun body => { body with
      frames := body.frames ++
        layout.frames.toList.map fun p => (p.1, p.2.mapLabels layout.relabel) } := by
  unfold frameAttribute at hy
  by_cases h : layout.frames.isEmpty = true
  · -- Without frames there is no attribute to read.
    simp only [h, ↓reduceIte] at hy
    obtain ⟨rfl, -⟩ := yields_pure.mp hy
    have hnil : layout.frames.toList = [] := by simpa using h
    refine adds_nil fun body => ?_
    simp [hnil]
  · simp only [h, Bool.false_eq_true, ↓reduceIte] at hy
    obtain ⟨info, s, hinfo, hy⟩ := yields_bind.mp hy
    obtain ⟨bytes, _, hname, hp⟩ := yields_bind.mp hy
    obtain ⟨rfl, rfl⟩ := yields_pure.mp hp
    have hgrows := (uses_namedAttribute (R := fun _ => True) info trivial).grows hname
    have hspelled := spelled_stackMap hfits hin hinfo (hmeans.of_grows hgrows)
    refine adds_singleton (reads_namedAttribute hname hmeans) fun body hbody => ⟨?_, hbody⟩
    refine except_bind_eq_ok.mpr ⟨_, ?_, rfl⟩
    rw [hbody]
    exact runOn_of_reads (Body.reads_readFrameTable hspelled)

/-! ### The whole attribute -/

/-- What the attributes of the code make of a body without tables. -/
def fill (layout : Layout) (m : MethodSource) (body : Body) : Body :=
  { body with
    lines := body.lines ++ m.lines.map fun l => (layout.offsetOf l.2, l.1)
    locals := body.locals ++ (m.localsIn .descriptors).map (·.mapLabels layout.relabel)
      ++ (m.localsIn .signatures).map (·.mapLabels layout.relabel)
    frames := body.frames ++
      layout.frames.toList.map fun p => (p.1, p.2.mapLabels layout.relabel) }

theorem table_of_mem_localsIn {table : LocalTable} {v : LocalVariable}
    (hv : v ∈ m.localsIn table) : v.table = table := by
  obtain ⟨e, _, he⟩ := List.mem_filterMap.mp hv
  cases e with
  | localVariable w =>
    dsimp only at he
    split at he
    · next h =>
      cases he
      exact h
    · cases he
  | _ => cases he

/-- The attributes of the code, one table after the other. -/
theorem codeAttributes_eq : layout.codeAttributes m = (do
    let lines ← tableAttribute "LineNumberTable" "line numbers" m.lines layout.encodeLine
    let locals ← tableAttribute "LocalVariableTable" "local variables"
      (m.localsIn .descriptors) layout.encodeLocal
    let signatures ← tableAttribute "LocalVariableTypeTable" "local variables"
      (m.localsIn .signatures) layout.encodeLocal
    let frames ← layout.frameAttribute
    return lines ++ locals ++ signatures ++ frames) := by
  unfold codeAttributes frameAttribute
  by_cases h : layout.frames.isEmpty = true
  · simp only [h, ↓reduceIte]
  · simp only [h, Bool.false_eq_true, ↓reduceIte, bind_assoc]

/-- **The attributes of the code are read back** as what the method has of each table. -/
theorem adds_codeAttributes (hfits : layout.Fits)
    (hin : ∀ p ∈ layout.frames.toList, p.1 < length)
    (hy : Yields (layout.codeAttributes m) b pieces c) (hmeans : c.Means pool) :
    Adds pool length pieces (layout.fill m) := by
  rw [codeAttributes_eq] at hy
  obtain ⟨lines, s1, h1, hy⟩ := yields_bind.mp hy
  obtain ⟨locals, s2, h2, hy⟩ := yields_bind.mp hy
  obtain ⟨signatures, s3, h3, hy⟩ := yields_bind.mp hy
  obtain ⟨frames, _, h4, hp⟩ := yields_bind.mp hy
  obtain ⟨rfl, rfl⟩ := yields_pure.mp hp
  have huses {name : String} {rows : List LocalVariable} : Pooling.Uses (fun _ => True)
      (tableAttribute name "local variables" rows layout.encodeLocal) :=
    uses_tableAttribute (fun v _ => uses_encodeLocal trivial trivial) fun _ => trivial
  -- Each table is written with a pool that the later ones extend.
  have hm3 : s3.Means pool := hmeans.of_grows
    ((uses_frameAttribute (R := fun _ => True) (fun _ _ _ _ _ _ _ _ => trivial)
      fun _ => trivial).grows h4)
  have hm2 : s2.Means pool := hm3.of_grows (huses.grows h3)
  have hm1 : s1.Means pool := hm2.of_grows (huses.grows h2)
  exact (((adds_lines hfits h1 hm1).append
    (@adds_locals _ _ _ _ _ _ hfits .descriptors _ (fun _ => table_of_mem_localsIn) h2 hm2)).append
    (@adds_locals _ _ _ _ _ _ hfits .signatures _ (fun _ => table_of_mem_localsIn) h3 hm3)).append
    (adds_frames hfits hin h4 hmeans)

end Layout

end RoundingPatch.ClassFile
