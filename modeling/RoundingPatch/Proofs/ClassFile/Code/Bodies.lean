import RoundingPatch.Proofs.ClassFile.Code.Attribute
import RoundingPatch.Proofs.ClassFile.Code.Decoding
/-!
# Bodies that were read

`body.Grounded pool` gathers what holds of every body that `Body.parse` yields
(`grounded_of_parse`): its instructions come from the code, every label in its tables is that of an
offset, every offset it mentions is an instruction or the end of the code, and the pool has the
names in it.
-/

namespace RoundingPatch.ClassFile

open Read ConstantPool

variable {pool : ConstantPool}

/-- The numbers of local variables that a frame drops or adds are those that have a form. -/
def Frame.Encodable : Frame → Prop
  | .chop count => 1 ≤ count ∧ count ≤ 3
  | .append locals => 1 ≤ locals.length ∧ locals.length ≤ 3
  | _ => True

namespace Body

/-- A label of an offset that fits a label. -/
def IsOffset (label : Label) : Prop :=
  ∃ t < 2147483648, label = labelAt t

theorem labelAt_toNat {label : Label} (h : IsOffset label) : labelAt label.id.toNat = label := by
  obtain ⟨t, ht, rfl⟩ := h
  rw [toNat_labelAt ht]

theorem isOffset_of_u2 (v : UInt16) : IsOffset (labelAt v.toNat) :=
  ⟨v.toNat, by have := v.toNat_lt; omega, rfl⟩

/-! ### Rows of tables -/

/-- The labels of a handler that is read are offsets, and the pool has the class it catches. -/
theorem gives_readHandler : Gives (readHandler pool) fun h =>
    (∀ l ∈ h.labels, IsOffset l) ∧ ∀ name ∈ h.catchType, pool.Supplies (.classRef name) := by
  refine (gives_u2 _).bind fun start _ => (gives_u2 _).bind fun stop _ => (gives_u2 _).bind
    fun entry _ => (gives_u2 _).bind fun _ _ => (gives_lift fun _ h => h).bind fun name hname =>
      gives_pure ⟨?_, supplies_className? hname⟩
  simp [TryCatch.labels, isOffset_of_u2]

/-- A variable that is read lies between two offsets in order, and the pool has its texts. -/
theorem gives_readLocals (table : LocalTable) : Gives (readLocals pool table) fun locals =>
    ∀ v ∈ locals, v.table = table ∧ (∀ l ∈ v.labels, IsOffset l) ∧
      pool.Supplies (.utf8 v.name) ∧ pool.Supplies (.utf8 v.descriptor) ∧
      v.start.id.toNat ≤ v.stop.id.toNat := by
  refine (gives_u2 _).bind fun count _ => (gives_many
    (p := fun v : LocalVariable => v.table = table ∧ (∀ l ∈ v.labels, IsOffset l) ∧
      pool.Supplies (.utf8 v.name) ∧ pool.Supplies (.utf8 v.descriptor) ∧
      v.start.id.toNat ≤ v.stop.id.toNat) ?_ _).weaken
    fun locals h => h.2
  refine (gives_u2 _).bind fun start _ => (gives_u2 _).bind fun length _ => (gives_u2 _).bind
    fun _ _ => (gives_lift fun _ h => h).bind fun name hname => (gives_u2 _).bind
    fun _ _ => (gives_lift fun _ h => h).bind fun descriptor hdescriptor => (gives_u2 _).bind
    fun index _ => gives_pure ⟨rfl, ?_, supplies_utf8 hname, supplies_utf8 hdescriptor, ?_⟩
  · -- The end of a range is an offset, too: a sum of two shorts.
    have hstop : IsOffset (labelAt (start.toNat + length.toNat)) :=
      ⟨_, by have := start.toNat_lt; have := length.toNat_lt; omega, rfl⟩
    simp [LocalVariable.labels, isOffset_of_u2, hstop]
  · have := start.toNat_lt
    have := length.toNat_lt
    dsimp only
    rw [toNat_labelAt (by omega), toNat_labelAt (by omega)]
    exact Nat.le_add_right ..

/-- What holds of a verification type that is read. -/
def VTypeRead (pool : ConstantPool) (v : VType) : Prop :=
  (∀ l ∈ v.labels, IsOffset l) ∧ ∀ name, v = .object name → pool.Supplies (.classRef name)

theorem gives_readVType : Gives (readVType pool) (VTypeRead pool) := by
  refine (gives_u1 _).bind fun tag _ => ?_
  split
  case h_8 =>
    refine (gives_u2 _).bind fun _ _ => (gives_lift fun _ h => h).bind fun name hname =>
      gives_pure ⟨by simp [VType.labels, vtypeLabels], ?_⟩
    rintro _ ⟨rfl⟩
    exact supplies_className hname
  case h_9 =>
    refine (gives_u2 _).bind fun offset _ => gives_pure ⟨?_, by simp⟩
    simp [VType.labels, vtypeLabels, isOffset_of_u2]
  case h_10 => exact gives_malformed _ _
  all_goals exact gives_pure ⟨by simp [VType.labels, vtypeLabels], by simp⟩

/-- What holds of a stack map frame that is read. -/
structure FrameRead (pool : ConstantPool) (frame : Frame) : Prop where
  types : ∀ v ∈ frame.types, VTypeRead pool v
  encodable : frame.Encodable

theorem gives_readFrame : Gives (readFrame pool) fun p => FrameRead pool p.2 := by
  -- Most branches give a frame without types, or one with a single type on the stack.
  have hplain {delta : Nat} {frame : Frame} (h : frame.types = []) (hencodable : frame.Encodable) :
      Gives (pure (delta, frame)) fun p => FrameRead pool p.2 :=
    gives_pure ⟨by simp [h], hencodable⟩
  have hone (delta : Nat) : Gives (do return (delta, Frame.sameWithOne (← readVType pool)))
      fun p => FrameRead pool p.2 := by
    refine gives_readVType.bind fun stack hstack => gives_pure ⟨fun v hv => ?_, trivial⟩
    rw [List.mem_singleton.mp hv]
    exact hstack
  refine (gives_u1 _).bind fun tag _ => ?_
  dsimp only
  split
  · exact hplain rfl trivial
  split
  · exact hone _
  split
  · exact gives_malformed _ _
  refine (gives_u2 _).bind fun delta _ => ?_
  split
  · exact hone _
  split
  · refine hplain rfl ?_
    have hcount : 251 - tag.toNat = 1 ∨ 251 - tag.toNat = 2 ∨ 251 - tag.toNat = 3 := by omega
    rcases hcount with h | h | h <;> rw [h] <;> exact ⟨by decide, by decide⟩
  split
  · exact hplain rfl trivial
  split
  · refine (gives_many gives_readVType _).bind fun locals hlocals => gives_pure ⟨hlocals.2, ?_⟩
    exact ⟨by have := hlocals.1; omega, by have := hlocals.1; omega⟩
  · refine (gives_u2 _).bind fun _ _ => (gives_many gives_readVType _).bind fun locals hlocals =>
      (gives_u2 _).bind fun _ _ => (gives_many gives_readVType _).bind fun stack hstack =>
        gives_pure ⟨fun v hv => ?_, trivial⟩
    rcases List.mem_append.mp hv with hv | hv
    · exact hlocals.2 v hv
    · exact hstack.2 v hv

/-- A frame that is read stands before the end of the code. -/
theorem gives_readFrames (length count : Nat) (previous : Option Nat) :
    Gives (readFrames pool length count previous) fun frames =>
      ∀ p ∈ frames, p.1 < length ∧ FrameRead pool p.2 := by
  induction count generalizing previous with
  | zero => exact gives_pure (by simp)
  | succ count ih =>
    refine gives_readFrame.bind fun p hp => Gives.check fun hlt => (ih _).bind fun rest hrest =>
      gives_pure ?_
    rw [List.forall_mem_cons]
    exact ⟨⟨Nat.lt_of_not_le hlt, hp⟩, hrest⟩

theorem gives_readAttributes : Gives (readAttributes pool) fun attrs =>
    ∀ a ∈ attrs, pool.Supplies (.utf8 a.name) := by
  refine (gives_u2 _).bind fun count _ => (gives_many
    (p := fun a : RawAttribute => pool.Supplies (.utf8 a.name)) ?_ _).weaken fun attrs h => h.2
  exact (gives_u2 _).bind fun _ _ => (gives_lift fun _ h => h).bind fun name hname =>
    (gives_u4 _).bind fun length _ => (gives_take _ _).bind fun info _ =>
      gives_pure (supplies_utf8 hname)

/-! ### Whole bodies -/

/-- What holds of a body while its tables are added. -/
structure Tabled (pool : ConstantPool) (body : Body) : Prop where
  length_pos : 0 < body.length
  length_le : body.length ≤ 65535
  code : FromCode pool body.length 0 body.length body.insns
  insns_ne_nil : body.insns ≠ []
  handlers : ∀ h ∈ body.handlers,
    (∀ l ∈ h.labels, IsOffset l) ∧ ∀ name ∈ h.catchType, pool.Supplies (.classRef name)
  lines : body.lines ≠ [] → pool.Supplies (.utf8 "LineNumberTable")
  locals : ∀ v ∈ body.locals, (∀ l ∈ v.labels, IsOffset l) ∧
    pool.Supplies (.utf8 v.name) ∧ pool.Supplies (.utf8 v.descriptor) ∧
    pool.Supplies (.utf8 (Layout.localsName v.table))
  forwards : ∀ v ∈ body.locals, v.start.id.toNat ≤ v.stop.id.toNat
  frames : ∀ p ∈ body.frames, p.1 < body.length ∧ FrameRead pool p.2
  stackMap : body.frames ≠ [] → pool.Supplies (.utf8 "StackMapTable")

/-- An attribute keeps a body in order, whichever table it is. -/
theorem Tabled.addTable {body next : Body} {attr : RawAttribute} (h : body.Tabled pool)
    (hname : pool.Supplies (.utf8 attr.name)) (hadd : Body.addTable pool body attr = .ok next) :
    next.Tabled pool := by
  unfold Body.addTable at hadd
  -- Both tables of variables add to one list.
  have hlocals {table : LocalTable} (hname : pool.Supplies (.utf8 (Layout.localsName table)))
      {locals : List LocalVariable} (hread : runOn (readLocals pool table) attr.info = .ok locals) :
      { body with locals := body.locals ++ locals }.Tabled pool := by
    have hgiven := runOn_gives (gives_readLocals table) hread
    refine { h with locals := fun v hv => ?_, forwards := fun v hv => ?_ }
    · rcases List.mem_append.mp hv with hv | hv
      · exact h.locals v hv
      · obtain ⟨rfl, hlabels, hn, hd, _⟩ := hgiven v hv
        exact ⟨hlabels, hn, hd, hname⟩
    · rcases List.mem_append.mp hv with hv | hv
      · exact h.forwards v hv
      · exact (hgiven v hv).2.2.2.2
  split at hadd
  · next hattr =>
    rw [hattr] at hname
    obtain ⟨lines, _, hadd⟩ := except_bind_eq_ok.mp hadd
    cases hadd
    exact { h with lines := fun _ => hname }
  · next hattr =>
    rw [hattr] at hname
    obtain ⟨locals, hread, hadd⟩ := except_bind_eq_ok.mp hadd
    cases hadd
    exact @hlocals .descriptors hname _ hread
  · next hattr =>
    rw [hattr] at hname
    obtain ⟨locals, hread, hadd⟩ := except_bind_eq_ok.mp hadd
    cases hadd
    exact @hlocals .signatures hname _ hread
  · next hattr =>
    rw [hattr] at hname
    obtain ⟨frames, hread, hadd⟩ := except_bind_eq_ok.mp hadd
    cases hadd
    have hframes := runOn_gives ((gives_u2 _).bind fun count _ =>
      gives_readFrames body.length count.toNat none) hread
    refine { h with frames := fun p hp => ?_, stackMap := fun _ => hname }
    rcases List.mem_append.mp hp with hp | hp
    · exact h.frames p hp
    · exact hframes p hp
  · cases hadd

theorem Tabled.addTables {attrs : List RawAttribute} {body last : Body} (h : body.Tabled pool)
    (hnames : ∀ a ∈ attrs, pool.Supplies (.utf8 a.name))
    (hfold : attrs.foldlM (Body.addTable pool) body = .ok last) : last.Tabled pool := by
  induction attrs generalizing body with
  | nil =>
    cases hfold
    exact h
  | cons a attrs ih =>
    rw [List.foldlM_cons] at hfold
    obtain ⟨next, hadd, hfold⟩ := except_bind_eq_ok.mp hfold
    rw [List.forall_mem_cons] at hnames
    exact ih (h.addTable hnames.1 hadd) hnames.2 hfold

/-- Every offset mentioned is an instruction or the end of the code. -/
def Bounded (body : Body) : Prop :=
  ∀ r ∈ body.references, r ∈ body.insns.map (·.1) ∨ r = body.length

/-- **The check of the references passes** exactly if each is an instruction or the end of the
code. -/
theorem checkReferences_eq_ok {body : Body} {u : Unit} :
    body.checkReferences = .ok u ↔ body.Bounded := by
  have hgood (r : Nat) : (r ≠ body.length &&
      !(Std.TreeSet.ofList (body.insns.map (·.1))).contains r) = false ↔
        r ∈ body.insns.map (·.1) ∨ r = body.length := by
    rw [Std.TreeSet.contains_ofList]
    by_cases hr : r = body.length
    · simp [hr]
    · simp [hr]
  unfold checkReferences
  dsimp only
  split
  · next offset hfind =>
    have hbad := List.find?_some hfind
    simp only [reduceCtorEq, false_iff]
    intro hall
    rw [(hgood offset).mpr (hall offset (List.mem_of_find?_eq_some hfind))] at hbad
    cases hbad
  · next hfind =>
    simp only [true_iff]
    intro r hr
    have hnone := List.find?_eq_none.mp hfind r hr
    exact (hgood r).mp (by simpa using hnone)

/-- What holds of a body that was read. -/
structure Grounded (pool : ConstantPool) (body : Body) : Prop extends Tabled pool body where
  bounded : body.Bounded

theorem gives_read : Gives (read pool) (Grounded pool) := by
  refine (gives_u2 _).bind fun maxStack _ => (gives_u2 _).bind fun maxLocals _ =>
    (gives_u4 _).bind fun length _ => Gives.check fun hlength => (gives_take _ _).bind
    fun code hcode => (gives_lift fun _ h => h).bind fun insns hinsns => (gives_u2 _).bind
    fun count _ => (gives_many gives_readHandler _).bind fun handlers hhandlers =>
    gives_readAttributes.bind fun attrs hattrs => (gives_lift fun _ h => h).bind
    fun body hbody => (gives_lift fun _ h => h).bind fun _ hcheck => gives_pure ?_
  -- The code is decoded from its own bytes, whatever stands around them.
  have hcode' := decodeInsns_spec hinsns
  rw [hcode] at hcode'
  rw [not_or, Nat.not_le] at hlength
  have htabled : Tabled pool { maxStack, maxLocals, length := length.toNat, insns, handlers } :=
    { length_pos := Nat.pos_of_ne_zero hlength.1
      length_le := Nat.le_of_lt_succ hlength.2
      code := hcode'
      insns_ne_nil := decodeInsns_ne_nil hinsns (by
        rintro rfl
        exact hlength.1 hcode.symm)
      handlers := hhandlers.2
      lines := fun h => absurd rfl h
      locals := by simp
      forwards := by simp
      frames := by simp
      stackMap := fun h => absurd rfl h }
  exact { htabled.addTables hattrs hbody with bounded := checkReferences_eq_ok.mp hcheck }

/-- **A body that is read** is grounded in its pool. -/
theorem grounded_of_parse {info : Bytes} {body : Body} (h : parse pool info = .ok body) :
    body.Grounded pool :=
  runOn_gives gives_read h

end Body

end RoundingPatch.ClassFile
