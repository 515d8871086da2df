import RoundingPatch.ClassFile.Draft
import RoundingPatch.Proofs.ClassFile.Method.Finish
import RoundingPatch.Proofs.ClassFile.Reading
/-!
# Class files that were written

The bytes of a draft are those of a class file with the header, the members and the attributes of
the draft (`parse_of_serialize`). A pool that has all that was used makes the same bytes again
(`serialize_again`).
-/

namespace RoundingPatch.ClassFile

open Read

variable {b c q : PoolBuilder} {bytes : Bytes} {pool : ConstantPool} {R : Symbol → Prop}

/-! ### Names of classes -/

/-- The index of a class, or 0 for no class. -/
def Pooling.classRef? (name : Option String) : Pooling UInt16 :=
  match name with
  | some name => classRef name
  | none => pure 0

theorem uses_classRef {name : String} (h : ∀ t ∈ (Symbol.classRef name).parts, R t) :
    Pooling.Uses R (Pooling.classRef name) :=
  Pooling.uses_index (s := .classRef name) h

/-- A class that may be missing uses the entries of its name, if there is one. -/
theorem uses_classRef? {name : Option String}
    (h : ∀ n ∈ name, ∀ t ∈ (Symbol.classRef n).parts, R t) :
    Pooling.Uses R (Pooling.classRef? name) := by
  rcases name with _ | name
  · exact Pooling.uses_pure 0
  · exact uses_classRef (h name rfl)

theorem className_of_classRef {name : String} {i : UInt16}
    (hy : Yields (Pooling.classRef name) b i c) (hmeans : c.Means pool) :
    pool.className i = .ok name :=
  ConstantPool.denotes_classRef.mp (denotes_of_index (s := .classRef name) hy hmeans)

/-- The index of a class that may be missing is read back as the class, or as none. -/
theorem className?_of_classRef? {name : Option String} {i : UInt16}
    (hy : Yields (Pooling.classRef? name) b i c) (hmeans : c.Means pool)
    (hzero : ∀ e, pool.get 0 ≠ .ok e) : pool.className? i = .ok name := by
  rcases name with _ | name
  · obtain ⟨rfl, -⟩ := yields_pure.mp hy
    rfl
  · have hname := className_of_classRef hy hmeans
    have hne : i ≠ 0 := by
      rintro rfl
      obtain ⟨_, hget, _⟩ := ConstantPool.className_eq_ok.mp hname
      exact hzero _ hget
    simp only [ConstantPool.className?, hne, ↓reduceIte, hname]
    rfl

theorem uses_classRefs {names : List String}
    (h : ∀ n ∈ names, ∀ t ∈ (Symbol.classRef n).parts, R t) :
    Pooling.Uses R (names.mapM Pooling.classRef) :=
  Pooling.uses_mapM fun n hn => uses_classRef (h n hn)

/-- The indices of class names are read back as the names. -/
theorem classNames_of_classRefs {names : List String} {refs : List UInt16}
    (hy : Yields (names.mapM Pooling.classRef) b refs c) (hmeans : c.Means pool) :
    List.Forall₂ (fun i name => pool.className i = .ok name) refs names := by
  induction names generalizing b refs with
  | nil =>
    obtain ⟨rfl, -⟩ := yields_mapM_nil.mp hy
    exact .nil
  | cons name names ih =>
    obtain ⟨i, rest, s, rfl, hi, hrest⟩ := yields_mapM_cons.mp hy
    have hgrows := (uses_classRefs (R := fun _ => True) fun _ _ _ _ => trivial).grows hrest
    exact .cons (className_of_classRef hi (hmeans.of_grows hgrows)) (ih hrest)

/-! ### Writing taken apart -/

theorem Pooling.lift_bind {α β : Type} (x : Except Fault α) (f : α → Except Fault β) :
    Pooling.lift (x >>= f) = (do let a ← Pooling.lift x; Pooling.lift (f a)) := by
  rcases x with _ | _ <;> rfl

theorem Pooling.lift_pure {α : Type} (a : α) : Pooling.lift (pure a) = pure a := rfl

namespace ClassDraft

variable {draft : ClassDraft}

/-- The indices of the names in a header. -/
structure HeaderRefs where
  thisClass : UInt16
  superClass : UInt16
  interfaces : List UInt16

/-- Looks up the names in a header. -/
def headerRefs (header : Header) : Pooling HeaderRefs := do
  let thisClass ← Pooling.classRef header.name
  let superClass ← Pooling.classRef? header.superName
  let interfaces ← header.interfaces.mapM Pooling.classRef
  return { thisClass, superClass, interfaces }

/-- The bytes of a draft whose names and attributes are in the pool. -/
def assemble (draft : ClassDraft) (pool : PoolBuilder) (refs : HeaderRefs)
    (attributes : List Bytes) : Except Fault Bytes := do
  let interfaceCount ← countU2 refs.interfaces.length "interfaces"
  let fieldCount ← countU2 draft.fields.size "fields"
  let methodCount ← countU2 draft.methods.size "methods"
  let attributeCount ← countU2 attributes.length "class attributes"
  return Bytes.ofU4 magic
    ++ Bytes.ofU2 draft.header.minor
    ++ Bytes.ofU2 draft.header.major
    ++ Bytes.ofU2 (UInt16.ofNat pool.count) ++ pool.bytes
    ++ Bytes.ofU2 draft.header.access
    ++ Bytes.ofU2 refs.thisClass
    ++ Bytes.ofU2 refs.superClass
    ++ Bytes.ofU2 interfaceCount ++ refs.interfaces.flatMap Bytes.ofU2
    ++ Bytes.ofU2 fieldCount ++ draft.fields.toList.flatten
    ++ Bytes.ofU2 methodCount ++ draft.methods.toList.flatten
    ++ Bytes.ofU2 attributeCount ++ attributes.flatten

theorem serialize_eq : draft.serialize = (do
    let refs ← headerRefs draft.header
    let pool ← get
    if !draft.attributes.isEmpty && pool.origin.isNone then
      Pooling.fail (.unsupported .rawClassAttributes)
    let attributes ← Layout.namedAttributes draft.attributes.toList
    let pool ← get
    Pooling.lift (draft.assemble pool refs attributes)) := by
  unfold serialize headerRefs Pooling.classRef? assemble
  simp only [Pooling.lift_bind, Pooling.lift_pure]
  rcases draft.header.superName with _ | name
  · simp only [bind_assoc, pure_bind]
    rfl
  · simp only [bind_assoc, pure_bind]
    rfl

/-- **A class is serialized** if its names and attributes can be written and its parts counted. -/
theorem yields_serialize : Yields draft.serialize b bytes c ↔
    ∃ refs s attributes, Yields (headerRefs draft.header) b refs s ∧
      (draft.attributes.toList = [] ∨ s.origin.isSome) ∧
      Yields (Layout.namedAttributes draft.attributes.toList) s attributes c ∧
      draft.assemble c refs attributes = .ok bytes := by
  -- Attributes are raw bytes, so they need a pool that they were read with.
  have hguard (u : PoolBuilder) : ¬ (!draft.attributes.isEmpty && u.origin.isNone) = true ↔
      draft.attributes.toList = [] ∨ u.origin.isSome := by
    rcases u.origin with _ | o <;> simp
  rw [serialize_eq]
  constructor
  · intro h
    obtain ⟨refs, s, hrefs, h⟩ := yields_bind.mp h
    obtain ⟨horigin, h⟩ := Pooling.yields_unless.mp (yields_get_bind.mp h)
    obtain ⟨attributes, t, hattributes, h⟩ := yields_bind.mp h
    obtain ⟨hbytes, rfl⟩ := Pooling.yields_lift.mp (yields_get_bind.mp h)
    exact ⟨refs, s, attributes, hrefs, (hguard s).mp horigin, hattributes, hbytes⟩
  · rintro ⟨refs, s, attributes, hrefs, horigin, hattributes, hbytes⟩
    exact hrefs.bind (yields_get_bind.mpr (Pooling.yields_unless.mpr ⟨(hguard s).mpr horigin,
      hattributes.bind (yields_get_bind.mpr (Pooling.yields_lift.mpr ⟨hbytes, rfl⟩))⟩))

/-! ### Reading what was written -/

/-- What the names in a header are read as. -/
structure Names (pool : ConstantPool) (header : Header) (refs : HeaderRefs) : Prop where
  thisClass : pool.className refs.thisClass = .ok header.name
  superClass : pool.className? refs.superClass = .ok header.superName
  interfaces : List.Forall₂ (fun i name => pool.className i = .ok name) refs.interfaces
    header.interfaces

/-- The header uses the names in it. -/
theorem uses_headerRefs {header : Header} (hname : ∀ t ∈ (Symbol.classRef header.name).parts, R t)
    (hsuper : ∀ n ∈ header.superName, ∀ t ∈ (Symbol.classRef n).parts, R t)
    (hinterfaces : ∀ n ∈ header.interfaces, ∀ t ∈ (Symbol.classRef n).parts, R t) :
    Pooling.Uses R (headerRefs header) :=
  (uses_classRef hname).bind fun _ => (uses_classRef? hsuper).bind fun _ =>
    (uses_classRefs hinterfaces).map _

/-- The indices of a header are read back as its names. -/
theorem names_of_headerRefs {header : Header} {refs : HeaderRefs}
    (hy : Yields (headerRefs header) b refs c) (hmeans : c.Means pool)
    (hzero : ∀ e, pool.get 0 ≠ .ok e) : Names pool header refs := by
  obtain ⟨thisClass, s, hthis, hy⟩ := yields_bind.mp hy
  obtain ⟨superClass, t, hsuper, hy⟩ := yields_bind.mp hy
  obtain ⟨interfaces, _, hinterfaces, hp⟩ := yields_bind.mp hy
  obtain ⟨rfl, rfl⟩ := yields_pure.mp hp
  have ht : t.Means pool := hmeans.of_grows
    ((uses_classRefs (R := fun _ => True) fun _ _ _ _ => trivial).grows hinterfaces)
  have hs : s.Means pool := ht.of_grows
    ((uses_classRef? (R := fun _ => True) fun _ _ _ _ => trivial).grows hsuper)
  exact ⟨className_of_classRef hthis hs, className?_of_classRef? hsuper ht hzero,
    classNames_of_classRefs hinterfaces hmeans⟩

/-- **The bytes of a draft** are those of a class file with its header, its members and its
attributes. -/
theorem parse_of_serialize {slots : Array (Option PoolEntry)} {fields methods : List Member}
    (hy : Yields draft.serialize b bytes c) (hsound : c.Sound slots)
    (hversion : isKnownVersion draft.header.major = true)
    (hfields : List.Forall₂ (fun bytes m => Reads (readMember (c.poolOf slots) "field") bytes m)
      draft.fields.toList fields)
    (hmethods : List.Forall₂ (fun bytes m => Reads (readMember (c.poolOf slots) "method") bytes m)
      draft.methods.toList methods)
    (hdistinct : firstRepeated [] methods = none) :
    parse bytes = .ok {
      pool := c.poolOf slots, header := draft.header, fields, methods
      attributes := draft.attributes.toList } := by
  obtain ⟨refs, s, attributes, hrefs, -, hattributes, hbytes⟩ := yields_serialize.mp hy
  -- The names in the header were looked up in the pool that is written last.
  have hmeans := hsound.means
  have hgrows :=
    (Layout.uses_namedAttributes (R := fun _ => True) fun _ _ => trivial).grows hattributes
  have hnames := names_of_headerRefs hrefs (hmeans.of_grows hgrows) hsound.get_zero
  have hattributes := Layout.reads_namedAttributes hattributes hmeans
  obtain ⟨interfaceCount, hinterfaceCount, hbytes⟩ := except_bind_eq_ok.mp hbytes
  obtain ⟨fieldCount, hfieldCount, hbytes⟩ := except_bind_eq_ok.mp hbytes
  obtain ⟨methodCount, hmethodCount, hbytes⟩ := except_bind_eq_ok.mp hbytes
  obtain ⟨attributeCount, hattributeCount, hbytes⟩ := except_bind_eq_ok.mp hbytes
  cases hbytes
  -- Fields and methods are counted and read alike.
  have hmembers {what : String} {pieces : Array Bytes} {members : List Member} {count : UInt16}
      (hcount : countU2 pieces.size (what ++ "s") = .ok count)
      (h : List.Forall₂ (fun bytes m => Reads (readMember (c.poolOf slots) what) bytes m)
        pieces.toList members) :
      Reads (readMembers (c.poolOf slots) what) (Bytes.ofU2 count ++ pieces.toList.flatten)
        members := by
    refine (reads_u2 count _).bind ?_
    rw [Layout.toNat_countU2 hcount, ← Array.length_toList]
    exact reads_many h
  have hfields := hmembers hfieldCount hfields
  have hmethods := hmembers hmethodCount hmethods
  have hattributes : Reads (readAttributes (c.poolOf slots))
      (Bytes.ofU2 attributeCount ++ attributes.flatten) draft.attributes.toList := by
    refine (reads_u2 attributeCount _).bind ?_
    rw [Layout.toNat_countU2 hattributeCount]
    exact reads_many hattributes
  have hinterfaces : Reads (many interfaceCount.toNat do
      Read.lift ((c.poolOf slots).className (← Read.u2 "interface")))
      (refs.interfaces.flatMap Bytes.ofU2) draft.header.interfaces := by
    rw [Layout.toNat_countU2 hinterfaceCount, ← List.length_map Bytes.ofU2]
    refine reads_many ?_
    rw [List.forall₂_map_left_iff]
    exact hnames.interfaces.imp fun i name h => (reads_u2 i _).bind_nil (reads_lift h)
  -- The parser is run over the pieces in their order.
  unfold parse runOn Cursor.start
  show Except.map _ (read ⟨0, _, 0⟩) = _
  rw [← List.append_nil attributes.flatten]
  simp only [List.append_assoc]
  unfold read
  rw [bind_of_ok (reads_u4 _ _ _ _)]
  simp only [ne_eq, not_true_eq_false, ↓reduceIte]
  rw [bind_of_ok (reads_u2 _ _ _ _), bind_of_ok (reads_u2 _ _ _ _)]
  simp only [hversion, Bool.not_true, Bool.false_eq_true, ↓reduceIte]
  rw [bind_of_ok (hsound.reads.run_append _ _), bind_of_ok (reads_u2 _ _ _ _),
    bind_of_ok (reads_u2 _ _ _ _), bind_of_ok (lift_of_ok hnames.thisClass _),
    bind_of_ok (reads_u2 _ _ _ _), bind_of_ok (lift_of_ok hnames.superClass _),
    bind_of_ok (reads_u2 _ _ _ _), bind_of_ok (hinterfaces _ _),
    bind_of_ok (hfields.run_append _ _), bind_of_ok (hmethods.run_append _ _),
    bind_of_ok (hattributes.run_append _ _), cursor_bind]
  simp only [Cursor.remaining, hdistinct]
  rfl

/-- Writing a draft adds nothing to the pool but the names in its header and in its attributes. -/
theorem grows_serialize (hname : ∀ t ∈ (Symbol.classRef draft.header.name).parts, R t)
    (hsuper : ∀ n ∈ draft.header.superName, ∀ t ∈ (Symbol.classRef n).parts, R t)
    (hinterfaces : ∀ n ∈ draft.header.interfaces, ∀ t ∈ (Symbol.classRef n).parts, R t)
    (hattributes : ∀ a ∈ draft.attributes.toList, R (.utf8 a.name))
    (hy : Yields draft.serialize b bytes c) : b.Grows R c := by
  obtain ⟨refs, s, attributes, hrefs, -, hattrs, -⟩ := yields_serialize.mp hy
  exact ((uses_headerRefs hname hsuper hinterfaces).grows hrefs).trans
    ((Layout.uses_namedAttributes hattributes).grows hattrs)

/-- **Writing a draft again** yields the same bytes if the pool has all that it took. -/
theorem serialize_again (hy : Yields draft.serialize b bytes c) (hq : q.Covers c)
    (hcount : q.count = c.count) (hpool : q.bytes = c.bytes) :
    Yields draft.serialize q bytes q := by
  obtain ⟨refs, s, attributes, hrefs, horigin, hattributes, hbytes⟩ := yields_serialize.mp hy
  have huses : Pooling.Uses (fun _ => True) (Layout.namedAttributes draft.attributes.toList) :=
    Layout.uses_namedAttributes fun _ _ => trivial
  have hs : q.Covers s := hq.of_grows (huses.grows hattributes)
  have hheader : Pooling.Uses (fun _ => True) (headerRefs draft.header) :=
    uses_headerRefs (fun _ _ => trivial) (fun _ _ _ _ => trivial) fun _ _ _ _ => trivial
  refine yields_serialize.mpr ⟨refs, q, attributes, hheader.replays hrefs hs,
    horigin.imp_right hs.origin, huses.replays hattributes hq, ?_⟩
  unfold assemble at hbytes ⊢
  rw [hcount, hpool]
  exact hbytes

end ClassDraft

end RoundingPatch.ClassFile
