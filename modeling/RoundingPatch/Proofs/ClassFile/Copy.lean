import RoundingPatch.Proofs.ClassFile.Drafting
/-!
# Copies of class files

A class file consists of its pool, its members, the contents of its attributes and a number of
indices of names outside the members, without gap or overlap (`exists_spelled_of_parse`). A copy
consists of the same parts and of indices of the same names (`copyAll_spelled`), so it is read as
the same class file (`copied_lossless`). The indices may differ only where a name stands in the pool
more than once.
-/

namespace RoundingPatch.ClassFile

open Read ClassDraft

variable {c : ClassFile} {pool : ConstantPool} {x y : Bytes}

/-! ### The parts of a class file -/

/-- The indices of the names that stand outside the members. -/
structure NameRefs extends HeaderRefs where
  attributes : List UInt16

/-- An attribute whose name has an index. -/
def spelledAttribute (name : UInt16) (a : RawAttribute) : Bytes :=
  Bytes.ofU2 name ++ Bytes.ofU4 (UInt32.ofNat a.info.length) ++ a.info

/-- The bytes of a class file, given the indices of the names outside its members. -/
def spelled (c : ClassFile) (refs : NameRefs) : Bytes :=
  Bytes.ofU4 magic
    ++ Bytes.ofU2 c.header.minor
    ++ Bytes.ofU2 c.header.major
    ++ Bytes.ofU2 (UInt16.ofNat c.pool.count) ++ c.pool.raw
    ++ Bytes.ofU2 c.header.access
    ++ Bytes.ofU2 refs.thisClass
    ++ Bytes.ofU2 refs.superClass
    ++ Bytes.ofU2 (UInt16.ofNat c.header.interfaces.length) ++ refs.interfaces.flatMap Bytes.ofU2
    ++ Bytes.ofU2 (UInt16.ofNat c.fields.length) ++ c.fields.flatMap (·.raw)
    ++ Bytes.ofU2 (UInt16.ofNat c.methods.length) ++ c.methods.flatMap (·.raw)
    ++ Bytes.ofU2 (UInt16.ofNat c.attributes.length)
    ++ (List.zipWith spelledAttribute refs.attributes c.attributes).flatten

/-- Indices that stand for the names of a class file. -/
structure NamedBy (c : ClassFile) (refs : NameRefs) : Prop where
  header : Names c.pool c.header refs.toHeaderRefs
  attributes : List.Forall₂ (fun i (a : RawAttribute) => c.pool.utf8 i = .ok a.name) refs.attributes
    c.attributes

/-- The counts of a class file fit the fields they are written to. -/
structure Countable (c : ClassFile) : Prop where
  interfaces : c.header.interfaces.length < 65536
  fields : c.fields.length < 65536
  methods : c.methods.length < 65536
  attributes : c.attributes.length < 65536
  infos : ∀ a ∈ c.attributes, a.info.length < 4294967296

/-! ### Reading -/

/-- Members are spelled by their count and the bytes they keep. -/
theorem spells_readMembers {what : String} : Spells (readMembers pool what) fun members bytes =>
    members.length < 65536 ∧
      bytes = Bytes.ofU2 (UInt16.ofNat members.length) ++ members.flatMap (·.raw) := by
  unfold readMembers
  refine (spells_u2 _).bind fun count front hfront => ?_
  refine (spells_many spells_readMember _).weaken fun members bytes h => ?_
  obtain ⟨hlength, pieces, rfl, hpieces⟩ := h
  have hraw : pieces = members.map (·.raw) := by
    clear hlength
    induction hpieces with
    | nil => rfl
    | cons h _ ih => rw [h, ih, List.map_cons]
  refine ⟨hlength ▸ count.toNat_lt, ?_⟩
  rw [hfront, hlength, UInt16.ofNat_toNat, hraw, List.flatMap_def]

/-- An attribute is spelled with some index of its name. -/
theorem spells_readAttribute : Spells (readAttribute pool) fun a bytes =>
    a.info.length < 4294967296 ∧
      ∃ i, pool.utf8 i = .ok a.name ∧ bytes = spelledAttribute i a := by
  unfold readAttribute
  refine (spells_u2 _).bind fun i _ hi => (spells_lift _).bind fun name _ hname =>
    (spells_u4 _).bind fun length _ hlength => (spells_take _ _).bind fun info _ hinfo =>
    spells_pure ?_
  obtain ⟨hname, rfl⟩ := hname
  obtain ⟨hsize, rfl⟩ := hinfo
  refine ⟨by rw [hsize]; exact length.toNat_lt, i, hname, ?_⟩
  simp only [spelledAttribute, hi, hlength, hsize, UInt32.ofNat_toNat, List.nil_append,
    List.append_nil, List.append_assoc]

/-- Attributes are spelled by their count, each with some index of its name. -/
theorem spells_readAttributes : Spells (readAttributes pool) fun attributes bytes =>
    attributes.length < 65536 ∧ (∀ a ∈ attributes, a.info.length < 4294967296) ∧
      ∃ names, List.Forall₂ (fun i (a : RawAttribute) => pool.utf8 i = .ok a.name)
        names attributes ∧
        bytes = Bytes.ofU2 (UInt16.ofNat attributes.length)
          ++ (List.zipWith spelledAttribute names attributes).flatten := by
  unfold readAttributes
  refine (spells_u2 _).bind fun count front hfront => ?_
  refine (spells_many spells_readAttribute _).weaken fun attributes bytes h => ?_
  obtain ⟨hlength, pieces, rfl, hpieces⟩ := h
  obtain ⟨names, hnames, hinfos, hspelled⟩ : ∃ names,
      List.Forall₂ (fun i (a : RawAttribute) => pool.utf8 i = .ok a.name) names attributes ∧
        (∀ a ∈ attributes, a.info.length < 4294967296) ∧
        pieces = List.zipWith spelledAttribute names attributes := by
    -- The count is not part of the induction.
    clear hlength
    induction hpieces with
    | nil => exact ⟨[], .nil, nofun, rfl⟩
    | cons h _ ih =>
      obtain ⟨hinfo, i, hi, rfl⟩ := h
      obtain ⟨names, hnames, hinfos, rfl⟩ := ih
      exact ⟨i :: names, .cons hi hnames, List.forall_mem_cons.mpr ⟨hinfo, hinfos⟩, rfl⟩
  refine ⟨hlength ▸ count.toNat_lt, hinfos, names, hnames, ?_⟩
  rw [hfront, hlength, UInt16.ofNat_toNat, hspelled]

/-- Interfaces are spelled by some indices of their names. -/
theorem spells_interfaces (n : Nat) :
    Spells (many n do Read.lift (pool.className (← Read.u2 "interface"))) fun names bytes =>
      names.length = n ∧ ∃ refs, bytes = refs.flatMap Bytes.ofU2 ∧
        List.Forall₂ (fun i name => pool.className i = .ok name) refs names := by
  have hname : Spells (do Read.lift (pool.className (← Read.u2 "interface"))) fun name bytes =>
      ∃ i, pool.className i = .ok name ∧ bytes = Bytes.ofU2 i := by
    refine (spells_u2 _).bind fun i front hi => (spells_lift _).weaken fun name bytes h => ?_
    obtain ⟨hname, rfl⟩ := h
    exact ⟨i, hname, by rw [hi, List.append_nil]⟩
  refine (spells_many hname n).weaken fun names bytes h => ?_
  obtain ⟨hlength, pieces, rfl, hpieces⟩ := h
  refine ⟨hlength, ?_⟩
  clear hlength
  induction hpieces with
  | nil => exact ⟨[], rfl, .nil⟩
  | cons h _ ih =>
    obtain ⟨i, hi, rfl⟩ := h
    obtain ⟨refs, hrefs, hforall⟩ := ih
    exact ⟨i :: refs, by rw [List.flatten_cons, hrefs, List.flatMap_cons], .cons hi hforall⟩

/-- **A class file that is read** consists of its parts, without gap or overlap. -/
theorem spells_read : Spells read fun c bytes =>
    c.Countable ∧ ∃ refs, c.NamedBy refs ∧ bytes = c.spelled refs := by
  unfold read
  refine (spells_u4 _).bind fun found b1 h1 => Spells.check (spells_malformed _) fun hmagic =>
    (spells_u2 _).bind fun minor b2 h2 => (spells_u2 _).bind fun major b3 h3 =>
    Spells.check (spells_throw _) fun _ =>
    ConstantPool.spells_read.bind fun pool b4 h4 => (spells_u2 _).bind fun access b5 h5 =>
    (spells_u2 _).bind fun thisClass b6 h6 => (spells_lift _).bind fun name b7 h7 =>
    (spells_u2 _).bind fun superClass b8 h8 => (spells_lift _).bind fun superName b9 h9 =>
    (spells_u2 _).bind fun count b10 h10 => (spells_interfaces _).bind fun interfaces b11 h11 =>
    spells_readMembers.bind fun fields b12 h12 => spells_readMembers.bind fun methods b13 h13 =>
    spells_readAttributes.bind fun attributes b14 h14 => spells_cursor_bind fun _ =>
    Spells.check (spells_malformed _) fun _ => ?_
  -- The parts in the order in which they were read.
  obtain ⟨-, h4⟩ := h4
  obtain ⟨hname, rfl⟩ := h7
  obtain ⟨hsuper, rfl⟩ := h9
  obtain ⟨hcount, refs, h11, hinterfaces⟩ := h11
  obtain ⟨hfields, h12⟩ := h12
  obtain ⟨hmethods, h13⟩ := h13
  obtain ⟨hattributes, hinfos, names, hnames, h14⟩ := h14
  have hmagic : found = magic := Decidable.not_not.mp hmagic
  rcases firstRepeated [] methods with _ | m
  · refine spells_pure ⟨⟨hcount ▸ count.toNat_lt, hfields, hmethods, hattributes, hinfos⟩,
      ⟨⟨thisClass, superClass, refs⟩, names⟩, ⟨⟨hname, hsuper, hinterfaces⟩, hnames⟩, ?_⟩
    simp only [spelled, h1, h2, h3, h4, h5, h6, h8, h10, h11, h12, h13, h14, hmagic, hcount,
      UInt16.ofNat_toNat, List.nil_append, List.append_nil, List.append_assoc]
  · exact (spells_malformed (p := fun _ _ => False) _).bind fun _ _ h => h.elim

theorem finishes_read : Finishes read := by
  unfold read
  refine finishes_bind fun _ => finishes_check <| finishes_bind fun _ => finishes_bind fun _ =>
    finishes_check <| finishes_bind fun _ => finishes_bind fun _ => finishes_bind fun _ =>
    finishes_bind fun _ => finishes_bind fun _ => finishes_bind fun _ => finishes_bind fun _ =>
    finishes_bind fun _ => finishes_bind fun _ => finishes_bind fun methods =>
      finishes_bind fun _ =>
    finishes_of_remaining fun c a c' h => ?_
  rcases hrepeated : firstRepeated [] methods with _ | m
  · rw [hrepeated] at h
    exact (pure_eq_ok.mp h).2.symm
  · rw [hrepeated] at h
    obtain ⟨_, _, h, -⟩ := Read.bind_eq_ok.mp h
    exact absurd h malformed_ne_ok

/-- **A class that is parsed is spelled** by its header, its members and some indices of its
names. -/
theorem exists_spelled_of_parse (h : parse x = .ok c) :
    c.Countable ∧ ∃ refs, c.NamedBy refs ∧ x = c.spelled refs :=
  spells_read.of_runOn finishes_read h

/-! ### Copying -/

/-- A symbol that the pool of a class file has is found in a builder made from it. -/
theorem exists_index_of_supplies (hpool : PoolBuilder.WasRead pool) {s : Symbol}
    (h : pool.Supplies s) (hs : ∀ ref, s ≠ .member ref) :
    ∃ i, Yields (Pooling.index s) (.ofPool pool) i (.ofPool pool) := by
  obtain ⟨j, hj⟩ : ∃ j, pool.Denotes j s :=
    (h s s.mem_parts).resolve_right fun ⟨ref, hmember⟩ => hs ref hmember
  obtain ⟨i, hi⟩ := Option.isSome_iff_exists.mp (PoolBuilder.known_of_denotes hpool.2.1 hj)
  exact ⟨i, Pooling.index_of_known hi⟩

/-- Requests that all find what they ask for leave the pool alone. -/
theorem exists_mapM_of_forall {α β : Type} {f : α → Pooling β} {b : PoolBuilder} {as : List α}
    (h : ∀ a ∈ as, ∃ r, Yields (f a) b r b) : ∃ rs, Yields (as.mapM f) b rs b := by
  induction as with
  | nil => exact ⟨[], yields_mapM_nil.mpr ⟨rfl, rfl⟩⟩
  | cons a as ih =>
    rw [List.forall_mem_cons] at h
    obtain ⟨r, hr⟩ := h.1
    obtain ⟨rs, hrs⟩ := ih h.2
    exact ⟨r :: rs, yields_mapM_cons.mpr ⟨r, rs, b, rfl, hr, hrs⟩⟩

/-- The names in the header of a class file are in its pool. -/
theorem exists_headerRefs (h : c.WellRead) :
    ∃ refs, Yields (headerRefs c.header) (.ofPool c.pool) refs (.ofPool c.pool) := by
  obtain ⟨thisClass, hthis⟩ := exists_index_of_supplies h.pool h.name nofun
  obtain ⟨superClass, hsuper⟩ :
      ∃ i, Yields (Pooling.classRef? c.header.superName) (.ofPool c.pool) i
      (.ofPool c.pool) := by
    rcases hsuper : c.header.superName with _ | name
    · exact ⟨0, yields_pure.mpr ⟨rfl, rfl⟩⟩
    · exact exists_index_of_supplies h.pool (h.superName name hsuper) nofun
  obtain ⟨interfaces, hinterfaces⟩ := exists_mapM_of_forall fun name hname =>
    exists_index_of_supplies h.pool (h.interfaces name hname) nofun
  exact ⟨⟨thisClass, superClass, interfaces⟩, Yields.bind hthis
    (hsuper.bind (Yields.bind hinterfaces (yields_pure.mpr ⟨rfl, rfl⟩)))⟩

/-- So are the names of its attributes. -/
theorem exists_namedAttributes (hpool : PoolBuilder.WasRead pool) {attributes : List RawAttribute}
    (hnames : ∀ a ∈ attributes, pool.Supplies (.utf8 a.name))
    (hinfos : ∀ a ∈ attributes, a.info.length < 4294967296) :
    ∃ names, List.Forall₂ (fun i (a : RawAttribute) => pool.utf8 i = .ok a.name) names attributes ∧
      Yields (Layout.namedAttributes attributes) (.ofPool pool)
        (List.zipWith spelledAttribute names attributes) (.ofPool pool) := by
  induction attributes with
  | nil => exact ⟨[], .nil, yields_mapM_nil.mpr ⟨rfl, rfl⟩⟩
  | cons a attributes ih =>
    rw [List.forall_mem_cons] at hnames hinfos
    obtain ⟨i, hi⟩ := exists_index_of_supplies hpool hnames.1 nofun
    obtain ⟨names, hresolved, hyields⟩ := ih hnames.2 hinfos.2
    have hname := ConstantPool.denotes_utf8.mp (denotes_of_index hi
      (PoolBuilder.denotes_of_known_ofPool hpool.2.1))
    refine ⟨i :: names, .cons hname hresolved, yields_mapM_cons.mpr ⟨_, _, _, rfl, ?_, hyields⟩⟩
    exact Yields.bind hi (Yields.bind (Pooling.yields_lift.mpr ⟨if_pos hinfos.1, rfl⟩)
      (yields_pure.mpr ⟨rfl, rfl⟩))

/-- The draft that has all members and attributes of a class file. -/
def copyDraft (c : ClassFile) : ClassDraft :=
  { ClassDraft.ofClass c with
    fields := (c.fields.map (·.raw)).toArray
    fieldKeys := (c.fields.map fun m => (m.name, m.descriptor)).reverse
    methods := (c.methods.map (·.raw)).toArray
    methodKeys := (c.methods.map fun m => (m.name, m.descriptor)).reverse
    attributes := c.attributes.toArray }

/-- Copying a class that was read succeeds and makes its draft. -/
theorem yields_copyAll (h : c.WellRead) :
    Yields (copyAll c) (ClassDraft.ofClass c) () (copyDraft c) := by
  refine yields_map.mpr ⟨[], yields_accept.mpr ⟨_, (yields_copyMethods rfl fun _ _ => rfl).mpr
    ⟨rfl, h.distinct, rfl⟩, ?_⟩, rfl⟩
  simp [copyDraft, withFields, ClassDraft.ofClass]

/-- **Copying succeeds**, and the copy consists of the parts of the class file. -/
theorem copyAll_spelled (h : c.WellRead) (hcount : c.Countable) : ∃ refs, c.NamedBy refs ∧
    (ClassDraft.ofClass c).build (copyAll c) = .ok (c.spelled refs) ∧
      parse (c.spelled refs) = .ok c := by
  -- The pool is taken over whole, so that every name is found and nothing is added to it.
  have hsound := PoolBuilder.sound_ofPool h.pool
  have hmeans := PoolBuilder.denotes_of_known_ofPool h.pool.2.1
  obtain ⟨refs, hrefs⟩ := exists_headerRefs h
  obtain ⟨names, hnames, hattributes⟩ := exists_namedAttributes h.pool h.attributes hcount.infos
  have hheader : Names c.pool c.header refs := by
    refine names_of_headerRefs hrefs hmeans fun e => ?_
    have hzero := hsound.get_zero e
    rwa [PoolBuilder.poolOf_ofPool h.pool] at hzero
  have hlength : (List.zipWith spelledAttribute names c.attributes).length
      = c.attributes.length := by
    rw [List.length_zipWith, hnames.length_eq, Nat.min_self]
  -- Each count fits in two bytes.
  have hassemble : (copyDraft c).assemble (.ofPool c.pool) refs
      (List.zipWith spelledAttribute names c.attributes) = .ok (c.spelled ⟨refs, names⟩) := by
    have hinterfaces := hheader.interfaces.length_eq
    refine except_bind_eq_ok.mpr ⟨_, Layout.countU2_eq_ok.mpr ⟨?_, rfl⟩, ?_⟩
    · rw [hinterfaces]
      exact hcount.interfaces
    refine except_bind_eq_ok.mpr ⟨_, Layout.countU2_eq_ok.mpr ⟨?_, rfl⟩, ?_⟩
    · simpa [copyDraft] using hcount.fields
    refine except_bind_eq_ok.mpr ⟨_, Layout.countU2_eq_ok.mpr ⟨?_, rfl⟩, ?_⟩
    · simpa [copyDraft] using hcount.methods
    refine except_bind_eq_ok.mpr ⟨_, Layout.countU2_eq_ok.mpr ⟨?_, rfl⟩, ?_⟩
    · rw [hlength]
      exact hcount.attributes
    rw [hinterfaces, hlength]
    simp [pure, Except.pure, spelled, copyDraft, ClassDraft.ofClass, PoolBuilder.count,
      PoolBuilder.bytes, PoolBuilder.ofPool, List.flatMap_def]
  have hserialize : Yields (copyDraft c).serialize (copyDraft c).pool (c.spelled ⟨refs, names⟩)
      (.ofPool c.pool) :=
    yields_serialize.mpr ⟨refs, _, _, hrefs, .inr rfl, hattributes, hassemble⟩
  refine ⟨⟨refs, names⟩, ⟨hheader, hnames⟩,
    build_eq_ok.mpr ⟨_, _, _, yields_copyAll h, hserialize⟩, ?_⟩
  have hreads {what : String} {members : List Member} (hmembers : ∀ m ∈ members,
      ∀ larger : ConstantPool, larger.Extends c.pool → Reads (readMember larger what) m.raw m) :
      List.Forall₂ (fun bytes m =>
        Reads (readMember ((PoolBuilder.ofPool c.pool).poolOf c.pool.slots) what) bytes m)
        (members.map (·.raw)) members := by
    rw [PoolBuilder.poolOf_ofPool h.pool, List.forall₂_map_left_iff, List.forall₂_same]
    exact fun m hm => hmembers m hm c.pool (.refl _)
  have hparse := parse_of_serialize hserialize hsound h.version (hreads h.fields) (hreads h.methods)
    h.distinct
  rw [hparse, PoolBuilder.poolOf_ofPool h.pool]
  rfl

/-! ### Indices that may differ -/

/-- No text and no name of a class stands in a pool twice. -/
structure ConstantPool.NamesOnce (pool : ConstantPool) : Prop where
  utf8 : ∀ {i j : UInt16} {text : String}, pool.utf8 i = .ok text → pool.utf8 j = .ok text → i = j
  className : ∀ {i j : UInt16} {name : String},
    pool.className i = .ok name → pool.className j = .ok name → i = j

/-- No class is spelled by index 0, and a class by an index of its name. -/
theorem ConstantPool.className?_eq_ok {i : UInt16} {name : Option String} :
    pool.className? i = .ok name ↔
      i = 0 ∧ name = none ∨ ∃ n, name = some n ∧ i ≠ 0 ∧ pool.className i = .ok n := by
  unfold ConstantPool.className?
  by_cases hi : i = 0
  · simp [hi, eq_comm]
  · rcases hn : pool.className i with _ | n <;> simp [hi, eq_comm]

/-- Where names occur once, a class name has one index. -/
theorem ConstantPool.NamesOnce.className? (h : pool.NamesOnce) {i j : UInt16}
    {name : Option String} (hi : pool.className? i = .ok name) (hj : pool.className? j = .ok name) :
    i = j := by
  rcases className?_eq_ok.mp hi with ⟨rfl, rfl⟩ | ⟨name, rfl, -, hi⟩
  · rcases className?_eq_ok.mp hj with ⟨rfl, -⟩ | ⟨_, h, -⟩
    · rfl
    · cases h
  · rcases className?_eq_ok.mp hj with ⟨-, h⟩ | ⟨_, h, -, hj⟩
    · cases h
    · cases h
      exact h.className hi hj

/-- Two lists of indices of the same names are the same, where names have one index each. -/
theorem eq_of_forall₂_names {α β : Type} {R : α → β → Prop} {as as' : List α} {bs : List β}
    (h : List.Forall₂ R as bs) (h' : List.Forall₂ R as' bs)
    (hR : ∀ {a a' b}, R a b → R a' b → a = a') : as = as' := by
  induction h generalizing as' with
  | nil => cases h'; rfl
  | cons h _ ih =>
    cases h' with
    | cons h' hrest => rw [hR h h', ih hrest]

/-- A class file whose pool has no name twice is written with one choice of indices. -/
theorem NamedBy.unique {refs refs' : NameRefs} (hpool : c.pool.NamesOnce) (h : c.NamedBy refs)
    (h' : c.NamedBy refs') : refs = refs' := by
  have hthis := hpool.className h.header.thisClass h'.header.thisClass
  have hsuper := hpool.className? h.header.superClass h'.header.superClass
  have hinterfaces := eq_of_forall₂_names h.header.interfaces h'.header.interfaces
    hpool.className
  have hattributes := eq_of_forall₂_names h.attributes h'.attributes hpool.utf8
  obtain ⟨⟨_, _, _⟩, _⟩ := refs
  obtain ⟨⟨_, _, _⟩, _⟩ := refs'
  cases hthis
  cases hsuper
  cases hinterfaces
  cases hattributes
  rfl

theorem length_flatMap_ofU2 (is : List UInt16) :
    (is.flatMap Bytes.ofU2).length = 2 * is.length := by
  induction is with
  | nil => rfl
  | cons i is ih => rw [List.flatMap_cons, List.length_append, ih, Bytes.length_ofU2]; simp; omega

/-- Attributes take six bytes each and what they hold, whatever their indices are. -/
theorem length_spelledAttributes {names : List UInt16} {attributes : List RawAttribute}
    (h : names.length = attributes.length) :
    (List.zipWith spelledAttribute names attributes).flatten.length =
      (attributes.map fun a => 6 + a.info.length).sum := by
  induction attributes generalizing names with
  | nil => simp
  | cons a attributes ih =>
    obtain _ | ⟨i, names⟩ := names
    · cases h
    · simp only [List.zipWith_cons_cons, List.flatten_cons, List.length_append, spelledAttribute,
        ih (Nat.succ.inj h), Bytes.length_ofU2, Bytes.length_ofU4, List.map_cons, List.sum_cons]

/-- The choice of indices does not matter for the length. -/
theorem NamedBy.length_spelled {refs refs' : NameRefs} (h : c.NamedBy refs) (h' : c.NamedBy refs') :
    (c.spelled refs).length = (c.spelled refs').length := by
  simp only [spelled, List.length_append, length_flatMap_ofU2,
    length_spelledAttributes h.attributes.length_eq,
    length_spelledAttributes h'.attributes.length_eq,
    h.header.interfaces.length_eq, h'.header.interfaces.length_eq, Bytes.length_ofU2]

/-! ### Copies -/

/-- A copy of the bytes of a class file. -/
def copied (x : Bytes) : Except Fault Bytes := do
  let c ← parse x
  (ClassDraft.ofClass c).build (copyAll c)

/-- **Copying loses nothing.** A copy of a class file is as long, is read as the same class file and
is its own copy. It differs at most in the indices of the names outside the members, and in nothing
if the pool has no name twice. -/
theorem copied_lossless (h : parse x = .ok c) : ∃ y refs refs',
    copied x = .ok y ∧
      (c.NamedBy refs ∧ x = c.spelled refs) ∧ (c.NamedBy refs' ∧ y = c.spelled refs') ∧
      y.length = x.length ∧ parse y = .ok c ∧ copied y = .ok y ∧
      (c.pool.NamesOnce → y = x) := by
  obtain ⟨hcount, refs, hrefs, rfl⟩ := exists_spelled_of_parse h
  obtain ⟨refs', hrefs', hcopy, hparse⟩ := copyAll_spelled (wellRead_of_parse h) hcount
  have hcopied {x : Bytes} (h : parse x = .ok c) : copied x = .ok (c.spelled refs') :=
    except_bind_eq_ok.mpr ⟨c, h, hcopy⟩
  exact ⟨_, refs, refs', hcopied h, ⟨hrefs, rfl⟩, ⟨hrefs', rfl⟩,
    hrefs'.length_spelled hrefs, hparse,
    hcopied hparse, fun hpool => by rw [hrefs'.unique hpool hrefs]⟩

/-- A class `T` whose pool has its name twice; its header names the second one. -/
def twiceNamed : Bytes := [
  202, 254, 186, 190, 0, 0, 0, 52, 0, 4, 1, 0, 1, 84, 7, 0, 1, 7, 0, 1, 0, 33, 0, 3, 0, 0, 0, 0, 0,
  0, 0, 0, 0, 0]

/-- A class in which a name occurs twice is copied with the first of its indices, and then as it
is. -/
theorem copied_lossless_twiceNamed : ∃ y, copied twiceNamed = .ok y ∧
    y.length = twiceNamed.length ∧ y ≠ twiceNamed ∧ copied y = .ok y := by
  have hnext : (copied twiceNamed).toOption.map (fun y => y[23]?)
    = some (some 2) := by decide +kernel
  obtain ⟨c, h⟩ : ∃ c, parse twiceNamed = .ok c := by
    cases h : parse twiceNamed with
    | ok c => exact ⟨c, rfl⟩
    | error f =>
      rw [copied, h] at hnext
      cases hnext
  obtain ⟨y, _, _, hy, -, -, hlength, -, hagain, -⟩ := copied_lossless h
  refine ⟨y, hy, hlength, ?_, hagain⟩
  rintro rfl
  rw [hy] at hnext
  revert hnext
  decide

end RoundingPatch.ClassFile
