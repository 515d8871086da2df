import RoundingPatch.Proofs.ClassFile.Members
import RoundingPatch.Proofs.ClassFile.Pool.Seeded
/-!
# Class files that were read

What is known of a class file that was read: its pool has the names in it, the bytes of its members
read as these members with any larger pool, and no two methods share a name and a descriptor
(`wellRead_of_parse`).
-/

namespace RoundingPatch.ClassFile

open Read

/-- A class file as it is read. -/
structure WellRead (c : ClassFile) : Prop where
  pool : PoolBuilder.WasRead c.pool
  version : isKnownVersion c.header.major = true
  name : c.pool.Supplies (.classRef c.header.name)
  superName : ∀ name ∈ c.header.superName, c.pool.Supplies (.classRef name)
  interfaces : ∀ name ∈ c.header.interfaces, c.pool.Supplies (.classRef name)
  fields : ∀ m ∈ c.fields, ∀ larger : ConstantPool, larger.Extends c.pool →
    Reads (readMember larger "field") m.raw m
  methods : ∀ m ∈ c.methods, ∀ larger : ConstantPool, larger.Extends c.pool →
    Reads (readMember larger "method") m.raw m
  named : ∀ m ∈ c.methods, m.Named c.pool
  attributes : ∀ a ∈ c.attributes, c.pool.Supplies (.utf8 a.name)
  distinct : firstRepeated [] c.methods = none

variable {pool : ConstantPool} {what : String}

/-- Members that are read are read back from their bytes, with every larger pool. -/
theorem gives_readMembers : Gives (readMembers pool what) fun members =>
    (∀ m ∈ members, ∀ larger : ConstantPool, larger.Extends pool →
      Reads (readMember larger what) m.raw m) ∧ ∀ m ∈ members, m.Named pool := by
  have hmember : Gives (readMember pool what) fun m =>
      (∀ larger : ConstantPool, larger.Extends pool → Reads (readMember larger what) m.raw m) ∧
        m.Named pool := fun c m c' hgap h =>
    ⟨⟨fun _ hp => (gives_reread hp c m c' hgap h).1, (gives_readMember c m c' hgap h).1⟩,
      (gives_readMember c m c' hgap h).2⟩
  refine (gives_u2 _).bind fun count _ => (gives_many hmember _).weaken fun members h => ?_
  exact ⟨fun m hm => (h.2 m hm).1, fun m hm => (h.2 m hm).2⟩

/-- A check that fails with any fault in front of a reader. -/
theorem gives_guard {α : Type} {p : α → Prop} {fails : Bool} {fault : Fault} {rest : Read α}
    (h : fails = false → Gives rest p) :
    Gives (do
      if fails then throw fault
      rest) p := by
  cases fails with
  | false => exact h rfl
  | true =>
    intro c a c' _ hr
    cases hr

/-- **What is read as a class is in order.** -/
theorem gives_read : Gives read WellRead := by
  have hclass (pool : ConstantPool) : Gives (do Read.lift (pool.className (← Read.u2 "interface")))
      fun name => pool.Supplies (.classRef name) :=
    (gives_u2 _).bind fun _ _ => gives_lift fun _ h => ConstantPool.supplies_className h
  unfold read
  refine (gives_u4 _).bind fun found _ => Gives.check fun _ => (gives_u2 _).bind fun minor _ =>
    (gives_u2 _).bind fun major _ => gives_guard fun hversion =>
    ConstantPool.gives_read.bind fun pool hpool => (gives_u2 _).bind fun access _ =>
    (gives_u2 _).bind fun _ _ => (gives_lift fun _ h => h).bind fun name hname =>
    (gives_u2 _).bind fun _ _ => (gives_lift fun _ h => h).bind fun superName hsuper =>
    (gives_u2 _).bind fun count _ => (gives_many (hclass pool) _).bind fun interfaces hinterfaces =>
    gives_readMembers.bind fun fields hfields => gives_readMembers.bind fun methods hmethods =>
    Body.gives_readAttributes.bind fun attributes hattributes => gives_cursor_bind fun c =>
    Gives.check fun _ => ?_
  -- The last check is that of the keys, and everything it needs was read before.
  rcases hrepeated : firstRepeated [] methods with _ | m
  · refine gives_pure ?_
    exact {
      pool := hpool
      version := by simpa using hversion
      name := ConstantPool.supplies_className hname
      superName := ConstantPool.supplies_className? hsuper
      interfaces := hinterfaces.2
      fields := hfields.1
      methods := hmethods.1
      named := hmethods.2
      attributes := hattributes
      distinct := hrepeated }
  · exact (gives_malformed _ fun _ => False).bind fun _ h => h.elim

/-- **What is known of a class file that was read.** -/
theorem wellRead_of_parse {bytes : Bytes} {c : ClassFile} (h : parse bytes = .ok c) :
    c.WellRead :=
  runOn_gives gives_read h

/-! ### Methods by name -/

variable {name descriptor : String} {methods methods' : List Member} {m : Member}

theorem isNamed_iff : m.isNamed name descriptor = true ↔
    m.name = name ∧ m.descriptor = descriptor := by
  simp [Member.isNamed]

theorem method?_eq_find? {c : ClassFile} : c.method? name descriptor
    = c.methods.find? fun m => (name, descriptor) == (m.name, m.descriptor) := by
  unfold method?
  congr 1
  funext m
  rw [Bool.eq_iff_iff, isNamed_iff, beq_iff_eq, Prod.mk.injEq, eq_comm, eq_comm (a := m.descriptor)]

theorem not_hasMethod_iff {c : ClassFile} : c.hasMethod name descriptor = false ↔
    ∀ m ∈ c.methods, (m.name, m.descriptor) ≠ (name, descriptor) := by
  simp [hasMethod, method?, Member.isNamed]

/-- If no key is repeated, then none was seen before. -/
theorem key_not_mem_of_firstRepeated {seen : List (String × String)}
    (h : firstRepeated seen methods = none) : ∀ m ∈ methods, (m.name, m.descriptor) ∉ seen := by
  induction methods generalizing seen with
  | nil => simp
  | cons m methods ih =>
    unfold firstRepeated at h
    split at h
    · cases h
    · next hfresh =>
      rw [List.forall_mem_cons]
      exact ⟨by simpa using hfresh, fun n hn hseen => ih h n hn (List.mem_cons_of_mem _ hseen)⟩

/-- What is behind a method whose keys are all distinct has other keys. -/
theorem not_isNamed_of_firstRepeated {seen : List (String × String)} {before after : List Member}
    (h : firstRepeated seen (before ++ m :: after) = none)
    (hm : m.isNamed name descriptor = true) : ∀ n ∈ after, n.isNamed name descriptor = false := by
  induction before generalizing seen with
  | nil =>
    rw [List.nil_append] at h
    unfold firstRepeated at h
    split at h
    · cases h
    · intro n hn
      have hkey := key_not_mem_of_firstRepeated h n hn
      obtain ⟨hname, hdescriptor⟩ := isNamed_iff.mp hm
      rw [Bool.eq_false_iff]
      intro hnamed
      obtain ⟨hname', hdescriptor'⟩ := isNamed_iff.mp hnamed
      rw [hname', hdescriptor', ← hname, ← hdescriptor] at hkey
      -- The key was seen at the first of the two.
      exact hkey (List.mem_cons_self ..)
  | cons k before ih =>
    rw [List.cons_append] at h
    unfold firstRepeated at h
    split at h
    · cases h
    · exact ih h

/-- The method with a name and a descriptor, among methods of other names or descriptors. -/
theorem exists_split_of_method? {c : ClassFile} (hdistinct : firstRepeated [] c.methods = none)
    (h : c.method? name descriptor = some m) : ∃ before after,
      c.methods = before ++ m :: after ∧ m.isNamed name descriptor = true ∧
        ∀ n ∈ before ++ after, n.isNamed name descriptor = false := by
  obtain ⟨hm, before, after, hsplit, hbefore⟩ := List.find?_eq_some_iff_append.mp h
  refine ⟨before, after, hsplit, hm, fun n hn => ?_⟩
  rcases List.mem_append.mp hn with hn | hn
  · simpa using hbefore n hn
  · rw [hsplit] at hdistinct
    exact not_isNamed_of_firstRepeated hdistinct hm n hn

/-- Whether a key is repeated depends on the keys alone. -/
theorem firstRepeated_congr {seen : List (String × String)}
    (h : (methods'.map fun m => (m.name, m.descriptor))
      = methods.map fun m => (m.name, m.descriptor)) :
    firstRepeated seen methods' = none ↔ firstRepeated seen methods = none := by
  induction methods generalizing methods' seen with
  | nil => rw [List.map_eq_nil_iff.mp h]
  | cons m methods ih =>
    obtain ⟨m', rest', rfl, hkey, hrest⟩ := List.map_eq_cons_iff.mp h
    unfold firstRepeated
    rw [hkey]
    split
    · simp
    · exact ih hrest

/-- A method added behind methods whose keys are all distinct. -/
theorem firstRepeated_append_singleton {seen : List (String × String)}
    (h : firstRepeated seen methods = none) (hseen : (m.name, m.descriptor) ∉ seen)
    (hnew : ∀ n ∈ methods, (n.name, n.descriptor) ≠ (m.name, m.descriptor)) :
    firstRepeated seen (methods ++ [m]) = none := by
  induction methods generalizing seen with
  | nil => simp [firstRepeated, hseen]
  | cons k methods ih =>
    rw [List.forall_mem_cons] at hnew
    unfold firstRepeated at h
    split at h
    · cases h
    · next hfresh =>
      rw [List.cons_append, firstRepeated, if_neg hfresh]
      refine ih h ?_ hnew.2
      simp only [List.mem_cons, not_or]
      exact ⟨hnew.1.symm, hseen⟩

end RoundingPatch.ClassFile
