import RoundingPatch.ClassFile.Assembly
import RoundingPatch.Proofs.ClassFile.Drafting
import RoundingPatch.Proofs.ClassFile.Method.ReadBack
/-!
# Assembled classes read back

The bytes of an assembly are those of a class file with its header, its fields and the outlines of
its methods (`Assembly.parse_of_bytes`), if the methods are in the form in which methods are
decoded. For a method that is given by its events this form can be computed
(`MethodSource.readable_of_check`).
-/

namespace RoundingPatch.ClassFile

open Read MethodEvent ClassDraft

/-! ### Readable methods -/

/-- Whether an instruction that needs no pool is in the form in which instructions are read. -/
def Insn.checkReadable : Insn → Bool
  | simple op => Opcode.operands op == .none
  | type op _ => Opcode.operands op == .classRef
  | field op _ _ _ => Opcode.operands op == .field
  | method op _ _ _ _ => Opcode.operands op == .method
  | ldc (.pooled _) => false
  | jump op _ => Opcode.operands op == .branch
  | tableSwitch _ _ _ targets => !targets.isEmpty
  | _ => true

/-- An instruction that passes the check is in the form in which instructions are read. -/
theorem Insn.readable_of_check {i : Insn} (pool : ConstantPool) (h : i.checkReadable = true) :
    i.Readable pool := by
  cases i with
  | simple op => exact .simple (beq_iff_eq.mp h)
  | int op operand => exact .int op operand
  | var op index => exact .var op index
  | iinc index delta => exact .iinc index delta
  | type op name => exact .type (beq_iff_eq.mp h) name
  | field op owner name descriptor => exact .field (beq_iff_eq.mp h) owner name descriptor
  | method op owner name descriptor onInterface =>
    exact .method (beq_iff_eq.mp h) owner name descriptor onInterface
  | callSite index => exact .callSite index
  | ldc constant =>
    refine .ldc fun i hi => ?_
    subst hi
    cases h
  | jump op target => exact .jump (beq_iff_eq.mp h) target
  | tableSwitch low high default targets =>
    refine .tableSwitch low high default fun hempty => ?_
    subst hempty
    cases h
  | lookupSwitch default pairs => exact .lookupSwitch default pairs
  | multiArray name dimensions => exact .multiArray name dimensions

namespace MethodSource

/-- The position of a label that stands in front of an instruction. -/
def target? (m : MethodSource) (l : Label) : Option ℕ :=
  (position l m.events).filter (· < (MethodEvent.insns m.events).length)

/-- Whether a method with code is in the form in which methods are decoded. -/
def checkReadable (m : MethodSource) : Bool :=
  m.limits.isSome && (MethodEvent.insns m.events).all (fun i =>
      i.checkReadable && i.targets.all fun l => (m.target? l).isSome) &&
    (framesFrom 0 m.events).all (fun p => p.1 < (MethodEvent.insns m.events).length) &&
    m.lines.all (fun l => (m.target? l.2).isSome) &&
    decide ((m.lines.map fun l => (m.target? l.2).getD 0).Pairwise (· ≤ ·)) &&
    m.attributes.all fun a => a.name != "Code"

theorem target?_eq_some {m : MethodSource} {l : Label} {n : ℕ} : m.target? l = some n ↔
    position l m.events = some n ∧ n < (MethodEvent.insns m.events).length := by
  simp [target?, Option.filter_eq_some_iff]

/-- A target is the position of one of the instructions. -/
theorem exists_of_target? {m : MethodSource} {l : Label} (h : (m.target? l).isSome = true) :
    ∃ n < (MethodEvent.insns m.events).length, position l m.events = some n := by
  obtain ⟨n, hn⟩ := Option.isSome_iff_exists.mp h
  obtain ⟨hposition, hlt⟩ := target?_eq_some.mp hn
  exact ⟨n, hlt, hposition⟩

/-- **A method that passes the check** is readable with any pool. -/
theorem readable_of_check {m : MethodSource} (pool : ConstantPool) (h : m.checkReadable = true) :
    m.Readable pool := by
  simp only [checkReadable, Bool.and_eq_true, List.all_eq_true, decide_eq_true_eq,
    bne_iff_ne] at h
  obtain ⟨⟨⟨⟨⟨hlimits, hinsns⟩, hframes⟩, hlines⟩, hsorted⟩, hattributes⟩ := h
  refine ⟨⟨fun i hi l hl => exists_of_target? ((hinsns i hi).2 l hl), hframes,
      fun l hl => exists_of_target? (hlines l hl)⟩,
    fun hnone => ?_, fun i hi => Insn.readable_of_check pool (hinsns i hi).1, ?_, hattributes⟩
  · rw [hnone] at hlimits
    cases hlimits
  · rw [List.pairwise_map] at hsorted
    refine hsorted.imp_of_mem fun {a b} ha hb hle s t hs ht => ?_
    obtain ⟨n, hn, hposition⟩ := exists_of_target? (hlines a ha)
    obtain ⟨k, hk, hposition'⟩ := exists_of_target? (hlines b hb)
    obtain rfl := Option.some.inj (hposition.symm.trans hs)
    obtain rfl := Option.some.inj (hposition'.symm.trans ht)
    rwa [target?_eq_some.mpr ⟨hposition, hn⟩, target?_eq_some.mpr ⟨hposition', hk⟩] at hle

end MethodSource

/-! ### Fields -/

variable {draft final : ClassDraft} {pool : ConstantPool} {u : Unit}

namespace ClassDraft

/-- Adding a field asks the pool for its name and then for its descriptor. -/
theorem yields_addField {access : Access} {name descriptor : String}
    (hy : Yields (addField access name descriptor) draft u final) :
    ∃ i b j c, Yields (Pooling.utf8 name) draft.pool i b ∧ Yields (Pooling.utf8 descriptor) b j c ∧
      final = { draft with
        pool := c
        fields := draft.fields.push
          (Bytes.ofU2 access ++ Bytes.ofU2 i ++ Bytes.ofU2 j ++ [0, 0])
        fieldKeys := (name, descriptor) :: draft.fieldKeys } := by
  unfold addField at hy
  rw [yields_get_bind] at hy
  split at hy
  · exact absurd hy yields_throw_bind
  · obtain ⟨i, d, hi, hy⟩ := yields_bind.mp hy
    obtain ⟨b, hname, rfl⟩ := yields_pooling.mp hi
    obtain ⟨j, d, hj, hy⟩ := yields_bind.mp hy
    obtain ⟨c, hdescriptor, rfl⟩ := yields_pooling.mp hj
    exact ⟨i, b, j, c, hname, hdescriptor, yields_modify.mp hy⟩

end ClassDraft

/-- What is said of a field. -/
def FieldSource.ofMember (m : Member) : FieldSource :=
  ⟨m.access, m.name, m.descriptor⟩

/-- A field is read off its access, its two indices and no attributes. -/
theorem reads_fieldSource (access : Access) {name descriptor : String} {i j : UInt16}
    (hname : pool.utf8 i = .ok name) (hdescriptor : pool.utf8 j = .ok descriptor) :
    ∃ m : Member, Reads (readMember pool "field")
      (Bytes.ofU2 access ++ Bytes.ofU2 i ++ Bytes.ofU2 j ++ [0, 0]) m ∧
      FieldSource.ofMember m = ⟨access, name, descriptor⟩ := by
  have hnone : Reads (readAttributes pool) [0, 0] [] :=
    (reads_u2 0 _).bind_nil (reads_many .nil)
  refine ⟨_, reads_readMember (p := (access, name, descriptor, [])) ?_, rfl⟩
  simp only [List.append_assoc]
  exact (reads_u2 access _).bind ((reads_u2 i _).bind ((reads_lift hname).bind (p := [])
    ((reads_u2 j _).bind ((reads_lift hdescriptor).bind (p := []) ((reads_relabel hnone).map _)))))

/-- Fields that were added read back. -/
theorem read_addFields {fields : List FieldSource}
    (hy : Yields (fields.forM fun f => addField f.access f.name f.descriptor) draft u final) :
    draft.pool.Grows (fun _ => True) final.pool ∧
      ∃ bytes b keys, final = { draft with
        pool := b, fields := draft.fields ++ bytes.toArray, fieldKeys := keys } ∧
      ∀ pool, b.Means pool → ∃ members,
        List.Forall₂ (fun bytes m => Reads (readMember pool "field") bytes m) bytes members ∧
        members.map FieldSource.ofMember = fields := by
  induction fields generalizing draft with
  | nil =>
    rw [yields_forM_nil] at hy
    subst hy
    exact ⟨.refl, [], final.pool, final.fieldKeys, by simp, fun _ _ => ⟨[], .nil, rfl⟩⟩
  | cons f fields ih =>
    rw [yields_forM_cons] at hy
    obtain ⟨d, hf, hrest⟩ := hy
    obtain ⟨i, b, j, c, hname, hdescriptor, rfl⟩ := yields_addField hf
    obtain ⟨hgrows, bytes, b', keys, rfl, hreads⟩ := ih hrest
    have hgrow : b.Grows (fun _ => True) c := (uses_utf8 trivial).grows hdescriptor
    refine ⟨(((uses_utf8 trivial).grows hname).trans hgrow).trans hgrows, _ :: bytes, b', keys,
      by simp; rfl, fun pool hmeans => ?_⟩
    obtain ⟨members, hreads, hmembers⟩ := hreads pool hmeans
    -- The pool only grows behind the field, so its names keep their indices.
    have hc : c.Means pool := hmeans.of_grows hgrows
    have hname' := ConstantPool.denotes_utf8.mp
      (denotes_of_index (s := .utf8 f.name) hname (hc.of_grows hgrow))
    have hdescriptor' := ConstantPool.denotes_utf8.mp
      (denotes_of_index (s := .utf8 f.descriptor) hdescriptor hc)
    obtain ⟨m, hread, hm⟩ := reads_fieldSource f.access hname' hdescriptor'
    exact ⟨m :: members, .cons hread hreads, by rw [List.map_cons, hm, hmembers]⟩

/-! ### Methods -/

/-- Methods that are committed in a row are finished in a row, and no two have the same name and
descriptor. -/
theorem finishes_of_commits {sources : List MethodSource} {emitted : List Emitted}
    (hy : Yields (sources.mapM commit) draft emitted final) :
    ∃ pairs b keys, Yields (sources.mapM MethodSource.finish) draft.pool pairs b ∧
      final = { draft with
        pool := b, methods := draft.methods ++ (pairs.map (·.1)).toArray, methodKeys := keys } ∧
      ∀ methods : List Member,
        (methods.map fun m => (m.name, m.descriptor))
          = (sources.map fun m => (m.name, m.descriptor)) →
        firstRepeated draft.methodKeys methods = none := by
  induction sources generalizing draft emitted with
  | nil =>
    obtain ⟨-, rfl⟩ := yields_mapM_nil.mp hy
    refine ⟨[], final.pool, final.methodKeys, yields_mapM_nil.mpr ⟨rfl, rfl⟩, by simp,
      fun methods h => ?_⟩
    rw [List.map_eq_nil_iff.mp h]
    rfl
  | cons m sources ih =>
    obtain ⟨e, rest, d, rfl, hm, hrest⟩ := yields_mapM_cons.mp hy
    obtain ⟨hfresh, bytes, b, hfinish, rfl⟩ := yields_commit.mp hm
    obtain ⟨pairs, b', keys, hpairs, rfl, hdistinct⟩ := ih hrest
    refine ⟨(bytes, e) :: pairs, b', keys, yields_mapM_cons.mpr ⟨_, _, b, rfl, hfinish, hpairs⟩,
      by simp, fun methods h => ?_⟩
    obtain ⟨m', methods', rfl, hkey, hkeys⟩ := List.map_eq_cons_iff.mp h
    unfold firstRepeated
    -- A key that could be taken was not taken before.
    rw [hkey, if_neg (by simpa using hfresh)]
    exact hdistinct methods' hkeys

/-! ### Assemblies -/

namespace Assembly

/-- Bytes of an assembly are those of a draft that all its members were added to. -/
theorem yields_of_bytes {a : Assembly} {bytes : Bytes} (h : a.bytes = .ok bytes) :
    ∃ emitted final last, Yields a.addMembers { header := a.header } emitted final ∧
      Yields final.serialize final.pool bytes last := by
  unfold Assembly.bytes assemble at h
  rcases hrun : a.addMembers.run { header := a.header } with ⟨fault | emitted, final⟩
  · rw [hrun] at h
    cases h
  · rw [hrun] at h
    dsimp only at h
    refine ⟨emitted, final, (final.serialize.run final.pool).2, hrun, ?_⟩
    cases hbytes : final.toBytes with
    | error fault =>
      rw [hbytes] at h
      cases h
    | ok bytes' =>
      rw [hbytes] at h
      cases h
      exact Prod.ext hbytes rfl

/-- **The bytes of an assembly** are those of a class file with its header, its fields and the
outlines of its methods. -/
theorem parse_of_bytes {a : Assembly} {bytes : Bytes} (h : a.bytes = .ok bytes)
    (hversion : isKnownVersion a.header.major = true)
    (hmethods : ∀ m ∈ a.methods, m.checkReadable = true) :
    ∃ c, parse bytes = .ok c ∧ c.header = a.header ∧ c.attributes = [] ∧
      c.fields.map FieldSource.ofMember = a.fields ∧
      (∀ m ∈ c.methods, (m.decode c.pool).failure = none) ∧
      c.methods.map (Member.outline c.pool) = a.methods.map MethodSource.outline := by
  obtain ⟨emitted, final, last, hmembers, hserialize⟩ := yields_of_bytes h
  obtain ⟨_, d, hadd, hcommits⟩ := yields_bind.mp hmembers
  obtain ⟨hgrows, fieldBytes, b, fieldKeys, rfl, hfields⟩ := read_addFields hadd
  obtain ⟨pairs, b', keys, hpairs, rfl, hdistinct⟩ := finishes_of_commits hcommits
  have hfinishes : b.Grows (fun _ => True) b' :=
    MethodSource.grows_finishes (fun m _ => m.within_true) hpairs
  have hserialized : b'.Grows (fun _ => True) last := grows_serialize (fun _ _ => trivial)
    (fun _ _ _ _ => trivial) (fun _ _ _ _ => trivial) (fun _ _ => trivial) hserialize
  -- Fields, methods and header each extend the pool of the ones before.
  obtain ⟨more, hsound⟩ :=
    PoolBuilder.sound_empty.grows ((hgrows.trans hfinishes).trans hserialized)
  have hmeans := hsound.means
  obtain ⟨fields, hreadFields, hsources⟩ :=
    hfields _ (hmeans.of_grows (hfinishes.trans hserialized))
  obtain ⟨methods, hreadMethods, hdecode, houtlines⟩ := MethodSource.read_finishes "method"
    (fun m hm => MethodSource.readable_of_check _ (hmethods m hm)) hpairs
    (hmeans.of_grows hserialized) hsound.get_zero
  have hkeys : (methods.map fun m => (m.name, m.descriptor))
      = a.methods.map fun m => (m.name, m.descriptor) := by
    have h := congrArg (List.map fun o : Outline => (o.name, o.descriptor)) houtlines
    rwa [List.map_map, List.map_map] at h
  have hparse := parse_of_serialize hserialize hsound hversion (by simpa using hreadFields)
    (by simpa using hreadMethods) (hdistinct methods hkeys)
  exact ⟨_, hparse, rfl, rfl, hsources, hdecode, houtlines⟩

end Assembly

end RoundingPatch.ClassFile
