import RoundingPatch.Proofs.ClassFile.Method.ReadBack
import RoundingPatch.Proofs.Patch.Patching
/-!
# What survives a patch

A patched class is read back as the class it was, with a new body for the target method and one
method more. The header, the fields, the attributes and all other methods are those of the original,
byte for byte, and the pool of the original is the first part of the new one (`modified_survives`).
-/

namespace RoundingPatch

open ClassFile ClassDraft Read

namespace Transformer

variable {t : Transformer} {x y : Bytes}

namespace Patching

variable (p : Patching t x y)

/-- The target as it is read back. -/
def newTarget (attributes : List RawAttribute) : Member where
  access := p.target.access
  name := p.target.name
  descriptor := p.target.descriptor
  raw := p.targetBytes
  attributes := attributes

/-- The replacement as it is read back. -/
def replacement (attributes : List RawAttribute) : Member where
  access := p.copied.access
  name := t.settings.replacement
  descriptor := t.settings.descriptor
  raw := p.copyBytes
  attributes := attributes

/-- The pool of the patched class, with `more` behind the entries of the original. -/
def poolWith (more : Array (Option PoolEntry)) : ConstantPool :=
  p.pool.poolOf (p.original.pool.slots ++ more)

/-- The patched class. -/
def patched (more : Array (Option PoolEntry)) (target copy : List RawAttribute) : ClassFile where
  pool := p.poolWith more
  header := p.original.header
  fields := p.original.fields
  methods := p.before ++ p.newTarget target :: p.after ++ [p.replacement copy]
  attributes := p.original.attributes

theorem extends_poolWith (more : Array (Option PoolEntry)) :
    (p.poolWith more).Extends p.original.pool :=
  ConstantPool.extends_of_append rfl

/-! ### How the pool grew -/

theorem grows_target : (PoolBuilder.ofPool p.original.pool).Grows (fun _ => True) p.targetPool :=
  MethodSource.grows_finish (p.splice.source p.target).within_true p.finish_target

theorem grows_copy : p.targetPool.Grows (fun _ => True) p.copyPool :=
  MethodSource.grows_finish (t.transplant.source p.copied p.copiedEvents).within_true p.finish_copy

theorem grows_serialize : p.copyPool.Grows (fun _ => True) p.pool :=
  ClassDraft.grows_serialize (fun _ _ => trivial) (fun _ _ _ _ => trivial)
    (fun _ _ _ _ => trivial) (fun _ _ => trivial) p.serialize

theorem grows : (PoolBuilder.ofPool p.original.pool).Grows (fun _ => True) p.pool :=
  (p.grows_target.trans p.grows_copy).trans p.grows_serialize

theorem exists_sound : ∃ more, p.pool.Sound (p.original.pool.slots ++ more) :=
  (PoolBuilder.sound_ofPool (wellRead_of_parse p.parse_original).pool).grows p.grows

/-- The bytes of the pool start with those of the original pool. -/
theorem raw_isPrefix (more : Array (Option PoolEntry)) :
    p.original.pool.raw <+: (p.poolWith more).raw := by
  have hseed : p.pool.seed = p.original.pool.raw := p.grows.seed
  exact ⟨p.pool.added.toList.flatMap PoolEntry.encode, by rw [← hseed]; rfl⟩

/-! ### The patched class -/

theorem toList_methods_patchedDraft {c : ClassFile} {before after : List Member}
    {bytes replacement : Bytes} {pool : PoolBuilder} :
    (patchedDraft t c before bytes after replacement pool).methods.toList
      = before.map (·.raw) ++ bytes :: after.map (·.raw) ++ [replacement] := by
  simp [patchedDraft, rewritten]

variable {p} {more : Array (Option PoolEntry)}

/-- **A patched class reads back**, whatever its two new methods are read as. -/
theorem parse_eq (hsound : p.pool.Sound (p.original.pool.slots ++ more))
    {target copy : List RawAttribute}
    (htarget : Reads (readMember (p.poolWith more) "method") p.targetBytes (p.newTarget target))
    (hcopy : Reads (readMember (p.poolWith more) "method") p.copyBytes (p.replacement copy)) :
    ClassFile.parse y = .ok (p.patched more target copy) := by
  have hread := wellRead_of_parse p.parse_original
  have hextends := p.extends_poolWith more
  have hmem : ∀ m ∈ p.before ++ p.after, m ∈ p.original.methods := by
    rw [p.methods_original]
    simp only [List.mem_append, List.mem_cons]
    tauto
  -- The pool only grew, so what was copied is read as before.
  have hcopied (ms : List Member) (hms : ∀ m ∈ ms, m ∈ p.original.methods) :
      List.Forall₂ (fun bytes m => Reads (readMember (p.poolWith more) "method") bytes m)
        (ms.map (·.raw)) ms := by
    rw [List.forall₂_map_left_iff, List.forall₂_same]
    exact fun m hm => hread.methods m (hms m hm) _ hextends
  have hfields : List.Forall₂ (fun bytes m => Reads (readMember (p.poolWith more) "field") bytes m)
      (p.original.fields.map (·.raw)) p.original.fields := by
    rw [List.forall₂_map_left_iff, List.forall₂_same]
    exact fun m hm => hread.fields m hm _ hextends
  have hdistinct : firstRepeated [] (p.patched more target copy).methods = none := by
    -- The new target has the name of the old one, and the replacement has a name that was free.
    have hkeys : ((p.before ++ p.newTarget target :: p.after).map fun m => (m.name, m.descriptor))
        = p.original.methods.map fun m => (m.name, m.descriptor) := by
      rw [p.methods_original]
      simp [newTarget]
    refine firstRepeated_append_singleton ((firstRepeated_congr hkeys).mpr hread.distinct)
      (by simp) fun m hm hkey => ?_
    obtain ⟨n, hn, hkey'⟩ := List.mem_map.mp (hkeys ▸ List.mem_map_of_mem hm :
      (m.name, m.descriptor) ∈ p.original.methods.map fun m => (m.name, m.descriptor))
    exact not_hasMethod_iff.mp p.absent n hn (hkey'.trans hkey)
  have hmethods : List.Forall₂
      (fun bytes m => Reads (readMember (p.poolWith more) "method") bytes m)
      (p.before.map (·.raw) ++ p.targetBytes :: p.after.map (·.raw) ++ [p.copyBytes])
      (p.patched more target copy).methods :=
    List.rel_append (List.rel_append
      (hcopied p.before fun m hm => hmem m (List.mem_append_left _ hm))
      (.cons htarget (hcopied p.after fun m hm => hmem m (List.mem_append_right _ hm))))
      (.cons hcopy .nil)
  rw [← toList_methods_patchedDraft] at hmethods
  exact parse_of_serialize p.serialize hsound hread.version hfields hmethods hdistinct

/-- The two new methods read back as members. -/
theorem exists_reads (hsound : p.pool.Sound (p.original.pool.slots ++ more)) :
    ∃ target copy, Reads (readMember (p.poolWith more) "method") p.targetBytes
      (p.newTarget target) ∧
      Reads (readMember (p.poolWith more) "method") p.copyBytes (p.replacement copy) := by
  obtain ⟨target, htarget⟩ := MethodSource.exists_reads_finish "method" p.finish_target
    (hsound.means.of_grows (p.grows_copy.trans p.grows_serialize))
  obtain ⟨copy, hcopy⟩ := MethodSource.exists_reads_finish "method" p.finish_copy
    (hsound.means.of_grows p.grows_serialize)
  exact ⟨target, copy, htarget, hcopy⟩

end Patching

/-- **Everything but the target method survives a patch.** The patched class has the header, the
fields and the attributes of the original. Its pool starts with the original pool, so an index of
the original stands for the same entry. Its methods are those of the original in the same order, the
target apart, which keeps its access flags, and behind them the replacement. -/
theorem modified_survives {name : String} (h : t.outcome name x = .modified y) :
    ∃ c c' before target target' after replacement,
      ClassFile.parse x = .ok c ∧ ClassFile.parse y = .ok c' ∧ c'.header = c.header ∧
      c.pool.raw <+: c'.pool.raw ∧
      (∀ i < c.pool.slots.size, c'.pool.slots[i]? = c.pool.slots[i]?) ∧
      c'.fields = c.fields ∧ c'.attributes = c.attributes ∧
      c.methods = before ++ target :: after ∧
      c'.methods = before ++ target' :: after ++ [replacement] ∧
      (∀ m ∈ before ++ after,
        m.isNamed t.settings.methodName t.settings.descriptor = false) ∧
      target.isNamed t.settings.methodName t.settings.descriptor = true ∧
      target'.isNamed t.settings.methodName t.settings.descriptor = true ∧
      target'.access = target.access ∧
      replacement.isNamed t.settings.replacement t.settings.descriptor = true := by
  obtain ⟨p⟩ := nonempty_patching h
  obtain ⟨more, hsound⟩ := p.exists_sound
  obtain ⟨target, copy, htarget, hcopy⟩ := Patching.exists_reads hsound
  refine ⟨p.original, p.patched more target copy, p.before, p.target, p.newTarget target, p.after,
    p.replacement copy, p.parse_original, Patching.parse_eq hsound htarget hcopy, rfl,
    p.raw_isPrefix more, fun i hi => Array.getElem?_append_left hi, rfl, rfl,
    p.methods_original, rfl, p.others, p.named, p.named, rfl, ?_⟩
  exact isNamed_iff.mpr ⟨rfl, rfl⟩

/-- A class `T` with a superclass, an interface, a field `n`, the source file and three methods: the
`f` of `sampleClass` between an `a` and a `z` without code. -/
def wholeClass : Bytes := [
  202, 254, 186, 190, 0, 0, 0, 52, 0, 18, 1, 0, 1, 102, 1, 0, 3, 40, 41, 73, 1, 0, 15, 76, 105, 110,
  101, 78, 117, 109, 98, 101, 114, 84, 97, 98, 108, 101, 1, 0, 4, 67, 111, 100, 101, 1, 0, 1, 84, 7,
  0, 5, 1, 0, 1, 110, 1, 0, 1, 73, 1, 0, 1, 97, 1, 0, 3, 40, 41, 86, 1, 0, 1, 122, 1, 0, 10, 83,
  111, 117, 114, 99, 101, 70, 105, 108, 101, 1, 0, 3, 84, 46, 120, 1, 0, 1, 83, 7, 0, 14, 1, 0, 1,
  74, 7, 0, 16, 4, 33, 0, 6, 0, 15, 0, 1, 0, 17, 0, 1, 0, 2, 0, 7, 0, 8, 0, 0, 0, 3, 4, 1, 0, 9, 0,
  10, 0, 0, 0, 0, 0, 1, 0, 2, 0, 1, 0, 4, 0, 0, 0, 52, 0, 1, 0, 1, 0, 0, 0, 28, 3, 170, 0, 0, 0, 0,
  0, 25, 0, 0, 0, 0, 0, 0, 0, 1, 0, 0, 0, 23, 0, 0, 0, 25, 3, 172, 4, 172, 0, 0, 0, 1, 0, 3, 0, 0,
  0, 6, 0, 1, 0, 24, 0, 7, 4, 1, 0, 11, 0, 10, 0, 0, 0, 1, 0, 12, 0, 0, 0, 2, 0, 13]

/-- In the example the target stands between other methods, and there is something of everything
that has to survive. -/
theorem modified_survives_whole : ∃ y c c' a f f' z g,
    sample.outcome "T" wholeClass = .modified y ∧ ClassFile.parse wholeClass = .ok c ∧
      ClassFile.parse y = .ok c' ∧ c'.header = c.header ∧
      c.header = ⟨0, 52, 0x421, "T", some "S", ["J"]⟩ ∧
      (∀ i < 18, c'.pool.slots[i]? = c.pool.slots[i]?) ∧ c'.fields = c.fields ∧
      c.fields.map (·.name) = ["n"] ∧ c'.attributes = c.attributes ∧
      c.attributes = [⟨"SourceFile", [0, 13]⟩] ∧ c.methods = [a, f, z] ∧
      c'.methods = [a, f', z, g] ∧ [a, f', z, g].map (·.name) = ["a", "f", "z", "g"] := by
  have houtcome : (sample.outcome "T" wholeClass).bytes?.isSome := by decide +kernel
  obtain ⟨y, hy⟩ := Option.isSome_iff_exists.mp houtcome
  have hparts : (do
      let c ← ClassFile.parse wholeClass
      pure (c.header, c.pool.slots.size, c.fields.map Member.name, c.attributes,
        c.methods.map Member.name)) =
      .ok (⟨0, 52, 0x421, "T", some "S", ["J"]⟩, 18, ["n"], [⟨"SourceFile", [0, 13]⟩],
        ["a", "f", "z"]) := by
    decide +kernel
  obtain ⟨c, c', before, target, target', after, replacement, hc, hc', hheader, -, hslots, hfields,
    hattributes, hmethods, hmethods', -, htarget, htarget', -, hreplacement⟩ :=
    modified_survives (bytes?_eq_some.mp hy)
  obtain ⟨_, hparse, hparts⟩ := except_bind_eq_ok.mp hparts
  obtain rfl := Except.ok.inj (hc.symm.trans hparse)
  obtain ⟨hhead, hsize, hnamed, hattribute, hnames⟩ : c.header = _ ∧ c.pool.slots.size = 18 ∧
      c.fields.map (·.name) = ["n"] ∧ c.attributes = _ ∧
      c.methods.map (·.name) = ["a", "f", "z"] := by
    simpa using Except.ok.inj hparts
  have hf : target.name = "f" := (isNamed_iff.mp htarget).1
  have hf' : target'.name = "f" := (isNamed_iff.mp htarget').1
  have hg : replacement.name = "g" := (isNamed_iff.mp hreplacement).1
  -- The names leave one place for the target.
  rw [hmethods, List.map_append, List.map_cons, hf] at hnames
  obtain ⟨a, rfl, ha⟩ : ∃ a, before = [a] ∧ a.name = "a" := by
    rcases before with _ | ⟨a, _ | ⟨b, _ | ⟨d, before⟩⟩⟩ <;> simp at hnames
    exact ⟨a, rfl, hnames.1⟩
  obtain ⟨z, rfl, hz⟩ : ∃ z, after = [z] ∧ z.name = "z" := by
    rcases after with _ | ⟨z, _ | ⟨b, after⟩⟩ <;> simp at hnames
    exact ⟨z, rfl, hnames.2⟩
  exact ⟨y, c, c', a, target, target', z, replacement, bytes?_eq_some.mp hy, hc, hc',
    hheader, hhead, fun i hi =>
      hslots i (hsize ▸ hi), hfields, hnamed, hattributes, hattribute, hmethods, hmethods',
    by simp [ha, hf', hz, hg]⟩

end Transformer

end RoundingPatch
