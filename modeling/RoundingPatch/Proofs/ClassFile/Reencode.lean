import RoundingPatch.Proofs.ClassFile.Drafting
import RoundingPatch.Proofs.ClassFile.Method.Alike
import RoundingPatch.Proofs.ClassFile.Method.ReadBack
/-!
# Encoding a class file again

`reencode` decodes every method of a class file and lays it out again, and copies everything else.
What comes out is a class file whose methods have the same outlines, although their bytes may
differ: shorter forms of instructions are preferred, and constants may be found at other indices.
Encoding it once more changes nothing (`reencode_preserves`).
-/

namespace RoundingPatch.ClassFile

open Read MethodEvent ClassDraft

/-- Lays a method out again from its events. -/
def reencodeMethod (m : Member) (t : Transcript) : Drafting Emitted := do
  if let some fault := t.failure then throw fault
  commit ⟨m.access, m.name, m.descriptor, t.events⟩

/-- Decodes every method and lays it out again. -/
def reencode (c : ClassFile) : Drafting (List Emitted) :=
  c.accept (copier c.pool fun m => return some (reencodeMethod m))

/-- The bytes of a class file whose methods are decoded and laid out again. -/
def reencoded (c : ClassFile) : Except Fault Bytes :=
  (ofClass c).build c.reencode

variable {draft final : ClassDraft} {pool : ConstantPool} {m : Member} {e : Emitted}
  {methods methods' : List Member} {emitted : List Emitted} {pairs : List (Bytes × Emitted)}
  {b c q : PoolBuilder}

/-! ### What encoding again takes -/

theorem yields_reencodeMethod : Yields (reencodeMethod m (m.decode pool)) draft e final ↔
    (m.decode pool).failure = none ∧ Yields (commit (m.source pool)) draft e final := by
  unfold reencodeMethod Member.source
  rcases hfailure : (m.decode pool).failure with _ | fault
  · simp only [true_and]
  · simp only [reduceCtorEq, false_and, iff_false]
    exact yields_throw_bind

/-- Methods are finished one after the other. -/
theorem yields_reencodeMethods :
    Yields (methods.filterMapM ((copier pool fun m => return some (reencodeMethod m)).visit pool))
        draft emitted final ↔
      (∀ m ∈ methods, (m.decode pool).failure = none) ∧
      firstRepeated draft.methodKeys methods = none ∧
      ∃ pairs b, Yields ((methods.map (Member.source pool)).mapM MethodSource.finish)
        draft.pool pairs b ∧
        emitted = pairs.map (·.2) ∧ final = { draft with
          pool := b
          methods := draft.methods ++ (pairs.map (·.1)).toArray
          methodKeys :=
            (methods.map fun m => (m.name, m.descriptor)).reverse ++ draft.methodKeys } := by
  induction methods generalizing draft emitted with
  | nil =>
    rw [yields_filterMapM_nil]
    simp only [List.map_nil, yields_mapM_nil, firstRepeated]
    constructor
    · rintro ⟨rfl, rfl⟩
      exact ⟨by simp, trivial, [], _, ⟨rfl, rfl⟩, rfl, by simp⟩
    · rintro ⟨_, _, _, _, ⟨rfl, rfl⟩, rfl, rfl⟩
      exact ⟨rfl, by simp⟩
  | cons m methods ih =>
    rw [yields_filterMapM_cons, List.forall_mem_cons, firstRepeated, visit_copier_take rfl]
    simp only [yields_map, yields_reencodeMethod, yields_commit, ih, List.map_cons,
      yields_mapM_cons]
    constructor
    · rintro ⟨_, rest, d, rfl, ⟨e, ⟨hm, hfresh, bytes, s, hfinish, rfl⟩, rfl⟩, hrest,
        hdistinct, pairs, b, hpairs, rfl, rfl⟩
      refine ⟨⟨hm, hrest⟩, ?_, (bytes, e) :: pairs, b, ⟨_, _, s, rfl, hfinish, hpairs⟩, rfl, ?_⟩
      · rw [if_neg (by simpa using hfresh)]
        exact hdistinct
      · simp
    · rintro ⟨⟨hm, hrest⟩, hdistinct, _, b, ⟨⟨bytes, e⟩, pairs, s, rfl, hfinish, hpairs⟩, rfl, rfl⟩
      -- The name is free, else a repetition would have been found.
      by_cases hcontains : draft.methodKeys.contains (m.name, m.descriptor) = true
      · rw [if_pos hcontains] at hdistinct
        cases hdistinct
      · rw [if_neg hcontains] at hdistinct
        refine ⟨some e, pairs.map (·.2), _, rfl,
          ⟨e, ⟨hm, by simpa using hcontains, bytes, s, hfinish, rfl⟩, rfl⟩,
          hrest, hdistinct, pairs, b, hpairs, rfl, ?_⟩
        simp

/-- The draft that encoding a class file again ends with. -/
def redraft (c : ClassFile) (b : PoolBuilder) (methods : List Bytes) : ClassDraft where
  header := c.header
  pool := b
  fields := (c.fields.map (·.raw)).toArray
  fieldKeys := (c.fields.map fun m => (m.name, m.descriptor)).reverse
  methods := methods.toArray
  methodKeys := (c.methods.map fun m => (m.name, m.descriptor)).reverse
  attributes := c.attributes.toArray

/-- **A class is encoded again** exactly if its methods decode and can be finished one after the
other. -/
theorem reencoded_eq_ok {c : ClassFile} {bytes : Bytes} : c.reencoded = .ok bytes ↔
    (∀ m ∈ c.methods, (m.decode c.pool).failure = none) ∧ firstRepeated [] c.methods = none ∧
      ∃ pairs b last, Yields ((c.methods.map (Member.source c.pool)).mapM MethodSource.finish)
        (PoolBuilder.ofPool c.pool) pairs b ∧
        Yields (c.redraft b (pairs.map (·.1))).serialize b bytes last := by
  unfold reencoded
  rw [build_eq_ok]
  unfold reencode
  simp only [yields_accept]
  constructor
  · rintro ⟨_, final, last, ⟨d, hmethods, rfl⟩, hbytes⟩
    obtain ⟨hdecode, hdistinct, pairs, b, hpairs, rfl, rfl⟩ := yields_reencodeMethods.mp hmethods
    refine ⟨hdecode, hdistinct, pairs, b, last, hpairs, ?_⟩
    simpa [redraft, withFields, ofClass] using hbytes
  · rintro ⟨hdecode, hdistinct, pairs, b, last, hpairs, hbytes⟩
    refine ⟨_, _, last, ⟨_, yields_reencodeMethods.mpr
      ⟨hdecode, hdistinct, pairs, b, hpairs, rfl, rfl⟩, rfl⟩, ?_⟩
    simpa [redraft, withFields, ofClass] using hbytes

/-! ### Methods read back -/

/-- Methods with the same outlines are finished as the same bytes, and a pool that has all that was
used does not change. -/
theorem finishes_again {larger : ConstantPool}
    (hdecode : ∀ m ∈ methods', (m.decode larger).failure = none)
    (houtlines : methods'.map (Member.outline larger) = methods.map (Member.outline pool))
    (hy : Yields ((methods.map (Member.source pool)).mapM MethodSource.finish) b pairs c)
    (hq : q.Covers c) :
    ∃ pairs', Yields ((methods'.map (Member.source larger)).mapM MethodSource.finish) q pairs' q ∧
      pairs'.map (·.1) = pairs.map (·.1) := by
  induction methods generalizing b pairs methods' with
  | nil =>
    obtain ⟨rfl, -⟩ := yields_mapM_nil.mp hy
    rw [List.map_eq_nil_iff.mp houtlines]
    exact ⟨[], yields_mapM_nil.mpr ⟨rfl, rfl⟩, rfl⟩
  | cons m methods ih =>
    obtain ⟨⟨bytes, e⟩, rest, s, rfl, hm, hrest⟩ := yields_mapM_cons.mp hy
    obtain ⟨m', rest', rfl, houtline, houtlines⟩ := List.map_eq_cons_iff.mp houtlines
    rw [List.forall_mem_cons] at hdecode
    have hgrows := MethodSource.grows_finishes (R := fun _ => True) (fun m _ => m.within_true) hrest
    obtain ⟨pairs', hpairs', hbytes⟩ := ih hdecode.2 houtlines hrest
    -- The same outline gives the same bytes, and what the pool covers gives them without growing
    -- it.
    obtain ⟨e', hm'⟩ := finish_of_outline_eq houtline (nodup_labels_source hdecode.1) hm
    have hagain := finish_again hm' (hq.of_grows hgrows)
    refine ⟨(bytes, e') :: pairs', yields_mapM_cons.mpr ⟨_, _, q, rfl, hagain, hpairs'⟩, ?_⟩
    rw [List.map_cons, List.map_cons, hbytes]

/-! ### The class file that comes out -/

/-- **Encoding a class file again** preserves the outline of every method, and what comes out does
not change when it is encoded once more. -/
theorem reencode_preserves {x y : Bytes} {c : ClassFile} (hx : parse x = .ok c)
    (hy : c.reencoded = .ok y) :
    ∃ c', parse y = .ok c' ∧ c'.header = c.header ∧ c'.fields = c.fields ∧
      c'.attributes = c.attributes ∧ (∀ m ∈ c'.methods, (m.decode c'.pool).failure = none) ∧
      c'.methods.map (Member.outline c'.pool) = c.methods.map (Member.outline c.pool) ∧
      c'.reencoded = .ok y := by
  have hread := wellRead_of_parse hx
  obtain ⟨hdecode, hdistinct, pairs, b, last, hpairs, hbytes⟩ := reencoded_eq_ok.mp hy
  -- Whatever is added to the pool is a member reference.
  have hknown : ∀ s, c.pool.Has s →
      (PoolBuilder.ofPool c.pool).known[s]?.isSome ∨ ∃ ref, s = .member ref := by
    rintro s (⟨i, hi⟩ | hmember)
    · exact .inl (PoolBuilder.known_of_denotes hread.pool.2.1 hi)
    · exact .inr hmember
  have hmethods : (PoolBuilder.ofPool c.pool).Grows c.pool.Has b := by
    refine MethodSource.grows_finishes (fun source hsource => ?_) hpairs
    obtain ⟨m, hm, rfl⟩ := List.mem_map.mp hsource
    exact within_source (hdecode m hm) (hread.named m hm)
  have hserialize : b.Grows c.pool.Has last := by
    refine grows_serialize ?_ ?_ ?_ (fun a ha => ?_) hbytes
    · exact hread.name
    · exact hread.superName
    · exact hread.interfaces
    · exact (hread.attributes a (by simpa [redraft] using ha)).utf8
  obtain ⟨more, hsound, hopen⟩ :=
    PoolBuilder.known_reopened hread.pool ((hmethods.trans hserialize).members hknown)
  have hextends : (last.poolOf (c.pool.slots ++ more)).Extends c.pool :=
    ConstantPool.extends_of_append rfl
  have hreadable : ∀ source ∈ c.methods.map (Member.source c.pool),
      source.Readable (last.poolOf (c.pool.slots ++ more)) := by
    intro source hsource
    obtain ⟨m, hm, rfl⟩ := List.mem_map.mp hsource
    exact (readable_source (hdecode m hm)).mono hextends
  obtain ⟨methods', hreads, hdecode', houtlines⟩ := MethodSource.read_finishes "method" hreadable
    hpairs (hsound.means.of_grows hserialize) hsound.get_zero
  rw [List.map_map] at houtlines
  have hkeys : (methods'.map fun m => (m.name, m.descriptor))
      = c.methods.map fun m => (m.name, m.descriptor) := by
    have h := congrArg (List.map fun o : Outline => (o.name, o.descriptor)) houtlines
    rwa [List.map_map, List.map_map] at h
  have hdistinct' : firstRepeated [] methods' = none := (firstRepeated_congr hkeys).mpr hdistinct
  have hfields : List.Forall₂ (fun bytes m => Reads (readMember (last.poolOf
      (c.pool.slots ++ more)) "field") bytes m) (c.fields.map (·.raw)) c.fields := by
    rw [List.forall₂_map_left_iff, List.forall₂_same]
    exact fun m hm => hread.fields m hm _ hextends
  -- The pool that was written covers all that was used, so everything comes out the same.
  have hcovers := PoolBuilder.covers_reopened hsound hopen
  obtain ⟨pairs', hpairs', hbytes'⟩ := finishes_again hdecode' houtlines hpairs
    (hcovers.of_grows hserialize)
  have hagain := serialize_again hbytes hcovers hsound.next_eq.symm (List.append_nil _)
  refine ⟨⟨last.poolOf (c.pool.slots ++ more), c.header, c.fields, methods', c.attributes⟩, ?_, rfl,
    rfl, rfl, hdecode', houtlines, ?_⟩
  · have hparse := parse_of_serialize hbytes hsound hread.version hfields hreads hdistinct'
    exact hparse
  · rw [← hbytes'] at hagain
    exact reencoded_eq_ok.mpr ⟨hdecode', hdistinct', pairs', _, _, hpairs', hagain⟩

/-- A class with one method, which is a branch to itself in its long form. -/
def longLoop : Bytes := [
  0xca, 0xfe, 0xba, 0xbe, 0, 0, 0, 52, 0, 6, 1, 0, 1, 102, 1, 0, 3, 40, 41, 86, 1, 0, 4, 67, 111,
  100, 101, 1, 0, 1, 84, 7, 0, 4, 0, 33, 0, 5, 0, 0, 0, 0, 0, 0, 0, 1, 0, 8, 0, 1, 0, 2, 0, 1, 0, 3,
  0, 0, 0, 17, 0, 0, 0, 0, 0, 0, 0, 5, 200, 0, 0, 0, 0, 0, 0, 0, 0, 0, 0]

/-- The same class with the branch in its short form. -/
def shortLoop : Bytes := [
  0xca, 0xfe, 0xba, 0xbe, 0, 0, 0, 52, 0, 6, 1, 0, 1, 102, 1, 0, 3, 40, 41, 86, 1, 0, 4, 67, 111,
  100, 101, 1, 0, 1, 84, 7, 0, 4, 0, 33, 0, 5, 0, 0, 0, 0, 0, 0, 0, 1, 0, 8, 0, 1, 0, 2, 0, 1, 0, 3,
  0, 0, 0, 15, 0, 0, 0, 0, 0, 0, 0, 3, 167, 0, 0, 0, 0, 0, 0, 0, 0]

set_option maxRecDepth 20000 in
/-- A long branch becomes a short one, which stays short. -/
theorem reencode_longLoop : ∃ c c' : ClassFile, parse longLoop = .ok c ∧
    parse shortLoop = .ok c' ∧ c.methods.length = 1 ∧
    c'.methods.map (Member.outline c'.pool) = c.methods.map (Member.outline c.pool) ∧
    c'.reencoded = .ok shortLoop := by
  have hrun : (do
      let c ← parse longLoop
      let bytes ← c.reencoded
      pure (c.methods.length, bytes)) = .ok (1, shortLoop) := by decide +kernel
  obtain ⟨c, hparse, h⟩ := except_bind_eq_ok.mp hrun
  obtain ⟨bytes, hbytes, h⟩ := except_bind_eq_ok.mp h
  obtain ⟨hlength, rfl⟩ := Prod.mk.injEq .. |>.mp (Except.ok.inj h)
  obtain ⟨c', hparse', _, _, _, _, houtlines, hagain⟩ := reencode_preserves hparse hbytes
  exact ⟨c, c', hparse, hparse', hlength, houtlines, hagain⟩

end RoundingPatch.ClassFile
