import RoundingPatch.Proofs.ClassFile.Draft
/-!
# Steps in the construction of a class

What each step does to the draft, and when it does not fail.
-/

namespace RoundingPatch.ClassFile.ClassDraft

variable {α : Type} {draft final : ClassDraft} {pool : ConstantPool} {m : Member} {u : Unit}

/-- A step on the pool leaves the rest of the draft alone. -/
theorem yields_pooling {step : Pooling α} {a : α} :
    Yields (pooling step) draft a final ↔
      ∃ b, Yields step draft.pool a b ∧ final = { draft with pool := b } := by
  show ((step.run draft.pool).1, { draft with pool := (step.run draft.pool).2 })
    = (.ok a, final) ↔ _
  unfold Yields
  rcases step.run draft.pool with ⟨answer, b⟩
  dsimp only
  rw [Prod.mk.injEq]
  constructor
  · rintro ⟨rfl, rfl⟩
    exact ⟨b, rfl, rfl⟩
  · rintro ⟨_, h, rfl⟩
    cases h
    exact ⟨rfl, rfl⟩

/-- Members may be copied exactly if the draft was begun with their pool. -/
theorem yields_checkOrigin : Yields (checkOrigin pool m) draft u final ↔
    draft.pool.origin = some pool.fingerprint ∧ final = draft := by
  unfold checkOrigin
  rw [yields_get_bind]
  by_cases h : draft.pool.origin = some pool.fingerprint
  · simp only [h, ne_eq, not_true_eq_false, ↓reduceIte, true_and]
    rw [yields_pure]
    exact ⟨fun h => h.2.symm, fun h => ⟨rfl, h.symm⟩⟩
  · simp only [h, ne_eq, not_false_eq_true, ↓reduceIte, false_and, iff_false]
    exact yields_throw

/-- A key is taken exactly if it is free. -/
theorem yields_takeMethodKey {name descriptor : String} :
    Yields (takeMethodKey name descriptor) draft u final ↔
      (name, descriptor) ∉ draft.methodKeys ∧
        final = { draft with methodKeys := (name, descriptor) :: draft.methodKeys } := by
  unfold takeMethodKey hasMethod
  rw [yields_get_bind]
  by_cases h : draft.methodKeys.contains (name, descriptor) = true
  · simp only [h, ↓reduceIte]
    have hmem : (name, descriptor) ∈ draft.methodKeys := by simpa using h
    simp only [hmem, not_true_eq_false, false_and, iff_false]
    exact yields_throw_bind
  · simp only [h, Bool.false_eq_true, ↓reduceIte]
    have hmem : (name, descriptor) ∉ draft.methodKeys := by simpa using h
    simp only [hmem, not_false_eq_true, true_and]
    exact yields_set

/-- A field is copied with its bytes. -/
theorem yields_copyField : Yields (copyField pool m) draft u final ↔
    draft.pool.origin = some pool.fingerprint ∧ final = { draft with
      fields := draft.fields.push m.raw
      fieldKeys := (m.name, m.descriptor) :: draft.fieldKeys } := by
  unfold copyField
  rw [yields_bind]
  constructor
  · rintro ⟨_, d, hcheck, h⟩
    obtain ⟨horigin, rfl⟩ := yields_checkOrigin.mp hcheck
    exact ⟨horigin, yields_modify.mp h⟩
  · rintro ⟨horigin, rfl⟩
    exact ⟨⟨⟩, draft, yields_checkOrigin.mpr ⟨horigin, rfl⟩, yields_modify.mpr rfl⟩

/-- A method is copied with its bytes, if its key is free. -/
theorem yields_copyMethod : Yields (copyMethod pool m) draft u final ↔
    draft.pool.origin = some pool.fingerprint ∧ (m.name, m.descriptor) ∉ draft.methodKeys ∧
      final = { draft with
        methods := draft.methods.push m.raw
        methodKeys := (m.name, m.descriptor) :: draft.methodKeys } := by
  unfold copyMethod
  rw [yields_bind]
  constructor
  · rintro ⟨_, d, hcheck, h⟩
    obtain ⟨horigin, rfl⟩ := yields_checkOrigin.mp hcheck
    obtain ⟨_, e, hkey, h⟩ := yields_bind.mp h
    obtain ⟨hfresh, rfl⟩ := yields_takeMethodKey.mp hkey
    exact ⟨horigin, hfresh, yields_modify.mp h⟩
  · rintro ⟨horigin, hfresh, rfl⟩
    exact ⟨⟨⟩, draft, yields_checkOrigin.mpr ⟨horigin, rfl⟩,
      (yields_takeMethodKey (u := ()).mpr ⟨hfresh, rfl⟩).bind (yields_modify.mpr rfl)⟩

/-- **A method is committed** exactly if its key is free and it can be finished. -/
theorem yields_commit {source : MethodSource} {emitted : Emitted} :
    Yields (commit source) draft emitted final ↔
      (source.name, source.descriptor) ∉ draft.methodKeys ∧
        ∃ bytes b, Yields source.finish draft.pool (bytes, emitted) b ∧ final = { draft with
          pool := b
          methods := draft.methods.push bytes
          methodKeys := (source.name, source.descriptor) :: draft.methodKeys } := by
  unfold commit
  rw [yields_bind]
  constructor
  · rintro ⟨_, d, hkey, h⟩
    obtain ⟨hfresh, rfl⟩ := yields_takeMethodKey.mp hkey
    obtain ⟨⟨bytes, e⟩, d, hbytes, h⟩ := yields_bind.mp h
    obtain ⟨b, hfinish, rfl⟩ := yields_pooling.mp hbytes
    obtain ⟨_, d, hmodify, h⟩ := yields_bind.mp h
    obtain rfl := yields_modify.mp hmodify
    obtain ⟨rfl, rfl⟩ := yields_pure.mp h
    exact ⟨hfresh, bytes, b, hfinish, rfl⟩
  · rintro ⟨hfresh, bytes, b, hfinish, rfl⟩
    refine ⟨⟨⟩, _, yields_takeMethodKey.mpr ⟨hfresh, rfl⟩, yields_bind.mpr ⟨(bytes, emitted), _,
      yields_pooling.mpr ⟨b, hfinish, rfl⟩, ?_⟩⟩
    exact yields_bind.mpr ⟨⟨⟩, _, yields_modify.mpr rfl, yields_pure.mpr ⟨rfl, rfl⟩⟩

theorem yields_addAttribute {attr : RawAttribute} : Yields (addAttribute attr) draft u final ↔
    final = { draft with attributes := draft.attributes.push attr } :=
  yields_modify

/-- A class is built if its steps succeed and the draft can be serialized. -/
theorem build_eq_ok {steps : Drafting α} {bytes : Bytes} :
    draft.build steps = .ok bytes ↔ ∃ a final c, Yields steps draft a final ∧
      Yields final.serialize final.pool bytes c := by
  unfold build toBytes Yields
  rcases steps.run draft with ⟨_ | a, d⟩
  · dsimp only
    constructor
    · intro h
      cases h
    · rintro ⟨_, _, _, h, _⟩
      cases h
  · dsimp only
    constructor
    · intro h
      refine ⟨a, d, (d.serialize.run d.pool).2, rfl, ?_⟩
      rw [← h]
      rfl
    · rintro ⟨_, _, c, h, hbytes⟩
      cases h
      rw [hbytes]

/-! ### Steps in a row -/

/-- Fields are copied in order, without a check of their keys. -/
theorem yields_copyFields {fields : List Member}
    (horigin : draft.pool.origin = some pool.fingerprint) :
    Yields (fields.forM (copyField pool)) draft u final ↔ final = { draft with
      fields := draft.fields ++ (fields.map (·.raw)).toArray
      fieldKeys := (fields.map fun m => (m.name, m.descriptor)).reverse ++ draft.fieldKeys } := by
  induction fields generalizing draft with
  | nil =>
    rw [yields_forM_nil]
    simp
  | cons m fields ih =>
    rw [yields_forM_cons]
    simp only [yields_copyField]
    constructor
    · rintro ⟨d, ⟨_, rfl⟩, hrest⟩
      rw [(ih (by exact horigin)).mp hrest]
      simp
    · rintro rfl
      refine ⟨_, ⟨horigin, rfl⟩, (ih (by exact horigin)).mpr ?_⟩
      simp

variable {method : Member → Drafting (Option (Transcript → Drafting α))}

/-- A method that is passed is copied. -/
theorem visit_copier_pass (hm : method m = passMethod pool m) :
    (copier pool method).visit pool m = (do
      copyMethod pool m
      return none) := by
  show (method m >>= _) = _
  rw [hm]
  simp only [passMethod, bind_assoc, pure_bind]

/-- A method whose events are taken is decoded. -/
theorem visit_copier_take {take : Transcript → Drafting α} (hm : method m = pure (some take)) :
    (copier pool method).visit pool m = some <$> take (m.decode pool) := by
  show (method m >>= _) = _
  rw [hm]
  rfl

/-- Methods that are all passed on are copied in order, if no key comes twice. -/
theorem yields_copyMethods {methods : List Member} {taken : List α}
    (horigin : draft.pool.origin = some pool.fingerprint)
    (hpass : ∀ m ∈ methods, method m = passMethod pool m) :
    Yields (methods.filterMapM ((copier pool method).visit pool)) draft taken final ↔
      taken = [] ∧ firstRepeated draft.methodKeys methods = none ∧ final = { draft with
        methods := draft.methods ++ (methods.map (·.raw)).toArray
        methodKeys :=
          (methods.map fun m => (m.name, m.descriptor)).reverse ++ draft.methodKeys } := by
  induction methods generalizing draft taken with
  | nil =>
    rw [yields_filterMapM_nil]
    simp [firstRepeated]
  | cons m methods ih =>
    rw [List.forall_mem_cons] at hpass
    rw [yields_filterMapM_cons, firstRepeated, visit_copier_pass hpass.1]
    constructor
    · rintro ⟨b, rest, d, rfl, hm, hrest⟩
      obtain ⟨_, _, hcopy, hm⟩ := yields_bind.mp hm
      obtain ⟨-, hfresh, rfl⟩ := yields_copyMethod.mp hcopy
      obtain ⟨rfl, rfl⟩ := yields_pure.mp hm
      obtain ⟨rfl, hdistinct, rfl⟩ := (ih (by exact horigin) hpass.2).mp hrest
      rw [if_neg (by simpa using hfresh)]
      exact ⟨rfl, hdistinct, by simp⟩
    · rintro ⟨rfl, hdistinct, rfl⟩
      -- The name is free, else a repetition would have been found.
      by_cases hcontains : draft.methodKeys.contains (m.name, m.descriptor) = true
      · rw [if_pos hcontains] at hdistinct
        cases hdistinct
      · rw [if_neg hcontains] at hdistinct
        have hcopy := yields_copyMethod (u := ⟨⟩).mpr ⟨horigin, by simpa using hcontains, rfl⟩
        refine ⟨none, [], _, rfl, hcopy.bind (yields_pure.mpr ⟨rfl, rfl⟩),
          (ih (by exact horigin) hpass.2).mpr ⟨rfl, hdistinct, ?_⟩⟩
        simp

theorem yields_addAttributes {attributes : List RawAttribute} :
    Yields (attributes.forM addAttribute) draft u final ↔
      final = { draft with attributes := draft.attributes ++ attributes.toArray } := by
  induction attributes generalizing draft with
  | nil =>
    rw [yields_forM_nil]
    simp
  | cons a attributes ih =>
    rw [yields_forM_cons]
    simp only [yields_addAttribute]
    constructor
    · rintro ⟨d, rfl, hrest⟩
      rw [ih.mp hrest]
      simp
    · rintro rfl
      refine ⟨_, rfl, ih.mpr ?_⟩
      simp

/-! ### Whole classes -/

/-- The draft of a class once its fields are copied. -/
def withFields (c : ClassFile) : ClassDraft :=
  { ofClass c with
    fields := (c.fields.map (·.raw)).toArray
    fieldKeys := (c.fields.map fun m => (m.name, m.descriptor)).reverse }

/-- The fields of a class are copied to its own draft. -/
theorem yields_fields {c : ClassFile} :
    Yields (c.fields.forM (copyField c.pool)) (ofClass c) u final ↔ final = withFields c := by
  rw [yields_copyFields rfl]
  simp [withFields, ofClass]

/-- **A visitor that copies all but the methods** leaves what it makes of the methods between the
fields and the attributes of the class. -/
theorem yields_accept {c : ClassFile} {taken : List α} :
    Yields (c.accept (copier c.pool method)) (ofClass c) taken final ↔
      ∃ d, Yields (c.methods.filterMapM ((copier c.pool method).visit c.pool))
        (withFields c) taken d ∧
        final = { d with attributes := d.attributes ++ c.attributes.toArray } := by
  unfold accept
  constructor
  · intro h
    -- The header is set to what it is already.
    obtain ⟨_, _, hheader, h⟩ := yields_bind.mp h
    obtain rfl := yields_modify.mp hheader
    obtain ⟨_, _, hcopied, h⟩ := yields_bind.mp h
    obtain rfl := yields_fields.mp hcopied
    obtain ⟨_, d, hmethods, h⟩ := yields_bind.mp h
    obtain ⟨_, _, hattributes, h⟩ := yields_bind.mp h
    obtain rfl := yields_addAttributes.mp hattributes
    obtain ⟨_, _, hdone, h⟩ := yields_bind.mp h
    obtain ⟨-, rfl⟩ := yields_pure.mp hdone
    obtain ⟨rfl, rfl⟩ := yields_pure.mp h
    exact ⟨d, hmethods, rfl⟩
  · rintro ⟨d, hmethods, rfl⟩
    have hheader : Yields (setHeader c.header) (ofClass c) ⟨⟩ (ofClass c) := yields_modify.mpr rfl
    have hattributes : Yields (c.attributes.forM addAttribute) d ⟨⟩ _ :=
      yields_addAttributes.mpr rfl
    have hdone {d : ClassDraft} : Yields (pure ⟨⟩ : Drafting Unit) d ⟨⟩ d :=
      yields_pure.mpr ⟨rfl, rfl⟩
    have hfields : Yields (c.fields.forM (copyField c.pool)) (ofClass c) ⟨⟩ _ :=
      yields_fields.mpr rfl
    exact hheader.bind (hfields.bind (hmethods.bind (hattributes.bind
      (hdone.bind (yields_pure.mpr ⟨rfl, rfl⟩)))))

end RoundingPatch.ClassFile.ClassDraft
