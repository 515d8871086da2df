import RoundingPatch.Proofs.ClassFile.Method.Outline
/-!
# What finishing a method takes

`MethodSource.finish` taken apart: the name, the descriptor, the `Code` attribute and the other
attributes go into the pool one after the other (`yields_finish`), and the `Code` attribute is made
from a layout (`yields_emitCode`, `yields_codeAttribute`). The pool grows by nothing but the symbols
of the method (`grows_finish`).
-/

namespace RoundingPatch.ClassFile

open MethodEvent

variable {R : Symbol → Prop} {m : MethodSource} {b c : PoolBuilder} {bytes : Bytes}
  {emitted : Emitted} {limits : UInt16 × UInt16}

namespace Layout

/-- The code is written with its handlers and its own attributes behind it. -/
theorem yields_codeAttribute {layout : Layout} {code : Bytes} :
    Yields (layout.codeAttribute m limits code) b bytes c ↔
      ∃ length handlers s attributes t count,
        lengthU4 code.length "code" = .ok length ∧
        Yields (table "exception handlers" m.handlers layout.encodeHandler) b handlers s ∧
        Yields (layout.codeAttributes m) s attributes t ∧
        countU2 attributes.length "code attributes" = .ok count ∧
        Yields (namedAttribute "Code" (Bytes.ofU2 limits.1 ++ Bytes.ofU2 limits.2 ++
          Bytes.ofU4 length ++ code ++ handlers ++ Bytes.ofU2 count ++ attributes.flatten))
          t bytes c := by
  unfold codeAttribute
  constructor
  · intro h
    obtain ⟨length, hlength, h⟩ := Pooling.yields_lift_bind.mp h
    obtain ⟨handlers, s, hhandlers, h⟩ := yields_bind.mp h
    obtain ⟨attributes, t, hattributes, h⟩ := yields_bind.mp h
    obtain ⟨count, hcount, h⟩ := Pooling.yields_lift_bind.mp h
    exact ⟨length, handlers, s, attributes, t, count, hlength, hhandlers, hattributes, hcount, h⟩
  · rintro ⟨length, handlers, s, attributes, t, count, hlength, hhandlers, hattributes, hcount, h⟩
    exact Pooling.yields_lift_bind.mpr ⟨length, hlength, hhandlers.bind (hattributes.bind
      (Pooling.yields_lift_bind.mpr ⟨count, hcount, h⟩))⟩

end Layout

namespace MethodSource

/-- **Code is emitted** exactly if it is laid out, resolves, is not empty and fits in a short. -/
theorem yields_emitCode : Yields (m.emitCode limits) b (bytes, emitted) c ↔
    ∃ layout s code, Yields (Layout.ofMethod m) b layout s ∧ layout.code = .ok code ∧
      layout.size ≤ 65535 ∧ layout.size ≠ 0 ∧
      Yields (layout.codeAttribute m limits code) s bytes c ∧
      emitted = ⟨m.name, m.descriptor, layout.size, layout.offsets⟩ := by
  unfold emitCode
  constructor
  · intro h
    obtain ⟨layout, s, hlayout, h⟩ := yields_bind.mp h
    obtain ⟨code, hcode, h⟩ := Pooling.yields_lift_bind.mp h
    obtain ⟨length, hlength, h⟩ := Pooling.yields_lift_bind.mp h
    obtain ⟨hsize, rfl⟩ := Layout.next_eq_ok.mp hlength
    obtain ⟨hne, h⟩ := Pooling.yields_unless.mp h
    obtain ⟨found, t, hfound, hp⟩ := yields_bind.mp h
    obtain ⟨heq, rfl⟩ := yields_pure.mp hp
    obtain ⟨rfl, rfl⟩ := Prod.mk.injEq .. |>.mp heq
    exact ⟨layout, s, code, hlayout, hcode, hsize, hne, hfound, rfl⟩
  · rintro ⟨layout, s, code, hlayout, hcode, hsize, hne, hbytes, rfl⟩
    exact hlayout.bind (Pooling.yields_lift_bind.mpr ⟨code, hcode, Pooling.yields_lift_bind.mpr
      ⟨layout.size, Layout.next_eq_ok.mpr ⟨hsize, rfl⟩, Pooling.yields_unless.mpr
        ⟨hne, hbytes.bind (yields_pure.mpr ⟨rfl, rfl⟩)⟩⟩⟩)

/-- The `Code` attribute of a method in a list that is empty if there is no code. -/
def codePart (m : MethodSource) : Pooling (List Bytes × Emitted) :=
  match m.limits with
  | some limits => do
    let (bytes, emitted) ← m.emitCode limits
    pure ([bytes], emitted)
  | none => pure ([], { name := m.name, descriptor := m.descriptor })

/-- A method has code exactly if its limits are known. -/
theorem yields_codePart {code : List Bytes} : Yields m.codePart b (code, emitted) c ↔
    m.limits = none ∧ code = [] ∧ emitted = { name := m.name, descriptor := m.descriptor } ∧ c = b ∨
      ∃ limits bytes, m.limits = some limits ∧ code = [bytes] ∧
        Yields (m.emitCode limits) b (bytes, emitted) c := by
  unfold codePart
  rcases m.limits with _ | limits
  · simp only [yields_pure, Prod.mk.injEq, reduceCtorEq, false_and, exists_false,
      or_false, true_and]
    constructor
    · rintro ⟨⟨rfl, rfl⟩, rfl⟩
      exact ⟨rfl, rfl, rfl⟩
    · rintro ⟨rfl, rfl, rfl⟩
      exact ⟨⟨rfl, rfl⟩, rfl⟩
  · simp only [reduceCtorEq, false_and, false_or, Option.some.injEq]
    constructor
    · intro h
      obtain ⟨⟨bytes, e⟩, s, hbytes, hp⟩ := yields_bind.mp h
      obtain ⟨heq, rfl⟩ := yields_pure.mp hp
      obtain ⟨rfl, rfl⟩ := Prod.mk.injEq .. |>.mp heq
      exact ⟨limits, bytes, rfl, rfl, hbytes⟩
    · rintro ⟨_, bytes, rfl, rfl, hbytes⟩
      exact hbytes.bind (yields_pure.mpr ⟨rfl, rfl⟩)

/-- What follows the `Code` attribute, once it and the other attributes may be written. -/
def finishWith (m : MethodSource) (name descriptor : UInt16) (code : List Bytes)
    (emitted : Emitted) : Pooling (Bytes × Emitted) := do
  let others ← Layout.namedAttributes m.attributes
  let count ← Pooling.lift (countU2 (code ++ others).length "method attributes")
  return (Bytes.ofU2 m.access ++ Bytes.ofU2 name ++ Bytes.ofU2 descriptor ++ Bytes.ofU2 count
    ++ (code ++ others).flatten, emitted)

theorem finish_eq : m.finish = (do
    let name ← Pooling.utf8 m.name
    let descriptor ← Pooling.utf8 m.descriptor
    let part ← m.codePart
    let pool ← get
    if !m.attributes.isEmpty && pool.origin.isNone then
      Pooling.fail (.unsupported (.rawAttributes m.name))
    m.finishWith name descriptor part.1 part.2) := by
  unfold finish codePart
  rcases m.limits with _ | limits
  · simp only [pure_bind]
    rfl
  · simp only [bind_assoc, pure_bind]
    rfl

/-- **A method is finished** part by part, in the order of the file. -/
theorem yields_finish : Yields m.finish b (bytes, emitted) c ↔
    ∃ name s descriptor t code u others count, Yields (Pooling.utf8 m.name) b name s ∧
      Yields (Pooling.utf8 m.descriptor) s descriptor t ∧ Yields m.codePart t (code, emitted) u ∧
      (m.attributes = [] ∨ u.origin.isSome) ∧
      Yields (Layout.namedAttributes m.attributes) u others c ∧
      countU2 (code ++ others).length "method attributes" = .ok count ∧
      bytes = Bytes.ofU2 m.access ++ Bytes.ofU2 name ++ Bytes.ofU2 descriptor ++ Bytes.ofU2 count
        ++ (code ++ others).flatten := by
  have hguard (u : PoolBuilder) : ¬ (!m.attributes.isEmpty && u.origin.isNone) = true ↔
      m.attributes = [] ∨ u.origin.isSome := by
    rcases u.origin with _ | o <;> simp
  rw [finish_eq]
  constructor
  · intro h
    obtain ⟨name, s, hname, h⟩ := yields_bind.mp h
    obtain ⟨descriptor, t, hdescriptor, h⟩ := yields_bind.mp h
    obtain ⟨⟨code, e⟩, u, hcode, h⟩ := yields_bind.mp h
    obtain ⟨horigin, h⟩ := Pooling.yields_unless.mp (yields_get_bind.mp h)
    obtain ⟨others, v, hothers, h⟩ := yields_bind.mp h
    obtain ⟨count, hcount, hp⟩ := Pooling.yields_lift_bind.mp h
    obtain ⟨heq, rfl⟩ := yields_pure.mp hp
    obtain ⟨rfl, rfl⟩ := Prod.mk.injEq .. |>.mp heq
    exact ⟨name, s, descriptor, t, code, u, others, count, hname, hdescriptor, hcode,
      (hguard u).mp horigin, hothers, hcount, rfl⟩
  · rintro ⟨name, s, descriptor, t, code, u, others, count, hname, hdescriptor, hcode, horigin,
      hothers, hcount, rfl⟩
    exact hname.bind (hdescriptor.bind (hcode.bind (yields_get_bind.mpr (Pooling.yields_unless.mpr
      ⟨(hguard u).mpr horigin, hothers.bind (Pooling.yields_lift_bind.mpr
        ⟨count, hcount, yields_pure.mpr ⟨rfl, rfl⟩⟩)⟩))))

end MethodSource

namespace MethodSource

/-- A method with code that was finished has a layout of at most 65535 bytes. -/
theorem exists_lays_of_finish (hlimits : m.limits.isSome)
    (h : Yields m.finish b (bytes, emitted) c) :
    ∃ (layout : Layout) (s t : PoolBuilder), layout.Lays m s t ∧ layout.size ≤ 65535 ∧
      emitted.offsets = layout.offsets := by
  obtain ⟨_, _, _, t, code, _, _, _, _, _, hpart, _⟩ := yields_finish.mp h
  rcases yields_codePart.mp hpart with ⟨hnone, _⟩ | ⟨limits, _, _, _, hcode⟩
  · rw [hnone] at hlimits
    cases hlimits
  · obtain ⟨layout, s, _, hlayout, _, hsize, _, _, rfl⟩ := yields_emitCode.mp hcode
    exact ⟨layout, t, s, Layout.lays_of_ofMethod hlayout, hsize, rfl⟩

end MethodSource

/-! ### What the pool grows by -/

namespace Layout

theorem uses_place {name : String} {layout : Layout} {e : MethodEvent}
    (h : ∀ i, e = .insn i → ∀ s ∈ i.symbol?, ∀ t ∈ s.parts, R t) :
    Pooling.Uses R (place name layout e) := by
  cases e with
  | label label =>
    exact (Pooling.uses_lift _).bind fun _ => Pooling.Uses.unless (Pooling.uses_pure _)
  | frame frame =>
    exact (Pooling.uses_lift _).bind fun _ => Pooling.Uses.unless (Pooling.uses_pure _)
  | insn i =>
    exact (Pooling.uses_lift _).bind fun offset => (uses_encode offset (h i rfl)).map _
  | _ => exact Pooling.uses_pure _

/-- Laying out a method uses the entries of its instructions. -/
theorem uses_ofMethod (h : m.Within R) : Pooling.Uses R (ofMethod m) := by
  refine Pooling.uses_foldlM (fun layout e he => uses_place ?_) _
  rintro i rfl
  exact h.insns i (List.mem_filterMap.mpr ⟨_, he, rfl⟩)

variable {layout : Layout}

theorem uses_codeAttributes (h : m.Within R) (hplaces : layout.Places m) :
    Pooling.Uses R (layout.codeAttributes m) := by
  have hlocals (table : LocalTable) : Pooling.Uses R (tableAttribute (localsName table)
      "local variables" (m.localsIn table) layout.encodeLocal) := by
    refine uses_tableAttribute (fun v hv => ?_) fun hne => ?_
    · obtain ⟨hname, hdescriptor, _⟩ := h.locals table v hv
      exact uses_encodeLocal hname hdescriptor
    · obtain ⟨v, rest, hv⟩ := List.exists_cons_of_ne_nil hne
      exact (h.locals table v (hv ▸ List.mem_cons_self ..)).2.2
  have hframes : Pooling.Uses R layout.frameAttribute := by
    refine uses_frameAttribute (fun p hp v hv name hname => ?_) fun hne => h.stackMap ?_
    · rw [hplaces.frames_eq] at hp
      obtain ⟨q, hq, rfl⟩ := List.mem_map.mp hp
      exact h.frames q hq v hv name hname
    · rw [hplaces.frames_eq] at hne
      exact fun hnil => hne (by rw [hnil]; rfl)
  rw [codeAttributes_eq]
  exact (uses_tableAttribute (fun line _ => uses_encodeLine line) h.lines).bind fun _ =>
    (hlocals .descriptors).bind fun _ => (hlocals .signatures).bind fun _ => hframes.map _

/-- Its tables use their own names and the entries of their rows. -/
theorem uses_codeAttribute {code : Bytes} (h : m.Within R) (hcode : R (.utf8 "Code"))
    (hplaces : layout.Places m) : Pooling.Uses R (layout.codeAttribute m limits code) :=
  (Pooling.uses_lift _).bind fun _ =>
    (uses_table fun handler hhandler => uses_encodeHandler (h.handlers handler hhandler)).bind
      fun _ => (uses_codeAttributes h hplaces).bind fun _ => (Pooling.uses_lift _).bind fun _ =>
        uses_namedAttribute _ hcode

end Layout

namespace MethodSource

theorem grows_codePart (h : m.Within R) {code : List Bytes}
    (hy : Yields m.codePart b (code, emitted) c) : b.Grows R c := by
  rcases yields_codePart.mp hy with ⟨_, _, _, rfl⟩ | ⟨limits, bytes, hlimits, _, hcode⟩
  · exact .refl
  · obtain ⟨layout, s, code, hlayout, _, _, _, hattr, _⟩ := yields_emitCode.mp hcode
    have huses := @Layout.uses_codeAttribute _ _ limits _ code h
      (h.code (by rw [hlimits]; rfl)) (Layout.lays_of_ofMethod hlayout).toPlaces
    exact ((Layout.uses_ofMethod h).grows hlayout).trans (huses.grows hattr)

/-- **Finishing a method** adds nothing to the pool but the symbols of the method. -/
theorem grows_finish (h : m.Within R) (hy : Yields m.finish b (bytes, emitted) c) :
    b.Grows R c := by
  obtain ⟨_, _, _, _, _, _, _, _, hname, hdescriptor, hcode, _, hothers, _, _⟩ :=
    yields_finish.mp hy
  exact ((((uses_utf8 h.name).grows hname).trans ((uses_utf8 h.descriptor).grows hdescriptor)).trans
    (grows_codePart h hcode)).trans ((Layout.uses_namedAttributes h.attributes).grows hothers)

/-- What a body that could not be laid out leaves behind. -/
theorem grows_of_fails_emitCode (h : m.Within R) (hcode : R (.utf8 "Code")) {fault : Fault}
    (hf : Fails (m.emitCode limits) b fault c) : b.Grows R c := by
  rcases fails_bind.mp hf with hf | ⟨layout, s, hlayout, hf⟩
  · exact (Layout.uses_ofMethod h).leaves hf
  · have hattribute {code : Bytes} : Pooling.Uses R (layout.codeAttribute m limits code) :=
      Layout.uses_codeAttribute h hcode (Layout.lays_of_ofMethod hlayout).toPlaces
    have hrest : Pooling.Uses R (do
        let code ← Pooling.lift layout.code
        let codeLength ← Pooling.lift layout.next
        if codeLength = 0 then Pooling.fail (.internal (.emptyCode m.name))
        let bytes ← layout.codeAttribute m limits code
        return (bytes, Emitted.mk m.name m.descriptor codeLength layout.offsets)) :=
      (Pooling.uses_lift _).bind fun _ => (Pooling.uses_lift _).bind fun _ =>
        Pooling.Uses.unless (hattribute.map _)
    exact ((Layout.uses_ofMethod h).grows hlayout).trans (hrest.leaves hf)

/-- A code that cannot be written leaves the pool grown. -/
theorem grows_of_fails_codePart (h : m.Within R) {fault : Fault} (hf : Fails m.codePart b fault c) :
    b.Grows R c := by
  unfold codePart at hf
  rcases hlimits : m.limits with _ | limits
  · rw [hlimits] at hf
    exact absurd hf fails_pure
  · rw [hlimits] at hf
    rcases fails_bind.mp hf with hf | ⟨_, _, _, hf⟩
    · exact grows_of_fails_emitCode h (h.code (by rw [hlimits]; rfl)) hf
    · exact absurd hf fails_pure

/-- **A method that could not be finished** leaves nothing but some of its symbols behind. -/
theorem grows_of_fails_finish (h : m.Within R) {fault : Fault} (hf : Fails m.finish b fault c) :
    b.Grows R c := by
  -- The parts are written one after the other; it fails in one of them, and each leaves the pool
  -- grown.
  rw [finish_eq] at hf
  rcases fails_bind.mp hf with hf | ⟨name, s, hname, hf⟩
  · exact (uses_utf8 h.name).leaves hf
  refine ((uses_utf8 h.name).grows hname).trans ?_
  rcases fails_bind.mp hf with hf | ⟨descriptor, t, hdescriptor, hf⟩
  · exact (uses_utf8 h.descriptor).leaves hf
  refine ((uses_utf8 h.descriptor).grows hdescriptor).trans ?_
  rcases fails_bind.mp hf with hf | ⟨part, u, hpart, hf⟩
  · exact grows_of_fails_codePart h hf
  refine (grows_codePart h hpart).trans ?_
  have hfails := fails_get_bind.mp hf
  have hrest : Pooling.Uses R (m.finishWith name descriptor part.1 part.2) :=
    (Layout.uses_namedAttributes h.attributes).bind fun _ => (Pooling.uses_lift _).map _
  split at hfails
  · rcases fails_bind.mp hfails with hfails | ⟨_, _, hfails, _⟩
    · obtain ⟨-, rfl⟩ := fails_throw.mp hfails
      exact .refl
    · exact absurd hfails Pooling.yields_fail
  · exact hrest.leaves hfails

/-- Any symbol may be added. -/
theorem within_true (m : MethodSource) : m.Within fun _ => True where
  name := trivial
  descriptor := trivial
  attributes _ _ := trivial
  code _ := trivial
  insns _ _ _ _ _ _ := trivial
  handlers _ _ _ _ _ _ := trivial
  lines _ := trivial
  locals _ _ _ := ⟨trivial, trivial, trivial⟩
  frames _ _ _ _ _ _ _ _ := trivial
  stackMap _ := trivial

end MethodSource

end RoundingPatch.ClassFile
