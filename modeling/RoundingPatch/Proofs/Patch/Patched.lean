import RoundingPatch.Proofs.ClassFile.Code.Extended
import RoundingPatch.Proofs.Patch.Injection
import RoundingPatch.Proofs.Patch.Transplanted
/-!
# Patched classes in index form

`Patched t c c'` says all of a patched class `c'` that its methods can observe, in terms of the
original `c`: the target is the original one with the call put in, the other methods are decoded as
before, and behind them stands the copy of the template's method. Whatever a transformer modifies is
patched in this sense (`nonempty_patched`).
-/

namespace RoundingPatch

open ClassFile MethodEvent Read

/-- Class `c'` is class `c`, patched by `t`. -/
structure Patched (t : Transformer) (c c' : ClassFile) where
  before : List Member
  target : Member
  after : List Member
  forwarding : Forwarding
  /-- Where the call stands. -/
  position : ℕ
  target' : Member
  /-- The template, with the method that is copied, and the copy. -/
  template : ClassFile
  copied : Member
  replacement : Member
  header : c'.header = c.header
  fields : c'.fields = c.fields
  extends_pool : c'.pool.Extends c.pool
  methods : c.methods = before ++ target :: after
  methods' : c'.methods = before ++ target' :: after ++ [replacement]
  named : target.isNamed t.settings.methodName t.settings.descriptor = true
  others : ∀ m ∈ before ++ after, m.isNamed t.settings.methodName t.settings.descriptor = false
  key : (target'.name, target'.descriptor) = (target.name, target.descriptor)
  plan : Forwarding.plan t.settings.targetClass t.settings.replacement target.access
    t.settings.descriptor = .ok forwarding
  injected : Injected t.settings.patchedMode c.pool c'.pool target target' forwarding position
  /-- If the target has stack map frames, the call stands at one. -/
  framed : (target.outline c.pool).frames ≠ [] →
    ∃ frame, (position, frame) ∈ (target.outline c.pool).frames
  absent : c.hasMethod t.settings.replacement t.settings.descriptor = false
  parse_template : ∃ bytes, t.template.contents = .ok bytes ∧ ClassFile.parse bytes = .ok template
  find_copied : template.method? t.settings.replacement t.settings.descriptor = some copied
  key_replacement : (replacement.name, replacement.descriptor)
    = (t.settings.replacement, t.settings.descriptor)
  decodes_replacement : (replacement.decode c'.pool).failure = none
  outline_replacement :
    replacement.outline c'.pool = t.transplant.outline (copied.outline template.pool)

/-! ### The methods of a patched class -/

namespace Patched

variable {t : Transformer} {c c' : ClassFile} (q : Patched t c c') {name descriptor : String}

/-- A method of the class is the target or another one, and it is found in the patched class. -/
theorem find?_methods {m : Member}
    (h : c.methods.find? (fun m => (name, descriptor) == (m.name, m.descriptor)) = some m) :
    m = q.target ∧ c'.methods.find? (fun m => (name, descriptor) == (m.name, m.descriptor))
        = some q.target' ∨
      m ∈ q.before ++ q.after ∧
        c'.methods.find? (fun m => (name, descriptor) == (m.name, m.descriptor)) = some m := by
  rw [q.methods, List.find?_append] at h
  rw [q.methods', List.find?_append, List.find?_append]
  cases hbefore : q.before.find? (fun m => (name, descriptor) == (m.name, m.descriptor)) with
  | some m' =>
    rw [hbefore] at h
    obtain rfl : m' = m := Option.some.inj h
    exact .inr ⟨List.mem_append_left _ (List.mem_of_find?_eq_some hbefore), rfl⟩
  | none =>
    rw [hbefore, Option.none_or, List.find?_cons] at h
    rw [Option.none_or, List.find?_cons, q.key]
    cases htarget : (name, descriptor) == (q.target.name, q.target.descriptor) with
    | true =>
      rw [htarget] at h
      exact .inl ⟨(Option.some.inj h).symm, rfl⟩
    | false =>
      rw [htarget] at h
      dsimp only at h
      refine .inr ⟨List.mem_append_right _ (List.mem_of_find?_eq_some h), ?_⟩
      dsimp only
      rw [h]
      rfl

/-- The target of the patched class. -/
theorem find?_target : c'.methods.find? (fun m =>
    (t.settings.methodName, t.settings.descriptor) == (m.name, m.descriptor)) = some q.target' := by
  have hbefore : q.before.find? (fun m =>
      (t.settings.methodName, t.settings.descriptor) == (m.name, m.descriptor)) = none := by
    refine List.find?_eq_none.mpr fun m hm hkey => ?_
    obtain ⟨hname, hdescriptor⟩ := Prod.mk.inj (beq_iff_eq.mp hkey)
    have hother := q.others m (List.mem_append_left _ hm)
    rw [isNamed_iff.mpr ⟨hname.symm, hdescriptor.symm⟩] at hother
    cases hother
  obtain ⟨hname, hdescriptor⟩ := isNamed_iff.mp q.named
  rw [q.methods', List.append_assoc, List.find?_append, hbefore, Option.none_or, List.cons_append]
  exact List.find?_cons_of_pos (by rw [q.key, hname, hdescriptor, beq_self_eq_true])

/-- The replacement in the patched class. -/
theorem find?_replacement : c'.methods.find? (fun m =>
    (t.settings.replacement, t.settings.descriptor) == (m.name, m.descriptor))
      = some q.replacement := by
  have habsent := not_hasMethod_iff.mp q.absent
  simp only [q.methods, List.mem_append, List.mem_cons] at habsent
  have hnone : (q.before ++ q.target' :: q.after).find? (fun m =>
      (t.settings.replacement, t.settings.descriptor) == (m.name, m.descriptor)) = none := by
    refine List.find?_eq_none.mpr fun m hm hkey => ?_
    have hkey := beq_iff_eq.mp hkey
    rw [List.mem_append, List.mem_cons] at hm
    rcases hm with hm | rfl | hm
    · exact habsent m (.inl hm) hkey.symm
    · exact habsent q.target (.inr (.inl rfl)) (q.key.symm.trans hkey.symm)
    · exact habsent m (.inr (.inr hm)) hkey.symm
  rw [q.methods', List.find?_append, hnone, Option.none_or]
  exact List.find?_cons_of_pos (by rw [q.key_replacement, beq_self_eq_true])

include q in
/-- Of the methods that the class lacks, the patched class has the replacement only. -/
theorem eq_replacement_of_find?_methods {m : Member}
    (h : c.methods.find? (fun m => (name, descriptor) == (m.name, m.descriptor)) = none)
    (h' : c'.methods.find? (fun m => (name, descriptor) == (m.name, m.descriptor)) = some m) :
    name = t.settings.replacement ∧ descriptor = t.settings.descriptor := by
  have hfound := List.find?_some h'
  have hkey : (name, descriptor) = (m.name, m.descriptor) := beq_iff_eq.mp hfound
  have hmem := List.mem_of_find?_eq_some h'
  have hlacks : ∀ m ∈ c.methods, (name, descriptor) ≠ (m.name, m.descriptor) := by
    simpa only [List.find?_eq_none, beq_iff_eq] using h
  simp only [q.methods', List.append_assoc, List.cons_append, List.mem_append, List.mem_cons,
    List.not_mem_nil, or_false] at hmem
  simp only [q.methods, List.mem_append, List.mem_cons] at hlacks
  rcases hmem with hmem | rfl | hmem | rfl
  · exact absurd hkey (hlacks m (.inl hmem))
  · exact absurd (hkey.trans q.key) (hlacks q.target (.inr (.inl rfl)))
  · exact absurd hkey (hlacks m (.inr (.inr hmem)))
  · exact Prod.mk.inj (hkey.trans q.key_replacement)

include q in
theorem method?_eq_target :
    c.method? t.settings.methodName t.settings.descriptor = some q.target := by
  rw [ClassFile.method?, q.methods, List.find?_append,
    List.find?_eq_none.mpr fun m hm => by simp [q.others m (List.mem_append_left _ hm)],
    Option.none_or, List.find?_cons_of_pos q.named]

end Patched

/-! ### Modified classes are patched -/

namespace Transformer

variable {t : Transformer} {x y : Bytes}

namespace Patching

variable {p : Patching t x y} {more : Array (Option PoolEntry)}

/-- **The replacement reads back** as the copy of the template's method. -/
theorem exists_replacement (hsound : p.pool.Sound (p.original.pool.slots ++ more)) :
    ∃ attrs, Reads (readMember (p.poolWith more) "method") p.copyBytes (p.replacement attrs) ∧
      ((p.replacement attrs).decode (p.poolWith more)).failure = none ∧
      (p.replacement attrs).outline (p.poolWith more)
        = t.transplant.outline (p.copied.outline p.template.pool) := by
  obtain ⟨hdecoded, hevents⟩ := Transplant.events_eq_ok p.copy
  obtain ⟨-, hm, -⟩ := Transplant.findMethod_eq_ok p.find_copied
  obtain ⟨hname, hdescriptor⟩ := isNamed_iff.mp (List.find?_some hm)
  have hcopy : t.transplant.source p.copied p.copiedEvents
      = t.transplant.copy (p.copied.source p.template.pool) := by
    rw [Transplant.source, Transplant.copy, hevents, ← hname, ← hdescriptor]
    rfl
  have hfinish := p.finish_copy
  rw [hcopy] at hfinish
  have hfits := Transplant.fits_of_events p.copy
  rw [hevents] at hfits
  have hreadable := Transplant.readable_copy (readable_source hdecoded) hfits (p.poolWith more)
  obtain ⟨attrs, hfound, hread⟩ := MethodSource.reads_finish "method" hfinish
    (hsound.means.of_grows p.grows_serialize) fun hpart hu =>
      MethodSource.reads_codePart hreadable hpart hu hsound.get_zero
  have hkey : (⟨p.copied.access, p.copied.name, p.copied.descriptor, p.copyBytes,
      attrs ++ (t.transplant.copy (p.copied.source p.template.pool)).attributes⟩ : Member)
        = p.replacement (attrs
          ++ (t.transplant.copy (p.copied.source p.template.pool)).attributes) := by
    rw [hname, hdescriptor]
    rfl
  obtain ⟨hfailure, houtline⟩ := hfound p.copyBytes
  refine ⟨_, hkey ▸ hread, hkey ▸ hfailure, ?_⟩
  rw [← hkey]
  exact houtline.trans Transplant.outline_copied

end Patching

/-- **Whatever a transformer modifies is patched.** -/
theorem nonempty_patched {name : String} (h : t.outcome name x = .modified y) :
    ∃ c c', ClassFile.parse x = .ok c ∧ ClassFile.parse y = .ok c' ∧ Nonempty (Patched t c c') := by
  obtain ⟨p⟩ := nonempty_patching h
  obtain ⟨more, hsound⟩ := p.exists_sound
  obtain ⟨target, k, htarget, hinjected, hframed⟩ := Patching.exists_injected_framed hsound
  obtain ⟨copy, hcopy, hdecodes, houtline⟩ := Patching.exists_replacement hsound
  obtain ⟨-, hm, -⟩ := Transplant.findMethod_eq_ok p.find_copied
  exact ⟨p.original, p.patched more target copy, p.parse_original,
    Patching.parse_eq hsound htarget hcopy, ⟨{
      before := p.before, target := p.target, after := p.after, forwarding := p.forwarding
      position := k, target' := p.newTarget target, template := p.template, copied := p.copied
      replacement := p.replacement copy, header := rfl, fields := rfl
      extends_pool := p.extends_poolWith more, methods := p.methods_original, methods' := rfl
      named := p.named, others := p.others, key := rfl, plan := p.plan, injected := hinjected
      framed := hframed, absent := p.absent, parse_template := p.parse_template, find_copied := hm
      key_replacement := rfl, decodes_replacement := hdecodes, outline_replacement := houtline }⟩⟩

end Transformer

end RoundingPatch
