import Mathlib.Data.Option.Basic
import RoundingPatch.Proofs.Patch.Injection
/-!
# What it takes to patch a class

The steps of a `Patching` are all that it takes: if they go well, the class is modified
(`Transformer.modified_iff`). None of them needs a draft, so they can be taken one after the other
(`Transformer.rehearse`), which is another way to compute a patched class (`rehearse_eq_some`). It
does without the fingerprint of the pool, with which a draft makes sure of the origin of what it
copies.
-/

namespace RoundingPatch

open ClassFile ClassDraft

namespace Transformer

variable {t : Transformer} {c : ClassFile} {forwarding : Forwarding} {draft : ClassDraft}
  {x y : Bytes}

/-! ### Writing the members -/

/-- The target can be written if it can be finished. -/
theorem yields_writeMethod_target {m : Member} {s : Splice} {emitted : Emitted} {bytes : Bytes}
    {b : PoolBuilder} {verdict : Verdict}
    (hm : m.isNamed t.settings.methodName t.settings.descriptor = true)
    (hfresh : (m.name, m.descriptor) ∉ draft.methodKeys)
    (hreplay : (m.decode c.pool).replay Splice.step (t.start forwarding) = .ok s)
    (hfinish : Yields (s.source m).finish draft.pool (bytes, emitted) b)
    (hverdict : (s.decision.finish emitted).1 = .ok verdict) :
    Yields (t.writeMethod forwarding c m) draft (some verdict) { draft with
      pool := b
      methods := draft.methods.push bytes
      methodKeys := (m.name, m.descriptor) :: draft.methodKeys } := by
  rw [writeMethod_target hm]
  exact yields_map.mpr ⟨verdict, Splice.yields_writeMethod.mpr ⟨s, emitted, hreplay,
    yields_commit.mpr ⟨hfresh, bytes, b, hfinish, rfl⟩, hverdict⟩, rfl⟩

/-- Of methods with names of their own, those in front of one and those behind it have, too. -/
theorem firstRepeated_split {seen : List (String × String)}
    {before after : List Member} {m : Member}
    (h : firstRepeated seen (before ++ m :: after) = none) :
    firstRepeated seen before = none ∧
      (m.name, m.descriptor) ∉ (before.map fun m => (m.name, m.descriptor)).reverse ++ seen ∧
      firstRepeated ((m.name, m.descriptor)
        :: ((before.map fun m => (m.name, m.descriptor)).reverse ++ seen)) after = none := by
  -- Each member in front is new and is seen by those behind it.
  induction before generalizing seen with
  | nil =>
    rw [List.nil_append, firstRepeated] at h
    split at h
    · cases h
    · next hfresh => exact ⟨rfl, by simpa using hfresh, h⟩
  | cons k before ih =>
    rw [List.cons_append, firstRepeated] at h
    split at h
    · cases h
    · next hfresh =>
      obtain ⟨hbefore, hm, hafter⟩ := ih h
      refine ⟨?_, by simpa using hm, by simpa using hafter⟩
      rw [firstRepeated, if_neg hfresh]
      exact hbefore

namespace Patching

variable (p : Patching t x y)

/-- The draft once the fields and some methods are written. -/
def writtenUpTo (c : ClassFile) (methods : List Bytes) (keys : List Member) (pool : PoolBuilder) :
    ClassDraft :=
  { ofClass c with
    pool
    fields := (c.fields.map (·.raw)).toArray
    fieldKeys := (c.fields.map fun m => (m.name, m.descriptor)).reverse
    methods := methods.toArray
    methodKeys := (keys.map fun m => (m.name, m.descriptor)).reverse }

/-- **The members can be written.** -/
theorem yields_writeMembers : Yields (t.writeMembers p.forwarding p.original) (ofClass p.original)
    .modified (rewritten p.original p.before p.targetBytes p.after p.targetPool) := by
  have hdistinct := (wellRead_of_parse p.parse_original).distinct
  rw [p.methods_original] at hdistinct
  obtain ⟨hbefore, hfresh, hafter⟩ := firstRepeated_split hdistinct
  have hothers (n : Member) (hn : n ∈ p.before ∨ n ∈ p.after) :=
    p.others n (List.mem_append.mpr hn)
  -- The draft is followed through the methods in front of the target, the target and those behind
  -- it.
  let seed := PoolBuilder.ofPool p.original.pool
  let front := p.before.map (·.raw)
  have hfront : Yields (p.before.filterMapM (t.writeMethod p.forwarding p.original))
      (writtenUpTo p.original [] [] seed) [] (writtenUpTo p.original front p.before seed) := by
    refine (yields_writeMethods rfl fun n hn => hothers n (.inl hn)).mpr ⟨rfl, hbefore, ?_⟩
    simp [writtenUpTo, front]
  have htarget : Yields (t.writeMethod p.forwarding p.original p.target)
      (writtenUpTo p.original front p.before seed) (some .modified)
      (writtenUpTo p.original (front ++ [p.targetBytes]) (p.before ++ [p.target])
        p.targetPool) := by
    have h := @yields_writeMethod_target t p.original p.forwarding
      (writtenUpTo p.original front p.before seed) p.target p.splice p.targetEmitted p.targetBytes
      p.targetPool .modified p.named (by simpa [writtenUpTo] using hfresh) p.replay p.finish_target
      p.verdict
    simpa [writtenUpTo] using h
  have hback : Yields (p.after.filterMapM (t.writeMethod p.forwarding p.original))
      (writtenUpTo p.original (front ++ [p.targetBytes]) (p.before ++ [p.target]) p.targetPool) []
      (writtenUpTo p.original (front ++ p.targetBytes :: p.after.map (·.raw)) p.original.methods
        p.targetPool) := by
    refine (yields_writeMethods p.grows_target.origin fun n hn => hothers n (.inr hn)).mpr
      ⟨rfl, by simpa [writtenUpTo] using hafter, ?_⟩
    simp [writtenUpTo, p.methods_original]
  have hmethods : Yields (p.original.methods.filterMapM (t.writeMethod p.forwarding p.original))
      (withFields p.original) [.modified]
      (writtenUpTo p.original (front ++ p.targetBytes :: p.after.map (·.raw)) p.original.methods
        p.targetPool) := by
    rw [p.methods_original] at hback ⊢
    exact yields_filterMapM_append.mpr ⟨[], [.modified], _, rfl, hfront,
      yields_filterMapM_cons.mpr ⟨some .modified, [], _, rfl, htarget, hback⟩⟩
  refine yields_writeMembers_iff.mpr ⟨_, _, hmethods, rfl, ?_⟩
  simp [writtenUpTo, rewritten, ofClass, front]

/-- The replacement can be added. -/
theorem yields_addReplacement : Yields (t.addReplacement p.original)
    (rewritten p.original p.before p.targetBytes p.after p.targetPool) ()
    (patchedDraft t p.original p.before p.targetBytes p.after p.copyBytes p.copyPool) := by
  obtain ⟨bytes, hcontents, htemplate⟩ := p.parse_template
  have habsent := not_hasMethod_iff.mp p.absent
  have hfresh : (t.settings.replacement, t.settings.descriptor)
      ∉ (rewritten p.original p.before p.targetBytes p.after p.targetPool).methodKeys := by
    simpa [rewritten, Prod.ext_iff] using habsent
  have hlacks : (rewritten p.original p.before p.targetBytes p.after p.targetPool).hasMethod
      t.settings.replacement t.settings.descriptor = false := by
    simpa [ClassDraft.hasMethod] using hfresh
  refine Transformer.yields_addReplacement.mpr ⟨bytes, p.copyEmitted, hcontents,
    Transplant.yields_run.mpr ⟨p.template, p.copied, p.copiedEvents, htemplate, p.find_copied,
      hlacks, p.copy,
      yields_commit.mpr ⟨hfresh, p.copyBytes, p.copyPool, p.finish_copy, rfl⟩⟩⟩

include p

/-- The patched class can be read. -/
theorem checkReadable_eq_ok : checkReadable y = .ok () := by
  obtain ⟨more, hsound⟩ := p.exists_sound
  obtain ⟨target, _, htarget, _⟩ := exists_injected hsound
  obtain ⟨_, copy, _, hcopy⟩ := exists_reads hsound
  rw [checkReadable, parse_eq hsound htarget hcopy]

/-- **If all steps go well, the class is modified.** -/
theorem outcome_eq : t.outcome t.settings.targetClass x = .modified y := by
  have hbuild : (rewritten p.original p.before p.targetBytes p.after p.targetPool).build
      (t.addReplacement p.original) = .ok y :=
    build_eq_ok.mpr ⟨(), _, p.pool, p.yields_addReplacement, p.serialize⟩
  -- The written class is built and read again, and reading finds nothing to reject.
  have hpatch : t.patchMethod p.original p.target = .ok (.modified y) := by
    have hwrite : (t.writeMembers p.forwarding p.original).run (ofClass p.original) = _ :=
      p.yields_writeMembers
    refine except_bind_eq_ok.mpr ⟨p.forwarding, p.plan, ?_⟩
    rw [hwrite]
    exact except_bind_eq_ok.mpr ⟨y, hbuild, except_bind_eq_ok.mpr ⟨(), p.checkReadable_eq_ok, rfl⟩⟩
  have hclass : t.patchClass x = .ok (.modified y) := by
    refine except_bind_eq_ok.mpr ⟨p.original, p.parse_original, ?_⟩
    rw [if_neg (not_not.mpr p.name_original), if_neg (by simp [p.absent]), p.method?_original]
    exact hpatch
  rw [outcome, if_neg (not_not.mpr rfl), hclass]

end Patching

/-- **What it takes to modify a class**: that it is the target, and that all steps go well. -/
theorem modified_iff {name : String} : t.outcome name x = .modified y ↔
    name = t.settings.targetClass ∧ Nonempty (Patching t x y) := by
  constructor
  · intro h
    refine ⟨?_, nonempty_patching h⟩
    by_contra hname
    rw [outcome, if_pos hname] at h
    cases h
  · rintro ⟨rfl, ⟨p⟩⟩
    exact p.outcome_eq

/-! ### One step after the other -/

/-- The draft of a patched class, with the bytes of the target and of the replacement. -/
def draftWith (t : Transformer) (c : ClassFile) (target replacement : Bytes) (pool : PoolBuilder) :
    ClassDraft where
  header := c.header
  pool := pool
  fields := (c.fields.map (·.raw)).toArray
  fieldKeys := (c.fields.map fun m => (m.name, m.descriptor)).reverse
  methods := ((c.methods.map fun m =>
    if m.isNamed t.settings.methodName t.settings.descriptor then target else m.raw)
      ++ [replacement]).toArray
  methodKeys := (t.settings.replacement, t.settings.descriptor)
    :: (c.methods.map fun m => (m.name, m.descriptor)).reverse
  attributes := c.attributes.toArray

/-- A draft with the target replaced in place is the draft of the split class. -/
theorem patchedDraft_eq {before after : List Member} {m : Member} {target replacement : Bytes}
    {pool : PoolBuilder} (hsplit : c.methods = before ++ m :: after)
    (hm : m.isNamed t.settings.methodName t.settings.descriptor = true)
    (hothers : ∀ n ∈ before ++ after,
      n.isNamed t.settings.methodName t.settings.descriptor = false) :
    patchedDraft t c before target after replacement pool
      = t.draftWith c target replacement pool := by
  have hraw (ms : List Member) (hms : ∀ n ∈ ms, n ∈ before ++ after) : (ms.map fun n =>
      if n.isNamed t.settings.methodName t.settings.descriptor then target else n.raw)
      = ms.map (·.raw) :=
    List.map_congr_left fun n hn => if_neg (by simp [hothers n (hms n hn)])
  have hbefore := hraw before fun n hn => List.mem_append_left _ hn
  have hafter := hraw after fun n hn => List.mem_append_right _ hn
  simp only [patchedDraft, rewritten, draftWith, hsplit, List.map_append, List.map_cons,
    hbefore, hafter, hm, if_true, List.push_toArray]

/-- What a step comes to if it ends well. -/
def ran? {σ α : Type} (step : ExceptT Fault (StateM σ) α) (s : σ) : Option (α × σ) :=
  match step.run s with
  | (.ok a, t) => some (a, t)
  | (.error _, _) => none

theorem ran?_eq_some {σ α : Type} {step : ExceptT Fault (StateM σ) α} {s : σ} {r : α × σ} :
    ran? step s = some r ↔ Yields step s r.1 r.2 := by
  obtain ⟨a, t⟩ := r
  unfold ran? Yields
  generalize step.run s = result
  constructor
  · intro h
    split at h
    · cases h
      rfl
    · cases h
  · rintro rfl
    rfl

theorem toOption_eq_some {ε α : Type} {x : Except ε α} {a : α} :
    x.toOption = some a ↔ x = .ok a := by
  cases x <;> simp [Except.toOption]

/-- Patches the class with the given bytes, without a draft. -/
def rehearse (t : Transformer) (x : Bytes) : Option Bytes := do
  let original ← (ClassFile.parse x).toOption
  guard (original.name = t.settings.targetClass)
  guard (original.hasMethod t.settings.replacement t.settings.descriptor = false)
  let target ← original.method? t.settings.methodName t.settings.descriptor
  let forwarding ← (Forwarding.plan t.settings.targetClass t.settings.replacement target.access
    t.settings.descriptor).toOption
  let splice ← ((target.decode original.pool).replay Splice.step (t.start forwarding)).toOption
  let ((targetBytes, emitted), targetPool) ←
    ran? (splice.source target).finish (PoolBuilder.ofPool original.pool)
  guard ((splice.decision.finish emitted).1.toOption = some .modified)
  let template ← (t.template.contents.bind ClassFile.parse).toOption
  let copied ← (t.transplant.findMethod t.template.description template).toOption
  let events ← (t.transplant.events original (copied.decode template.pool)).toOption
  let ((copyBytes, _), copyPool) ← ran? (t.transplant.source copied events).finish targetPool
  let (bytes, _) ← ran? (t.draftWith original targetBytes copyBytes copyPool).serialize copyPool
  return bytes

/-- **Rehearsing goes through the steps of a patch.** -/
theorem rehearse_eq_some : t.rehearse x = some y ↔ Nonempty (Patching t x y) := by
  simp only [rehearse, Option.bind_eq_bind, Option.bind_eq_some_iff, toOption_eq_some, ran?_eq_some,
    Option.guard_eq_some', exists_const, Option.pure_def, Option.some.injEq]
  constructor
  · rintro ⟨c, hc, hname, habsent, m, hm, forwarding, hplan, splice, hreplay,
      ⟨⟨bytes, emitted⟩, pool⟩, hfinish, hverdict, template, htemplate, copied, hfind,
      events, hcopy, ⟨⟨copyBytes, copyEmitted⟩, copyPool⟩, hcopyFinish, ⟨_, last⟩, hserialize, rfl⟩
    obtain ⟨before, after, hsplit, hnamed, hothers⟩ :=
      exists_split_of_method? (wellRead_of_parse hc).distinct hm
    rw [← patchedDraft_eq hsplit hnamed hothers] at hserialize
    exact ⟨{
      original := c, before, target := m, after, forwarding, splice, targetEmitted := emitted
      targetBytes := bytes, targetPool := pool, template, copied
      copiedEvents := events, copyEmitted, copyBytes, copyPool, pool := last
      parse_original := hc, name_original := hname, absent := habsent
      methods_original := hsplit, named := hnamed, others := hothers
      plan := hplan, replay := hreplay, finish_target := hfinish, verdict := hverdict
      parse_template := except_bind_eq_ok.mp htemplate, find_copied := hfind, copy := hcopy
      finish_copy := hcopyFinish, serialize := hserialize }⟩
  · -- The stages of a patching are the steps of the rehearsal, one by one.
    rintro ⟨p⟩
    have hserialize := p.serialize
    rw [patchedDraft_eq p.methods_original p.named p.others] at hserialize
    exact ⟨p.original, p.parse_original, p.name_original, p.absent, p.target, p.method?_original,
      p.forwarding, p.plan, p.splice, p.replay, ⟨⟨_, _⟩, _⟩, p.finish_target, p.verdict, p.template,
      except_bind_eq_ok.mpr p.parse_template, p.copied, p.find_copied, p.copiedEvents, p.copy,
      ⟨⟨_, _⟩, _⟩, p.finish_copy, ⟨_, _⟩, hserialize, rfl⟩

end Transformer

end RoundingPatch
