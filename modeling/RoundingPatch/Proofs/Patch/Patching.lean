import RoundingPatch.Patch.Transformer
import RoundingPatch.Proofs.ClassFile.Drafting
/-!
# How a class comes to be patched

If a transformer modifies a class, a fixed sequence of steps has gone well: the class was read and
has the target method exactly once, the call was spliced into that method, the verdict was that the
class needs the patch, the replacement was copied out of the template, and the draft was written. A
`Patching` names everything that came up on the way, and `nonempty_patching` says that there is one
for every class that was modified.
-/

namespace RoundingPatch

open ClassFile ClassDraft

/-! ### Steps of a patch -/

/-- The target method with what was written. -/
def Splice.source (s : Splice) (m : Member) : MethodSource where
  access := m.access
  name := m.name
  descriptor := m.descriptor
  events := s.written.toList

/-- The copy of method `m` of a template. -/
def Transplant.source (t : Transplant) (m : Member) (events : List MethodEvent) : MethodSource where
  access := m.access
  name := t.methodName
  descriptor := t.descriptor
  events := events

variable {draft final : ClassDraft}

/-- **The target method is written** by a replay, a commit and a verdict. -/
theorem Splice.yields_writeMethod {forwarding : Forwarding} {decision : Decision} {m : Member}
    {events : Transcript} {verdict : Verdict} :
    Yields (Splice.writeMethod forwarding decision m events) draft verdict final ↔
      ∃ s emitted, events.replay Splice.step { forwarding, decision } = .ok s ∧
        Yields (commit (s.source m)) draft emitted final ∧
        (s.decision.finish emitted).1 = .ok verdict := by
  unfold Splice.writeMethod
  constructor
  · intro h
    obtain ⟨s, _, hreplay, h⟩ := yields_bind.mp h
    obtain ⟨hs, rfl⟩ := yields_ofExcept.mp hreplay
    obtain ⟨emitted, _, hcommit, hfinish⟩ := yields_bind.mp h
    obtain ⟨hverdict, rfl⟩ := yields_ofExcept.mp hfinish
    exact ⟨s, emitted, hs, hcommit, hverdict⟩
  · rintro ⟨s, emitted, hs, hcommit, hverdict⟩
    exact (yields_ofExcept.mpr ⟨hs, rfl⟩).bind (hcommit.bind (yields_ofExcept.mpr ⟨hverdict, rfl⟩))

theorem mapError_eq_ok {ε ε' α : Type} {f : ε → ε'} {x : Except ε α} {a : α} :
    x.mapError f = .ok a ↔ x = .ok a := by
  cases x <;> simp [Except.mapError]

/-- **The replacement is copied** from a template that parses, has the method and fits the
target. -/
theorem Transplant.yields_run {t : Transplant} {target : ClassFile} {origin : String}
    {bytes : Bytes} {emitted : Emitted} :
    Yields (t.run target origin bytes) draft emitted final ↔
      ∃ template m events, ClassFile.parse bytes = .ok template ∧
        t.findMethod origin template = .ok m ∧
        draft.hasMethod t.methodName t.descriptor = false ∧
        t.events target (m.decode template.pool) = .ok events ∧
        Yields (commit (t.source m events)) draft emitted final := by
  unfold Transplant.run
  constructor
  · intro h
    obtain ⟨template, _, hparse, h⟩ := yields_bind.mp h
    obtain ⟨htemplate, rfl⟩ := yields_ofExcept.mp hparse
    obtain ⟨m, _, hfind, h⟩ := yields_bind.mp h
    obtain ⟨hm, rfl⟩ := yields_ofExcept.mp hfind
    rw [yields_get_bind] at h
    by_cases hfresh : draft.hasMethod t.methodName t.descriptor = true
    · rw [if_pos hfresh] at h
      exact absurd h yields_throw_bind
    · rw [if_neg hfresh] at h
      obtain ⟨events, _, hcopy, h⟩ := yields_bind.mp h
      obtain ⟨hevents, rfl⟩ := yields_ofExcept.mp hcopy
      exact ⟨template, m, events, mapError_eq_ok.mp htemplate, mapError_eq_ok.mp hm,
        by simpa using hfresh, mapError_eq_ok.mp hevents, h⟩
  · rintro ⟨template, m, events, htemplate, hm, hfresh, hevents, hcommit⟩
    refine (yields_ofExcept.mpr ⟨mapError_eq_ok.mpr htemplate, rfl⟩).bind
      ((yields_ofExcept.mpr ⟨mapError_eq_ok.mpr hm, rfl⟩).bind ?_)
    rw [yields_get_bind, if_neg (by simp [hfresh])]
    exact (yields_ofExcept.mpr ⟨mapError_eq_ok.mpr hevents, rfl⟩).bind hcommit

namespace Transformer

variable {t : Transformer} {c : ClassFile} {forwarding : Forwarding}

/-- What the transformer copies from its template. -/
def transplant (t : Transformer) : Transplant where
  templateClass := t.settings.templateClass
  targetClass := t.settings.targetClass
  methodName := t.settings.replacement
  descriptor := t.settings.descriptor

/-- Where the decision on a method starts. -/
def start (t : Transformer) (forwarding : Forwarding) : Splice where
  forwarding := forwarding
  decision := Decision.start t.settings.patchedMode t.settings.siblingMode

/-- What becomes of one method. -/
def writeMethod (t : Transformer) (forwarding : Forwarding) (c : ClassFile) :
    Member → Drafting (Option Verdict) :=
  (t.rewriter forwarding c.pool).visit c.pool

/-- The target gets its new form. -/
theorem writeMethod_target {m : Member}
    (hm : m.isNamed t.settings.methodName t.settings.descriptor = true) :
    t.writeMethod forwarding c m = some <$>
      Splice.writeMethod forwarding (t.start forwarding).decision m (m.decode c.pool) :=
  visit_copier_take (if_pos hm)

/-- Another method is copied. -/
theorem writeMethod_other {m : Member}
    (hm : m.isNamed t.settings.methodName t.settings.descriptor = false) :
    t.writeMethod forwarding c m = (do
      copyMethod c.pool m
      return none) :=
  visit_copier_pass (if_neg (by simp [hm]))

/-- Methods that are not the target can be copied exactly if they have names of their own. -/
theorem yields_writeMethods {methods : List Member} {verdicts : List Verdict}
    (horigin : draft.pool.origin = some c.pool.fingerprint)
    (h : ∀ m ∈ methods, m.isNamed t.settings.methodName t.settings.descriptor = false) :
    Yields (methods.filterMapM (t.writeMethod forwarding c)) draft verdicts final ↔
      verdicts = [] ∧ firstRepeated draft.methodKeys methods = none ∧ final = { draft with
        methods := draft.methods ++ (methods.map (·.raw)).toArray
        methodKeys := (methods.map fun m => (m.name, m.descriptor)).reverse ++ draft.methodKeys } :=
  yields_copyMethods horigin fun m hm => if_neg (by simp [h m hm])

/-- Writing the members comes to a verdict through the methods alone. -/
theorem yields_writeMembers_iff {verdict : Verdict} :
    Yields (t.writeMembers forwarding c) (ofClass c) verdict final ↔ ∃ verdicts d,
      Yields (c.methods.filterMapM (t.writeMethod forwarding c)) (withFields c) verdicts d ∧
      verdicts.getLastD .unmatched = verdict ∧
      final = { d with attributes := d.attributes ++ c.attributes.toArray } := by
  have hmembers : t.writeMembers forwarding c =
      (fun verdicts => verdicts.getLastD .unmatched) <$> c.accept
        (t.rewriter forwarding c.pool) := by
    rw [writeMembers, map_eq_pure_bind]
  rw [hmembers, yields_map]
  simp only [rewriter, yields_accept]
  constructor
  · rintro ⟨verdicts, ⟨d, hmethods, rfl⟩, hverdict⟩
    exact ⟨verdicts, d, hmethods, hverdict, rfl⟩
  · rintro ⟨verdicts, d, hmethods, hverdict, rfl⟩
    exact ⟨verdicts, ⟨d, hmethods, rfl⟩, hverdict⟩

/-- The draft of a class once its methods are written, with `bytes` for the target. -/
def rewritten (c : ClassFile) (before : List Member) (bytes : Bytes) (after : List Member)
    (pool : PoolBuilder) : ClassDraft where
  header := c.header
  pool := pool
  fields := (c.fields.map (·.raw)).toArray
  fieldKeys := (c.fields.map fun m => (m.name, m.descriptor)).reverse
  methods := (before.map (·.raw) ++ bytes :: after.map (·.raw)).toArray
  methodKeys := (c.methods.map fun m => (m.name, m.descriptor)).reverse
  attributes := c.attributes.toArray

/-- **What writing the members takes**, in a class that has the target once. -/
theorem exists_of_yields_writeMembers {before after : List Member} {m : Member}
    {verdict : Verdict} (hsplit : c.methods = before ++ m :: after)
    (hm : m.isNamed t.settings.methodName t.settings.descriptor = true)
    (hothers : ∀ n ∈ before ++ after, n.isNamed t.settings.methodName t.settings.descriptor = false)
    (hy : Yields (t.writeMembers forwarding c) (ofClass c) verdict final) :
    ∃ s emitted bytes b, (m.decode c.pool).replay Splice.step (t.start forwarding) = .ok s ∧
      Yields (s.source m).finish (PoolBuilder.ofPool c.pool) (bytes, emitted) b ∧
      (s.decision.finish emitted).1 = .ok verdict ∧ final = rewritten c before bytes after b := by
  obtain ⟨verdicts, d, hmethods, hverdict, rfl⟩ := yields_writeMembers_iff.mp hy
  rw [hsplit] at hmethods
  -- The members before the target are copied, the target is spliced, and those behind it are
  -- copied.
  obtain ⟨before', rest, d4, rfl, hbefore, hmethods⟩ := yields_filterMapM_append.mp hmethods
  obtain ⟨rfl, -, rfl⟩ := (yields_writeMethods rfl
    fun n hn => hothers n (List.mem_append_left _ hn)).mp hbefore
  obtain ⟨found, after', d5, rfl, hwrite, hafter⟩ := yields_filterMapM_cons.mp hmethods
  rw [writeMethod_target hm] at hwrite
  obtain ⟨v, hsplice, rfl⟩ := yields_map.mp hwrite
  obtain ⟨s, emitted, hreplay, hcommit, hfinish⟩ := Splice.yields_writeMethod.mp hsplice
  obtain ⟨-, bytes, b, hbytes, rfl⟩ := yields_commit.mp hcommit
  obtain ⟨rfl, -, rfl⟩ := (yields_writeMethods
    ((MethodSource.grows_finish (s.source m).within_true hbytes).origin.trans rfl)
    fun n hn => hothers n (List.mem_append_right _ hn)).mp hafter
  refine ⟨s, emitted, bytes, b, hreplay, hbytes, ?_, ?_⟩
  · rw [hfinish, ← hverdict]
    rfl
  · simp [rewritten, withFields, ofClass, hsplit, Splice.source]

/-! ### Whole patches -/

/-- The draft of a patched class: the replacement stands behind all other methods. -/
def patchedDraft (t : Transformer) (c : ClassFile) (before : List Member) (bytes : Bytes)
    (after : List Member) (replacement : Bytes) (pool : PoolBuilder) : ClassDraft :=
  let draft := rewritten c before bytes after pool
  { draft with
    methods := draft.methods.push replacement
    methodKeys := (t.settings.replacement, t.settings.descriptor) :: draft.methodKeys }

/-- How a class with bytes `x` was patched and became one with bytes `y`. -/
structure Patching (t : Transformer) (x y : Bytes) where
  /-- The class, with the methods before and after the target. -/
  original : ClassFile
  before : List Member
  target : Member
  after : List Member
  forwarding : Forwarding
  /-- The target with the call in it, with what it was laid out as. -/
  splice : Splice
  targetEmitted : Emitted
  targetBytes : Bytes
  targetPool : PoolBuilder
  /-- The template, with the method that is copied and the events of the copy. -/
  template : ClassFile
  copied : Member
  copiedEvents : List MethodEvent
  copyEmitted : Emitted
  copyBytes : Bytes
  copyPool : PoolBuilder
  /-- The pool that is written. -/
  pool : PoolBuilder
  parse_original : ClassFile.parse x = .ok original
  name_original : original.name = t.settings.targetClass
  absent : original.hasMethod t.settings.replacement t.settings.descriptor = false
  methods_original : original.methods = before ++ target :: after
  named : target.isNamed t.settings.methodName t.settings.descriptor = true
  others : ∀ m ∈ before ++ after, m.isNamed t.settings.methodName t.settings.descriptor = false
  plan : Forwarding.plan t.settings.targetClass t.settings.replacement target.access
    t.settings.descriptor = .ok forwarding
  replay : (target.decode original.pool).replay Splice.step (t.start forwarding) = .ok splice
  finish_target : Yields (splice.source target).finish (PoolBuilder.ofPool original.pool)
    (targetBytes, targetEmitted) targetPool
  verdict : (splice.decision.finish targetEmitted).1 = .ok .modified
  parse_template : ∃ bytes, t.template.contents = .ok bytes ∧ ClassFile.parse bytes = .ok template
  find_copied : t.transplant.findMethod t.template.description template = .ok copied
  copy : t.transplant.events original (copied.decode template.pool) = .ok copiedEvents
  finish_copy : Yields (t.transplant.source copied copiedEvents).finish targetPool
    (copyBytes, copyEmitted) copyPool
  serialize : Yields
    (patchedDraft t original before targetBytes after copyBytes copyPool).serialize copyPool y pool

/-- Adding the replacement copies it from the template's bytes. -/
theorem yields_addReplacement {u : Unit} : Yields (t.addReplacement c) draft u final ↔
    ∃ bytes emitted, t.template.contents = .ok bytes ∧
      Yields (t.transplant.run c t.template.description bytes) draft emitted final := by
  unfold addReplacement
  constructor
  · intro h
    obtain ⟨bytes, _, hcontents, hrun⟩ := yields_bind.mp h
    obtain ⟨hbytes, rfl⟩ := yields_ofExcept.mp hcontents
    obtain ⟨emitted, hrun, -⟩ := yields_map.mp hrun
    exact ⟨bytes, emitted, hbytes, hrun⟩
  · rintro ⟨bytes, emitted, hbytes, hrun⟩
    exact (yields_ofExcept.mpr ⟨hbytes, rfl⟩).bind (yields_map.mpr ⟨emitted, hrun, rfl⟩)

/-- **What writing a patched class takes.** -/
theorem nonempty_patching_of_build {x y : Bytes} {m : Member} {draft : ClassDraft}
    (hc : ClassFile.parse x = .ok c) (hname : c.name = t.settings.targetClass)
    (habsent : c.hasMethod t.settings.replacement t.settings.descriptor = false)
    (hm : c.method? t.settings.methodName t.settings.descriptor = some m)
    (hplan : Forwarding.plan t.settings.targetClass t.settings.replacement m.access
      t.settings.descriptor = .ok forwarding)
    (hwrite : Yields (t.writeMembers forwarding c) (ofClass c) .modified draft)
    (hbuild : draft.build (t.addReplacement c) = .ok y) : Nonempty (Patching t x y) := by
  obtain ⟨before, after, hsplit, hnamed, hothers⟩ :=
    exists_split_of_method? (wellRead_of_parse hc).distinct hm
  obtain ⟨s, emitted, bytes, b, hreplay, hfinish, hverdict, rfl⟩ :=
    exists_of_yields_writeMembers hsplit hnamed hothers hwrite
  obtain ⟨_, final, last, hadd, hserialize⟩ := build_eq_ok.mp hbuild
  -- What the build appends is the copy, behind everything the writer kept.
  obtain ⟨contents, copyEmitted, hcontents, hrun⟩ := yields_addReplacement.mp hadd
  obtain ⟨template, copied, events, htemplate, hfind, -, hcopy, hcommit⟩ :=
    Transplant.yields_run.mp hrun
  obtain ⟨-, copyBytes, copyPool, hcopyFinish, rfl⟩ := yields_commit.mp hcommit
  exact ⟨{
    original := c, before, target := m, after, forwarding, splice := s, targetEmitted := emitted
    targetBytes := bytes, targetPool := b, template, copied, copiedEvents := events, copyEmitted
    copyBytes, copyPool, pool := last, parse_original := hc, name_original := hname
    absent := habsent, methods_original := hsplit, named := hnamed, others := hothers
    plan := hplan, replay := hreplay, finish_target := hfinish, verdict := hverdict
    parse_template := ⟨contents, hcontents, htemplate⟩, find_copied := hfind, copy := hcopy
    finish_copy := hcopyFinish, serialize := hserialize }⟩

/-- An outcome that is neither an error nor about another class is what becomes of the target class.
-/
theorem patchClass_of_outcome {name : String} {x : Bytes} {o : Outcome} (h : t.outcome name x = o)
    (hname : o ≠ .notTarget) (hrejected : ∀ cause, o ≠ .rejected cause) :
    t.patchClass x = .ok o := by
  unfold outcome at h
  split at h
  · exact absurd h.symm hname
  · split at h
    · next hpatch => rw [hpatch, h]
    · next cause _ => exact absurd h.symm (hrejected cause)

/-- **What becomes of the target class**: it has the replacement already, or it lacks the method, or
its method decides. -/
theorem exists_of_patchClass {x : Bytes} {o : Outcome} (h : t.patchClass x = .ok o) :
    ∃ c, ClassFile.parse x = .ok c ∧ c.name = t.settings.targetClass ∧
      (c.hasMethod t.settings.replacement t.settings.descriptor = true ∧ o = .alreadyPatched ∨
        c.hasMethod t.settings.replacement t.settings.descriptor = false ∧
          (c.method? t.settings.methodName t.settings.descriptor = none ∧ o = .unmatched ∨
            ∃ m, c.method? t.settings.methodName t.settings.descriptor = some m ∧
              t.patchMethod c m = .ok o)) := by
  unfold patchClass at h
  obtain ⟨c, hc, h⟩ := except_bind_eq_ok.mp h
  by_cases hname : c.name = t.settings.targetClass
  · rw [if_neg (not_not.mpr hname)] at h
    refine ⟨c, hc, hname, ?_⟩
    by_cases habsent : c.hasMethod t.settings.replacement t.settings.descriptor = true
    · rw [if_pos habsent] at h
      cases h
      exact .inl ⟨habsent, rfl⟩
    · rw [if_neg habsent] at h
      refine .inr ⟨by simpa using habsent, ?_⟩
      rcases hm : c.method? t.settings.methodName t.settings.descriptor with _ | m
      · rw [hm] at h
        cases h
        exact .inl ⟨rfl, rfl⟩
      · rw [hm] at h
        exact .inr ⟨m, rfl, h⟩
  · rw [if_pos hname] at h
    cases h

/-- **What becomes of a class by its method**: the verdict once it is written says it. -/
theorem exists_of_patchMethod {m : Member} {o : Outcome} (h : t.patchMethod c m = .ok o) :
    ∃ forwarding verdict draft,
      Forwarding.plan t.settings.targetClass t.settings.replacement m.access t.settings.descriptor
        = .ok forwarding ∧
      Yields (t.writeMembers forwarding c) (ofClass c) verdict draft ∧
      match verdict with
      | .alreadyFixed => o = .alreadyFixed
      | .unmatched => o = .unmatched
      | .modified => ∃ y, draft.build (t.addReplacement c) = .ok y ∧ o = .modified y := by
  unfold patchMethod at h
  obtain ⟨forwarding, hplan, h⟩ := except_bind_eq_ok.mp h
  split at h
  · cases h
  · next hrun =>
    cases h
    exact ⟨forwarding, _, _, hplan, hrun, rfl⟩
  · next hrun =>
    cases h
    exact ⟨forwarding, _, _, hplan, hrun, rfl⟩
  · next hrun =>
    obtain ⟨bytes, hbuild, h⟩ := except_bind_eq_ok.mp h
    obtain ⟨_, hcheck, h⟩ := except_bind_eq_ok.mp h
    cases h
    exact ⟨forwarding, _, _, hplan, hrun, bytes, hbuild, rfl⟩

/-- **Every class that was modified was patched.** -/
theorem nonempty_patching {name : String} {x y : Bytes} (h : t.outcome name x = .modified y) :
    Nonempty (Patching t x y) := by
  obtain ⟨c, hc, hname, ⟨-, h⟩ | ⟨habsent, ⟨-, h⟩ | ⟨m, hm, h⟩⟩⟩ :=
    exists_of_patchClass (patchClass_of_outcome h nofun nofun)
  · cases h
  · cases h
  · obtain ⟨forwarding, verdict, draft, hplan, hwrite, h⟩ := exists_of_patchMethod h
    cases verdict with
    | modified =>
      obtain ⟨bytes, hbuild, h⟩ := h
      cases h
      exact nonempty_patching_of_build hc hname habsent hm hplan hwrite hbuild
    | _ => cases h

/-! ### An example -/

/-- A class `T` with one method `f`, a switch over two cases. The first case has a line number. -/
def sampleClass : Bytes := [
  202, 254, 186, 190, 0, 0, 0, 52, 0, 7, 1, 0, 1, 102, 1, 0, 3, 40, 41, 73, 1, 0, 15, 76, 105, 110,
  101, 78, 117, 109, 98, 101, 114, 84, 97, 98, 108, 101, 1, 0, 4, 67, 111, 100, 101, 1, 0, 1, 84, 7,
  0, 5, 0, 0, 0, 6, 0, 0, 0, 0, 0, 0, 0, 1, 0, 0, 0, 1, 0, 2, 0, 1, 0, 4, 0, 0, 0, 52, 0, 1, 0, 1,
  0, 0, 0, 28, 3, 170, 0, 0, 0, 0, 0, 25, 0, 0, 0, 0, 0, 0, 0, 1, 0, 0, 0, 23, 0, 0, 0, 25, 3, 172,
  4, 172, 0, 0, 0, 1, 0, 3, 0, 0, 0, 6, 0, 1, 0, 24, 0, 7, 0, 0]

/-- A class `U` with one method `g`, which answers 1. -/
def sampleTemplate : Bytes := [
  202, 254, 186, 190, 0, 0, 0, 52, 0, 6, 1, 0, 1, 103, 1, 0, 3, 40, 41, 73, 1, 0, 4, 67, 111, 100,
  101, 1, 0, 1, 85, 7, 0, 4, 0, 0, 0, 5, 0, 0, 0, 0, 0, 0, 0, 1, 0, 0, 0, 1, 0, 2, 0, 1, 0, 3, 0, 0,
  0, 14, 0, 1, 0, 1, 0, 0, 0, 2, 4, 172, 0, 0, 0, 0, 0, 0]

/-- The patch that sends the first case of `f` in class `T` to `g` from class `U`. -/
def sample : Transformer where
  settings := {
    targetClass := "T", methodName := "f", descriptor := "()I", replacement := "g"
    templateClass := "U", patchedMode := .up, siblingMode := .down }
  template := { description := "sample", contents := .ok sampleTemplate }

/-- Class `T` with the first case of `f` sent to `g`. -/
def samplePatched : Bytes := [
  202, 254, 186, 190, 0, 0, 0, 52, 0, 10, 1, 0, 1, 102, 1, 0, 3, 40, 41, 73, 1, 0, 15, 76, 105, 110,
  101, 78, 117, 109, 98, 101, 114, 84, 97, 98, 108, 101, 1, 0, 4, 67, 111, 100, 101, 1, 0, 1, 84, 7,
  0, 5, 1, 0, 1, 103, 12, 0, 7, 0, 2, 10, 0, 6, 0, 8, 0, 0, 0, 6, 0, 0, 0, 0, 0, 0, 0, 2, 0, 0, 0,
  1, 0, 2, 0, 1, 0, 4, 0, 0, 0, 57, 0, 1, 0, 1, 0, 0, 0, 33, 3, 170, 0, 0, 0, 0, 0, 30, 0, 0, 0, 0,
  0, 0, 0, 1, 0, 0, 0, 23, 0, 0, 0, 30, 42, 182, 0, 9, 172, 3, 172, 4, 172, 0, 0, 0, 1, 0, 3, 0, 0,
  0, 6, 0, 1, 0, 24, 0, 7, 0, 0, 0, 7, 0, 2, 0, 1, 0, 4, 0, 0, 0, 14, 0, 1, 0, 1, 0, 0, 0, 2, 4,
  172, 0, 0, 0, 0, 0, 0]

theorem bytes?_eq_some {o : Outcome} {y : Bytes} : o.bytes? = some y ↔ o = .modified y := by
  cases o <;> simp [Outcome.bytes?]

set_option maxRecDepth 20000 in
theorem outcome_sample : sample.outcome "T" sampleClass = .modified samplePatched :=
  bytes?_eq_some.mp (by decide +kernel)

end Transformer

end RoundingPatch
