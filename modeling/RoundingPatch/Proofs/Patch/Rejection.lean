import RoundingPatch.Proofs.ClassFile.Blameless
import RoundingPatch.Proofs.ClassFile.Upright
import RoundingPatch.Proofs.Patch.Injection
import RoundingPatch.Proofs.Patch.Transplant
/-!
# Why a class is rejected

A class can be rejected because it, the template or the room in it is not as it should be, but never
for a fault of kind `internal` (`rejected_blameless`). Both methods that are written are finishable,
as they come from methods that were decoded (`finishable_spliced`, `Transplant.finishable_copied`);
both labels of the switch have offsets by the time of the verdict (`blameless_verdict`); and a class
that was written can be read (`blameless_checkReadable`).
-/

namespace RoundingPatch

open ClassFile MethodEvent ClassDraft

/-! ### Replaying a method -/

/-- A replay is blameless if each of its steps is. -/
theorem blameless_replay {σ : Type} {step : σ → MethodEvent → Except Fault σ} {pool : ConstantPool}
    {m : Member} (h : ∀ s e, Blameless (step s e)) (start : σ) :
    Blameless ((m.decode pool).replay step start) := by
  refine (failsAs_foldlM (fun e _ s => h s e) start).bind fun answer _ => ?_
  split
  · exact failsAs_pure _
  · next hfailure => exact failsAs_error (isOfBytes_failure _ hfailure).kind

namespace Decision

variable {d : Decision} {events : List MethodEvent} {labels : CaseLabels}

theorem blameless_observe (m : Matcher) (i : Insn) : Blameless (m.observe i).1 := by
  cases i with
  | lookupSwitch default pairs => exact failsAs_error nofun
  | tableSwitch low high default targets =>
    rw [Matcher.observe]
    split
    · exact failsAs_error nofun
    · unfold Matcher.capture
      split
      · exact failsAs_error nofun
      · split <;> exact failsAs_ok _
  | _ => exact failsAs_ok _

theorem blameless_onInsn (d : Decision) (i : Insn) : Blameless (d.onInsn i).1 := by
  have hobserve := blameless_observe d.matcher i
  unfold onInsn
  split
  · next heq =>
    rw [heq] at hobserve
    exact failsAs_error (hobserve _ rfl)
  · exact failsAs_ok _

/-- A decision on a method that has not been laid out. -/
def Open (d : Decision) : Prop :=
  d.state ≠ .needed ∧ d.state ≠ .notNeeded

/-- A decision that is open for events is open behind each. -/
theorem Open.after (h : d.Open) (e : MethodEvent) : (d.after e).Open := by
  obtain ⟨hneeded, hnot⟩ := h
  cases e with
  | label l =>
    rw [Decision.after, takeInjection]
    split
    · split
      · exact ⟨by simp, by simp⟩
      · exact ⟨hneeded, hnot⟩
    · exact ⟨hneeded, hnot⟩
  | insn i =>
    rw [Decision.after, onInsn]
    split
    · exact ⟨hneeded, hnot⟩
    · dsimp only [Open]
      split
      · exact ⟨by simp, by simp⟩
      · exact ⟨by simp, by simp⟩
      · exact ⟨hneeded, hnot⟩
  | _ => exact ⟨hneeded, hnot⟩

theorem Open.foldl_after (h : d.Open) : (events.foldl Decision.after d).Open := by
  induction events generalizing d with
  | nil => exact h
  | cons e events ih => exact ih (h.after e)

/-- **A verdict is reached** if both labels have offsets by then. -/
theorem blameless_finish {emitted : Emitted} (hopen : d.Open)
    (h : ∀ labels, d.state = .patched labels → (emitted.offset? labels.patched).isSome ∧
      (emitted.offset? labels.sibling).isSome) : Blameless (d.finish emitted).1 := by
  obtain ⟨hneeded, hnot⟩ := hopen
  unfold finish
  split
  · exact failsAs_ok _
  · exact failsAs_ok _
  · exact failsAs_error nofun
  · next labels hstate =>
    obtain ⟨hpatched, hsibling⟩ := h labels hstate
    obtain ⟨p, hp⟩ := Option.isSome_iff_exists.mp hpatched
    obtain ⟨q, hq⟩ := Option.isSome_iff_exists.mp hsibling
    rw [hp, hq]
    dsimp only
    split <;> exact failsAs_ok _
  · -- An open decision never waits for its code nor has failed.
    next hstate => exact absurd hstate hneeded
  · next hstate => exact absurd hstate hnot

end Decision

/-! ### The target method -/

namespace Splice

variable {s s' : Splice} {pool : ConstantPool} {m : Member}

theorem blameless_check (s : Splice) : Blameless s.check := by
  unfold check
  split
  · exact failsAs_error nofun
  · split
    · exact failsAs_error nofun
    · exact failsAs_ok _

theorem blameless_step (s : Splice) (e : MethodEvent) : Blameless (s.step e) := by
  cases e with
  | insn i =>
    have honInsn := Decision.blameless_onInsn s.inject.payFrame.decision i
    rw [step_insn, onInsn]
    split
    · next heq =>
      rw [heq] at honInsn
      exact failsAs_error (honInsn _ rfl)
    · exact failsAs_ok _
  | done => exact (blameless_check s).bind fun _ _ => failsAs_ok _
  | _ => exact failsAs_ok _

/-- A splice that nothing has been shown to. -/
structure Fresh (s : Splice) : Prop extends Calm s where
  written : s.written = #[]
  scanning : s.decision.state = .scanning
  unseen : s.decision.matcher.switchesSeen = 0

theorem encodable_call (f : Forwarding) : ∀ i ∈ f.insns, i.Encodable := by
  have hload (t : FieldType) : Opcode.isVar t.loadOpcode = true := by
    cases t <;> rfl
  intro i hi
  simp only [Forwarding.insns, List.cons_append, List.mem_cons, List.mem_append] at hi
  rcases hi with rfl | hi | rfl | rfl | hi
  · rfl
  · obtain ⟨t, _, slot, rfl⟩ := Forwarding.exists_of_mem_loads hi
    exact hload t
  · trivial
  · trivial
  · cases hi

variable (hfresh : s.Fresh) (h : (m.decode pool).replay step s = .ok s')
include hfresh h

/-- **What a splice has written** is finishable. -/
theorem finishable_spliced : (s'.source m).Finishable := by
  obtain ⟨hdecode, hrun⟩ := Transcript.replay_eq_ok.mp h
  have hsource := finishable_source hdecode
  -- With the label taken the code was inserted there; otherwise the events are those that were
  -- read.
  by_cases hpatched : ∃ labels, s'.decision.state = .patched labels
  · obtain ⟨labels, hpatched⟩ := hpatched
    obtain ⟨-, hspliced, -, -⟩ :=
      spliced_of_replay hfresh.toCalm hfresh.written hfresh.scanning h hpatched
    obtain ⟨front, i, rest, hevents, -, hwritten⟩ := hspliced.exists_inserted
    rw [source_eq hevents] at hsource
    rw [Splice.source, hwritten]
    exact finishable_inserted hsource
      (fun j hj => ⟨encodable_call _ j hj, (Forwarding.readable_insns pool j hj).2⟩)
      (List.cons_ne_nil _ _)
  · rw [decision_of_replay hrun] at hpatched
    obtain ⟨rfl, -⟩ := passed_of_replay hfresh.toCalm
      (Decision.skips_of_not_patched (not_exists.mp hpatched)) hrun
    have hraise := MethodSource.Finishable.raise hsource s.forwarding.requiredStack
    rwa [Splice.source, passed, hfresh.written, Array.empty_append, List.toList_toArray]

/-- **Both labels have offsets** by the time of the verdict. -/
theorem blameless_verdict {b c : PoolBuilder} {bytes : Bytes} {emitted : Emitted}
    (hy : Yields (s'.source m).finish b (bytes, emitted) c) :
    Blameless (s'.decision.finish emitted).1 := by
  obtain ⟨hdecode, hrun⟩ := Transcript.replay_eq_ok.mp h
  have hopen : s.decision.Open := by
    rw [Decision.Open, hfresh.scanning]
    exact ⟨nofun, nofun⟩
  refine Decision.blameless_finish (decision_of_replay hrun ▸ hopen.foldl_after)
    fun labels hstate => ?_
  obtain ⟨-, hspliced, ⟨i, hi, hgoes⟩, -⟩ :=
    spliced_of_replay hfresh.toCalm hfresh.written hfresh.scanning h hstate
  obtain ⟨front, j, rest, hevents, -, hwritten⟩ := hspliced.exists_inserted
  have hclosed := (finishable_spliced hfresh h).closed
  have hsource : s'.source m = insertedSource m s.forwarding.requiredStack s.forwarding.insns front
      (.insn j :: rest) := by
    rw [Splice.source, hwritten]
    rfl
  have hi : i ∈ insns (s'.source m).events := by
    rw [hevents, insns_append] at hi
    rw [hsource, insertedSource, insns_inserted]
    simp only [List.mem_append] at hi ⊢
    tauto
  rw [hsource] at hy
  obtain ⟨layout, _, _, hlays, -, hoffsets⟩ :=
    MethodSource.exists_lays_of_finish (isSome_limits_insertedSource hdecode hevents) hy
  -- Both labels are targets of the switch, and the targets of what is written have offsets.
  have hoffset {l : Label} (hl : l ∈ i.targets) : (emitted.offset? l).isSome := by
    obtain ⟨n, hn⟩ := hclosed.insns i hi l hl
    rw [hsource] at hn
    rw [Emitted.offset?, hoffsets, hlays.offset_of_position hn]
    rfl
  obtain ⟨low, high, default, targets, rfl, hpatched, hsibling⟩ := hgoes.eq
  exact ⟨hoffset (List.mem_cons_of_mem _ (List.mem_of_getElem? hpatched)),
    hoffset (List.mem_cons_of_mem _ (List.mem_of_getElem? hsibling))⟩

end Splice

/-! ### The members of the class -/

namespace Transformer

variable {t : Transformer} {c : ClassFile} {forwarding : Forwarding} {draft final : ClassDraft}

theorem fresh_start : (t.start forwarding).Fresh :=
  ⟨⟨rfl, rfl⟩, rfl, rfl, rfl⟩

/-- **Writing a member is blameless**, be it copied or spliced. -/
theorem blamelessFrom_writeMethod {m : Member}
    (horigin : draft.pool.origin = some c.pool.fingerprint)
    (hfresh : (m.name, m.descriptor) ∉ draft.methodKeys) :
    BlamelessFrom (t.writeMethod forwarding c m) draft := by
  rcases hm : m.isNamed t.settings.methodName t.settings.descriptor
  · rw [writeMethod_other hm]
    have hcopy := yields_copyMethod (u := ⟨⟩).mpr ⟨horigin, hfresh, rfl⟩
    exact hcopy.blamelessFrom.bind fun _ _ _ => blamelessFrom_pure _ _
  · rw [writeMethod_target hm]
    refine BlamelessFrom.map ?_ _
    refine ((blameless_replay Splice.blameless_step _).ofExcept draft).bind fun s _ hs => ?_
    obtain ⟨hreplay, rfl⟩ := yields_ofExcept.mp hs
    refine (blamelessFrom_commit hfresh (Splice.finishable_spliced fresh_start hreplay)).bind
      fun emitted next hcommit => ?_
    obtain ⟨-, bytes, b, hfinish, -⟩ := yields_commit.mp hcommit
    exact (Splice.blameless_verdict fresh_start hreplay hfinish).ofExcept next

/-- What writing a method leaves of the draft: the pool comes from the same class, and one name and
descriptor more is taken. -/
theorem keys_of_writeMethod {m : Member} {verdict : Option Verdict}
    (hy : Yields (t.writeMethod forwarding c m) draft verdict final) :
    final.pool.origin = draft.pool.origin ∧
      final.methodKeys = (m.name, m.descriptor) :: draft.methodKeys := by
  -- A copy leaves the pool alone; a splice adds to it and keeps its origin.
  rcases hm : m.isNamed t.settings.methodName t.settings.descriptor
  · rw [writeMethod_other hm] at hy
    obtain ⟨_, _, hcopy, hy⟩ := yields_bind.mp hy
    obtain ⟨-, -, rfl⟩ := yields_copyMethod.mp hcopy
    obtain ⟨-, rfl⟩ := yields_pure.mp hy
    exact ⟨rfl, rfl⟩
  · rw [writeMethod_target hm] at hy
    obtain ⟨_, hwrite, rfl⟩ := yields_map.mp hy
    obtain ⟨s, emitted, -, hcommit, -⟩ := Splice.yields_writeMethod.mp hwrite
    obtain ⟨-, bytes, b, hfinish, rfl⟩ := yields_commit.mp hcommit
    exact ⟨(MethodSource.grows_finish (s.source m).within_true hfinish).origin, rfl⟩

/-- Writing members is blameless where no key repeats. -/
theorem blamelessFrom_writeMethods {methods : List Member}
    (horigin : draft.pool.origin = some c.pool.fingerprint)
    (hdistinct : firstRepeated draft.methodKeys methods = none) :
    BlamelessFrom (methods.filterMapM (t.writeMethod forwarding c)) draft := by
  -- Each member leaves the pool's origin and adds its key, which none behind it has.
  induction methods generalizing draft with
  | nil => exact blamelessFrom_pure _ _
  | cons m methods ih =>
    unfold firstRepeated at hdistinct
    split at hdistinct
    · cases hdistinct
    · next hfresh =>
      rw [List.filterMapM_cons]
      refine (blamelessFrom_writeMethod horigin (by simpa using hfresh)).bind fun b next hm => ?_
      obtain ⟨horigin', hkeys⟩ := keys_of_writeMethod hm
      have hrest := ih (horigin'.trans horigin) (hkeys ▸ hdistinct)
      rcases b with _ | b
      · exact hrest
      · exact hrest.bind fun _ _ _ => blamelessFrom_pure _ _

/-- A visitor that copies all but the methods is as blameless as what it does with these. -/
theorem blamelessFrom_accept {α : Type}
    {method : Member → Drafting (Option (Transcript → Drafting α))}
    (hmethods : BlamelessFrom (c.methods.filterMapM ((copier c.pool method).visit c.pool))
      (withFields c)) :
    BlamelessFrom (c.accept (copier c.pool method)) (ofClass c) := by
  have hheader (d : ClassDraft) : Yields (setHeader c.header) (ofClass c) ⟨⟩ d ↔ d = ofClass c :=
    yields_modify
  unfold accept
  refine ((hheader _).mpr rfl).blamelessFrom.bind fun _ d h => ?_
  rw [(hheader d).mp h]
  refine (yields_fields (u := ⟨⟩).mpr rfl).blamelessFrom.bind fun _ d h => ?_
  rw [yields_fields.mp h]
  refine hmethods.bind fun _ d _ => ?_
  refine (yields_addAttributes (u := ⟨⟩).mpr rfl).blamelessFrom.bind fun _ d _ => ?_
  exact (blamelessFrom_pure _ d).bind fun _ d _ => blamelessFrom_pure _ d

/-- **Writing the members** of a class that was read is blameless. -/
theorem blamelessFrom_writeMembers (hdistinct : firstRepeated [] c.methods = none) :
    BlamelessFrom (t.writeMembers forwarding c) (ofClass c) := by
  refine BlamelessFrom.bind (blamelessFrom_accept ?_) fun _ _ _ => blamelessFrom_pure _ _
  exact blamelessFrom_writeMethods rfl hdistinct

/-! ### The replacement -/

theorem ofTemplate_blameless (source : String) (fault : Fault) :
    (Transplant.ofTemplate source fault).kind ≠ .internal := by
  cases fault <;> exact nofun

/-- **The replacement is added** unless the template is at fault or there is no room. -/
theorem blamelessFrom_addReplacement (htemplate : Blameless t.template.contents) :
    BlamelessFrom (t.addReplacement c) draft := by
  refine (htemplate.ofExcept draft).bind fun bytes draft _ => BlamelessFrom.map ?_ _
  refine ((failsAs_mapError fun _ _ => ofTemplate_blameless _ _).ofExcept draft).bind
    fun template draft _ => ?_
  refine ((failsAs_mapError fun _ _ => by nofun).ofExcept draft).bind fun m draft _ => ?_
  refine blamelessFrom_get_bind ?_
  split
  · exact (blamelessFrom_throw (by nofun) draft).bind fun _ _ h => absurd h yields_throw
  · next hfree =>
    refine ((failsAs_mapError fun _ _ => ofTemplate_blameless _ _).ofExcept draft).bind
      fun events draft hcopy => ?_
    obtain ⟨hevents, rfl⟩ := yields_ofExcept.mp hcopy
    obtain ⟨hdecode, rfl⟩ := Transplant.events_eq_ok (mapError_eq_ok.mp hevents)
    refine blamelessFrom_commit (by simpa [ClassDraft.hasMethod] using hfree) ?_
    exact Transplant.finishable_copied (finishable_source hdecode)

/-! ### The class -/

/-- **A class that was written can be read.** -/
theorem blameless_checkReadable {x y : Bytes} (p : Patching t x y) :
    Blameless (checkReadable y) := by
  obtain ⟨more, hsound⟩ := p.exists_sound
  obtain ⟨target, copy, htarget, hcopy⟩ := Patching.exists_reads hsound
  rw [checkReadable, Patching.parse_eq hsound htarget hcopy]
  exact failsAs_ok _

theorem blameless_plan (owner name : String) (access : Access) (descriptor : String) :
    Blameless (Forwarding.plan owner name access descriptor) :=
  .check (by nofun) ((blameless_methodDescriptor descriptor).bind fun _ _ =>
    .check (by nofun) (failsAs_ok _))

/-- **Patching a method is blameless**, if the template's source is. -/
theorem blameless_patchMethod {x : Bytes} {m : Member} (htemplate : Blameless t.template.contents)
    (hc : ClassFile.parse x = .ok c) (hname : c.name = t.settings.targetClass)
    (habsent : c.hasMethod t.settings.replacement t.settings.descriptor = false)
    (hm : c.method? t.settings.methodName t.settings.descriptor = some m) :
    Blameless (t.patchMethod c m) := by
  have hdistinct := (wellRead_of_parse hc).distinct
  refine (blameless_plan _ _ _ _).bind fun forwarding hplan => ?_
  rcases hwrite : (t.writeMembers forwarding c).run (ofClass c) with ⟨cause | verdict, draft⟩
  · exact failsAs_error (blamelessFrom_writeMembers hdistinct cause draft hwrite)
  · cases verdict with
    | modified =>
      refine (blameless_build (blamelessFrom_addReplacement htemplate)).bind fun y hbuild => ?_
      obtain ⟨p⟩ := nonempty_patching_of_build hc hname habsent hm hplan hwrite hbuild
      exact (blameless_checkReadable p).bind fun _ _ => failsAs_ok _
    | _ => exact failsAs_ok _

theorem blameless_patchClass (htemplate : Blameless t.template.contents) (bytes : Bytes) :
    Blameless (t.patchClass bytes) := by
  refine (legible_parse bytes).blameless.bind fun c hc => ?_
  by_cases hname : c.name = t.settings.targetClass
  · rw [if_neg (not_not.mpr hname)]
    rcases habsent : c.hasMethod t.settings.replacement t.settings.descriptor with _ | _
    · rw [if_neg Bool.false_ne_true]
      split
      · exact failsAs_ok _
      · next m hm => exact blameless_patchMethod htemplate hc hname habsent hm
    · exact failsAs_ok _
  · rw [if_pos hname]
    exact (failsAs_error (by nofun)).bind fun _ h => by cases h

/-- An answer is never that the class is rejected: what is wrong with it is a fault. -/
theorem patchMethod_ne_rejected {m : Member} {cause : Fault} :
    t.patchMethod c m ≠ .ok (.rejected cause) := by
  intro h
  obtain ⟨forwarding, -, h⟩ := except_bind_eq_ok.mp h
  split at h
  · cases h
  · cases h
  · cases h
  · obtain ⟨_, -, h⟩ := except_bind_eq_ok.mp h
    obtain ⟨_, -, h⟩ := except_bind_eq_ok.mp h
    cases h

theorem patchClass_ne_rejected {bytes : Bytes} {cause : Fault} :
    t.patchClass bytes ≠ .ok (.rejected cause) := by
  intro h
  obtain ⟨c, -, h⟩ := except_bind_eq_ok.mp h
  by_cases hname : c.name = t.settings.targetClass
  · rw [if_neg (not_not.mpr hname)] at h
    split at h
    · cases h
    · split at h
      · cases h
      · exact patchMethod_ne_rejected h
  · rw [if_pos hname] at h
    cases h

/-- **No class is rejected for a fault of the library.** Whatever bytes are offered under whatever
name, and whatever bytes the template has: a class is rejected only if it, the template or the room
in it is not as it should be. -/
theorem rejected_blameless {t : Transformer} {name : String} {bytes : Bytes} {cause : Fault}
    (htemplate : ∀ fault, t.template.contents = .error fault → fault.kind ≠ .internal)
    (h : t.outcome name bytes = .rejected cause) : cause.kind ≠ .internal := by
  unfold outcome at h
  split at h
  · cases h
  · split at h
    · next outcome hpatch =>
      subst h
      exact absurd hpatch patchClass_ne_rejected
    · next hpatch =>
      cases h
      exact blameless_patchClass htemplate bytes _ hpatch

/-- The example with another name for the replacement, which the template does not have. -/
def sampleMisnamed : Transformer :=
  { sample with settings := { sample.settings with replacement := "h" } }

theorem detail?_eq_some {o : Outcome} {detail : String} :
    o.detail? = some detail ↔ ∃ cause, o = .rejected cause ∧ cause.message = detail := by
  cases o <;> simp [Outcome.detail?]

set_option maxRecDepth 20000 in
/-- In the example the target is patched before it turns out that there is no replacement. -/
theorem rejected_blameless_sampleMisnamed : ∃ cause,
    sampleMisnamed.outcome "T" sampleClass = .rejected cause ∧
      cause.message = "template unavailable: sample has no method h()I" ∧
      cause.kind ≠ .internal := by
  have hdetail : (sampleMisnamed.outcome "T" sampleClass).detail?
      = some "template unavailable: sample has no method h()I" := by decide +kernel
  obtain ⟨cause, houtcome, hmessage⟩ := detail?_eq_some.mp hdetail
  exact ⟨cause, houtcome, hmessage, rejected_blameless (fun _ h => by cases h) houtcome⟩

end Transformer

end RoundingPatch
