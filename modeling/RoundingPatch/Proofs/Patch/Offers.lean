import RoundingPatch.Patch.Host
import RoundingPatch.Proofs.Patch.Survival
/-!
# Many offers

Transformers that share a state may be offered any classes in any order. Afterwards the state tells
whether a class was modified and which error came first (`makeAll_account`). A class that was
modified declares the replacement (`declares_of_modified`), so transformers with the same settings
leave it as it is, and a host with several agents for one patch defines what the first of them made
of the class (`modified_once`).
-/

namespace RoundingPatch

open ClassFile

namespace Transformer

variable {t u : Transformer} {name : String} {x y : Bytes}

/-! ### One offer -/

/-- **A class that was modified** can be read, is the target, and declares the replacement. -/
theorem declares_of_modified (h : t.outcome name x = .modified y) :
    ∃ c, ClassFile.parse y = .ok c ∧ c.name = t.settings.targetClass ∧
      c.hasMethod t.settings.replacement t.settings.descriptor = true := by
  obtain ⟨p⟩ := nonempty_patching h
  obtain ⟨more, hsound⟩ := p.exists_sound
  obtain ⟨target, copy, htarget, hcopy⟩ := Patching.exists_reads hsound
  refine ⟨p.patched more target copy, Patching.parse_eq hsound htarget hcopy, p.name_original, ?_⟩
  rw [hasMethod, method?, List.find?_isSome]
  exact ⟨p.replacement copy, List.mem_append_right _ List.mem_cons_self, isNamed_iff.mpr ⟨rfl, rfl⟩⟩

/-- Only the target class is looked at. -/
theorem outcome_of_ne (h : name ≠ t.settings.targetClass) : t.outcome name x = .notTarget :=
  if_pos h

theorem name_of_modified (h : t.outcome name x = .modified y) : name = t.settings.targetClass := by
  by_contra hname
  rw [outcome_of_ne hname] at h
  cases h

theorem outcome_of_patchClass {o : Outcome} (hname : name = t.settings.targetClass)
    (h : t.patchClass x = .ok o) : t.outcome name x = o := by
  rw [outcome, if_neg (not_not.mpr hname), h]

/-- **Nothing is patched twice**, wherever a second replacement would come from. -/
theorem outcome_of_modified (hsettings : u.settings = t.settings)
    (h : t.outcome name x = .modified y) : u.outcome name y = .alreadyPatched := by
  obtain ⟨c, hc, hname, hdeclares⟩ := declares_of_modified h
  rw [← hsettings] at hname hdeclares
  refine outcome_of_patchClass (hsettings ▸ name_of_modified h) ?_
  refine except_bind_eq_ok.mpr ⟨c, hc, ?_⟩
  rw [if_neg (not_not.mpr hname), if_pos hdeclares]
  rfl

end Transformer

/-! ### Several agents -/

/-- An agent passes a class on that its patch has nothing to do with or was applied to. -/
theorem Agent.offer_of_alreadyPatched {a : Agent} {name : String} {x : Bytes}
    (h : a.transformer.outcome name x = .alreadyPatched) : a.offer name x = (x, a) := by
  unfold Agent.offer Transformer.offer
  rw [h]
  rfl

theorem Host.define_of_alreadyPatched {host : Host} {name : String} {x : Bytes}
    (h : ∀ a ∈ host, a.transformer.outcome name x = .alreadyPatched) :
    Host.define name x host = (x, host) := by
  induction host with
  | nil => rfl
  | cons a rest ih =>
    rw [List.forall_mem_cons] at h
    rw [Host.define, Agent.offer_of_alreadyPatched h.1]
    dsimp only
    rw [ih h.2]

namespace Transformer

variable {t : Transformer} {name : String} {x y : Bytes}

/-- **A patch is applied once.** If a transformer modifies a class, then none with the same settings
modifies what came of it, and a host that offers the class to it and then to others with the same
settings defines just that. It is noted in the state of the first agent and in no other. -/
theorem modified_once (h : t.outcome name x = .modified y) :
    (∀ u : Transformer, u.settings = t.settings →
      u.outcome name y = .alreadyPatched ∧ (u.outcome name y).bytes? = none) ∧
    ∀ (state : PatchState) (others : Host), (∀ a ∈ others, a.transformer.settings = t.settings) →
      Host.define name x (⟨t, state⟩ :: others) = (y, ⟨t, state.markApplied⟩ :: others) := by
  refine ⟨fun u hu => ?_, fun state others hothers => ?_⟩
  · rw [outcome_of_modified hu h]
    exact ⟨rfl, rfl⟩
  · have hfirst : Agent.offer ⟨t, state⟩ name x = (y, ⟨t, state.markApplied⟩) := by
      unfold Agent.offer offer
      rw [h]
      rfl
    rw [Host.define, hfirst]
    dsimp only
    rw [Host.define_of_alreadyPatched fun a ha => outcome_of_modified (hothers a ha) h]

/-- In the example the second agent has no template. -/
theorem modified_once_sample :
    let bare : Transformer :=
      { sample with template := ⟨"none", .error (.templateGap (.onlyBuiltIn ""))⟩ }
    sample.outcome "T" sampleClass = .modified samplePatched ∧
      Host.define "T" sampleClass [⟨sample, {}⟩, ⟨bare, {}⟩]
        = (samplePatched, [⟨sample, { applied := true }⟩, ⟨bare, {}⟩]) := by
  refine ⟨outcome_sample, (modified_once outcome_sample).2 {} _ fun a ha => ?_⟩
  rw [List.mem_singleton.mp ha]

end Transformer

/-! ### Many offers on one state -/

/-- A class that is offered to a transformer. -/
structure Offer where
  transformer : Transformer
  className : String
  bytes : Bytes

/-- The error in a report. -/
def TransformReport.error? (r : TransformReport) : Option String :=
  r.outcome.detail?.map fun detail => s!"failed to patch {r.className}: {detail}"

namespace Offer

/-- Makes one offer. -/
def make (o : Offer) (s : PatchState) : TransformReport × PatchState :=
  o.transformer.offer s o.className o.bytes

/-- Makes offers one after the other. -/
def makeAll (s : PatchState) : List Offer → List TransformReport × PatchState
  | [] => ([], s)
  | o :: rest =>
    let (report, s) := o.make s
    let (reports, s) := makeAll s rest
    (report :: reports, s)

variable {o : Offer} {offers front back : List Offer} {s : PatchState}

/-- What the report on an offer says about it. -/
structure Faithful (o : Offer) (r : TransformReport) : Prop where
  /-- There are bytes exactly if the class was modified. -/
  bytes : r.outcome.bytes?.isSome = true ↔ ∃ y, r.outcome = .modified y
  /-- The bytes are those of the target class with the replacement in it. -/
  declares : ∀ y, r.outcome.bytes? = some y → ∃ c, ClassFile.parse y = .ok c ∧
    c.name = o.transformer.settings.targetClass ∧
    c.hasMethod o.transformer.settings.replacement o.transformer.settings.descriptor = true
  notTarget : o.className ≠ o.transformer.settings.targetClass → r.outcome = .notTarget

theorem faithful_make : o.Faithful (o.make s).1 where
  bytes := by
    rw [Option.isSome_iff_exists]
    exact exists_congr fun y => Transformer.bytes?_eq_some
  declares _ h := Transformer.declares_of_modified (Transformer.bytes?_eq_some.mp h)
  notTarget := Transformer.outcome_of_ne

/-! ### What one offer leaves of the state -/

theorem recordError_eq (s : PatchState) (detail : String) :
    (s.recordError detail).2 = { s with lastError := s.lastError.or (some detail) } := by
  obtain ⟨installed, applied, lastError⟩ := s
  cases lastError <;> rfl

theorem applied_make : (o.make s).2.applied = true ↔
    s.applied = true ∨ ∃ y, (o.make s).1.outcome = .modified y := by
  show (Transformer.note s o.className (o.make s).1.outcome).applied = true ↔ _
  cases (o.make s).1.outcome with
  | modified y => simp [Transformer.note, PatchState.markApplied]
  | rejected cause => simp [Transformer.note, recordError_eq]
  | _ => simp [Transformer.note]

theorem lastError_make : (o.make s).2.lastError = s.lastError.or (o.make s).1.error? := by
  show (Transformer.note s o.className (o.make s).1.outcome).lastError
    = s.lastError.or ((o.make s).1.outcome.detail?.map fun d =>
      s!"failed to patch {o.className}: {d}")
  cases (o.make s).1.outcome with
  | rejected cause =>
    simp only [Transformer.note, recordError_eq]
    rfl
  | _ => exact Option.or_none.symm

theorem installed_make : (o.make s).2.installed = s.installed := by
  show (Transformer.note s o.className (o.make s).1.outcome).installed = _
  cases (o.make s).1.outcome with
  | rejected cause => simp only [Transformer.note, recordError_eq]
  | _ => rfl

/-- Only a class that was modified or rejected is noted. -/
theorem state_make (hmodified : ∀ y, (o.make s).1.outcome ≠ .modified y)
    (hrejected : ∀ cause, (o.make s).1.outcome ≠ .rejected cause) : (o.make s).2 = s := by
  show Transformer.note s o.className (o.make s).1.outcome = s
  cases houtcome : (o.make s).1.outcome with
  | modified y => exact absurd houtcome (hmodified y)
  | rejected cause => exact absurd houtcome (hrejected cause)
  | _ => rfl

/-! ### What many offers leave of it -/

theorem makeAll_append : makeAll s (front ++ back)
    = ((makeAll s front).1 ++ (makeAll (makeAll s front).2 back).1,
      (makeAll (makeAll s front).2 back).2) := by
  induction front generalizing s with
  | nil => rfl
  | cons o front ih => simp only [List.cons_append, makeAll, ih]

/-- **The state tells the truth about all offers.** It says that the patch was applied if it did so
before or a class was modified. Its error is the one it had, or else the first one. Every report is
true to its offer, and offers that neither modify nor reject a class leave the state as it was. -/
theorem makeAll_account (offers : List Offer) (s : PatchState) :
    let reports := (makeAll s offers).1
    let final := (makeAll s offers).2
    List.Forall₂ Faithful offers reports ∧
      (final.applied = true ↔ s.applied = true ∨ ∃ r ∈ reports, ∃ y, r.outcome = .modified y) ∧
      final.lastError = s.lastError.or (reports.findSome? TransformReport.error?) ∧
      final.installed = s.installed ∧
      ∀ front o back, offers = front ++ o :: back →
        let before := (makeAll s front).2
        (∀ y, (o.make before).1.outcome ≠ .modified y) →
        (∀ cause, (o.make before).1.outcome ≠ .rejected cause) →
        (makeAll s (front ++ [o])).2 = before := by
  refine ⟨?_, ?_, ?_, ?_, ?_⟩
  · induction offers generalizing s with
    | nil => exact .nil
    | cons o rest ih => exact .cons (faithful_make (s := s)) (ih _)
  · induction offers generalizing s with
    | nil => simp [makeAll]
    | cons o rest ih =>
      simp only [makeAll, List.exists_mem_cons_iff]
      rw [ih, applied_make, or_assoc]
  · induction offers generalizing s with
    | nil => simp [makeAll]
    | cons o rest ih =>
      simp only [makeAll, List.findSome?_cons]
      rw [ih, lastError_make, Option.or_assoc]
      cases (o.make s).1.error? <;> rfl
  · induction offers generalizing s with
    | nil => rfl
    | cons o rest ih => exact (ih _).trans installed_make
  · rintro front o back - before hmodified hrejected
    rw [makeAll_append]
    exact state_make hmodified hrejected

end Offer

end RoundingPatch
