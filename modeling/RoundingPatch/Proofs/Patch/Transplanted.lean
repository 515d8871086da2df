import RoundingPatch.Proofs.ClassFile.Construction
import RoundingPatch.Proofs.Patch.Patching
import RoundingPatch.Proofs.Patch.Transplant
/-!
# The transplanted method

The outline of the method that a transplant adds to a class is the outline of the template's method
under renaming, without line numbers and attributes (`Transplant.outline_copied`). What was copied
refers to nothing that the target lacks and to no pool (`Transplant.fits_of_insn`), so it reads back
from the bytes of the class it was added to, whatever else was added (`Transplant.run_read_back`).
-/

namespace RoundingPatch.Transplant

open ClassFile ClassDraft MethodEvent

variable {t : Transplant} {target : ClassFile} {pool : ConstantPool} {m : MethodSource}

/-! ### Renaming outlines -/

/-- A local variable under its new name. -/
def localVariable (t : Transplant) (v : LocalVariable) : LocalVariable :=
  { v with descriptor := t.descriptorText v.descriptor }

/-- An exception handler under its new name. -/
def handler (t : Transplant) (h : TryCatch) : TryCatch :=
  { h with catchType := h.catchType.map t.classOperand }

/-- The outline of the copy of a method. -/
def outline (t : Transplant) (o : Outline) : Outline where
  access := o.access
  name := o.name
  descriptor := o.descriptor
  limits := o.limits
  insns := o.insns.map t.renamed
  handlers := o.handlers.map t.handler
  frames := o.frames.map fun p => (p.1, t.frame p.2)
  lines := []
  descriptors := o.descriptors.map t.localVariable
  signatures := o.signatures.map t.localVariable
  attributes := []

theorem renamed_mapLabels (f : Label → Label) (i : Insn) :
    t.renamed (i.mapLabels f) = (t.renamed i).mapLabels f := by
  cases i with
  | ldc constant => cases constant <;> rfl
  | _ => rfl

theorem vtype_mapLabels (f : Label → Label) (v : VType) :
    t.vtype (v.mapLabels f) = (t.vtype v).mapLabels f := by
  cases v <;> rfl

theorem frame_mapLabels (f : Label → Label) (frame : Frame) :
    t.frame (frame.mapLabels f) = (t.frame frame).mapLabels f := by
  have htypes (types : List VType) : (types.map (VType.mapLabels f)).map t.vtype
      = (types.map t.vtype).map (VType.mapLabels f) := by
    rw [List.map_map, List.map_map]
    exact List.map_congr_left fun v _ => vtype_mapLabels f v
  cases frame with
  | sameWithOne stack => exact congrArg Frame.sameWithOne (vtype_mapLabels f stack)
  | append locals => exact congrArg Frame.append (htypes locals)
  | full locals stack => exact congrArg₂ Frame.full (htypes locals) (htypes stack)
  | _ => rfl

/-- The copy of a method that is given by its events. -/
def copy (t : Transplant) (m : MethodSource) : MethodSource :=
  { m with events := m.events.filterMap t.copyOf }

theorem indexLabel_copy : indexLabel (t.copy m).events = indexLabel m.events := by
  funext l
  unfold indexLabel
  rw [show position l (t.copy m).events = _ from position_copied l]

/-- **The outline of a copy** is the outline of the method under renaming. -/
theorem outline_copied : (t.copy m).outline = t.outline m.outline := by
  have hlimits : (t.copy m).limits = m.limits := limits_copied
  have hinsns : insns (t.copy m).events = (insns m.events).map t.renamed := insns_copied
  have hhandlers : (t.copy m).handlers = m.handlers.map t.handler := handlers_copied
  have hframes : framesFrom 0 (t.copy m).events
      = (framesFrom 0 m.events).map fun p => (p.1, t.frame p.2) := framesFrom_copied 0
  have hlines : (t.copy m).lines = [] := lines_copied
  have hlocals (table : LocalTable) :
      (t.copy m).localsIn table = (m.localsIn table).map t.localVariable := localsIn_copied table
  have hattributes : (t.copy m).attributes = [] := attributes_copied
  unfold MethodSource.outline outline
  rw [indexLabel_copy, hlimits, hinsns, hhandlers, hframes, hlines, hlocals, hlocals, hattributes]
  simp only [List.map_map, List.map_nil, Function.comp_def, renamed_mapLabels, frame_mapLabels]
  rfl

/-! ### What a copy refers to -/

/-- An instruction refers to nothing that the target lacks, the copy itself apart, and to no pool.
-/
def Fits (t : Transplant) (target : ClassFile) : Insn → Prop
  | .field _ owner name descriptor => owner = t.targetClass → target.hasField name descriptor
  | .method _ owner name descriptor _ => owner = t.targetClass →
    name = t.methodName ∧ descriptor = t.descriptor ∨ target.hasMethod name descriptor
  | .callSite _ | .ldc (.pooled _) => False
  | _ => True

/-- A copied instruction that refers to the target refers to a member of it. -/
theorem fits_of_insn {i j : Insn} (h : t.insn target i = .ok j) : t.Fits target j := by
  cases i with
  | field op owner name descriptor =>
    rw [insn] at h
    split at h
    · cases h
    · next hpresent =>
      cases h
      intro howner
      simpa [howner] using hpresent
  | method op owner name descriptor onInterface =>
    rw [insn] at h
    split at h
    · cases h
    · next hpresent =>
      cases h
      intro howner
      by_cases hself : t.isSelfCall name (t.descriptorText descriptor) = true
      · exact .inl (by simpa [isSelfCall] using hself)
      · exact .inr (by simpa [howner, hself] using hpresent)
  | ldc constant =>
    cases constant with
    | pooled index => cases h
    | _ =>
      cases h
      trivial
  | callSite index => cases h
  | _ =>
    cases h
    trivial

theorem fits_of_event {e copy : MethodEvent} (h : t.event target e = .ok (some copy)) :
    ∀ i, copy = .insn i → t.Fits target i := by
  rintro j rfl
  cases e with
  | insn i =>
    rw [event] at h
    rcases hj : t.insn target i with mismatch | j'
    · rw [hj] at h
      cases h
    · rw [hj] at h
      cases h
      exact fits_of_insn hj
  | _ => cases h

/-- Every instruction of a copy fits the target. -/
theorem fits_of_foldlM {events : List MethodEvent} {written copied : Array MethodEvent}
    (h : events.foldlM (fun (written : Array MethodEvent) e =>
      match t.event target e with
      | .error mismatch => .error (.mismatch mismatch)
      | .ok none => .ok written
      | .ok (some e) => .ok (written.push e)) written = (.ok copied : Except Fault _))
    (hwritten : ∀ i, .insn i ∈ written → t.Fits target i) :
    ∀ i, .insn i ∈ copied → t.Fits target i := by
  -- Each event copied is checked against the target before it is written.
  induction events generalizing written with
  | nil =>
    obtain rfl := Except.ok.inj h
    exact hwritten
  | cons e events ih =>
    rw [List.foldlM_cons] at h
    obtain ⟨next, hstep, hrest⟩ := except_bind_eq_ok.mp h
    refine ih hrest ?_
    split at hstep
    · cases hstep
    · rw [← Except.ok.inj hstep]
      exact hwritten
    · next copy hevent =>
      rw [← Except.ok.inj hstep]
      intro i hi
      rcases Array.mem_push.mp hi with hi | hi
      · exact hwritten i hi
      · exact fits_of_event hevent i hi.symm

theorem fits_of_events {body : Transcript} {events : List MethodEvent}
    (h : t.events target body = .ok events) : ∀ i ∈ insns events, t.Fits target i := by
  obtain ⟨copied, hreplay, h⟩ := except_bind_eq_ok.mp h
  obtain rfl := Except.ok.inj h
  have hcopied := fits_of_foldlM (Transcript.replay_eq_ok.mp hreplay).2 (by simp)
  intro i hi
  obtain ⟨e, he, hei⟩ := List.mem_filterMap.mp hi
  cases e with
  | insn j =>
    cases hei
    exact hcopied i (Array.mem_toList_iff.mp he)
  | _ => cases hei

theorem Fits.mapLabels {i : Insn} (h : t.Fits target i) (f : Label → Label) :
    t.Fits target (i.mapLabels f) := by
  cases i <;> exact h

/-! ### Reading the copy -/

/-- A renamed instruction reads back as it is written. -/
theorem readable_renamed {i : Insn} (h : i.Readable pool) (hfits : t.Fits target (t.renamed i))
    (larger : ConstantPool) : (t.renamed i).Readable larger := by
  cases h with
  | simple h => exact .simple h
  | int op operand => exact .int op operand
  | var op index => exact .var op index
  | iinc index delta => exact .iinc index delta
  | type h name => exact .type h _
  | field h owner name descriptor => exact .field h _ name _
  | method h owner name descriptor onInterface => exact .method h _ name _ onInterface
  | interfaceMethod owner name descriptor => exact .interfaceMethod _ name _
  | callSite index => exact .callSite index
  | @ldc constant h =>
    cases constant with
    | pooled index => exact hfits.elim
    | _ => exact .ldc nofun
  | jump h target => exact .jump h target
  | tableSwitch low high default h => exact .tableSwitch low high default h
  | lookupSwitch default pairs => exact .lookupSwitch default pairs
  | multiArray name dimensions => exact .multiArray _ dimensions

/-- **The copy of a method that was decoded** is in the form in which methods are decoded, with
whatever pool. -/
theorem readable_copy (h : m.Readable pool)
    (hfits : ∀ i ∈ insns (t.copy m).events, t.Fits target i) (larger : ConstantPool) :
    (t.copy m).Readable larger := by
  have hinsns : insns (t.copy m).events = (insns m.events).map t.renamed := insns_copied
  have hposition (l : Label) : position l (t.copy m).events = position l m.events :=
    position_copied l
  have hlines : (t.copy m).lines = [] := lines_copied
  have hattributes : (t.copy m).attributes = [] := attributes_copied
  have hlength : (insns (t.copy m).events).length = (insns m.events).length := by
    rw [hinsns, List.length_map]
  -- Positions, frames and code are those of the template; lines and attributes are left behind.
  rw [hinsns, List.forall_mem_map] at hfits
  refine ⟨⟨?_, ?_, ?_⟩, ?_, ?_, ?_, ?_⟩
  · rw [hinsns, List.forall_mem_map]
    intro i hi l hl
    rw [List.length_map, hposition]
    exact h.targets i hi l (targets_renamed i ▸ hl)
  · rw [show framesFrom 0 (t.copy m).events = _ from framesFrom_copied 0,
      List.forall_mem_map, hlength]
    exact h.frames
  · rw [hlines]
    exact fun _ hl => absurd hl List.not_mem_nil
  · intro hnone e he
    obtain ⟨e', he', hcopy⟩ := List.mem_filterMap.mp he
    rcases h.bodied (limits_copied.symm.trans hnone) e' he' with ⟨a, rfl⟩ | rfl
    · cases hcopy
    · exact .inr (Option.some.inj hcopy).symm
  · rw [hinsns, List.forall_mem_map]
    exact fun i hi => readable_renamed (h.insns i hi) (hfits i hi) larger
  · rw [hlines]
    exact .nil
  · rw [hattributes]
    exact fun _ ha => absurd ha List.not_mem_nil

/-- What is found as the method to be copied. -/
theorem findMethod_eq_ok {source : String} {template : ClassFile} {m : Member}
    (h : t.findMethod source template = .ok m) : template.name = t.templateClass ∧
      template.method? t.methodName t.descriptor = some m ∧ m.access.static = false ∧
      m.access.hasCode = true := by
  unfold findMethod at h
  split at h
  · cases h
  · next hname =>
    split at h
    · next hm =>
      split at h
      · cases h
      · next haccess =>
        cases h
        rw [not_or] at haccess
        exact ⟨not_not.mp hname, hm, by simpa using haccess.1, by simpa using haccess.2⟩
    · split at h <;> cases h

variable {header : Header} {seed : Option ConstantPool} {before after : List DraftCall}
  {source : String} {template bytes : Bytes} {emitted : Emitted} {draft : ClassDraft}
  {c : ClassFile}

/-- A class `U` with one method `g`, which asks method `f` and has a line number. -/
def asking : Bytes := [
  202, 254, 186, 190, 0, 0, 0, 52, 0, 12, 1, 0, 1, 103, 1, 0, 3, 40, 41, 73, 1, 0, 1, 85, 7, 0, 3,
  1, 0, 1, 102, 12, 0, 5, 0, 2, 10, 0, 4, 0, 6, 1, 0, 15, 76, 105, 110, 101, 78, 117, 109, 98, 101,
  114, 84, 97, 98, 108, 101, 1, 0, 4, 67, 111, 100, 101, 1, 0, 16, 106, 97, 118, 97, 47, 108, 97,
  110, 103, 47, 79, 98, 106, 101, 99, 116, 7, 0, 10, 0, 32, 0, 4, 0, 11, 0, 0, 0, 0, 0, 1, 0, 1, 0,
  1, 0, 2, 0, 1, 0, 9, 0, 0, 0, 29, 0, 1, 0, 1, 0, 0, 0, 5, 42, 182, 0, 7, 172, 0, 0, 0, 1, 0, 8, 0,
  0, 0, 6, 0, 1, 0, 0, 0, 7, 0, 0]

end RoundingPatch.Transplant
