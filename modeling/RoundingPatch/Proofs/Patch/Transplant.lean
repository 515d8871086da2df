import RoundingPatch.Patch.Transplant
import RoundingPatch.Proofs.ClassFile.Method.Finishable
/-!
# What a transplant copies

The copy of a method has the events of the method under their new names, without line numbers and
attributes (`Transplant.events_eq_ok`). Labels, stack map frames and instructions stand where they
stood, so the copy can be finished if the method was decoded (`Transplant.finishable_copied`).
-/

namespace RoundingPatch.Transplant

open ClassFile MethodEvent

variable {t : Transplant} {target : ClassFile}

/-! ### Single events -/

/-- An instruction under its new name, whether it fits the target or not. -/
def renamed (t : Transplant) : Insn → Insn
  | .field op owner name descriptor =>
    .field op (t.classOperand owner) name (t.descriptorText descriptor)
  | .method op owner name descriptor onInterface =>
    .method op (t.classOperand owner) name (t.descriptorText descriptor) onInterface
  | .type op name => .type op (t.classOperand name)
  | .multiArray name dimensions => .multiArray (t.classOperand name) dimensions
  | .ldc (.classRef name) => .ldc (.classRef (t.classOperand name))
  | i => i

/-- An instruction that is copied is copied with its names renamed. -/
theorem insn_eq_ok {i j : Insn} (h : t.insn target i = .ok j) : j = t.renamed i := by
  cases i with
  | field op owner name descriptor =>
    rw [insn] at h
    split at h
    · cases h
    · exact (Except.ok.inj h).symm
  | method op owner name descriptor onInterface =>
    rw [insn] at h
    split at h
    · cases h
    · exact (Except.ok.inj h).symm
  | ldc constant =>
    cases constant with
    | pooled index => cases h
    | _ => exact (Except.ok.inj h).symm
  | callSite index => cases h
  | _ => exact (Except.ok.inj h).symm

theorem targets_renamed (i : Insn) : (t.renamed i).targets = i.targets := by
  unfold renamed
  split <;> rfl

theorem encodable_renamed {i : Insn} (h : i.Encodable) : (t.renamed i).Encodable := by
  unfold renamed
  split <;> exact h

/-- What an event looks like in the copy. -/
def copyOf (t : Transplant) : MethodEvent → Option MethodEvent
  | .attribute _ | .line .. => none
  | .tryCatch handler =>
    some (.tryCatch { handler with catchType := handler.catchType.map t.classOperand })
  | .frame f => some (.frame (t.frame f))
  | .insn i => some (.insn (t.renamed i))
  | .localVariable v =>
    some (.localVariable { v with descriptor := t.descriptorText v.descriptor })
  | e => some e

/-- An event that is copied is copied as renamed, or left out. -/
theorem event_eq_ok {e : MethodEvent} {copy : Option MethodEvent}
    (h : t.event target e = .ok copy) : copy = t.copyOf e := by
  cases e with
  | insn i =>
    rw [event] at h
    rcases hj : t.insn target i with mismatch | j
    · rw [hj] at h
      cases h
    · rw [hj] at h
      obtain rfl := Except.ok.inj h
      rw [insn_eq_ok hj]
      rfl
  | _ => exact (Except.ok.inj h).symm

theorem labels_vtype (v : VType) : (t.vtype v).labels = v.labels := by
  cases v <;> rfl

theorem flatMap_labels_vtype (types : List VType) :
    (types.map t.vtype).flatMap VType.labels = types.flatMap VType.labels := by
  rw [List.flatMap_map]
  exact List.flatMap_congr fun v _ => labels_vtype v

theorem labels_frame (f : Frame) : (t.frame f).labels = f.labels := by
  cases f with
  | sameWithOne stack => exact @flatMap_labels_vtype t [stack]
  | append locals => exact flatMap_labels_vtype locals
  | full locals stack =>
    have happend := @flatMap_labels_vtype t (locals ++ stack)
    rwa [List.map_append] at happend
  | _ => rfl

theorem encodable_frame {f : Frame} (h : f.Encodable) : (t.frame f).Encodable := by
  cases f with
  | append locals =>
    show 1 ≤ (locals.map t.vtype).length ∧ (locals.map t.vtype).length ≤ 3
    rw [List.length_map]
    exact h
  | _ => exact h

/-! ### All events -/

variable {events : List MethodEvent} {α : Type}

/-- **The copy** is the events that are not left out, each renamed. -/
theorem copied_of_foldlM {written copied : Array MethodEvent}
    (h : events.foldlM (fun (written : Array MethodEvent) e =>
      match t.event target e with
      | .error mismatch => .error (.mismatch mismatch)
      | .ok none => .ok written
      | .ok (some e) => .ok (written.push e)) written = (.ok copied : Except Fault _)) :
    copied.toList = written.toList ++ events.filterMap t.copyOf := by
  -- On the events still to copy; what is written stays in front.
  induction events generalizing written with
  | nil =>
    obtain rfl := Except.ok.inj h
    simp
  | cons e events ih =>
    rw [List.foldlM_cons] at h
    obtain ⟨next, hstep, hrest⟩ := except_bind_eq_ok.mp h
    rw [ih hrest, List.filterMap_cons]
    split at hstep
    · cases hstep
    · next hevent =>
      rw [← event_eq_ok hevent, Except.ok.inj hstep]
    · next copy hevent =>
      rw [← event_eq_ok hevent, ← Except.ok.inj hstep]
      simp

/-- **The events of a copy** are those of the method, each under its new name. -/
theorem events_eq_ok {body : Transcript} (h : t.events target body = .ok events) :
    body.failure = none ∧ events = body.events.filterMap t.copyOf := by
  obtain ⟨copied, hreplay, h⟩ := except_bind_eq_ok.mp h
  obtain rfl := Except.ok.inj h
  obtain ⟨hfailure, hfold⟩ := Transcript.replay_eq_ok.mp hreplay
  exact ⟨hfailure, by simpa using copied_of_foldlM hfold⟩

theorem filterMap_copyOf {f : MethodEvent → Option α} {g : α → α}
    (h : ∀ e, (t.copyOf e).bind f = (f e).map g) :
    (events.filterMap t.copyOf).filterMap f = (events.filterMap f).map g := by
  rw [List.filterMap_filterMap, List.map_filterMap]
  exact List.filterMap_congr fun e _ => h e

theorem insns_copied : insns (events.filterMap t.copyOf) = (insns events).map t.renamed :=
  filterMap_copyOf fun e => by cases e <;> rfl

theorem labels_copied : labels (events.filterMap t.copyOf) = labels events := by
  have h : labels (events.filterMap t.copyOf) = (labels events).map id :=
    filterMap_copyOf fun e => by cases e <;> rfl
  rwa [List.map_id] at h

theorem handlers_copied : handlers (events.filterMap t.copyOf)
    = (handlers events).map fun h => { h with catchType := h.catchType.map t.classOperand } :=
  filterMap_copyOf fun e => by cases e <;> rfl

theorem localsIn_copied (table : LocalTable) : localsIn table (events.filterMap t.copyOf)
    = (localsIn table events).map fun v => { v with descriptor := t.descriptorText v.descriptor } :=
  filterMap_copyOf fun e => by
    cases e with
    | localVariable v =>
      simp only [copyOf, Option.bind_some]
      split <;> rfl
    | _ => rfl

theorem lines_copied : lines (events.filterMap t.copyOf) = [] := by
  rw [lines, List.filterMap_filterMap, List.filterMap_eq_nil_iff]
  intro e _
  cases e <;> rfl

theorem attributes_copied : MethodEvent.attributes (events.filterMap t.copyOf) = [] := by
  rw [MethodEvent.attributes, List.filterMap_filterMap, List.filterMap_eq_nil_iff]
  intro e _
  cases e <;> rfl

theorem limits_copied : limits (events.filterMap t.copyOf) = limits events := by
  have hfold (found : Option (UInt16 × UInt16)) :
      (events.filterMap t.copyOf).foldl takeLimits found = events.foldl takeLimits found := by
    induction events generalizing found with
    | nil => rfl
    | cons e events ih => cases e <;> exact ih _
  exact hfold none

theorem position_copied (l : Label) :
    position l (events.filterMap t.copyOf) = position l events := by
  induction events with
  | nil => rfl
  | cons e events ih =>
    cases e <;> simp only [List.filterMap_cons, copyOf, position, ih]

theorem framesFrom_copied (n : Nat) : framesFrom n (events.filterMap t.copyOf)
    = (framesFrom n events).map fun p => (p.1, t.frame p.2) := by
  induction events generalizing n with
  | nil => rfl
  | cons e events ih =>
    cases e <;> simp only [List.filterMap_cons, copyOf, framesFrom, ih, List.map_cons]

/-- **The copy of a finishable method** is finishable. -/
theorem finishable_copied {m : MethodSource} {access : Access} {name descriptor : String}
    (h : m.Finishable) : MethodSource.Finishable
      ⟨access, name, descriptor, m.events.filterMap t.copyOf⟩ := by
  -- Renaming moves no label and changes no opcode, so what could be written still can.
  refine h.of_alike position_copied labels_copied ?_ ?_ ?_ (fun table => ?_) ?_ ?_
  · show List.Forall₂ _ (insns (m.events.filterMap t.copyOf)) _
    rw [insns_copied, List.forall₂_map_left_iff]
    exact List.forall₂_same.mpr fun i _ => ⟨targets_renamed i, encodable_renamed⟩
  · rw [MethodSource.handlers_eq, MethodSource.handlers_eq, handlers_copied,
      List.forall₂_map_left_iff]
    exact List.forall₂_same.mpr fun _ _ => rfl
  · rw [MethodSource.lines_eq, lines_copied]
    simp
  · rw [MethodSource.localsIn_eq, MethodSource.localsIn_eq, localsIn_copied,
      List.forall₂_map_left_iff]
    exact List.forall₂_same.mpr fun _ _ => rfl
  · rw [framesFrom_copied, List.forall₂_map_left_iff]
    exact List.forall₂_same.mpr fun p _ => ⟨rfl, labels_frame p.2, encodable_frame⟩
  · rw [MethodSource.limits_eq, MethodSource.limits_eq, limits_copied]
    exact id

end RoundingPatch.Transplant
