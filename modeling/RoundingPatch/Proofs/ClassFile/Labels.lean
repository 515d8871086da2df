import RoundingPatch.ClassFile.Code.Body
/-!
# Changing labels

`mapLabels f` replaces every label in an instruction, a frame or a row of a table by its image under
`f`. Two functions that agree on the labels that occur do the same (`mapLabels_congr`), and
replacing twice is replacing once (`mapLabels_mapLabels`). The labels that occur are `Insn.targets`,
`Frame.labels`, `TryCatch.labels` and `LocalVariable.labels`.
-/

namespace RoundingPatch.ClassFile

variable {f g : Label → Label}

/-! ### Instructions -/

namespace Insn

/-- An instruction with its labels replaced. -/
def mapLabels (f : Label → Label) : Insn → Insn
  | jump op target => jump op (f target)
  | tableSwitch low high default targets => tableSwitch low high (f default) (targets.map f)
  | lookupSwitch default pairs => lookupSwitch (f default) (pairs.map fun p => (p.1, f p.2))
  | i => i

/-- Renaming the labels of an instruction renames its targets. -/
theorem targets_mapLabels (i : Insn) : (i.mapLabels f).targets = i.targets.map f := by
  cases i <;> simp [mapLabels, targets, Function.comp_def]

theorem mapLabels_mapLabels (i : Insn) : (i.mapLabels f).mapLabels g = i.mapLabels (g ∘ f) := by
  cases i <;> simp [mapLabels, Function.comp_def]

/-- Two renamings that agree on the targets agree on the instruction. -/
theorem mapLabels_congr {i : Insn} (h : ∀ l ∈ i.targets, f l = g l) :
    i.mapLabels f = i.mapLabels g := by
  cases i with
  | jump op target => simpa [mapLabels, targets] using h
  | tableSwitch low high default targets =>
    simp only [Insn.targets, List.mem_cons, forall_eq_or_imp] at h
    simp only [mapLabels, h.1, List.map_congr_left h.2]
  | lookupSwitch default pairs =>
    simp only [Insn.targets, List.mem_cons, forall_eq_or_imp, List.mem_map,
      forall_exists_index, and_imp, forall_apply_eq_imp_iff₂] at h
    rw [mapLabels, mapLabels, h.1]
    congr 1
    exact List.map_congr_left fun p hp => by rw [h.2 p hp]
  | _ => rfl

theorem mapLabels_id (i : Insn) : i.mapLabels id = i := by
  cases i <;> simp [mapLabels]

end Insn

/-! ### Frames -/

/-- A verification type with its label replaced. -/
def VType.mapLabels (f : Label → Label) : VType → VType
  | uninitialized label => uninitialized (f label)
  | v => v

/-- The labels of a verification type. -/
def VType.labels (v : VType) : List Label :=
  Body.vtypeLabels v

theorem VType.mapLabels_mapLabels (v : VType) :
    (v.mapLabels f).mapLabels g = v.mapLabels (g ∘ f) := by
  cases v <;> rfl

theorem VType.mapLabels_congr {v : VType} (h : ∀ l ∈ v.labels, f l = g l) :
    v.mapLabels f = v.mapLabels g := by
  cases v with
  | uninitialized label => simpa [labels, Body.vtypeLabels, mapLabels] using h
  | _ => rfl

theorem VType.labels_mapLabels (v : VType) : (v.mapLabels f).labels = v.labels.map f := by
  cases v <;> rfl

namespace Frame

/-- A stack map frame with its labels replaced. -/
def mapLabels (f : Label → Label) : Frame → Frame
  | sameWithOne stack => sameWithOne (stack.mapLabels f)
  | append locals => append (locals.map (VType.mapLabels f))
  | full locals stack => full (locals.map (VType.mapLabels f)) (stack.map (VType.mapLabels f))
  | frame => frame

/-- The verification types of a stack map frame. -/
def types : Frame → List VType
  | same | chop _ => []
  | sameWithOne stack => [stack]
  | append locals => locals
  | full locals stack => locals ++ stack

/-- The labels of a stack map frame. -/
def labels (frame : Frame) : List Label :=
  frame.types.flatMap VType.labels

theorem frameLabels_eq (frame : Frame) : Body.frameLabels frame = frame.labels := by
  cases frame with
  | sameWithOne stack => exact (List.append_nil _).symm
  | full locals stack => exact List.flatMap_append.symm
  | _ => rfl

theorem mapLabels_mapLabels (frame : Frame) :
    (frame.mapLabels f).mapLabels g = frame.mapLabels (g ∘ f) := by
  cases frame <;> simp [mapLabels, VType.mapLabels_mapLabels, Function.comp_def]

theorem types_mapLabels (frame : Frame) :
    (frame.mapLabels f).types = frame.types.map (VType.mapLabels f) := by
  cases frame <;> simp [mapLabels, types]

/-- Renaming the labels of a frame renames those in its types. -/
theorem labels_mapLabels (frame : Frame) : (frame.mapLabels f).labels = frame.labels.map f := by
  rw [labels, types_mapLabels, List.flatMap_map, labels, List.map_flatMap]
  simp only [VType.labels_mapLabels]

theorem mapLabels_congr {frame : Frame} (h : ∀ l ∈ frame.labels, f l = g l) :
    frame.mapLabels f = frame.mapLabels g := by
  have htypes : ∀ v ∈ frame.types, v.mapLabels f = v.mapLabels g := fun v hv =>
    VType.mapLabels_congr fun l hl => h l (List.mem_flatMap.mpr ⟨v, hv, hl⟩)
  cases frame with
  | sameWithOne stack => simpa [types, mapLabels] using htypes
  | append locals => exact congrArg append (List.map_congr_left htypes)
  | full locals stack =>
    simp only [types, List.mem_append] at htypes
    rw [mapLabels, mapLabels, List.map_congr_left fun v hv => htypes v (.inl hv),
      List.map_congr_left fun v hv => htypes v (.inr hv)]
  | _ => rfl

end Frame

/-! ### Tables -/

/-- An exception handler with its labels replaced. -/
def TryCatch.mapLabels (f : Label → Label) (h : TryCatch) : TryCatch :=
  { h with start := f h.start, stop := f h.stop, handler := f h.handler }

/-- The labels of an exception handler. -/
def TryCatch.labels (h : TryCatch) : List Label :=
  [h.start, h.stop, h.handler]

/-- A local variable with its labels replaced. -/
def LocalVariable.mapLabels (f : Label → Label) (v : LocalVariable) : LocalVariable :=
  { v with start := f v.start, stop := f v.stop }

/-- The labels of a local variable. -/
def LocalVariable.labels (v : LocalVariable) : List Label :=
  [v.start, v.stop]

theorem TryCatch.mapLabels_mapLabels (h : TryCatch) :
    (h.mapLabels f).mapLabels g = h.mapLabels (g ∘ f) := rfl

theorem LocalVariable.mapLabels_mapLabels (v : LocalVariable) :
    (v.mapLabels f).mapLabels g = v.mapLabels (g ∘ f) := rfl

theorem TryCatch.mapLabels_congr {h : TryCatch} (hl : ∀ l ∈ h.labels, f l = g l) :
    h.mapLabels f = h.mapLabels g := by
  simp only [labels, List.mem_cons, List.not_mem_nil, or_false, forall_eq_or_imp, forall_eq] at hl
  rw [mapLabels, mapLabels, hl.1, hl.2.1, hl.2.2]

theorem LocalVariable.mapLabels_congr {v : LocalVariable} (hl : ∀ l ∈ v.labels, f l = g l) :
    v.mapLabels f = v.mapLabels g := by
  simp only [labels, List.mem_cons, List.not_mem_nil, or_false, forall_eq_or_imp, forall_eq] at hl
  rw [mapLabels, mapLabels, hl.1, hl.2]

end RoundingPatch.ClassFile
