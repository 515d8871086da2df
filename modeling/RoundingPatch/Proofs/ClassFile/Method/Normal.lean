import RoundingPatch.Proofs.ClassFile.Code.CodeArray
import RoundingPatch.Proofs.ClassFile.Method.Bound
/-!
# The normal form of a method

A method has the same layout and the same tables as the method with its instructions in normal form,
since labels and frames stand where they stood. A method in the form in which methods are decoded is
its own normal form.
-/

namespace RoundingPatch.ClassFile

open MethodEvent

/-- An event with its instruction in normal form. -/
def MethodEvent.normal : MethodEvent → MethodEvent
  | .insn i => .insn i.normal
  | e => e

/-- A method with its instructions in normal form. -/
def MethodSource.normal (m : MethodSource) : MethodSource :=
  { m with events := m.events.map MethodEvent.normal }

variable {events : List MethodEvent} {m : MethodSource} {pool : ConstantPool}

/-! ### Events -/

/-- Normal forms change no event but the instructions. -/
theorem filterMap_normal {α : Type} {f : MethodEvent → Option α} (h : ∀ i, f (.insn i) = none) :
    (events.map MethodEvent.normal).filterMap f = events.filterMap f := by
  rw [List.filterMap_map]
  refine List.filterMap_congr fun e _ => ?_
  cases e with
  | insn i => exact (h _).trans (h i).symm
  | _ => rfl

theorem insns_normal :
    insns (events.map MethodEvent.normal) = (insns events).map Insn.normal := by
  rw [insns, List.filterMap_map, insns, List.map_filterMap]
  refine List.filterMap_congr fun e _ => ?_
  cases e <;> rfl

theorem position_normal (l : Label) :
    position l (events.map MethodEvent.normal) = position l events := by
  induction events with
  | nil => rfl
  | cons e events ih => cases e <;> simp only [List.map_cons, MethodEvent.normal, position, ih]

theorem framesFrom_normal (n : Nat) :
    framesFrom n (events.map MethodEvent.normal) = framesFrom n events := by
  induction events generalizing n with
  | nil => rfl
  | cons e events ih => cases e <;> simp only [List.map_cons, MethodEvent.normal, framesFrom, ih]

/-! ### Methods -/

namespace MethodSource

theorem insns_normal : insns m.normal.events = (insns m.events).map Insn.normal :=
  ClassFile.insns_normal

theorem limits_normal : m.normal.limits = m.limits := by
  have hfold (found : Option (UInt16 × UInt16)) :
      (m.events.map MethodEvent.normal).foldl takeLimits found
        = m.events.foldl takeLimits found := by
    induction m.events generalizing found with
    | nil => rfl
    | cons e events ih => cases e <;> exact ih _
  exact hfold none

theorem handlers_normal : m.normal.handlers = m.handlers := filterMap_normal fun _ => rfl

theorem lines_normal : m.normal.lines = m.lines := filterMap_normal fun _ => rfl

theorem localsIn_normal (table : LocalTable) : m.normal.localsIn table = m.localsIn table :=
  filterMap_normal fun _ => rfl

theorem attributes_normal : m.normal.attributes = m.attributes := filterMap_normal fun _ => rfl

/-- Normal forms move no label. -/
theorem indexLabel_normal : indexLabel m.normal.events = indexLabel m.events := by
  funext l
  unfold indexLabel
  rw [show position l m.normal.events = _ from position_normal l]

/-- **Only the instructions change** in the normal form. -/
theorem outline_normal :
    m.normal.outline = { m.outline with insns := m.outline.insns.map Insn.normal } := by
  have hinsns : (insns m.normal.events).map (·.mapLabels (indexLabel m.events))
      = ((insns m.events).map (·.mapLabels (indexLabel m.events))).map Insn.normal := by
    rw [insns_normal, List.map_map, List.map_map]
    exact List.map_congr_left fun i _ => (Insn.normal_mapLabels _ i).symm
  unfold outline
  rw [indexLabel_normal, hinsns, limits_normal, handlers_normal, lines_normal, localsIn_normal,
    localsIn_normal, attributes_normal,
    show framesFrom 0 m.normal.events = _ from framesFrom_normal 0]
  rfl

end MethodSource

/-- `o.ReadsAs o'`: outline `o'` says what reading a method with outline `o` brings to light. The
instructions are in normal form, and the line numbers of one position keep their order. -/
structure Outline.ReadsAs (o o' : Outline) : Prop where
  rest : o' = { o with insns := o.insns.map Insn.normal, lines := o'.lines }
  lines : ∀ l : Label, o'.lines.filter (·.2 = l) = o.lines.filter (·.2 = l)

namespace MethodSource

/-- A method that is decoded is in normal form. -/
theorem Readable.normal_eq (h : m.Readable pool) : m.normal = m := by
  have hevents : m.events.map MethodEvent.normal = m.events := by
    refine (List.map_congr_left fun e he => ?_).trans (List.map_id _)
    cases e with
    | insn i =>
      exact congrArg MethodEvent.insn (h.insns i (List.mem_filterMap.mpr ⟨_, he, rfl⟩)).normal_eq
    | _ => rfl
  rw [normal, hevents]

theorem Anchored.normal (h : m.Anchored) : m.normal.Anchored := by
  have hlength : (insns m.normal.events).length = (insns m.events).length := by
    rw [insns_normal, List.length_map]
  have hposition (l : Label) : position l m.normal.events = position l m.events := position_normal l
  refine ⟨fun i hi l hl => ?_, fun p hp => ?_, fun row hrow => ?_⟩
  · rw [insns_normal] at hi
    obtain ⟨j, hj, rfl⟩ := List.mem_map.mp hi
    rw [Insn.targets_normal] at hl
    rw [hlength, hposition]
    exact h.targets j hj l hl
  · rw [show framesFrom 0 m.normal.events = _ from framesFrom_normal 0] at hp
    rw [hlength]
    exact h.frames p hp
  · rw [lines_normal] at hrow
    rw [hlength, hposition]
    exact h.lines row hrow

end MethodSource

/-! ### Layouts -/

namespace Layout

variable {layout : Layout}

theorem Places.normal (h : layout.Places m) : layout.Places m.normal where
  contiguous := h.contiguous
  length_eq := by rw [MethodSource.insns_normal, List.length_map, h.length_eq]
  size_eq := h.size_eq
  offsets_eq l := by
    rw [h.offsets_eq, show position l m.normal.events = _ from position_normal l]
  frames_eq := by
    rw [h.frames_eq, show framesFrom 0 m.normal.events = _ from framesFrom_normal 0]

theorem Binds.normal (h : layout.Binds m) : layout.Binds m.normal where
  handlers := by rw [MethodSource.handlers_normal]; exact h.handlers
  lines := by rw [MethodSource.lines_normal]; exact h.lines
  locals table := by rw [MethodSource.localsIn_normal]; exact h.locals table
  frames := h.frames
  ascending := h.ascending

/-- The tables of a method do not show in which form its instructions are. -/
theorem codeAttribute_normal (limits : UInt16 × UInt16) (code : Bytes) :
    layout.codeAttribute m.normal limits code = layout.codeAttribute m limits code := by
  unfold codeAttribute codeAttributes
  simp only [MethodSource.handlers_normal, MethodSource.lines_normal, MethodSource.localsIn_normal]

end Layout

end RoundingPatch.ClassFile
