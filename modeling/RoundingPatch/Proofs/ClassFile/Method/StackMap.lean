import RoundingPatch.Proofs.ClassFile.Method.Insertion
/-!
# What stack map frames say

Most stack map frames only say what has changed since the frame before them, so what is known at an
instruction comes from all frames up to it: `inForce entry frames n` expands them, from what is
known on entry. Instructions put into a method leave that as it is at every frame, up to labels
(`inForce_insertFrames_of_le`, `inForce_insertFrames_of_mem`), but for the instruction right behind
them: there the locals stay and the operand stack is empty (`inForce_insertFrames_behind`).
-/

namespace RoundingPatch.ClassFile

open MethodEvent

/-- What is known at an instruction about the local variables and the operand stack, the top of
which comes last. -/
structure FrameState where
  locals : List VType
  stack : List VType
  deriving DecidableEq

/-- The places a value takes on the operand stack. -/
def VType.slots : VType → Nat
  | double | long => 2
  | _ => 1

/-- What a value of a field type is known to be. -/
def FieldType.vtype : FieldType → VType
  | byte | char | int | short | boolean => .integer
  | float => .float
  | long => .long
  | double => .double
  | object name => .object name
  | array element => .object (array element).text

/-- What is known of the receiver at the first instruction of a method of class `owner`. -/
def Member.receiver (m : Member) (owner : String) : List VType :=
  if m.access.static then []
  else if m.name = "<init>" then [.uninitializedThis]
  else [.object owner]

/-- What is known at the first instruction of a method of class `owner` that takes `params`. -/
def Member.entryState (m : Member) (owner : String) (params : List FieldType) : FrameState where
  locals := m.receiver owner ++ params.map FieldType.vtype
  stack := []

/-- What is known at a frame, from what was known at the frame before it. -/
def Frame.apply (s : FrameState) : Frame → FrameState
  | same => ⟨s.locals, []⟩
  | sameWithOne v => ⟨s.locals, [v]⟩
  | chop count => ⟨s.locals.take (s.locals.length - count.toNat), []⟩
  | append locals => ⟨s.locals ++ locals, []⟩
  | full locals stack => ⟨locals, stack⟩

/-- What is known behind some frames. -/
def expand (s : FrameState) (frames : List (Nat × Frame)) : FrameState :=
  frames.foldl (fun s p => p.2.apply s) s

/-- What is known at instruction `n`, from the frames up to there. -/
def inForce (entry : FrameState) (frames : List (Nat × Frame)) (n : Nat) : FrameState :=
  expand entry (frames.filter (·.1 ≤ n))

namespace FrameState

/-- What is known, with its labels replaced. -/
def mapLabels (f : Label → Label) (s : FrameState) : FrameState where
  locals := s.locals.map (VType.mapLabels f)
  stack := s.stack.map (VType.mapLabels f)

/-- The depth of the operand stack. -/
def depth (s : FrameState) : Nat :=
  (s.stack.map VType.slots).sum

/-- The labels of the instances that are still to be initialized. -/
def labels (s : FrameState) : List Label :=
  (s.locals ++ s.stack).flatMap VType.labels

end FrameState

/-! ### Labels -/

section Labels

variable {f g : Label → Label} {s : FrameState}

theorem VType.mapLabels_eq_iff {v : VType} :
    v.mapLabels f = v.mapLabels g ↔ ∀ l ∈ v.labels, f l = g l := by
  refine ⟨fun h => ?_, VType.mapLabels_congr⟩
  cases v with
  | uninitialized label => simpa [mapLabels, labels, Body.vtypeLabels] using h
  | _ => simp [labels, Body.vtypeLabels]

/-- Two renamings of a state agree if they agree on its labels. -/
theorem FrameState.mapLabels_eq_iff :
    s.mapLabels f = s.mapLabels g ↔ ∀ l ∈ s.labels, f l = g l := by
  simp only [mapLabels, mk.injEq, List.map_inj_left, VType.mapLabels_eq_iff, labels,
    List.mem_flatMap, List.mem_append]
  constructor
  · rintro ⟨hlocals, hstack⟩ l ⟨v, hv | hv, hl⟩
    · exact hlocals v hv l hl
    · exact hstack v hv l hl
  · exact fun h => ⟨fun v hv l hl => h l ⟨v, .inl hv, hl⟩, fun v hv l hl => h l ⟨v, .inr hv, hl⟩⟩

theorem FrameState.mapLabels_id : s.mapLabels id = s := by
  have hid : VType.mapLabels id = id := by
    funext v
    cases v <;> rfl
  simp [mapLabels, hid]

/-- Where a method starts, only the receiver can wait for its constructor. -/
theorem labels_entryState (m : Member) (owner : String) (params : List FieldType) :
    (m.entryState owner params).labels = [] := by
  rw [FrameState.labels, List.flatMap_eq_nil_iff]
  intro v hv
  rw [Member.entryState, List.append_nil, List.mem_append, List.mem_map] at hv
  rcases hv with hv | ⟨t, _, rfl⟩
  · unfold Member.receiver at hv
    split at hv
    · cases hv
    · split at hv <;> rw [List.mem_singleton.mp hv] <;> rfl
  · cases t <;> rfl

theorem mapLabels_entryState (m : Member) (owner : String) (params : List FieldType) :
    (m.entryState owner params).mapLabels f = m.entryState owner params := by
  refine (FrameState.mapLabels_eq_iff.mpr fun l hl => ?_).trans FrameState.mapLabels_id
  rw [labels_entryState] at hl
  cases hl

/-- Renaming commutes with applying a frame. -/
theorem Frame.apply_mapLabels (frame : Frame) :
    (frame.mapLabels f).apply (s.mapLabels f) = (frame.apply s).mapLabels f := by
  cases frame <;> simp [Frame.mapLabels, apply, FrameState.mapLabels, List.map_take]

/-- A frame does not depend on the operand stack at the frame before it. -/
theorem Frame.apply_congr {s' : FrameState} (frame : Frame) (h : s.locals = s'.locals) :
    frame.apply s = frame.apply s' := by
  cases frame <;> simp only [apply, h]

/-- A label that is known of at a frame comes from the frame or from the one before it. -/
theorem Frame.mem_labels_apply {frame : Frame} {l : Label} (h : l ∈ (frame.apply s).labels) :
    l ∈ s.labels ∨ l ∈ frame.labels := by
  simp only [FrameState.labels, Frame.labels, List.mem_flatMap, List.mem_append] at h ⊢
  obtain ⟨v, hv, hl⟩ := h
  cases frame with
  | same => exact .inl ⟨v, .inl (by simpa [apply] using hv), hl⟩
  | sameWithOne w =>
    rcases hv with hv | hv
    · exact .inl ⟨v, .inl hv, hl⟩
    · exact .inr ⟨v, hv, hl⟩
  | chop count => exact .inl ⟨v, .inl (List.mem_of_mem_take (by simpa [apply] using hv)), hl⟩
  | append locals =>
    rcases hv with hv | hv
    · rcases List.mem_append.mp hv with hv | hv
      · exact .inl ⟨v, .inl hv, hl⟩
      · exact .inr ⟨v, hv, hl⟩
    · cases hv
  | full locals stack => exact .inr ⟨v, List.mem_append.mpr hv, hl⟩

end Labels

/-! ### Expansion -/

section Expansion

variable {s s' : FrameState} {frames more : List (Nat × Frame)} {g : Label → Label} {m : Nat → Nat}

/-- Frames in a row apply in a row. -/
theorem expand_append : expand s (frames ++ more) = expand (expand s frames) more :=
  List.foldl_append

/-- Only the locals of the state in front of a frame matter. -/
theorem expand_congr (hne : frames ≠ []) (h : s.locals = s'.locals) :
    expand s frames = expand s' frames := by
  cases frames with
  | nil => exact absurd rfl hne
  | cons p frames => rw [expand, List.foldl_cons, p.2.apply_congr h, expand, List.foldl_cons]

/-- Renaming commutes with applying many frames. -/
theorem expand_map :
    expand (s.mapLabels g) (frames.map fun p => (m p.1, p.2.mapLabels g))
      = (expand s frames).mapLabels g := by
  induction frames generalizing s with
  | nil => rfl
  | cons p frames ih =>
    rw [List.map_cons, expand, List.foldl_cons, p.2.apply_mapLabels]
    exact ih

/-- The labels of a state come from the one at the start or from a frame. -/
theorem mem_labels_expand {l : Label} (h : l ∈ (expand s frames).labels) :
    l ∈ s.labels ∨ ∃ p ∈ frames, l ∈ p.2.labels := by
  induction frames generalizing s with
  | nil => exact .inl h
  | cons p frames ih =>
    rcases ih h with h | ⟨q, hq, hl⟩
    · exact (Frame.mem_labels_apply h).imp_right fun hl => ⟨p, List.mem_cons_self, hl⟩
    · exact .inr ⟨q, List.mem_cons_of_mem _ hq, hl⟩

/-! ### The order of frames -/

/-- Frames come in the order of the instructions. -/
theorem framesFrom_sorted {n : Nat} {events : List MethodEvent} :
    (framesFrom n events).Pairwise (·.1 ≤ ·.1) := by
  induction events generalizing n with
  | nil => exact .nil
  | cons e events ih =>
    cases e with
    | frame frame => exact .cons (fun p hp => (framesFrom_bounds hp).1) ih
    | _ => exact ih

theorem sorted_frames_outline (m : MethodSource) : m.outline.frames.Pairwise (·.1 ≤ ·.1) :=
  List.pairwise_map.mpr framesFrom_sorted

/-- Frames in order come in two parts: those up to an instruction and those behind it. -/
theorem exists_frames_split (hsorted : frames.Pairwise (·.1 ≤ ·.1)) (k : Nat) :
    ∃ early late, frames = early ++ late ∧ (∀ p ∈ early, p.1 ≤ k) ∧ ∀ p ∈ late, k < p.1 := by
  induction frames with
  | nil => exact ⟨[], [], rfl, nofun, nofun⟩
  | cons p frames ih =>
    obtain ⟨hp, hsorted⟩ := List.pairwise_cons.mp hsorted
    by_cases hle : p.1 ≤ k
    · obtain ⟨early, late, rfl, hearly, hlate⟩ := ih hsorted
      exact ⟨p :: early, late, rfl, List.forall_mem_cons.mpr ⟨hle, hearly⟩, hlate⟩
    · have hlt : k < p.1 := Nat.lt_of_not_le hle
      exact ⟨[], p :: frames, rfl, nofun,
        List.forall_mem_cons.mpr ⟨hlt, fun q hq => hlt.trans_le (hp q hq)⟩⟩

end Expansion

/-! ### Instructions put in -/

section Insertion

variable {entry : FrameState} {frames : List (Nat × Frame)} {k count : Nat}

/-- The position of instruction `n` once `count` instructions were put in at position `k`. A branch
to position `k` stays where it is (`moved`), the instruction that stood there does not. -/
def carried (k count n : Nat) : Nat :=
  if n < k then n else n + count

/-- The label of an instruction once `count` instructions were put in at position `k`. -/
def carriedLabel (k count : Nat) (l : Label) : Label :=
  Body.labelAt (carried k count l.id.toNat)

/-- The two ways in which a label may move differ at the place where the instructions were put in.
-/
theorem moveLabel_eq_carriedLabel_iff (hcount : 0 < count) (hsmall : k + count < 2147483648)
    {l : Label} : moveLabel k count l = carriedLabel k count l ↔ l.id.toNat ≠ k := by
  refine ⟨?_, fun hne => ?_⟩
  · rintro h rfl
    rw [moveLabel, moved_of_le (Nat.le_refl _), carriedLabel, carried,
      if_neg (Nat.lt_irrefl _)] at h
    have := Body.labelAt_inj (by omega) hsmall h
    omega
  · have heq : moved k count l.id.toNat = carried k count l.id.toNat := by
      unfold moved carried
      split <;> split <;> omega
    rw [moveLabel, carriedLabel, heq]

section Filter

variable {early late : List (Nat × Frame)} {n : Nat} (hearly : ∀ p ∈ early, p.1 ≤ k)
  (hlate : ∀ p ∈ late, k < p.1)

include hlate in
/-- Late frames are not in force yet. -/
theorem filter_late (hn : n ≤ k) : late.filter (·.1 ≤ n) = [] := by
  rw [List.filter_eq_nil_iff]
  exact fun p hp => by simpa using hn.trans_lt (hlate p hp)

include hearly in
/-- Behind the insertion all the early frames are in force. -/
theorem filter_append_of_ge (hn : k ≤ n) :
    (early ++ late).filter (·.1 ≤ n) = early ++ late.filter (·.1 ≤ n) := by
  rw [List.filter_append, List.filter_eq_self.mpr]
  exact fun p hp => by simpa using (hearly p hp).trans hn

include hearly hlate

/-- The frames up to an instruction in front of what was put in, or to the first one of it. -/
theorem filter_insertFrames_of_le (hcount : 0 < count) (hn : n ≤ k) :
    (insertFrames k count (early ++ late)).filter (·.1 ≤ n)
      = ((early ++ late).filter (·.1 ≤ n)).map
        fun p => (p.1, p.2.mapLabels (moveLabel k count)) := by
  have hsame : (if early.any (·.1 == k) then [(k + count, Frame.same)] else []).filter (·.1 ≤ n)
      = [] := by
    split
    · exact List.filter_cons_of_neg (by simp; omega)
    · rfl
  have hmoved : (late.map fun p =>
    (p.1 + count, p.2.mapLabels (moveLabel k count))).filter (·.1 ≤ n)
      = [] := by
    rw [List.filter_eq_nil_iff, List.forall_mem_map]
    intro p hp
    have := hlate p hp
    simp only [decide_eq_true_eq]
    omega
  rw [insertFrames_append hearly hlate, List.filter_append, List.filter_append, hsame, hmoved,
    List.filter_append, filter_late hlate hn, List.append_nil, List.append_nil, List.append_nil,
    List.filter_map]
  rfl

/-- The frames up to an instruction behind what was put in. -/
theorem filter_insertFrames_of_ge (hn : k ≤ n) :
    (insertFrames k count (early ++ late)).filter (·.1 ≤ n + count)
      = early.map (fun p => (p.1, p.2.mapLabels (moveLabel k count)))
        ++ (if early.any (·.1 == k) then [(k + count, .same)] else [])
        ++ (late.filter (·.1 ≤ n)).map
          fun p => (p.1 + count, p.2.mapLabels (moveLabel k count)) := by
  have hfront : (early.map fun p => (p.1, p.2.mapLabels (moveLabel k count))).filter
      (·.1 ≤ n + count) = early.map fun p => (p.1, p.2.mapLabels (moveLabel k count)) := by
    rw [List.filter_eq_self, List.forall_mem_map]
    intro p hp
    have := hearly p hp
    simp only [decide_eq_true_eq]
    omega
  -- The new frame stands right behind the inserted code.
  have hsame : (if early.any (·.1 == k) then [(k + count, Frame.same)] else []).filter
      (·.1 ≤ n + count) = if early.any (·.1 == k) then [(k + count, .same)] else [] := by
    split
    · exact List.filter_cons_of_pos (by simpa using hn)
    · rfl
  rw [insertFrames_append hearly hlate, List.filter_append, List.filter_append, hfront, hsame,
    List.filter_map]
  congr 2
  exact List.filter_congr fun p _ => by simp

end Filter

section State

variable (hsorted : frames.Pairwise (·.1 ≤ ·.1))
  (hentry : entry.mapLabels (moveLabel k count) = entry)

include hsorted hentry

/-- Up to where the instructions were put in, and at the first of them, what is known stays. -/
theorem inForce_insertFrames_of_le {n : Nat} (hcount : 0 < count) (hn : n ≤ k) :
    inForce entry (insertFrames k count frames) n
      = (inForce entry frames n).mapLabels (moveLabel k count) := by
  obtain ⟨early, late, rfl, hearly, hlate⟩ := exists_frames_split hsorted k
  rw [inForce, filter_insertFrames_of_le hearly hlate hcount hn, inForce,
    ← expand_map (m := id), hentry]
  rfl

/-- **Right behind the instructions** that were put in at a frame, the local variables are what they
were at that frame, and the operand stack is empty. -/
theorem inForce_insertFrames_behind {frame : Frame} (hframed : (k, frame) ∈ frames) :
    inForce entry (insertFrames k count frames) (k + count)
      = ⟨((inForce entry frames k).mapLabels (moveLabel k count)).locals, []⟩ := by
  obtain ⟨early, late, rfl, hearly, hlate⟩ := exists_frames_split hsorted k
  have hnone := filter_late hlate (Nat.le_refl k)
  have hmem : (k, frame) ∈ early :=
    (List.mem_append.mp hframed).resolve_right fun hmem => Nat.lt_irrefl k (hlate _ hmem)
  have hany : early.any (·.1 == k) = true := List.any_eq_true.mpr ⟨_, hmem, beq_self_eq_true k⟩
  rw [inForce, filter_insertFrames_of_ge hearly hlate (Nat.le_refl k), hnone, if_pos hany,
    List.map_nil, List.append_nil, expand_append, inForce,
    filter_append_of_ge hearly (Nat.le_refl k),
    hnone, List.append_nil, ← expand_map (m := id), hentry]
  rfl

/-- **At every frame behind the instructions** that were put in, what is known stays: a frame says
nothing that depends on the operand stack at the frame before it. -/
theorem inForce_insertFrames_of_mem {p : Nat × Frame} (hp : p ∈ frames) (hk : k < p.1) :
    inForce entry (insertFrames k count frames) (p.1 + count)
      = (inForce entry frames p.1).mapLabels (moveLabel k count) := by
  obtain ⟨early, late, rfl, hearly, hlate⟩ := exists_frames_split hsorted k
  have hmem : p ∈ late := by
    refine (List.mem_append.mp hp).resolve_left fun hp => ?_
    exact absurd (hearly p hp) (Nat.not_le_of_lt hk)
  have hne : late.filter (·.1 ≤ p.1) ≠ [] :=
    List.ne_nil_of_mem (List.mem_filter.mpr ⟨hmem, by simp⟩)
  rw [inForce, filter_insertFrames_of_ge hearly hlate hk.le, inForce,
    filter_append_of_ge hearly hk.le, expand_append, expand_append, expand_append,
    ← expand_map (m := (· + count))]
  refine expand_congr (by simpa using hne) ?_
  -- The frame that was put in may empty the operand stack, but it leaves the local variables.
  have hlocals : (expand
      (expand entry (early.map fun p => (p.1, p.2.mapLabels (moveLabel k count))))
      (if early.any (·.1 == k) then [(k + count, .same)] else [])).locals
        = (expand entry (early.map fun p => (p.1, p.2.mapLabels (moveLabel k count)))).locals := by
    split <;> rfl
  rw [hlocals, ← expand_map (m := id), hentry]
  rfl

end State

end Insertion

end RoundingPatch.ClassFile
