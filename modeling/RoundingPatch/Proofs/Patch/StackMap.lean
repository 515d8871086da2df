import RoundingPatch.Proofs.ClassFile.Method.StackMap
import RoundingPatch.Proofs.Machine.Programs
import RoundingPatch.Proofs.Patch.Patched
/-!
# The stack map of a patched method

The call stands in front of the patched case, at the case's stack map frame, and the instruction of
the case gets a frame of its own that is always the same: the local variables stay, the operand
stack is empty. So the case is left as it was if its operand stack was empty
(`Injected.framesKept_iff`). Frames further down say what they said, but a label at the case now
leads to the call: a frame with an instance made by the first instruction of the case names the
wrong instruction.
-/

namespace RoundingPatch

open ClassFile

theorem UInt16.toNat_max (a b : UInt16) : (max a b).toNat = max a.toNat b.toNat := by
  show (if a ≤ b then b else a).toNat = max a.toNat b.toNat
  split
  · next hle => exact (max_eq_right (UInt16.le_iff_toNat_le.mp hle)).symm
  · next hle =>
    exact (max_eq_left (UInt16.lt_iff_toNat_lt.mp (UInt16.not_le.mp hle)).le).symm

/-! ### What becomes of the frames -/

/-- What is known at the instructions of method `o'`, in terms of what is known in method `o`: at
position `k` there are `count` more instructions, which push `width` values behind a receiver. -/
structure FramesMoved (entry : FrameState) (o o' : Outline) (k count width : ℕ) : Prop where
  before : ∀ n ≤ k, inForce entry o'.frames n
    = (inForce entry o.frames n).mapLabels (moveLabel k count)
  behind : inForce entry o'.frames (k + count)
    = ⟨((inForce entry o.frames k).mapLabels (moveLabel k count)).locals, []⟩
  later : ∀ p ∈ o.frames, k < p.1 → inForce entry o'.frames (p.1 + count)
    = (inForce entry o.frames p.1).mapLabels (moveLabel k count)
  limits : ∃ maxStack maxStack' maxLocals, o.limits = some (maxStack, maxLocals) ∧
    o'.limits = some (maxStack', maxLocals) ∧ maxStack'.toNat = max maxStack.toNat (1 + width)

/-- The instructions of method `o` from position `k` on can be verified in method `o'` as they can
in `o`: what is known at each of their frames is the same, where an instance that waits for its
constructor is known by the instruction that made it, and at position `k` there is room for a
receiver and `width` values on top of the operand stack. -/
structure FramesKept (entry : FrameState) (o o' : Outline) (k count width : ℕ) : Prop where
  case : inForce entry o'.frames (k + count)
    = (inForce entry o.frames k).mapLabels (carriedLabel k count)
  later : ∀ p ∈ o.frames, k < p.1 → inForce entry o'.frames (p.1 + count)
    = (inForce entry o.frames p.1).mapLabels (carriedLabel k count)
  room : ∃ maxStack maxLocals, o'.limits = some (maxStack, maxLocals) ∧
    (inForce entry o.frames k).depth + 1 + width ≤ maxStack.toNat

/-- No frame from position `k` on has an instance that the instruction at `k` makes. -/
def NoneMadeAt (k : ℕ) (entry : FrameState) (frames : List (ℕ × Frame)) : Prop :=
  ∀ p ∈ frames, k ≤ p.1 → ∀ l ∈ (inForce entry frames p.1).labels, l.id.toNat ≠ k

namespace Injected

variable {mode : RoundingMode} {pool pool' : ConstantPool} {m m' : Member} {f : Forwarding} {k : ℕ}
  {entry : FrameState} (h : Injected mode pool pool' m m' f k)

include h

/-- The patched method has limits, and its operand stack is as deep as before or as the call needs.
-/
theorem exists_limits : ∃ maxStack maxStack' maxLocals,
    (m.outline pool).limits = some (maxStack, maxLocals) ∧
      (m'.outline pool').limits = some (maxStack', maxLocals) ∧
      maxStack'.toNat = max maxStack.toNat (1 + Forwarding.width f.signature.params) := by
  have hsome : (m.outline pool).limits.isSome := by
    by_contra hnone
    -- A method without limits has no code, so there is no place for the call.
    have hinsns : MethodEvent.insns (m.source pool).events = [] := by
      refine List.filterMap_eq_nil_iff.mpr fun e he => ?_
      rcases (readable_source h.decodes).bodied (Option.not_isSome_iff_eq_none.mp hnone) e he with
        ⟨_, rfl⟩ | rfl <;> rfl
    have hlt := h.lt
    rw [Member.outline, MethodSource.outline, hinsns] at hlt
    cases hlt
  obtain ⟨⟨maxStack, maxLocals⟩, hlimits⟩ := Option.isSome_iff_exists.mp hsome
  refine ⟨maxStack, max maxStack f.requiredStack, maxLocals, hlimits, ?_, ?_⟩
  · simp [h.outline, Outline.insert, hlimits]
  · rw [UInt16.toNat_max, h.room]

/-- A patched method has few instructions. -/
theorem add_length_lt : k + f.insns.length < 2147483648 := by
  have hlength : (m'.outline pool').insns.length ≤ 65535 :=
    (List.length_map ..).trans_le (Machine.Program.length_insns_source_le h.decodes')
  have hlt := h.lt
  simp only [h.outline, Outline.insert, List.length_append, List.length_map, List.length_take,
    List.length_drop] at hlength
  omega

variable (hentry : ∀ g, entry.mapLabels g = entry) (hempty : entry.stack = [])
  (hframed : (m.outline pool).frames ≠ [] → ∃ frame, (k, frame) ∈ (m.outline pool).frames)

include hentry hempty hframed

/-- **What becomes of the stack map.** -/
theorem framesMoved : FramesMoved entry (m.outline pool) (m'.outline pool') k f.insns.length
    (Forwarding.width f.signature.params) := by
  have hframes : (m'.outline pool').frames
      = insertFrames k f.insns.length (m.outline pool).frames := by
    rw [h.outline]
    rfl
  by_cases hnil : (m.outline pool).frames = []
  · have hstart (n : ℕ) : inForce entry (m'.outline pool').frames n = entry := by
      rw [hframes, hnil]
      rfl
    refine ⟨fun n _ => ?_, ?_, fun p hp => ?_, h.exists_limits⟩
    · rw [hstart, hnil]
      exact (hentry _).symm
    · rw [hstart, hnil, show inForce entry [] k = entry from rfl, hentry, ← hempty]
    · rw [hnil] at hp
      cases hp
  · obtain ⟨frame, hk⟩ := hframed hnil
    have hsorted := sorted_frames_outline (m.source pool)
    refine ⟨fun n hn => ?_, ?_, fun p hp hk => ?_, h.exists_limits⟩ <;> rw [hframes]
    · exact inForce_insertFrames_of_le hsorted (hentry _) (Nat.succ_pos _) hn
    · exact inForce_insertFrames_behind hsorted (hentry _) hk
    · exact inForce_insertFrames_of_mem hsorted (hentry _) hp hk

/-- **When the stack map is kept**: if the operand stack is empty at the patched case, and nothing
that its first instruction makes waits for its constructor at a frame. -/
theorem framesKept_iff :
    FramesKept entry (m.outline pool) (m'.outline pool') k f.insns.length
        (Forwarding.width f.signature.params) ↔
      (inForce entry (m.outline pool).frames k).stack = [] ∧
        NoneMadeAt k entry (m.outline pool).frames := by
  have hmoved := h.framesMoved hentry hempty hframed
  have hsame (s : FrameState) : s.mapLabels (moveLabel k f.insns.length)
      = s.mapLabels (carriedLabel k f.insns.length) ↔ ∀ l ∈ s.labels, l.id.toNat ≠ k :=
    FrameState.mapLabels_eq_iff.trans (forall₂_congr fun _ _ =>
      moveLabel_eq_carriedLabel_iff (Nat.succ_pos _) h.add_length_lt)
  constructor
  · intro hkept
    have hcase := hmoved.behind.symm.trans hkept.case
    have hstack : (inForce entry (m.outline pool).frames k).stack = [] :=
      List.map_eq_nil_iff.mp (congrArg FrameState.stack hcase).symm
    refine ⟨hstack, fun p hp hk => (hsame _).mp ?_⟩
    rcases hk.eq_or_lt with rfl | hlt
    · rw [← hcase]
      simp [FrameState.mapLabels, hstack]
    · rw [← hmoved.later p hp hlt, hkept.later p hp hlt]
  · rintro ⟨hstack, hnone⟩
    obtain ⟨_, maxStack, maxLocals, -, hlimits, hmax⟩ := hmoved.limits
    have hcase : (inForce entry (m.outline pool).frames k).mapLabels (moveLabel k f.insns.length)
        = (inForce entry (m.outline pool).frames k).mapLabels (carriedLabel k f.insns.length) := by
      by_cases hnil : (m.outline pool).frames = []
      · rw [hnil]
        exact (hentry _).trans (hentry _).symm
      · obtain ⟨frame, hk⟩ := hframed hnil
        exact (hsame _).mpr (hnone _ hk (Nat.le_refl k))
    refine ⟨?_, fun p hp hlt => ?_, maxStack, maxLocals, hlimits, ?_⟩
    · rw [hmoved.behind, ← hcase]
      simp [FrameState.mapLabels, hstack]
    · rw [hmoved.later p hp hlt, ← (hsame _).mpr (hnone p hp hlt.le)]
    · have hdepth : (inForce entry (m.outline pool).frames k).depth = 0 := by
        simp [FrameState.depth, hstack]
      omega

end Injected

/-! ### Modified classes -/

namespace Patched

variable {t : Transformer} {c c' : ClassFile} (q : Patched t c c')

/-- The target starts as it did. -/
theorem entryState_target (params : List FieldType) :
    q.target'.entryState c'.name params = q.target.entryState c.name params := by
  have haccess : q.target'.access = q.target.access :=
    congrArg Outline.access q.injected.outline
  have hname : q.target'.name = q.target.name := (Prod.mk.inj q.key).1
  have howner : c'.name = c.name := congrArg Header.name q.header
  rw [Member.entryState, Member.receiver, haccess, hname, howner]
  rfl

end Patched

namespace Transformer

variable {t : Transformer} {x y : Bytes}

/-- **What becomes of the stack map of a method that was modified.** If there are frames, the call
stands at one. Everything that is known in the method stays, but for two things: the operand stack
at the instruction behind the call is empty, and an instance that this instruction makes is taken
for one of the call. So the method can be verified as before just if the operand stack was empty at
the case and no frame has such an instance. -/
theorem modified_frames {name : String} (h : t.outcome name x = .modified y) :
    ∃ c c' target target' forwarding k,
      ClassFile.parse x = .ok c ∧ ClassFile.parse y = .ok c' ∧
      c.method? t.settings.methodName t.settings.descriptor = some target ∧
      c'.method? t.settings.methodName t.settings.descriptor = some target' ∧
      Forwarding.plan t.settings.targetClass t.settings.replacement target.access
        t.settings.descriptor = .ok forwarding ∧
      Injected t.settings.patchedMode c.pool c'.pool target target' forwarding k ∧
      let o := target.outline c.pool
      let o' := target'.outline c'.pool
      let entry := target.entryState c.name forwarding.signature.params
      let count := forwarding.insns.length
      let width := Forwarding.width forwarding.signature.params
      (o.frames ≠ [] → ∃ frame, (k, frame) ∈ o.frames) ∧
        target'.entryState c'.name forwarding.signature.params = entry ∧
        FramesMoved entry o o' k count width ∧
        (FramesKept entry o o' k count width ↔
          (inForce entry o.frames k).stack = [] ∧ NoneMadeAt k entry o.frames) := by
  obtain ⟨c, c', hc, hc', ⟨q⟩⟩ := nonempty_patched h
  exact ⟨c, c', q.target, q.target', q.forwarding, q.position, hc, hc', q.method?_eq_target,
    method?_eq_find?.trans q.find?_target, q.plan, q.injected, q.framed, q.entryState_target _,
    q.injected.framesMoved (fun _ => mapLabels_entryState ..) rfl q.framed,
    q.injected.framesKept_iff (fun _ => mapLabels_entryState ..) rfl q.framed⟩

/-! ### Examples -/

/-- A class `U` with one method `g`, which takes a number and answers 1. -/
def passedTemplate : Bytes := [
  202, 254, 186, 190, 0, 0, 0, 52, 0, 8, 1, 0, 1, 103, 1, 0, 4, 40, 73, 41, 73, 1, 0, 4, 67, 111,
  100, 101, 1, 0, 1, 85, 7, 0, 4, 1, 0, 16, 106, 97, 118, 97, 47, 108, 97, 110, 103, 47, 79, 98,
  106, 101, 99, 116, 7, 0, 6, 0, 0, 0, 5, 0, 7, 0, 0, 0, 0, 0, 1, 0, 0, 0, 1, 0, 2, 0, 1, 0, 3, 0,
  0, 0, 14, 0, 1, 0, 2, 0, 0, 0, 2, 4, 172, 0, 0, 0, 0, 0, 0]

/-- The patch that sends the first case of `f` in class `T`, which takes a number, to `g` from class
`U`. -/
def passing : Transformer where
  settings := { sample.settings with descriptor := "(I)I" }
  template := { description := "sample", contents := .ok passedTemplate }

/-- A class `T` with one method `f`, a switch over two cases, each with a stack map frame. There is
one local variable more at the first case. -/
def framedClass : Bytes := [
  202, 254, 186, 190, 0, 0, 0, 52, 0, 9, 1, 0, 1, 102, 1, 0, 4, 40, 73, 41, 73, 1, 0, 13, 83, 116,
  97, 99, 107, 77, 97, 112, 84, 97, 98, 108, 101, 1, 0, 4, 67, 111, 100, 101, 1, 0, 1, 84, 7, 0, 5,
  1, 0, 16, 106, 97, 118, 97, 47, 108, 97, 110, 103, 47, 79, 98, 106, 101, 99, 116, 7, 0, 7, 0, 0,
  0, 6, 0, 8, 0, 0, 0, 0, 0, 1, 0, 0, 0, 1, 0, 2, 0, 1, 0, 4, 0, 0, 0, 55, 0, 1, 0, 3, 0, 0, 0, 28,
  3, 61, 27, 170, 0, 0, 0, 23, 0, 0, 0, 0, 0, 0, 0, 1, 0, 0, 0, 21, 0, 0, 0, 23, 28, 172, 4, 172, 0,
  0, 0, 1, 0, 3, 0, 0, 0, 9, 0, 2, 252, 0, 24, 1, 250, 0, 1, 0, 0]

/-- A class `T` like it where a number lies on the operand stack at both cases. -/
def stackedClass : Bytes := [
  202, 254, 186, 190, 0, 0, 0, 52, 0, 9, 1, 0, 1, 102, 1, 0, 4, 40, 73, 41, 73, 1, 0, 13, 83, 116,
  97, 99, 107, 77, 97, 112, 84, 97, 98, 108, 101, 1, 0, 4, 67, 111, 100, 101, 1, 0, 1, 84, 7, 0, 5,
  1, 0, 16, 106, 97, 118, 97, 47, 108, 97, 110, 103, 47, 79, 98, 106, 101, 99, 116, 7, 0, 7, 0, 0,
  0, 6, 0, 8, 0, 0, 0, 0, 0, 1, 0, 0, 0, 1, 0, 2, 0, 1, 0, 4, 0, 0, 0, 50, 0, 2, 0, 2, 0, 0, 0, 26,
  4, 27, 170, 0, 0, 0, 0, 23, 0, 0, 0, 0, 0, 0, 0, 1, 0, 0, 0, 22, 0, 0, 0, 23, 172, 172, 0, 0, 0,
  1, 0, 3, 0, 0, 0, 6, 0, 2, 88, 1, 64, 1, 0, 0]

/-- The stack map of a method of a class file. -/
def framesOf (x : Bytes) (name descriptor : String) : Except Fault (Option (List (ℕ × Frame))) := do
  let c ← ClassFile.parse x
  pure ((c.method? name descriptor).map fun m => (m.outline c.pool).frames)

theorem framesOf_eq_ok {c : ClassFile} {m : Member} {name descriptor : String}
    {frames : List (ℕ × Frame)} (h : framesOf x name descriptor = .ok (some frames))
    (hc : ClassFile.parse x = .ok c) (hm : c.method? name descriptor = some m) :
    (m.outline c.pool).frames = frames := by
  obtain ⟨_, hparse, hframes⟩ := except_bind_eq_ok.mp h
  obtain rfl := Except.ok.inj (hc.symm.trans hparse)
  rw [hm] at hframes
  exact Option.some.inj (Except.ok.inj hframes)

/-- In the example with frames the case can be verified as before. -/
theorem modified_frames_framed : ∃ y c c' target target' forwarding k,
    passing.outcome "T" framedClass = .modified y ∧ ClassFile.parse framedClass = .ok c ∧
      ClassFile.parse y = .ok c' ∧ c.method? "f" "(I)I" = some target ∧
      c'.method? "f" "(I)I" = some target' ∧
      FramesKept (target.entryState c.name forwarding.signature.params) (target.outline c.pool)
        (target'.outline c'.pool) k (Forwarding.insns forwarding).length
        (Forwarding.width forwarding.signature.params) := by
  have houtcome : (passing.outcome "T" framedClass).bytes?.isSome := by decide +kernel
  obtain ⟨y, hy⟩ := Option.isSome_iff_exists.mp houtcome
  have hread : framesOf framedClass "f" "(I)I"
      = .ok (some [(4, .append [.integer]), (6, .chop 1)]) := by
    decide +kernel
  obtain ⟨c, c', target, target', forwarding, k, hc, hc', hm, hm', -, -, hframed, -, -, hkept⟩ :=
    modified_frames (bytes?_eq_some.mp hy)
  have hread := framesOf_eq_ok hread hc hm
  obtain ⟨frame, hk⟩ := hframed (by rw [hread]; exact List.cons_ne_nil _ _)
  refine ⟨y, c, c', target, target', forwarding, k, bytes?_eq_some.mp hy, hc, hc', hm, hm',
    hkept.mpr ?_⟩
  rw [hread] at hk ⊢
  refine ⟨?_, ?_⟩
  · rcases List.mem_cons.mp hk with heq | hk
    · cases heq
      rfl
    · cases List.mem_singleton.mp hk
      rfl
  · intro p _ _ l hl
    rcases mem_labels_expand hl with hl | ⟨q, hq, hl⟩
    · rw [labels_entryState] at hl
      cases hl
    · rcases List.mem_cons.mp (List.mem_of_mem_filter hq) with rfl | hq
      · cases hl
      · cases List.mem_singleton.mp hq
        cases hl

/-- **The operand stack of the case is lost**: where a number lies on it, the case cannot be
verified as before. -/
theorem frames_not_kept_stacked : ∃ y c c' target target' forwarding k,
    passing.outcome "T" stackedClass = .modified y ∧ ClassFile.parse stackedClass = .ok c ∧
      ClassFile.parse y = .ok c' ∧ c.method? "f" "(I)I" = some target ∧
      c'.method? "f" "(I)I" = some target' ∧
      Injected .up c.pool c'.pool target target' forwarding k ∧
      (inForce (target.entryState c.name forwarding.signature.params)
        (target.outline c.pool).frames k).stack = [.integer] ∧
      ¬ FramesKept (target.entryState c.name forwarding.signature.params) (target.outline c.pool)
        (target'.outline c'.pool) k (Forwarding.insns forwarding).length
        (Forwarding.width forwarding.signature.params) := by
  have houtcome : (passing.outcome "T" stackedClass).bytes?.isSome := by decide +kernel
  obtain ⟨y, hy⟩ := Option.isSome_iff_exists.mp houtcome
  have hread : framesOf stackedClass "f" "(I)I"
      = .ok (some [(3, .sameWithOne .integer), (4, .sameWithOne .integer)]) := by
    decide +kernel
  obtain ⟨c, c', hc, hc', ⟨q⟩⟩ := nonempty_patched (bytes?_eq_some.mp hy)
  have hread := framesOf_eq_ok hread hc q.method?_eq_target
  obtain ⟨frame, hk⟩ := q.framed (by rw [hread]; exact List.cons_ne_nil _ _)
  have hstack : (inForce (q.target.entryState c.name q.forwarding.signature.params)
      (q.target.outline c.pool).frames q.position).stack = [.integer] := by
    rw [hread] at hk ⊢
    rcases List.mem_cons.mp hk with heq | hk
    · rw [(Prod.mk.inj heq).1]
      rfl
    · rw [(Prod.mk.inj (List.mem_singleton.mp hk)).1]
      rfl
  refine ⟨y, c, c', q.target, q.target', q.forwarding, q.position, bytes?_eq_some.mp hy, hc, hc',
    q.method?_eq_target, method?_eq_find?.trans q.find?_target, q.injected, hstack, fun hkept => ?_⟩
  have hempty := ((q.injected.framesKept_iff (fun _ => mapLabels_entryState ..) rfl q.framed).mp
    hkept).1
  rw [hstack] at hempty
  cases hempty

end Transformer

end RoundingPatch
