import Mathlib.Data.List.Perm.Subperm
import RoundingPatch.Machine.Program
import RoundingPatch.Proofs.ClassFile.Method.Decoded
/-!
# Programs in index form

A method that decodes has a program, unless it has no code or handles exceptions (`ofMember_eq_ok`).
What stands at an index of the program is said in index form: `p.Has k i` holds for the instruction
`i` of the outline, whose labels are positions, and a branch of the program goes on at the position
that the outline gives (`Follows.has`).
-/

namespace RoundingPatch.Machine

open ClassFile MethodEvent

namespace Program

variable {p : Program} {events : List MethodEvent} {found : Option (UInt16 × UInt16)}

/-! ### Collecting events -/

/-- The positions of labels after some events, with `n` instructions in front of them. -/
def bindFrom (n : Nat) (positions : Std.TreeMap Label Nat) :
    List MethodEvent → Std.TreeMap Label Nat
  | [] => positions
  | .label l :: rest => bindFrom n (positions.insert l n) rest
  | .insn _ :: rest => bindFrom (n + 1) positions rest
  | _ :: rest => bindFrom n positions rest

/-- Labels that are bound once have their position. -/
theorem getElem?_bindFrom {n : Nat} {positions : Std.TreeMap Label Nat} {l : Label}
    (hlabels : (labels events).Nodup) (hfresh : ∀ l ∈ labels events, positions[l]? = none) :
    (bindFrom n positions events)[l]?
      = ((position l events).map (n + ·)).or positions[l]? := by
  -- The positions collected so far only matter for labels that are not bound in `events`.
  induction events generalizing n positions with
  | nil => rfl
  | cons e events ih =>
    cases e with
    | label l' =>
      rw [labels_cons_label, List.nodup_cons] at hlabels
      simp only [labels_cons_label, List.mem_cons, forall_eq_or_imp] at hfresh
      have hstill : ∀ l ∈ labels events, (positions.insert l' n)[l]? = none := by
        intro l hl
        have hne : l' ≠ l := fun heq => hlabels.1 (heq ▸ hl)
        rw [Std.TreeMap.getElem?_insert, if_neg (by simpa using hne), hfresh.2 l hl]
      rw [bindFrom, ih hlabels.2 hstill, Std.TreeMap.getElem?_insert, position]
      by_cases heq : l' = l
      · subst heq
        -- The label is not bound again, so the position stays.
        have hnone : position l' events = none := by
          rw [← Option.isNone_iff_eq_none, ← Option.not_isSome, Bool.not_eq_true',
            ← Bool.not_eq_true, position_isSome]
          exact hlabels.1
        simp [hnone]
      · simp [heq]
    | insn i =>
      rw [bindFrom, ih hlabels hfresh, position, Option.map_map]
      congr 2
      funext k
      show n + 1 + k = n + (k + 1)
      omega
    | _ => exact ih hlabels hfresh

/-- **What collecting events comes to.** -/
theorem collect_eq : p.collect found events =
    if handlers events = [] then
      .ok ({ p with
        insns := p.insns ++ (MethodEvent.insns events).toArray
        positions := bindFrom p.insns.size p.positions events }, events.foldl takeLimits found)
    else .error (.unsupported (.handlers p.name p.descriptor)) := by
  -- A handler stops the collection; labels bind to the instructions counted so far.
  induction events generalizing p found with
  | nil => simp [collect, handlers, MethodEvent.insns, bindFrom]
  | cons e events ih =>
    cases e with
    | tryCatch h => rfl
    | insn i =>
      have hhandlers : handlers (.insn i :: events) = handlers events := rfl
      rw [collect, ih, hhandlers, insns_cons_insn]
      simp [bindFrom, takeLimits]
    | _ => exact ih

/-- A check of all elements passes if it passes for each of them. -/
theorem forM_eq_ok {α : Type} {as : List α} {f : α → Except Fault Unit} :
    as.forM f = .ok () ↔ ∀ a ∈ as, f a = .ok () := by
  induction as with
  | nil => simp [pure, Except.pure]
  | cons a as ih =>
    rw [List.forall_mem_cons, ← ih]
    show (f a >>= fun _ => as.forM f) = .ok () ↔ _
    cases h : f a <;> simp [bind, Except.bind]

theorem target_eq_ok {l : Label} {n : Nat} : p.target l = .ok n ↔ p.positions[l]? = some n := by
  unfold target
  split <;> simp_all

theorem checkTargets_eq_ok : p.checkTargets = .ok () ↔
    ∀ i ∈ p.insns.toList, ∀ l ∈ i.targets, ∃ n, p.target l = .ok n := by
  unfold checkTargets
  rw [forM_eq_ok]
  refine forall₂_congr fun i _ => ?_
  rw [forM_eq_ok]
  refine forall₂_congr fun l _ => ?_
  cases p.target l <;> simp [bind, Except.bind, pure, Except.pure]

/-! ### Programs of methods -/

/-- The program of a body with the given limits. -/
def ofBody (m : MethodSource) (limits : UInt16 × UInt16) : Program where
  name := m.name
  descriptor := m.descriptor
  isStatic := Access.static m.access
  maxStack := limits.1
  maxLocals := limits.2
  insns := (MethodEvent.insns m.events).toArray
  positions := bindFrom 0 {} m.events

/-- The positions in a program are those of its events. -/
theorem target_ofBody {m : MethodSource} {limits : UInt16 × UInt16} {l : Label} {n : Nat}
    (hlabels : (labels m.events).Nodup) :
    (ofBody m limits).target l = .ok n ↔ position l m.events = some n := by
  have hempty (l : Label) : ({} : Std.TreeMap Label Nat)[l]? = none := Std.TreeMap.getElem?_emptyc
  rw [target_eq_ok, ofBody, getElem?_bindFrom hlabels fun l _ => hempty l, hempty, Option.or_none]
  simp

/-- Collecting starts from a program without instructions. -/
theorem collect_source (m : MethodSource) :
    collect ⟨m.name, m.descriptor, Access.static m.access, 0, 0, #[], {}⟩ none m.events =
      if m.handlers = [] then .ok (ofBody m (0, 0), m.limits)
      else .error (.unsupported (.handlers m.name m.descriptor)) := by
  rw [collect_eq, Array.empty_append]
  rfl

/-- **What a closed list of events comes to**: a program, if it has code and handles no exceptions.
-/
theorem ofEvents_eq {m : MethodSource} (hlabels : (labels m.events).Nodup) (hclosed : m.Closed) :
    ofEvents m.name m.descriptor (Access.static m.access) m.events =
      if m.handlers = [] then
        match m.limits with
        | none => .error (.unsupported (.noCode m.name m.descriptor))
        | some limits => .ok (ofBody m limits)
      else .error (.unsupported (.handlers m.name m.descriptor)) := by
  -- Every target of an instruction is bound, for the source is closed.
  have hcheck (limits : UInt16 × UInt16) : (ofBody m limits).checkTargets = .ok () := by
    refine checkTargets_eq_ok.mpr fun i hi l hl => ?_
    obtain ⟨n, hn⟩ := hclosed.insns i (by simpa [ofBody] using hi) l hl
    exact ⟨n, (target_ofBody hlabels).mpr hn⟩
  unfold ofEvents
  dsimp only
  rw [collect_source]
  by_cases hhandlers : m.handlers = []
  · rw [if_pos hhandlers, if_pos hhandlers]
    cases m.limits with
    | none => rfl
    | some limits =>
      show ((ofBody m limits).checkTargets >>= fun _ => .ok (ofBody m limits))
        = .ok (ofBody m limits)
      rw [hcheck]
      rfl
  · rw [if_neg hhandlers, if_neg hhandlers]
    rfl

variable {pool : ConstantPool} {m : Member}

/-- **What loading a method comes to** that decodes. -/
theorem ofMember_eq (hdecode : (m.decode pool).failure = none) : ofMember pool m =
    if (m.source pool).handlers = [] then
      match (m.source pool).limits with
      | none => .error (.unsupported (.noCode m.name m.descriptor))
      | some limits => .ok (ofBody (m.source pool) limits)
    else .error (.unsupported (.handlers m.name m.descriptor)) := by
  have heq := ofEvents_eq (nodup_labels_source hdecode) (closed_source hdecode)
  rw [ofMember, hdecode]
  exact heq

/-- **When a method of a class has a program.** -/
theorem ofMember_eq_ok (hdecode : (m.decode pool).failure = none) :
    ofMember pool m = .ok p ↔ (m.source pool).handlers = [] ∧
      ∃ limits, (m.source pool).limits = some limits ∧ p = ofBody (m.source pool) limits := by
  rw [ofMember_eq hdecode]
  by_cases hhandlers : (m.source pool).handlers = []
  · rw [if_pos hhandlers]
    cases (m.source pool).limits with
    | none => simp
    | some limits => simp [hhandlers, eq_comm]
  · rw [if_neg hhandlers]
    simp [hhandlers]

theorem decodes_of_ofMember (h : ofMember pool m = .ok p) : (m.decode pool).failure = none := by
  unfold ofMember at h
  dsimp only at h
  split at h
  · cases h
  · next hnone => exact hnone

/-! ### Instructions in index form -/

/-- Instruction `i`, with positions for labels, stands at a position of a program. -/
def Has (p : Program) (k : Nat) (i : Insn) : Prop :=
  ∃ j f, p.insns[k]? = some j ∧ j.mapLabels f = i ∧
    ∀ l ∈ j.targets, ∃ n < 2147483648, p.target l = .ok n ∧ f l = Body.labelAt n

/-- A program is the one with an outline. -/
structure Follows (p : Program) (o : Outline) : Prop where
  name : p.name = o.name
  descriptor : p.descriptor = o.descriptor
  isStatic : p.isStatic = Access.static o.access
  limits : o.limits = some (p.maxStack, p.maxLocals)
  has : ∀ k i, o.insns[k]? = some i → p.Has k i
  size : p.insns.size = o.insns.length

/-- A program has no more instructions than its code has bytes. -/
theorem length_insns_source_le (hdecode : (m.decode pool).failure = none) :
    (MethodEvent.insns (m.source pool).events).length ≤ 65535 := by
  obtain ⟨body, hevents, hbody⟩ := decode_eq_eventsOf hdecode
  unfold Member.source
  rw [hevents]
  rcases body with _ | b
  · rw [insns_of_isTable isTable_eventsOf_none]
    exact Nat.zero_le _
  · obtain ⟨info, _, hparse⟩ := hbody b rfl
    have hgrounded := Body.grounded_of_parse hparse
    -- The instructions start at different offsets, all of them in the code.
    have hsub : b.insns.map (·.1) ⊆ List.range b.length := fun offset hoffset =>
      List.mem_range.mpr (hgrounded.inside offset hoffset)
    have hnodup : (b.insns.map (·.1)).Nodup :=
      hgrounded.ascending.imp fun hlt => Nat.ne_of_lt hlt
    have hle := (List.subperm_of_subset hnodup hsub).length_le
    rw [List.length_map, List.length_range] at hle
    have hlength := hgrounded.length_le
    rw [Body.insns_eventsOf, List.length_map]
    omega

/-- **The program of a method is the one with its outline.** -/
theorem follows_of_ofMember (h : ofMember pool m = .ok p) : p.Follows (m.outline pool) := by
  have hdecode := decodes_of_ofMember h
  obtain ⟨hhandlers, limits, hlimits, rfl⟩ := (ofMember_eq_ok hdecode).mp h
  have hlabels := nodup_labels_source hdecode
  refine ⟨rfl, rfl, rfl, hlimits, fun k i hi => ?_, ?_⟩
  · rw [Member.outline, MethodSource.outline, List.getElem?_map, Option.map_eq_some_iff] at hi
    obtain ⟨j, hj, rfl⟩ := hi
    refine ⟨j, _, by simpa [ofBody] using hj, rfl, fun l hl => ?_⟩
    obtain ⟨n, hn⟩ := (closed_source hdecode).insns j (List.mem_of_getElem? hj) l hl
    have hle := position_le hn
    have hlength := length_insns_source_le hdecode
    exact ⟨n, by omega, (target_ofBody hlabels).mpr hn, by rw [indexLabel, hn]⟩
  · simp [ofBody, Member.outline, MethodSource.outline]

/-- A method with code that handles no exceptions has a program. -/
theorem exists_ofMember (hdecode : (m.decode pool).failure = none)
    (hhandlers : (m.outline pool).handlers = []) (hlimits : (m.outline pool).limits.isSome) :
    ∃ p, ofMember pool m = .ok p ∧ p.Follows (m.outline pool) := by
  obtain ⟨limits, hlimits⟩ := Option.isSome_iff_exists.mp hlimits
  have h := (ofMember_eq_ok hdecode).mpr
    ⟨List.map_eq_nil_iff.mp hhandlers, limits, hlimits, rfl⟩
  exact ⟨_, h, follows_of_ofMember h⟩

end Program

end RoundingPatch.Machine
