import RoundingPatch.ClassFile.Code.Layout
/-!
# Positions in a method

Labels, stack map frames and line numbers stand between the instructions of a method. The position
of one of them is the number of instructions in front of it: `position label events` for a label,
`framesFrom 0 events` for all frames. `lines`, `handlers`, `localsIn`, `attributes` and `limits` are
the rows of the tables, which `MethodSource` lists too.
-/

namespace RoundingPatch.ClassFile.MethodEvent

/-- The number of instructions in front of a label. -/
def position (label : Label) : List MethodEvent → Option Nat
  | [] => none
  | .label l :: rest => if l = label then some 0 else position label rest
  | .insn _ :: rest => (position label rest).map (· + 1)
  | _ :: rest => position label rest

/-- The stack map frames, each with the number of instructions in front of it, of which `n` have
gone by. -/
def framesFrom (n : Nat) : List MethodEvent → List (Nat × Frame)
  | [] => []
  | .frame f :: rest => (n, f) :: framesFrom n rest
  | .insn _ :: rest => framesFrom (n + 1) rest
  | _ :: rest => framesFrom n rest

/-- The labels, in order. -/
def labels (events : List MethodEvent) : List Label :=
  events.filterMap fun
    | .label l => some l
    | _ => none

/-- The line numbers, in order. -/
def lines (events : List MethodEvent) : List (UInt16 × Label) :=
  events.filterMap fun
    | .line number start => some (number, start)
    | _ => none

/-- The exception handlers, in order. -/
def handlers (events : List MethodEvent) : List TryCatch :=
  events.filterMap fun
    | .tryCatch handler => some handler
    | _ => none

/-- The local variables of one table, in order. -/
def localsIn (table : LocalTable) (events : List MethodEvent) : List LocalVariable :=
  events.filterMap fun
    | .localVariable v => if v.table = table then some v else none
    | _ => none

/-- The attributes of the method itself, in order. -/
def attributes (events : List MethodEvent) : List RawAttribute :=
  events.filterMap fun
    | .attribute attr => some attr
    | _ => none

/-- The limits of the body after an event, with those before it. -/
def takeLimits (found : Option (UInt16 × UInt16)) : MethodEvent → Option (UInt16 × UInt16)
  | .code maxStack maxLocals => some (maxStack, maxLocals)
  | _ => found

/-- The limits of the body, from the last event that gives them. -/
def limits (events : List MethodEvent) : Option (UInt16 × UInt16) :=
  events.foldl takeLimits none

/-- An event that neither is an instruction nor has a position. -/
def isTable : MethodEvent → Bool
  | .label _ | .frame _ | .insn _ => false
  | _ => true

/-- A stack map frame. -/
def isFrame : MethodEvent → Bool
  | .frame _ => true
  | _ => false

/-- What may stand between a label and its instruction: a stack map frame or a line number. -/
def isNote : MethodEvent → Bool
  | .frame _ | .line .. => true
  | _ => false

variable {events more : List MethodEvent} {label : Label} {e : MethodEvent}

theorem insns_cons_insn (i : Insn) : insns (.insn i :: events) = i :: insns events := rfl

theorem insns_cons (h : ∀ i, e ≠ .insn i) : insns (e :: events) = insns events := by
  cases e <;> first | rfl | exact absurd rfl (h _)

theorem insns_append : insns (events ++ more) = insns events ++ insns more :=
  List.filterMap_append

theorem position_cons_of_isTable (h : e.isTable = true) :
    position label (e :: events) = position label events := by
  cases e <;> first | rfl | cases h

theorem framesFrom_cons_of_isTable {n : Nat} (h : e.isTable = true) :
    framesFrom n (e :: events) = framesFrom n events := by
  cases e <;> first | rfl | cases h

theorem insns_cons_of_isTable (h : e.isTable = true) : insns (e :: events) = insns events :=
  insns_cons (by rintro i rfl; cases h)

theorem framesFrom_of_isTable {n : Nat} (h : ∀ e ∈ events, e.isTable = true) :
    framesFrom n events = [] := by
  induction events with
  | nil => rfl
  | cons e events ih =>
    rw [List.forall_mem_cons] at h
    rw [framesFrom_cons_of_isTable h.1, ih h.2]

theorem position_of_isTable (h : ∀ e ∈ events, e.isTable = true) :
    position label events = none := by
  induction events with
  | nil => rfl
  | cons e events ih =>
    rw [List.forall_mem_cons] at h
    rw [position_cons_of_isTable h.1, ih h.2]

theorem insns_of_isTable (h : ∀ e ∈ events, e.isTable = true) : insns events = [] := by
  induction events with
  | nil => rfl
  | cons e events ih =>
    rw [List.forall_mem_cons] at h
    rw [insns_cons_of_isTable h.1, ih h.2]

theorem insns_of_isNote (h : ∀ e ∈ events, e.isNote = true) : insns events = [] := by
  refine List.filterMap_eq_nil_iff.mpr fun e he => ?_
  have hnote := h e he
  cases e <;> first | rfl | cases hnote

theorem labels_append : labels (events ++ more) = labels events ++ labels more :=
  List.filterMap_append

theorem labels_cons_label (l : Label) : labels (.label l :: events) = l :: labels events := rfl

theorem labels_cons (h : ∀ l, e ≠ .label l) : labels (e :: events) = labels events := by
  cases e <;> first | rfl | exact absurd rfl (h _)

theorem labels_of_isTable (h : ∀ e ∈ events, e.isTable = true) : labels events = [] := by
  rw [labels, List.filterMap_eq_nil_iff]
  intro e he
  have he := h e he
  cases e <;> first | rfl | cases he

/-- A label has a position if it is bound. -/
theorem position_isSome : (position label events).isSome ↔ label ∈ labels events := by
  induction events with
  | nil => simp [position, labels]
  | cons e events ih =>
    cases e with
    | label l =>
      rw [labels_cons_label, List.mem_cons, ← ih]
      simp only [position]
      split
      · next h => simp [h]
      · next h => simp [Ne.symm h]
    | insn i =>
      simp only [position, Option.isSome_map, ih]
      rw [labels_cons (by simp)]
    | _ => exact ih

/-- A label stands in the first part, or that many instructions further on. -/
theorem position_append :
    position label (events ++ more)
      = (position label events).or ((position label more).map (· + (insns events).length)) := by
  induction events with
  | nil => simp [position, insns]
  | cons e events ih =>
    rw [List.cons_append]
    cases e with
    | label l =>
      simp only [position]
      split
      · rfl
      · rw [ih]
        rfl
    -- An instruction moves everything behind it by one, on both sides.
    | insn i =>
      simp only [position, ih, insns_cons_insn, List.length_cons]
      rcases position label events with _ | n
      · rcases position label more with _ | k
        · rfl
        · simp only [Option.map_some, Option.none_or, Option.map_none, Option.some.injEq]
          omega
      · rfl
    | _ => exact ih

/-- The frames of the second part are numbered behind the instructions of the first. -/
theorem framesFrom_append (n : Nat) :
    framesFrom n (events ++ more)
      = framesFrom n events ++ framesFrom (n + (insns events).length) more := by
  induction events generalizing n with
  | nil => rfl
  | cons e events ih =>
    rw [List.cons_append]
    cases e with
    | frame f => exact congrArg (List.cons _) (ih n)
    | insn i =>
      simp only [framesFrom, ih, insns_cons_insn, List.length_cons]
      rw [Nat.add_right_comm, Nat.add_assoc]
    | _ => exact ih n

theorem position_le {n : Nat} (h : position label events = some n) : n ≤ (insns events).length := by
  induction events generalizing n with
  | nil => cases h
  | cons e events ih =>
    cases e with
    | label l =>
      simp only [position] at h
      split at h
      · cases h
        exact Nat.zero_le _
      · exact ih h
    | insn i =>
      obtain ⟨k, hk, rfl⟩ := Option.map_eq_some_iff.mp h
      exact Nat.succ_le_succ (ih hk)
    | _ => exact ih h

/-- A frame stands before one of the instructions or behind the last. -/
theorem framesFrom_bounds {n : Nat} {p : Nat × Frame} (h : p ∈ framesFrom n events) :
    n ≤ p.1 ∧ p.1 ≤ n + (insns events).length := by
  induction events generalizing n with
  | nil => cases h
  | cons e events ih =>
    cases e with
    | frame f =>
      rcases List.mem_cons.mp h with rfl | h
      · exact ⟨Nat.le_refl _, Nat.le_add_right ..⟩
      · exact ih h
    | insn i =>
      obtain ⟨h1, h2⟩ := ih h
      rw [insns_cons_insn, List.length_cons]
      omega
    | _ => exact ih h

theorem exists_framesFrom {f : Frame} (h : .frame f ∈ events) (n : Nat) :
    ∃ k, (k, f) ∈ framesFrom n events := by
  obtain ⟨front, back, rfl⟩ := List.append_of_mem h
  rw [framesFrom_append]
  exact ⟨_, List.mem_append_right _ (List.mem_cons_self ..)⟩

/-- Counting from further on moves every frame as far. -/
theorem framesFrom_add (n k : Nat) :
    framesFrom (n + k) events = (framesFrom n events).map fun p => (p.1 + k, p.2) := by
  induction events generalizing n with
  | nil => rfl
  | cons e events ih =>
    cases e with
    | frame f => exact congrArg (List.cons _) (ih n)
    | insn i =>
      simp only [framesFrom]
      rw [Nat.add_right_comm, ih]
    | _ => exact ih n

/-! ### Rows of tables -/

theorem lines_append : lines (events ++ more) = lines events ++ lines more :=
  List.filterMap_append

theorem handlers_append : handlers (events ++ more) = handlers events ++ handlers more :=
  List.filterMap_append

theorem localsIn_append {table : LocalTable} :
    localsIn table (events ++ more) = localsIn table events ++ localsIn table more :=
  List.filterMap_append

theorem attributes_append :
    attributes (events ++ more) = attributes events ++ attributes more :=
  List.filterMap_append

theorem foldl_takeLimits (found : Option (UInt16 × UInt16)) :
    events.foldl takeLimits found = (limits events).or found := by
  induction events generalizing found with
  | nil => rfl
  | cons e events ih =>
    rw [limits, List.foldl_cons, List.foldl_cons, ih, ih]
    cases e <;> cases limits events <;> rfl

/-- Events that do not give limits. -/
theorem limits_eq_none (h : ∀ e ∈ events, ∀ found, takeLimits found e = found) :
    limits events = none := by
  unfold limits
  induction events with
  | nil => rfl
  | cons e events ih =>
    rw [List.forall_mem_cons] at h
    rw [List.foldl_cons, h.1, ih h.2]

/-- The last limits count. -/
theorem limits_append : limits (events ++ more) = (limits more).or (limits events) := by
  rw [limits, List.foldl_append, foldl_takeLimits, ← limits]

end RoundingPatch.ClassFile.MethodEvent

namespace RoundingPatch.ClassFile.MethodSource

open MethodEvent

variable (m : MethodSource)

theorem lines_eq : m.lines = MethodEvent.lines m.events := rfl

theorem handlers_eq : m.handlers = MethodEvent.handlers m.events := rfl

theorem localsIn_eq (table : LocalTable) : m.localsIn table = MethodEvent.localsIn table m.events :=
  rfl

theorem attributes_eq : m.attributes = MethodEvent.attributes m.events := rfl

theorem limits_eq : m.limits = MethodEvent.limits m.events := rfl

end RoundingPatch.ClassFile.MethodSource
