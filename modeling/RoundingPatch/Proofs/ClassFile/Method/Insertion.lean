import RoundingPatch.Proofs.ClassFile.Method.Decoded
/-!
# Putting instructions into a method

`inserted stack code front back framed` puts instructions between two parts of a method, where the
second part starts with an instruction. Positions behind it move (`position_inserted`), so the
outline changes in the way that `Outline.insert` describes (`outline_inserted`).
-/

namespace RoundingPatch.ClassFile

open MethodEvent

/-! ### Positions that move -/

/-- Where position `n` lies once `count` instructions were put in at position `k`. -/
def moved (k count n : Nat) : Nat :=
  if n ≤ k then n else n + count

/-- A label in index form once `count` instructions were put in at position `k`. -/
def moveLabel (k count : Nat) (l : Label) : Label :=
  Body.labelAt (moved k count l.id.toNat)

theorem moved_of_le {k count n : Nat} (h : n ≤ k) : moved k count n = n :=
  if_pos h

theorem moved_of_lt {k count n : Nat} (h : k < n) : moved k count n = n + count :=
  if_neg (Nat.not_le_of_lt h)

/-- Moving keeps the order of the instructions. -/
theorem moved_mono {k count m n : Nat} (h : m ≤ n) : moved k count m ≤ moved k count n := by
  unfold moved
  split <;> split <;> omega

/-- Moving brings no two instructions together. -/
theorem moved_inj {k count m n : Nat} : moved k count m = moved k count n ↔ m = n := by
  unfold moved
  split <;> split <;> omega

theorem moved_lt {k count n length : Nat} (h : n < length) :
    moved k count n < length + count := by
  unfold moved
  split <;> omega

/-- The frames once `count` instructions were put in at position `k`. If there is a frame at `k`,
the instruction behind them has a frame too. -/
def insertFrames (k count : Nat) (frames : List (Nat × Frame)) : List (Nat × Frame) :=
  let move := fun p : Nat × Frame => (moved k count p.1, p.2.mapLabels (moveLabel k count))
  (frames.filter (·.1 ≤ k)).map move
    ++ (if frames.any (·.1 == k) then [(k + count, .same)] else [])
    ++ (frames.filter (k < ·.1)).map move

/-- The outline of a method with `code` put in at position `k`, which takes a stack of depth
`stack`. -/
def Outline.insert (o : Outline) (k : Nat) (code : List Insn) (stack : UInt16) : Outline :=
  let move := moveLabel k code.length
  { o with
    limits := o.limits.map fun p => (max p.1 stack, p.2)
    insns := (o.insns.take k).map (·.mapLabels move) ++ code
      ++ (o.insns.drop k).map (·.mapLabels move)
    handlers := o.handlers.map (·.mapLabels move)
    frames := insertFrames k code.length o.frames
    lines := o.lines.map fun l => (l.1, move l.2)
    descriptors := o.descriptors.map (·.mapLabels move)
    signatures := o.signatures.map (·.mapLabels move) }

/-- Frames on both sides of the insertion are inserted on their own sides. -/
theorem insertFrames_append {k count : Nat} {frames more : List (Nat × Frame)}
    (hframes : ∀ p ∈ frames, p.1 ≤ k) (hmore : ∀ p ∈ more, k < p.1) :
    insertFrames k count (frames ++ more)
      = frames.map (fun p => (p.1, p.2.mapLabels (moveLabel k count)))
        ++ (if frames.any (·.1 == k) then [(k + count, .same)] else [])
        ++ more.map fun p => (p.1 + count, p.2.mapLabels (moveLabel k count)) := by
  -- A frame at the insertion is one of the front.
  have hany : more.any (·.1 == k) = false := by
    rw [List.any_eq_false]
    intro p hp
    have := hmore p hp
    simp only [beq_iff_eq]
    omega
  unfold insertFrames
  rw [List.filter_append, List.filter_append, List.any_append, hany, Bool.or_false,
    List.filter_eq_self.mpr (by simpa using hframes),
    List.filter_eq_nil_iff.mpr (by simpa using hmore),
    List.filter_eq_nil_iff.mpr (by simpa using hframes),
    List.filter_eq_self.mpr (by simpa using hmore), List.append_nil, List.nil_append]
  have hfront : ∀ p ∈ frames, (moved k count p.1, p.2.mapLabels (moveLabel k count))
      = (p.1, p.2.mapLabels (moveLabel k count)) :=
    fun p hp => by rw [moved_of_le (hframes p hp)]
  have hback : ∀ p ∈ more, (moved k count p.1, p.2.mapLabels (moveLabel k count))
      = (p.1 + count, p.2.mapLabels (moveLabel k count)) :=
    fun p hp => by rw [moved_of_lt (hmore p hp)]
  dsimp only
  rw [List.map_congr_left hfront, List.map_congr_left hback]

/-! ### A greater depth of the stack -/

namespace MethodEvent

/-- The event with a depth of the operand stack of at least `stack`. -/
def raise (stack : UInt16) : MethodEvent → MethodEvent
  | .code maxStack maxLocals => .code (max maxStack stack) maxLocals
  | e => e

variable {stack : UInt16} {events : List MethodEvent}

theorem insns_map_raise : insns (events.map (raise stack)) = insns events := by
  rw [insns, List.filterMap_map]
  exact List.filterMap_congr fun e _ => by cases e <;> rfl

theorem lines_map_raise : lines (events.map (raise stack)) = lines events := by
  rw [lines, List.filterMap_map]
  exact List.filterMap_congr fun e _ => by cases e <;> rfl

theorem handlers_map_raise : handlers (events.map (raise stack)) = handlers events := by
  rw [handlers, List.filterMap_map]
  exact List.filterMap_congr fun e _ => by cases e <;> rfl

theorem localsIn_map_raise {table : LocalTable} :
    localsIn table (events.map (raise stack)) = localsIn table events := by
  rw [localsIn, List.filterMap_map]
  exact List.filterMap_congr fun e _ => by cases e <;> rfl

theorem labels_map_raise : labels (events.map (raise stack)) = labels events := by
  rw [labels, List.filterMap_map]
  exact List.filterMap_congr fun e _ => by cases e <;> rfl

theorem position_map_raise (l : Label) :
    position l (events.map (raise stack)) = position l events := by
  induction events with
  | nil => rfl
  | cons e events ih => cases e <;> simp only [List.map_cons, raise, position, ih]

theorem framesFrom_map_raise (n : Nat) :
    framesFrom n (events.map (raise stack)) = framesFrom n events := by
  induction events generalizing n with
  | nil => rfl
  | cons e events ih => cases e <;> simp only [List.map_cons, raise, framesFrom, ih]

theorem limits_map_raise : limits (events.map (raise stack))
    = (limits events).map fun p => (max p.1 stack, p.2) := by
  have hfold (found : Option (UInt16 × UInt16)) :
      (events.map (raise stack)).foldl takeLimits (found.map fun p => (max p.1 stack, p.2))
        = (events.foldl takeLimits found).map fun p => (max p.1 stack, p.2) := by
    induction events generalizing found with
    | nil => rfl
    | cons e events ih =>
      rw [List.map_cons, List.foldl_cons, List.foldl_cons, ← ih]
      cases e <;> rfl
  exact hfold none

end MethodEvent

/-! ### Instructions put in -/

/-- The events of a method with `code` put between `front` and `back`. -/
def inserted (stack : UInt16) (code : List Insn) (front back : List MethodEvent) (framed : Bool) :
    List MethodEvent :=
  front.map (raise stack) ++ code.map .insn ++ (if framed then [.frame .same] else [])
    ++ back.map (raise stack)

section Insertion

variable {stack : UInt16} {code : List Insn} {front rest : List MethodEvent} {i : Insn}
  {framed : Bool}

theorem insns_code : insns (code.map .insn) = code := by
  simp [insns, List.filterMap_map]

/-- Code and the frame behind it have rows in no table. -/
theorem filterMap_code {α : Type} {f : MethodEvent → Option α} (hinsn : ∀ i, f (.insn i) = none)
    (hframe : ∀ frame, f (.frame frame) = none) :
    (code.map MethodEvent.insn ++ if framed then [MethodEvent.frame .same] else []).filterMap f
      = [] := by
  rw [List.filterMap_eq_nil_iff]
  intro e he
  rcases List.mem_append.mp he with he | he
  · obtain ⟨i, _, rfl⟩ := List.mem_map.mp he
    exact hinsn i
  · split at he
    · rw [List.mem_singleton.mp he]
      exact hframe .same
    · cases he

/-- A table with a row for events other than instructions and frames stays as it is. -/
theorem filterMap_inserted {α : Type} {f : MethodEvent → Option α} {back : List MethodEvent}
    (hinsn : ∀ i, f (.insn i) = none) (hframe : ∀ frame, f (.frame frame) = none)
    (hraise : ∀ e, f (raise stack e) = f e) :
    (inserted stack code front back framed).filterMap f = (front ++ back).filterMap f := by
  have hmap (events : List MethodEvent) :
      (events.map (raise stack)).filterMap f = events.filterMap f := by
    rw [List.filterMap_map]
    exact List.filterMap_congr fun e _ => hraise e
  unfold inserted
  rw [List.append_assoc (front.map _), List.filterMap_append, List.filterMap_append,
    filterMap_code hinsn hframe, List.append_nil, hmap, hmap, List.filterMap_append]

/-- The instructions in front of the second part. -/
theorem insns_before : insns (front.map (raise stack) ++ code.map .insn
    ++ if framed then [.frame .same] else []) = insns front ++ code := by
  have hframe : insns (if framed then [MethodEvent.frame .same] else []) = [] := by
    split <;> rfl
  rw [insns_append, insns_append, insns_map_raise, insns_code, hframe, List.append_nil]

/-- The inserted instructions stand between the two sides. -/
theorem insns_inserted {back : List MethodEvent} : insns (inserted stack code front back framed)
    = insns front ++ code ++ insns back := by
  unfold inserted
  rw [insns_append, insns_before, insns_map_raise]

theorem position_code (l : Label) : position l (code.map .insn) = none := by
  induction code with
  | nil => rfl
  | cons i code ih =>
    rw [List.map_cons, position, ih]
    rfl

theorem framesFrom_code (n : Nat) : framesFrom n (code.map .insn) = [] := by
  induction code generalizing n with
  | nil => rfl
  | cons i code ih => exact ih (n + 1)

/-- **Positions behind the code** move. -/
theorem position_inserted (l : Label) :
    position l (inserted stack code front (.insn i :: rest) framed)
      = (position l (front ++ .insn i :: rest)).map (moved (insns front).length code.length) := by
  have hframe : position l (if framed then [MethodEvent.frame .same] else []) = none := by
    split <;> rfl
  unfold inserted
  rw [position_append, insns_before, position_append, position_append, position_append,
    position_map_raise, position_map_raise, position_code, hframe, Option.map_none, Option.or_none,
    Option.map_none, Option.or_none, List.length_append]
  rcases hfront : position l front with _ | n
  · rw [Option.none_or, Option.none_or, position]
    rcases position l rest with _ | n
    · rfl
    · simp only [Option.map_some, Option.some.injEq]
      rw [moved_of_lt (by omega)]
      omega
  · rw [Option.some_or, Option.some_or, Option.map_some, moved_of_le (position_le hfront)]

/-- The frames behind the insertion are numbered further on. -/
theorem framesFrom_inserted (n : Nat) {back : List MethodEvent} :
    framesFrom n (inserted stack code front back framed) = framesFrom n front
      ++ (if framed then [(n + (insns front).length + code.length, .same)] else [])
      ++ framesFrom (n + (insns front).length + code.length) back := by
  unfold inserted
  rw [framesFrom_append, insns_before, framesFrom_append, framesFrom_append, framesFrom_map_raise,
    framesFrom_map_raise, framesFrom_code, insns_append, insns_map_raise, insns_code,
    List.append_nil, List.length_append, ← Nat.add_assoc]
  cases framed <;> rfl

/-- Insertion raises the stack. -/
theorem limits_inserted {back : List MethodEvent} :
    limits (inserted stack code front back framed)
      = (limits (front ++ back)).map fun p => (max p.1 stack, p.2) := by
  have hcode : limits (code.map .insn) = none := limits_eq_none (by
    rw [List.forall_mem_map]
    exact fun _ _ _ => rfl)
  have hframe : limits (if framed then [MethodEvent.frame .same] else []) = none := by
    split <;> rfl
  unfold inserted
  rw [limits_append, limits_append, limits_append, limits_append, limits_map_raise,
    limits_map_raise, hcode, hframe, Option.none_or, Option.none_or]
  cases limits back <;> rfl

/-! ### The outline -/

variable {access : Access} {name descriptor : String}
  (hlength : (insns (front ++ .insn i :: rest)).length < 2147483648)

include hlength in
/-- A label is moved with the instruction it stands before. -/
theorem indexLabel_inserted {l : Label} (hl : Binds (front ++ .insn i :: rest) l) :
    indexLabel (inserted stack code front (.insn i :: rest) framed) l
      = moveLabel (insns front).length code.length (indexLabel (front ++ .insn i :: rest) l) := by
  obtain ⟨n, hn⟩ := hl
  have hle := position_le hn
  unfold indexLabel
  rw [position_inserted, hn]
  show _ = Body.labelAt _
  rw [Body.toNat_labelAt (by omega)]
  rfl

include hlength in
/-- **The instructions of the outline** with code inserted: those on either side, their targets
moved. -/
theorem insns_outline_inserted
    (hclosed : ∀ i' ∈ insns (front ++ .insn i :: rest), ∀ l ∈ i'.targets,
      Binds (front ++ .insn i :: rest) l)
    (hcode : ∀ i' ∈ code, i'.targets = []) :
    (insns (inserted stack code front (.insn i :: rest) framed)).map
        (·.mapLabels (indexLabel (inserted stack code front (.insn i :: rest) framed)))
      = ((insns front).map (·.mapLabels (indexLabel (front ++ .insn i :: rest)))).map
          (·.mapLabels (moveLabel (insns front).length code.length)) ++ code
        ++ ((insns (.insn i :: rest)).map (·.mapLabels (indexLabel (front ++ .insn i :: rest)))).map
          (·.mapLabels (moveLabel (insns front).length code.length)) := by
  have hmap {i' : Insn} (hi : i' ∈ insns (front ++ .insn i :: rest)) :
      i'.mapLabels (indexLabel (inserted stack code front (.insn i :: rest) framed))
        = (i'.mapLabels (indexLabel (front ++ .insn i :: rest))).mapLabels
          (moveLabel (insns front).length code.length) := by
    rw [Insn.mapLabels_mapLabels]
    exact Insn.mapLabels_congr fun l hl => indexLabel_inserted hlength (hclosed i' hi l hl)
  rw [insns_append] at hmap
  rw [insns_inserted, List.map_append, List.map_append, List.map_map, List.map_map]
  congr 1
  · congr 1
    · exact List.map_congr_left fun i' hi => hmap (List.mem_append_left _ hi)
    · refine (List.map_congr_left fun i' hi => ?_).trans (List.map_id code)
      rw [Insn.mapLabels_congr (g := id) (by simp [hcode i' hi]), Insn.mapLabels_id]
      rfl
  · exact List.map_congr_left fun i' hi => hmap (List.mem_append_right _ hi)

include hlength in
/-- The frames of the outline with code inserted. -/
theorem frames_outline_inserted
    (hclosed : ∀ p ∈ framesFrom 0 (front ++ .insn i :: rest), ∀ l ∈ p.2.labels,
      Binds (front ++ .insn i :: rest) l)
    (hframed : framed = (framesFrom 0 front).any (·.1 == (insns front).length)) :
    (framesFrom 0 (inserted stack code front (.insn i :: rest) framed)).map
        (fun p => (p.1, p.2.mapLabels
          (indexLabel (inserted stack code front (.insn i :: rest) framed))))
      = insertFrames (insns front).length code.length
        ((framesFrom 0 (front ++ .insn i :: rest)).map
          fun p => (p.1, p.2.mapLabels (indexLabel (front ++ .insn i :: rest)))) := by
  have hmap {p : Nat × Frame} (hp : p ∈ framesFrom 0 (front ++ .insn i :: rest)) :
      p.2.mapLabels (indexLabel (inserted stack code front (.insn i :: rest) framed))
        = (p.2.mapLabels (indexLabel (front ++ .insn i :: rest))).mapLabels
          (moveLabel (insns front).length code.length) := by
    rw [Frame.mapLabels_mapLabels]
    exact Frame.mapLabels_congr fun l hl => indexLabel_inserted hlength (hclosed p hp l hl)
  have hfront : ∀ p ∈ (framesFrom 0 front).map
      (fun p => (p.1, p.2.mapLabels (indexLabel (front ++ .insn i :: rest)))),
      p.1 ≤ (insns front).length :=
    List.forall_mem_map.mpr fun p hp => by simpa using (framesFrom_bounds hp).2
  have hback : ∀ p ∈ (framesFrom (insns front).length (.insn i :: rest)).map
      (fun p => (p.1, p.2.mapLabels (indexLabel (front ++ .insn i :: rest)))),
      (insns front).length < p.1 :=
    List.forall_mem_map.mpr fun p hp => (@framesFrom_bounds rest _ _ hp).1
  have hsplit : framesFrom 0 (front ++ .insn i :: rest)
      = framesFrom 0 front ++ framesFrom (insns front).length (.insn i :: rest) := by
    rw [framesFrom_append, Nat.zero_add]
  rw [hsplit] at hmap
  rw [hsplit, List.map_append, insertFrames_append hfront hback, List.any_map,
    framesFrom_inserted, Nat.zero_add, framesFrom_add, List.map_append, List.map_append,
    List.map_map, List.map_map, List.map_map]
  -- In front the frames stay, at the place one is put in unless there was one, behind it they move.
  congr 1
  · congr 1
    · exact List.map_congr_left fun p hp =>
        congrArg (Prod.mk p.1) (hmap (List.mem_append_left _ hp))
    · rw [show ((fun p : Nat × Frame => p.1 == (insns front).length) ∘ fun p : Nat × Frame =>
        (p.1, p.2.mapLabels (indexLabel (front ++ .insn i :: rest))))
        = fun p => p.1 == (insns front).length from rfl, ← hframed]
      split <;> rfl
  · exact List.map_congr_left fun p hp =>
      congrArg (Prod.mk (p.1 + code.length)) (hmap (p := p) (List.mem_append_right _ hp))

include hlength in
/-- **Instructions put into a method** change its outline by `Outline.insert`. -/
theorem outline_inserted
    (hclosed : MethodSource.Closed ⟨access, name, descriptor, front ++ .insn i :: rest⟩)
    (hcode : ∀ i ∈ code, i.targets = [])
    (hframed : framed = (framesFrom 0 front).any (·.1 == (insns front).length)) :
    MethodSource.outline
        ⟨access, name, descriptor, inserted stack code front (.insn i :: rest) framed⟩
      = (MethodSource.outline ⟨access, name, descriptor, front ++ .insn i :: rest⟩).insert
        (insns front).length code stack := by
  have hindex {l : Label} (hl : Binds (front ++ .insn i :: rest) l) :=
    @indexLabel_inserted stack code front rest i framed hlength l hl
  -- The rows of the tables are those from before; only the labels in them have moved.
  have htable {α : Type} {f : MethodEvent → Option α} (hinsn : ∀ i, f (.insn i) = none)
      (hframe : ∀ frame, f (.frame frame) = none) (hcode : ∀ a b, f (.code a b) = none) :
      (inserted stack code front (.insn i :: rest) framed).filterMap f
        = (front ++ .insn i :: rest).filterMap f :=
    filterMap_inserted hinsn hframe fun e => by cases e <;> first | rfl | simp only [raise, hcode]
  have hlocals (table : LocalTable) :
      (localsIn table (inserted stack code front (.insn i :: rest) framed)).map
        (·.mapLabels (indexLabel (inserted stack code front (.insn i :: rest) framed)))
      = ((localsIn table (front ++ .insn i :: rest)).map
        (·.mapLabels (indexLabel (front ++ .insn i :: rest)))).map
          (·.mapLabels (moveLabel (insns front).length code.length)) := by
    rw [localsIn, htable (fun _ => rfl) (fun _ => rfl) (fun _ _ => rfl), List.map_map]
    exact List.map_congr_left fun v hv => LocalVariable.mapLabels_congr fun l hl =>
      hindex (hclosed.locals table v hv l hl)
  have hhandlers :
      (handlers (inserted stack code front (.insn i :: rest) framed)).map
        (·.mapLabels (indexLabel (inserted stack code front (.insn i :: rest) framed)))
      = ((handlers (front ++ .insn i :: rest)).map
        (·.mapLabels (indexLabel (front ++ .insn i :: rest)))).map
          (·.mapLabels (moveLabel (insns front).length code.length)) := by
    rw [handlers, htable (fun _ => rfl) (fun _ => rfl) (fun _ _ => rfl), List.map_map]
    exact List.map_congr_left fun h hh => TryCatch.mapLabels_congr fun l hl =>
      hindex (hclosed.handlers h hh l hl)
  have hlines :
      (lines (inserted stack code front (.insn i :: rest) framed)).map
        (fun l => (l.1, indexLabel (inserted stack code front (.insn i :: rest) framed) l.2))
      = ((lines (front ++ .insn i :: rest)).map
        (fun l => (l.1, indexLabel (front ++ .insn i :: rest) l.2))).map
          fun l => (l.1, moveLabel (insns front).length code.length l.2) := by
    rw [lines, htable (fun _ => rfl) (fun _ => rfl) (fun _ _ => rfl), List.map_map]
    exact List.map_congr_left fun l hl => congrArg (Prod.mk l.1) (hindex (hclosed.lines l hl))
  have hattributes : MethodEvent.attributes (inserted stack code front (.insn i :: rest) framed)
      = MethodEvent.attributes (front ++ .insn i :: rest) :=
    htable (fun _ => rfl) (fun _ => rfl) fun _ _ => rfl
  have hinsns := @insns_outline_inserted stack code front rest i framed hlength hclosed.insns
    hcode
  have hframes := @frames_outline_inserted stack code front rest i framed hlength hclosed.frames
    hframed
  -- Part by part the two outlines are now the same.
  unfold MethodSource.outline Outline.insert
  simp only [MethodSource.lines_eq, MethodSource.handlers_eq, MethodSource.localsIn_eq,
    MethodSource.attributes_eq, MethodSource.limits_eq, limits_inserted, hinsns, hframes, hhandlers,
    hlines, hlocals, hattributes, insns_append, List.map_append]
  rw [List.take_left' (List.length_map _), List.drop_left' (List.length_map _)]

/-! ### Readability -/

omit hlength in
/-- **Instructions put into a readable method** leave it readable. -/
theorem readable_inserted {pool : ConstantPool}
    (h : MethodSource.Readable pool ⟨access, name, descriptor, front ++ .insn i :: rest⟩)
    (hcode : ∀ j ∈ code, j.Readable pool ∧ j.targets = []) :
    MethodSource.Readable pool
      ⟨access, name, descriptor, inserted stack code front (.insn i :: rest) framed⟩ := by
  -- What was put in names no label, so each label asked for had its position before.
  have hinsns : ∀ j, j ∈ insns (inserted stack code front (.insn i :: rest) framed) ↔
      j ∈ code ∨ j ∈ insns (front ++ .insn i :: rest) := by
    intro j
    rw [insns_inserted, insns_append, List.mem_append, List.mem_append, List.mem_append]
    tauto
  have hlength : (insns (inserted stack code front (.insn i :: rest) framed)).length
      = (insns (front ++ .insn i :: rest)).length + code.length := by
    rw [insns_inserted, insns_append, List.length_append, List.length_append, List.length_append]
    omega
  have hposition {l : Label} (hl : ∃ n < (insns (front ++ .insn i :: rest)).length,
      position l (front ++ .insn i :: rest) = some n) :
      ∃ n < (insns (inserted stack code front (.insn i :: rest) framed)).length,
        position l (inserted stack code front (.insn i :: rest) framed) = some n := by
    obtain ⟨n, hlt, hn⟩ := hl
    exact ⟨_, hlength ▸ moved_lt hlt, by rw [position_inserted, hn]; rfl⟩
  have hlines : MethodEvent.lines (inserted stack code front (.insn i :: rest) framed)
      = MethodEvent.lines (front ++ .insn i :: rest) :=
    filterMap_inserted (fun _ => rfl) (fun _ => rfl) (fun e => by cases e <;> rfl)
  have hattributes : MethodEvent.attributes (inserted stack code front (.insn i :: rest) framed)
      = MethodEvent.attributes (front ++ .insn i :: rest) :=
    filterMap_inserted (fun _ => rfl) (fun _ => rfl) (fun e => by cases e <;> rfl)
  exact {
    bodied := by
      intro hlimits
      rw [MethodSource.limits_eq, limits_inserted, Option.map_eq_none_iff] at hlimits
      rcases h.bodied hlimits (.insn i) (by simp) with ⟨_, hi⟩ | hi <;> cases hi
    insns := by
      intro j hj
      exact ((hinsns j).mp hj).elim (fun hj => (hcode j hj).1) (h.insns j)
    targets := by
      intro j hj l hl
      rcases (hinsns j).mp hj with hj | hj
      · rw [(hcode j hj).2] at hl
        cases hl
      · exact hposition (h.targets j hj l hl)
    frames := by
      intro p hp
      have hback : 0 < (insns (.insn i :: rest)).length := by simp [insns_cons_insn]
      rw [framesFrom_inserted, List.mem_append, List.mem_append] at hp
      rw [hlength, insns_append, List.length_append]
      -- A frame stands in front of the code, at its end, or behind it.
      rcases hp with (hp | hp) | hp
      · have hle := (framesFrom_bounds hp).2
        omega
      · cases framed
        · cases hp
        · rw [List.mem_singleton.mp hp]
          dsimp only
          omega
      · have hmem : (p.1 - code.length, p.2) ∈ framesFrom 0 (front ++ .insn i :: rest) := by
          rw [framesFrom_append, List.mem_append]
          refine .inr ?_
          rw [framesFrom_add, List.mem_map] at hp
          obtain ⟨q, hq, rfl⟩ := hp
          rwa [Nat.add_sub_cancel]
        have hlt := h.frames _ hmem
        rw [insns_append, List.length_append] at hlt
        dsimp only at hlt
        omega
    lines := by
      intro l hl
      rw [MethodSource.lines_eq, hlines] at hl
      exact hposition (h.lines l hl)
    linesSorted := by
      rw [MethodSource.lines_eq, hlines]
      refine h.linesSorted.imp fun {a b} hab s t hs ht => ?_
      rw [position_inserted, Option.map_eq_some_iff] at hs ht
      obtain ⟨s, hs, rfl⟩ := hs
      obtain ⟨t, ht, rfl⟩ := ht
      exact moved_mono (hab s t hs ht)
    attributes := by
      intro a ha
      rw [MethodSource.attributes_eq, hattributes] at ha
      exact h.attributes a ha }

end Insertion

end RoundingPatch.ClassFile
