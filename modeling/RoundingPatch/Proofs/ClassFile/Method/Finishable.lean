import RoundingPatch.Proofs.ClassFile.Method.Blameless
import RoundingPatch.Proofs.ClassFile.Method.Insertion
/-!
# Methods that are finishable

Every method that was decoded is finishable (`finishable_source`). It stays so if its events are
replaced by others that agree in their labels (`MethodSource.Finishable.of_alike`) and if code is
put in (`finishable_inserted`).
-/

namespace RoundingPatch.ClassFile

open MethodEvent

/-! ### Decoded methods -/

section Grounded

open Body

variable {pool : ConstantPool} {attrs : List RawAttribute} {body : Body}

/-- The frames of a body stand before different instructions, in order. -/
theorem pairwise_framesFrom_eventsOf :
    (framesFrom 0 (eventsOf attrs (some body))).Pairwise fun p q => p.1 < q.1 := by
  rw [framesFrom_eventsOf, List.pairwise_flatMap]
  refine ⟨fun p _ => ?_, ?_⟩
  · rcases body.framesByOffset[p.1.1]? with _ | f <;> simp
  · rw [List.pairwise_iff_getElem]
    intro i j hi hj hij p hp q hq
    obtain ⟨_, _, rfl⟩ := List.mem_map.mp hp
    obtain ⟨_, _, rfl⟩ := List.mem_map.mp hq
    simpa using hij

/-- The range of a variable runs forwards in the events. -/
theorem forwards_eventsOf (h : body.Grounded pool) {v : LocalVariable} (hv : v ∈ body.locals)
    {s t : Nat} (hs : position v.start (eventsOf attrs (some body)) = some s)
    (ht : position v.stop (eventsOf attrs (some body)) = some t) : s ≤ t := by
  have hlabel {l : Label} (hl : l ∈ v.labels) : position l (eventsOf attrs (some body))
      = some (body.indexOf l.id.toNat) := by
    have hoffset := labelAt_toNat ((h.locals v hv).1 l hl)
    have hposition : position (labelAt l.id.toNat) (eventsOf attrs (some body)) = _ :=
      position_eventsOf h (mem_references_of_local hv hl)
    rwa [hoffset] at hposition
  rw [hlabel (by simp [LocalVariable.labels])] at hs ht
  cases hs
  cases ht
  exact indexOf_le h (mem_references_of_local hv (by simp [LocalVariable.labels])) (h.forwards v hv)

end Grounded

variable {pool : ConstantPool} {m : Member}

/-- **A method that was decoded** is finishable. -/
theorem finishable_source (h : (m.decode pool).failure = none) : (m.source pool).Finishable := by
  obtain ⟨body, hevents, hbody⟩ := decode_eq_eventsOf h
  have hclosed := closed_source h
  have hnodup := nodup_labels_source h
  have hinside := (readable_source h).frames
  unfold Member.source at hclosed hnodup hinside ⊢
  rw [hevents] at hclosed hnodup hinside ⊢
  rcases body with _ | body
  · -- Without a body there are only table events: nothing is encoded, nothing has a place in the
    -- code.
    have htable := @isTable_eventsOf_none (RawAttribute.others m.attributes)
    have hinsns := insns_of_isTable htable
    have hframes := framesFrom_of_isTable (n := 0) htable
    refine ⟨hclosed, hnodup, ?_, ?_, hinside, ?_, fun table v hv => ?_, fun hlimits => ?_⟩
    · simp [hinsns]
    · simp [hframes]
    · simp [hframes]
    · rw [MethodSource.localsIn_eq, localsIn,
        filterMap_of_bodiless (fun _ => mem_eventsOf_none) (fun _ => rfl) rfl] at hv
      cases hv
    · rw [MethodSource.limits_eq, limits_eq_none] at hlimits
      · cases hlimits
      · intro e he found
        rcases mem_eventsOf_none he with ⟨_, rfl⟩ | rfl <;> rfl
  · -- With a body, each demand was met by the reader when it made the events.
    obtain ⟨info, _, hparse⟩ := hbody body rfl
    have hground := Body.grounded_of_parse hparse
    refine ⟨hclosed, hnodup, fun i hi => ?_, pairwise_framesFrom_eventsOf, hinside, fun p hp => ?_,
      fun table v hv s t => ?_, fun _ => ?_⟩
    · rw [Body.insns_eventsOf] at hi
      obtain ⟨p, hp, rfl⟩ := List.mem_map.mp hi
      exact (hground.code.each p hp).encodable
    · obtain ⟨offset, hmem⟩ := Body.exists_frame_of_mem hp
      exact (hground.frames _ hmem).2.encodable
    · rw [MethodSource.localsIn_eq, Body.localsIn_eventsOf] at hv
      exact forwards_eventsOf hground (List.mem_of_mem_filter hv)
    · rw [Body.insns_eventsOf, ne_eq, List.map_eq_nil_iff]
      exact hground.insns_ne_nil

/-! ### Other events -/

theorem exists_of_mem_forall₂ {α β : Type} {R : α → β → Prop} {as : List α} {bs : List β}
    (h : List.Forall₂ R as bs) {a : α} (ha : a ∈ as) : ∃ b ∈ bs, R a b := by
  induction h with
  | nil => cases ha
  | cons hab _ ih =>
    rcases List.mem_cons.mp ha with rfl | ha
    · exact ⟨_, List.mem_cons_self, hab⟩
    · obtain ⟨b, hb, hR⟩ := ih ha
      exact ⟨b, List.mem_cons_of_mem _ hb, hR⟩

/-- **Methods that agree in their labels** are finishable together. -/
theorem MethodSource.Finishable.of_alike {m m' : MethodSource} (h : m.Finishable)
    (hposition : ∀ l, position l m'.events = position l m.events)
    (hlabels : MethodEvent.labels m'.events = MethodEvent.labels m.events)
    (hinsns : List.Forall₂ (fun i' i : Insn => i'.targets = i.targets ∧
      (i.Encodable → i'.Encodable))
      (MethodEvent.insns m'.events) (MethodEvent.insns m.events))
    (hhandlers : List.Forall₂ (fun r' r : TryCatch => r'.labels = r.labels) m'.handlers m.handlers)
    (hlines : ∀ line ∈ m'.lines, line ∈ m.lines)
    (hlocals : ∀ table, List.Forall₂ (fun v' v : LocalVariable => v'.labels = v.labels)
      (m'.localsIn table) (m.localsIn table))
    (hframes : List.Forall₂ (fun p' p : Nat × Frame => p'.1 = p.1 ∧ p'.2.labels = p.2.labels ∧
      (p.2.Encodable → p'.2.Encodable)) (framesFrom 0 m'.events) (framesFrom 0 m.events))
    (hlimits : m'.limits.isSome → m.limits.isSome) : m'.Finishable := by
  have hbinds {l : Label} (hl : Binds m.events l) : Binds m'.events l :=
    hl.imp fun n hn => (hposition l).trans hn
  -- The order of the frames is a matter of their positions alone.
  have hpositions : (framesFrom 0 m'.events).map (·.1) = (framesFrom 0 m.events).map (·.1) :=
    List.forall₂_eq_eq_eq ▸ (List.forall₂_map_left_iff.mpr (List.forall₂_map_right_iff.mpr
      (hframes.imp fun _ _ hp => hp.1)))
  refine ⟨⟨fun i' hi' l hl => ?_, fun r' hr' l hl => ?_, fun line hline => ?_,
    fun table v' hv' l hl => ?_, fun p' hp' l hl => ?_⟩, hlabels ▸ h.nodup, fun i' hi' => ?_, ?_,
    fun p' hp' => ?_, fun p' hp' => ?_, fun table v' hv' s t hs ht => ?_, fun hsome => ?_⟩
  · obtain ⟨i, hi, htargets, -⟩ := exists_of_mem_forall₂ hinsns hi'
    exact hbinds (h.closed.insns i hi l (htargets ▸ hl))
  · obtain ⟨r, hr, hequal⟩ := exists_of_mem_forall₂ hhandlers hr'
    exact hbinds (h.closed.handlers r hr l (hequal ▸ hl))
  · exact hbinds (h.closed.lines line (hlines line hline))
  · obtain ⟨v, hv, hequal⟩ := exists_of_mem_forall₂ (hlocals table) hv'
    exact hbinds (h.closed.locals table v hv l (hequal ▸ hl))
  · obtain ⟨p, hp, -, hequal, -⟩ := exists_of_mem_forall₂ hframes hp'
    exact hbinds (h.closed.frames p hp l (hequal ▸ hl))
  · obtain ⟨i, hi, -, hencodable⟩ := exists_of_mem_forall₂ hinsns hi'
    exact hencodable (h.insns i hi)
  · have hascending : ((framesFrom 0 m'.events).map (·.1)).Pairwise (· < ·) := by
      rw [hpositions, List.pairwise_map]
      exact h.ascending
    exact List.pairwise_map.mp hascending
  · obtain ⟨p, hp, heq, -⟩ := exists_of_mem_forall₂ hframes hp'
    rw [heq, hinsns.length_eq]
    exact h.inside p hp
  · obtain ⟨p, hp, -, -, hencodable⟩ := exists_of_mem_forall₂ hframes hp'
    exact hencodable (h.frames p hp)
  · obtain ⟨v, hv, hequal⟩ := exists_of_mem_forall₂ (hlocals table) hv'
    obtain ⟨hstart, hstop⟩ : v'.start = v.start ∧ v'.stop = v.stop := by
      simpa [LocalVariable.labels] using hequal
    rw [hstart, hposition] at hs
    rw [hstop, hposition] at ht
    exact h.forwards table v hv s t hs ht
  · intro hnil
    have hlength := hinsns.length_eq
    rw [hnil, List.length_nil] at hlength
    exact h.nonempty (hlimits hsome) (List.length_eq_zero_iff.mp hlength.symm)

section Insertion

variable {access : Access} {name descriptor : String} {stack : UInt16} {code : List Insn}
  {events front rest : List MethodEvent} {i : Insn}

/-- A greater depth of the stack makes no difference. -/
theorem MethodSource.Finishable.raise
    (h : MethodSource.Finishable ⟨access, name, descriptor, events⟩) (stack : UInt16) :
    MethodSource.Finishable ⟨access, name, descriptor, events.map (MethodEvent.raise stack)⟩ := by
  refine h.of_alike position_map_raise labels_map_raise ?_ ?_ ?_ ?_ ?_ ?_
  · rw [insns_map_raise]
    exact List.forall₂_same.mpr fun _ _ => ⟨rfl, id⟩
  · rw [MethodSource.handlers_eq, handlers_map_raise]
    exact List.forall₂_same.mpr fun _ _ => rfl
  · rw [MethodSource.lines_eq, lines_map_raise]
    exact fun _ => id
  · intro table
    rw [MethodSource.localsIn_eq, localsIn_map_raise]
    exact List.forall₂_same.mpr fun _ _ => rfl
  · rw [framesFrom_map_raise]
    exact List.forall₂_same.mpr fun _ _ => ⟨rfl, rfl, id⟩
  · rw [MethodSource.limits_eq, limits_map_raise, Option.isSome_map]
    exact id

/-- Inserting code binds no label. -/
theorem labels_inserted {framed : Bool} :
    labels (inserted stack code front rest framed) = labels (front ++ rest) :=
  filterMap_inserted (fun _ => rfl) (fun _ => rfl) (fun e => by cases e <;> rfl)

/-- The frames of a method that code was put into stand where they stood, or as far behind as there
is code. The one frame that is new stands behind the code. -/
theorem mem_framesFrom_inserted {framed : Bool} {p : Nat × Frame}
    (h : p ∈ framesFrom 0 (inserted stack code front rest framed)) :
    p ∈ framesFrom 0 front
      ∨ p = ((insns front).length + code.length, .same)
      ∨ ∃ q ∈ framesFrom (insns front).length rest, p = (q.1 + code.length, q.2) := by
  rw [framesFrom_inserted, Nat.zero_add, List.mem_append, List.mem_append] at h
  rcases h with (h | h) | h
  · exact .inl h
  · cases framed
    · cases h
    · exact .inr (.inl (List.mem_singleton.mp h))
  · rw [framesFrom_add, List.mem_map] at h
    obtain ⟨q, hq, rfl⟩ := h
    exact .inr (.inr ⟨q, hq, rfl⟩)

/-- No two frames stand at one instruction, as there is code in front of the new one. -/
theorem pairwise_framesFrom_inserted {framed : Bool} (hne : code ≠ [])
    (h : (framesFrom 0 (front ++ .insn i :: rest)).Pairwise fun p q => p.1 < q.1) :
    (framesFrom 0 (inserted stack code front (.insn i :: rest) framed)).Pairwise
      fun p q => p.1 < q.1 := by
  have hpos := List.length_pos_of_ne_nil hne
  have hfront {p : Nat × Frame} (hp : p ∈ framesFrom 0 front) : p.1 ≤ (insns front).length := by
    simpa using (framesFrom_bounds hp).2
  have hback {p : Nat × Frame} (hp : p ∈ framesFrom ((insns front).length + code.length)
      (.insn i :: rest)) : (insns front).length + code.length < p.1 :=
    (@framesFrom_bounds rest _ _ hp).1
  have hframe {p : Nat × Frame} (hp : p ∈ if framed then
      [((insns front).length + code.length, Frame.same)] else []) :
      p.1 = (insns front).length + code.length := by
    split at hp
    · rw [List.mem_singleton.mp hp]
    · cases hp
  -- The new frame stands behind those in front of the code and before the others.
  rw [framesFrom_append, Nat.zero_add, List.pairwise_append] at h
  rw [framesFrom_inserted, Nat.zero_add, List.pairwise_append, List.pairwise_append]
  refine ⟨⟨h.1, ?_, fun p hp q hq => ?_⟩, ?_, fun p hp q hq => ?_⟩
  · split <;> simp
  · have := hfront hp
    have := hframe hq
    omega
  · rw [framesFrom_add, List.pairwise_map]
    exact h.2.1.imp fun hlt => by simpa using hlt
  · have := hback hq
    rcases List.mem_append.mp hp with hp | hp
    · have := hfront hp
      omega
    · rwa [hframe hp]

/-- **Code put into a finishable method** leaves it finishable. -/
theorem finishable_inserted {framed : Bool}
    (h : MethodSource.Finishable ⟨access, name, descriptor, front ++ .insn i :: rest⟩)
    (hcode : ∀ j ∈ code, j.Encodable ∧ j.targets = []) (hne : code ≠ []) :
    MethodSource.Finishable
      ⟨access, name, descriptor, inserted stack code front (.insn i :: rest) framed⟩ := by
  -- What the two event lists have to do with each other: labels keep a position, tables are the
  -- same, an instruction or a frame is an old one or one of those put in.
  have hposition {l : Label} {n : Nat} (hn : position l (front ++ .insn i :: rest) = some n) :
      position l (inserted stack code front (.insn i :: rest) framed)
        = some (moved (insns front).length code.length n) := by
    rw [position_inserted, hn]
    rfl
  have hbinds {l : Label} (hl : Binds (front ++ .insn i :: rest) l) :
      Binds (inserted stack code front (.insn i :: rest) framed) l := by
    obtain ⟨n, hn⟩ := hl
    exact ⟨_, hposition hn⟩
  have htable {α : Type} {f : MethodEvent → Option α} (hinsn : ∀ i, f (.insn i) = none)
      (hframe : ∀ frame, f (.frame frame) = none) (hraise : ∀ e,
        f (MethodEvent.raise stack e) = f e) :
      (inserted stack code front (.insn i :: rest) framed).filterMap f
        = (front ++ .insn i :: rest).filterMap f :=
    filterMap_inserted hinsn hframe hraise
  have hinsns {j : Insn} (hj : j ∈ insns (inserted stack code front (.insn i :: rest) framed)) :
      j ∈ code ∨ j ∈ insns (front ++ .insn i :: rest) := by
    rw [insns_inserted, List.mem_append, List.mem_append] at hj
    rw [insns_append, List.mem_append]
    tauto
  have hframes {p : Nat × Frame}
      (hp : p ∈ framesFrom 0 (inserted stack code front (.insn i :: rest) framed)) :
      p.2 = .same ∨ ∃ q ∈ framesFrom 0 (front ++ .insn i :: rest), p.2 = q.2 := by
    rw [framesFrom_append, Nat.zero_add]
    rcases mem_framesFrom_inserted hp with hp | rfl | ⟨q, hq, rfl⟩
    · exact .inr ⟨p, List.mem_append_left _ hp, rfl⟩
    · exact .inl rfl
    · exact .inr ⟨q, List.mem_append_right _ hq, rfl⟩
  have hlocals (table : LocalTable) :
      localsIn table (inserted stack code front (.insn i :: rest) framed)
        = localsIn table (front ++ .insn i :: rest) :=
    htable (fun _ => rfl) (fun _ => rfl) (fun e => by cases e <;> rfl)
  -- From here on each demand goes back to the one on the method before.
  exact {
    closed := {
      insns := fun j hj l hl => by
        rcases hinsns hj with hj | hj
        · rw [(hcode j hj).2] at hl
          cases hl
        · exact hbinds (h.closed.insns j hj l hl)
      handlers := fun r hr l hl => by
        rw [MethodSource.handlers_eq, handlers, htable (fun _ => rfl) (fun _ => rfl)
          (fun e => by cases e <;> rfl)] at hr
        exact hbinds (h.closed.handlers r hr l hl)
      lines := fun line hline => by
        rw [MethodSource.lines_eq, lines, htable (fun _ => rfl) (fun _ => rfl)
          (fun e => by cases e <;> rfl)] at hline
        exact hbinds (h.closed.lines line hline)
      locals := fun table v hv l hl => by
        rw [MethodSource.localsIn_eq, hlocals] at hv
        exact hbinds (h.closed.locals table v hv l hl)
      frames := fun p hp l hl => by
        rcases hframes hp with hsame | ⟨q, hq, heq⟩
        · rw [hsame] at hl
          cases hl
        · exact hbinds (h.closed.frames q hq l (heq ▸ hl)) }
    nodup := by
      rw [labels_inserted]
      exact h.nodup
    insns := fun j hj => (hinsns hj).elim (fun hj => (hcode j hj).1) (h.insns j)
    ascending := pairwise_framesFrom_inserted hne h.ascending
    inside := fun p hp => by
      -- A frame behind the code is inside as it was, and it moves by as much as the code grew.
      have hlt (q : Nat × Frame) (hq : q ∈ framesFrom (insns front).length (.insn i :: rest)) :=
        h.inside q (by
          rw [framesFrom_append, Nat.zero_add]
          exact List.mem_append_right _ hq)
      rw [insns_inserted, List.length_append, List.length_append, insns_cons_insn, List.length_cons]
      rw [insns_append, List.length_append, insns_cons_insn, List.length_cons] at hlt
      rcases mem_framesFrom_inserted hp with hp | rfl | ⟨q, hq, rfl⟩
      · have hle := (framesFrom_bounds hp).2
        omega
      · dsimp only
        omega
      · have hlt := hlt q hq
        dsimp only at hlt ⊢
        omega
    frames := fun p hp => by
      rcases hframes hp with hsame | ⟨q, hq, heq⟩
      · rw [hsame]
        trivial
      · rw [heq]
        exact h.frames q hq
    forwards := fun table v hv s t hs ht => by
      rw [MethodSource.localsIn_eq, hlocals] at hv
      rw [position_inserted, Option.map_eq_some_iff] at hs ht
      obtain ⟨s, hs, rfl⟩ := hs
      obtain ⟨t, ht, rfl⟩ := ht
      exact moved_mono (h.forwards table v hv s t hs ht)
    nonempty := fun _ hnil => by
      rw [insns_inserted] at hnil
      simp [hne] at hnil }

end Insertion

end RoundingPatch.ClassFile
