import RoundingPatch.Proofs.Patch.Rejection
/-!
# What a verdict says about the class

The verdict comes from offsets of a method that was laid out anew with the call in it. It is about
the method as it was read all the same (`verdict_sound`): the call moves both cases or neither in
front of the other, so their offsets are equal in the new method exactly if they were equal in the
old one (`Splice.exists_offsets`). That the switch has the two cases follows from the labels that
the decision found (`Splice.exists_chooses`), and a class is unmatched only if no switch had them
(`Splice.small_of_unmatched`).
-/

namespace RoundingPatch

open ClassFile MethodEvent ClassDraft

namespace ClassFile.Body

variable {body : Body} {pool : ConstantPool} {p q a b : Nat}

/-- **One dense switch** over at most eight cases. Case `p` starts at offset `a`, behind the switch,
and case `q` at offset `b`. -/
structure Chooses (body : Body) (p q a b : Nat) : Prop where
  switch : ∃ offset low high default targets,
    body.insns.filter (·.2.isSwitch) = [(offset, .tableSwitch low high default targets)] ∧
      max p q < targets.length ∧ targets.length ≤ 8 ∧
      targets[p]? = some (labelAt a) ∧ targets[q]? = some (labelAt b) ∧ offset < a
  left : a ∈ body.insns.map (·.1)
  right : b ∈ body.insns.map (·.1)

/-- No switch has more than `max p q` cases: there is none, or there is one dense switch. -/
def Small (body : Body) (p q : Nat) : Prop :=
  body.insns.filter (·.2.isSwitch) = [] ∨ ∃ offset low high default targets,
    body.insns.filter (·.2.isSwitch) = [(offset, .tableSwitch low high default targets)] ∧
      targets.length ≤ max p q

/-- An offset that an instruction goes to is mentioned. -/
theorem mem_references_of_labelAt (h : body.Grounded pool) {entry : Nat × Insn}
    (hentry : entry ∈ body.insns) (ha : a ∈ body.insns.map (·.1))
    (hl : labelAt a ∈ entry.2.targets) :
    a ∈ body.references := by
  have hmem := mem_references_of_target hentry hl
  have hlength := h.length_le
  have hlt := h.inside a ha
  rwa [toNat_labelAt (by omega)] at hmem

/-- Both cases are mentioned. -/
theorem Chooses.references (h : body.Chooses p q a b) (hground : body.Grounded pool) :
    a ∈ body.references ∧ b ∈ body.references := by
  obtain ⟨offset, low, high, default, targets, hfilter, -, -, ha, hb, -⟩ := h.switch
  have hentry : (offset, .tableSwitch low high default targets) ∈ body.insns :=
    (List.mem_filter.mp (hfilter ▸ List.mem_singleton_self _)).1
  exact ⟨mem_references_of_labelAt hground hentry h.left
      (List.mem_cons_of_mem _ (List.mem_of_getElem? ha)),
    mem_references_of_labelAt hground hentry h.right
      (List.mem_cons_of_mem _ (List.mem_of_getElem? hb))⟩

/-- Offsets of instructions are told apart by their positions. -/
theorem indexOf_inj (ha : a ∈ body.insns.map (·.1)) (heq : body.indexOf a = body.indexOf b) :
    a = b :=
  (List.idxOf_inj ha).mp heq

/-- The switches of a body, with the offsets at which they stand. -/
theorem exists_filter_isSwitch {i : Insn}
    (h : (body.insns.map (·.2)).filter Insn.isSwitch = [i]) :
    ∃ offset, body.insns.filter (·.2.isSwitch) = [(offset, i)] := by
  rw [List.filter_map, List.map_eq_singleton_iff] at h
  obtain ⟨⟨offset, j⟩, hfilter, rfl⟩ := h
  exact ⟨offset, hfilter⟩

end ClassFile.Body

open ClassFile.Body

namespace Splice

variable {s s' : Splice} {pool : ConstantPool} {m : Member} {labels : CaseLabels}
  (hfresh : s.Fresh) (h : (m.decode pool).replay step s = .ok s')
include hfresh h

/-- **The labels that the decision has found** are the cases of the one switch. -/
theorem exists_chooses (hpatched : s'.decision.state = .patched labels) :
    ∃ body a b, m.body pool = .ok (some body) ∧ body.Grounded pool ∧
      labels = ⟨labelAt a, labelAt b⟩ ∧
      body.Chooses s.decision.matcher.patched.ordinal s.decision.matcher.sibling.ordinal a b := by
  -- The decision was taken at a label, and a switch in front of it had that label as a case.
  obtain ⟨hdecode, hrun⟩ := Transcript.replay_eq_ok.mp h
  obtain ⟨-, -, -, haccepts⟩ :=
    spliced_of_replay hfresh.toCalm hfresh.written hfresh.scanning h hpatched
  rw [decision_of_replay hrun] at hpatched
  obtain ⟨front, back, hsplit, hfound⟩ :=
    Decision.exists_taken (fun l hl => by rw [hfresh.scanning] at hl; cases hl) hpatched
  obtain ⟨i, hi, low, high, default, targets, rfl, hleft, hright⟩ :=
    Decision.exists_found (fun l hl => by rw [hfresh.scanning] at hl; cases hl) hfound
  have hseen : s.decision.matcher.switchesSeen = 0 := hfresh.unseen
  have hposition := position_of_split hdecode hsplit
  have hinsns : insns (m.decode pool).events = insns front ++ insns back := by
    rw [hsplit, insns_append, insns_cons fun _ => MethodEvent.noConfusion]
  have hmem : .tableSwitch low high default targets ∈ insns (m.decode pool).events :=
    hinsns ▸ List.mem_append_left _ hi
  have hswitches := Decision.switches_of_accepts haccepts hseen hmem rfl
  obtain ⟨now, hnow⟩ := haccepts.exists_onInsn hmem
  have height : targets.length ≤ 8 := Decision.length_targets_le hnow
  -- The method has a body, since there is an instruction in it.
  obtain ⟨body, hbody, hevents, hparse⟩ := exists_body_of_decode hdecode
  rcases body with _ | body
  · rw [hevents, insns_of_isTable isTable_eventsOf_none] at hmem
    cases hmem
  obtain ⟨info, -, hparse⟩ := hparse body rfl
  have hground := grounded_of_parse hparse
  rw [hevents, insns_eventsOf] at hinsns hswitches
  rw [hevents] at hposition
  obtain ⟨offset, hfilter⟩ := exists_filter_isSwitch hswitches
  have hentry : (offset, .tableSwitch low high default targets) ∈ body.insns :=
    (List.mem_filter.mp (hfilter ▸ List.mem_singleton_self _)).1
  -- Whatever the switch goes to is the offset of an instruction.
  have htarget {l : Label} (hl : l ∈ targets) : ∃ t, l = labelAt t ∧ t ∈ body.references ∧
      t ∈ body.insns.map (·.1) := by
    have hl : l ∈ (Insn.tableSwitch low high default targets).targets := List.mem_cons_of_mem _ hl
    have hmem := mem_references_of_target hentry hl
    obtain ⟨t, ht, rfl⟩ := (hground.code.each _ hentry).inside l hl
    have hlength := hground.length_le
    rw [toNat_labelAt (by omega)] at hmem
    exact ⟨t, rfl, hmem, mem_offsets_of_lt hground hmem ht⟩
  obtain ⟨a, ha, hreference, hleftMem⟩ := htarget (List.mem_of_getElem? hleft)
  obtain ⟨b, hb, -, hrightMem⟩ := htarget (List.mem_of_getElem? hright)
  rw [ha, position_eventsOf hground hreference, Option.some.injEq] at hposition
  refine ⟨body, a, b, hbody, hground, by rw [← ha, ← hb], ⟨offset, low, high, default, targets,
    hfilter, ?_, height, ha ▸ hleft, hb ▸ hright, ?_⟩, hleftMem, hrightMem⟩
  · exact Nat.max_lt.mpr ⟨(List.getElem?_eq_some_iff.mp hleft).1,
      (List.getElem?_eq_some_iff.mp hright).1⟩
  -- The switch stands among the instructions in front of the label.
  · obtain ⟨j, hj, hget⟩ := List.mem_iff_getElem.mp hi
    have hbodyGet : (body.insns.map (·.2))[j]? = some (.tableSwitch low high default targets) := by
      rw [hinsns, List.getElem?_append_left hj, List.getElem?_eq_getElem hj, hget]
    rw [List.getElem?_map, Option.map_eq_some_iff] at hbodyGet
    obtain ⟨entry, hget, hinsn⟩ := hbodyGet
    have hsame : entry = (offset, .tableSwitch low high default targets) := by
      have hin : entry ∈ body.insns.filter (·.2.isSwitch) :=
        List.mem_filter.mpr ⟨List.mem_of_getElem? hget, by rw [hinsn]; rfl⟩
      rw [hfilter] at hin
      exact List.mem_singleton.mp hin
    subst hsame
    have hindex : body.indexOf offset = j := indexOf_of_getElem? hground hget
    by_contra hle
    have hle := indexOf_le hground hreference (Nat.le_of_not_lt hle)
    omega

/-- **The offsets behind the call** are equal exactly if they were so before. -/
theorem exists_offsets {body : Body} {a b : Nat} {p q : PoolBuilder} {bytes : Bytes}
    {emitted : Emitted} (hpatched : s'.decision.state = .patched labels)
    (hbody : m.body pool = .ok (some body)) (hground : body.Grounded pool)
    (ha : a ∈ body.insns.map (·.1)) (hb : b ∈ body.insns.map (·.1))
    (hreferences : a ∈ body.references ∧ b ∈ body.references)
    (hy : Yields (s'.source m).finish p (bytes, emitted) q) :
    ∃ u v, emitted.offset? (labelAt a) = some u ∧ emitted.offset? (labelAt b) = some v ∧
      (u = v ↔ a = b) := by
  obtain ⟨hdecode, -⟩ := Transcript.replay_eq_ok.mp h
  obtain ⟨-, hspliced, -, -⟩ :=
    spliced_of_replay hfresh.toCalm hfresh.written hfresh.scanning h hpatched
  obtain ⟨front, j, rest, hevents, -, hwritten⟩ := hspliced.exists_inserted
  have hsource : s'.source m = insertedSource m s.forwarding.requiredStack s.forwarding.insns front
      (.insn j :: rest) := by
    rw [Splice.source, hwritten]
    rfl
  rw [hsource] at hy
  obtain ⟨layout, _, _, hlays, -, hoffsets⟩ :=
    MethodSource.exists_lays_of_finish (isSome_limits_insertedSource hdecode hevents) hy
  obtain ⟨_, hsame, hlist, -⟩ := exists_body_of_decode hdecode
  cases hbody.symm.trans hsame
  -- Where a position moves to depends on nothing but the position.
  have hoffset {t : Nat} (ht : t ∈ body.references) : ∃ n,
      n = moved (insns front).length s.forwarding.insns.length (body.indexOf t) ∧
        emitted.offset? (labelAt t) = some (layout.placedList.offsetAt 0 n) ∧
        n ≤ layout.placedList.length := by
    have hposition : position (labelAt t) (insertedSource m s.forwarding.requiredStack
        s.forwarding.insns front (.insn j :: rest)).events
          = some (moved (insns front).length s.forwarding.insns.length (body.indexOf t)) := by
      rw [insertedSource, position_inserted, ← hevents, hlist, position_eventsOf hground ht]
      rfl
    refine ⟨_, rfl, ?_, hlays.length_eq ▸ position_le hposition⟩
    rw [Emitted.offset?, hoffsets, hlays.offset_of_position hposition]
  obtain ⟨m', hm, hleft, hmle⟩ := hoffset hreferences.1
  obtain ⟨n', hn, hright, hnle⟩ := hoffset hreferences.2
  refine ⟨_, _, hleft, hright, fun heq => ?_, ?_⟩
  · have hmoved := Placed.offsetAt_inj hlays.contiguous hmle hnle heq
    rw [hm, hn, moved_inj] at hmoved
    exact indexOf_inj ha hmoved
  · rintro rfl
    rw [hm, hn]

/-- **A method that is unmatched** has no switch with enough cases. -/
theorem small_of_unmatched (hfound : ∀ labels, s'.decision.state ≠ .found labels)
    (hpatched : ∀ labels, s'.decision.state ≠ .patched labels) :
    ∃ body, m.body pool = .ok body ∧ ∀ b ∈ body,
      b.Small s.decision.matcher.patched.ordinal s.decision.matcher.sibling.ordinal := by
  obtain ⟨hdecode, hrun⟩ := Transcript.replay_eq_ok.mp h
  rw [decision_of_replay hrun] at hfound hpatched
  obtain ⟨-, haccepts⟩ :=
    passed_of_replay hfresh.toCalm (Decision.skips_of_not_patched hpatched) hrun
  obtain ⟨body, hbody, hevents, -⟩ := exists_body_of_decode hdecode
  refine ⟨body, hbody, ?_⟩
  rintro b ⟨rfl⟩
  have hinsns : insns (m.decode pool).events = b.insns.map (·.2) := by
    rw [hevents, insns_eventsOf]
  -- No switch at all, or a single one, and it has too few cases.
  rcases hswitches : b.insns.filter (·.2.isSwitch) with _ | ⟨⟨offset, i⟩, others⟩
  · exact .inl hswitches
  obtain ⟨hmem, hswitch⟩ : (offset, i) ∈ b.insns ∧ i.isSwitch = true :=
    List.mem_filter.mp (hswitches ▸ List.mem_cons_self)
  have hi : i ∈ insns (m.decode pool).events := hinsns ▸ List.mem_map_of_mem (f := (·.2)) hmem
  have honly := Decision.switches_of_accepts haccepts hfresh.unseen hi hswitch
  rw [hinsns] at honly
  obtain ⟨offset', honly⟩ := exists_filter_isSwitch honly
  cases i with
  | tableSwitch low high default targets =>
    exact .inr ⟨offset', low, high, default, targets, honly,
      Decision.length_targets_le_max hfresh.scanning haccepts hfound hpatched hi⟩
  | lookupSwitch default pairs =>
    obtain ⟨now, hnow⟩ := haccepts.exists_onInsn hi
    exact absurd hnow Decision.onInsn_lookupSwitch
  | _ => cases hswitch

end Splice

namespace Transformer

variable {t : Transformer} {c : ClassFile} {m : Member} {x : Bytes}

/-- How the target method `m` was written: with the call in it, and laid out as `emitted`. -/
structure Written (t : Transformer) (c : ClassFile) (m : Member) (s : Splice) (emitted : Emitted) :
    Prop where
  replay : ∃ forwarding, (m.decode c.pool).replay Splice.step (t.start forwarding) = .ok s
  finish : ∃ bytes pool,
    Yields (s.source m).finish (PoolBuilder.ofPool c.pool) (bytes, emitted) pool

/-- **What the verdict on the target method is**, once it is written. -/
theorem exists_written {o : Outcome} (hc : ClassFile.parse x = .ok c)
    (hm : c.method? t.settings.methodName t.settings.descriptor = some m)
    (h : t.patchMethod c m = .ok o) :
    ∃ s emitted verdict, t.Written c m s emitted ∧ (s.decision.finish emitted).1 = .ok verdict ∧
      (o = .alreadyFixed ↔ verdict = .alreadyFixed) ∧ (o = .unmatched ↔ verdict = .unmatched) := by
  obtain ⟨before, after, hsplit, hnamed, hothers⟩ :=
    exists_split_of_method? (wellRead_of_parse hc).distinct hm
  obtain ⟨forwarding, verdict, draft, -, hwrite, hverdict⟩ := exists_of_patchMethod h
  obtain ⟨s, emitted, bytes, b, hreplay, hfinish, hdecision, -⟩ :=
    exists_of_yields_writeMembers hsplit hnamed hothers hwrite
  refine ⟨s, emitted, verdict, ⟨⟨forwarding, hreplay⟩, bytes, b, hfinish⟩, hdecision, ?_⟩
  cases verdict with
  | alreadyFixed => simp [show o = .alreadyFixed from hverdict]
  | unmatched => simp [show o = .unmatched from hverdict]
  | modified =>
    obtain ⟨y, -, rfl⟩ := hverdict
    simp

/-- **The verdict is about the method as it was read.** If a class is modified or fixed already, its
target method has one switch with both cases, and it is fixed already exactly if both start at one
offset: the offsets in the new method, with the call in it, are equal exactly if those are. If a
class is unmatched, it lacks the method, or no switch in it has both cases. -/
theorem verdict_sound (t : Transformer) (name : String) (x : Bytes) :
    ((t.outcome name x = .alreadyFixed ∨ ∃ y, t.outcome name x = .modified y) →
      ∃ c m body a b, ClassFile.parse x = .ok c ∧
        c.method? t.settings.methodName t.settings.descriptor = some m ∧
        m.body c.pool = .ok (some body) ∧
        body.Chooses t.settings.patchedMode.ordinal t.settings.siblingMode.ordinal a b ∧
        (t.outcome name x = .alreadyFixed ↔ a = b) ∧
        ∃ s emitted u v, t.Written c m s emitted ∧ emitted.offset? (labelAt a) = some u ∧
          emitted.offset? (labelAt b) = some v ∧ (u = v ↔ a = b)) ∧
    (t.outcome name x = .unmatched → ∃ c, ClassFile.parse x = .ok c ∧
      (c.method? t.settings.methodName t.settings.descriptor = none ∨
        ∃ m body, c.method? t.settings.methodName t.settings.descriptor = some m ∧
          m.body c.pool = .ok body ∧ ∀ b ∈ body,
            b.Small t.settings.patchedMode.ordinal t.settings.siblingMode.ordinal)) := by
  constructor
  · intro houtcome
    have hpatch : t.patchClass x = .ok (t.outcome name x) := by
      refine patchClass_of_outcome rfl ?_ fun cause => ?_ <;>
        rcases houtcome with h | ⟨y, h⟩ <;> rw [h] <;> nofun
    obtain ⟨c, hc, -, ⟨-, h⟩ | ⟨-, ⟨-, h⟩ | ⟨m, hm, h⟩⟩⟩ := exists_of_patchClass hpatch
    · rcases houtcome with h' | ⟨y, h'⟩ <;> cases h'.symm.trans h
    · rcases houtcome with h' | ⟨y, h'⟩ <;> cases h'.symm.trans h
    obtain ⟨s, emitted, verdict, hwritten, hfinish, hfixed, hunmatched⟩ := exists_written hc hm h
    obtain ⟨forwarding, hreplay⟩ := hwritten.replay
    obtain ⟨bytes, pool, hlaid⟩ := hwritten.finish
    rcases Decision.finish_eq_ok hfinish with ⟨-, h'⟩ | ⟨labels, u, v, hpatched, hu, hv, hverdict⟩
    · have hnone := hunmatched.mpr h'
      rcases houtcome with h' | ⟨y, h'⟩ <;> cases h'.symm.trans hnone
    -- The offsets of the labels found are compared in the new method; they are equal exactly if
    -- those in the old one are.
    obtain ⟨body, a, b, hbody, hground, rfl, hchooses⟩ :=
      Splice.exists_chooses fresh_start hreplay hpatched
    obtain ⟨u', v', hu', hv', hoffsets⟩ := Splice.exists_offsets fresh_start hreplay hpatched hbody
      hground hchooses.left hchooses.right (hchooses.references hground) hlaid
    cases hu.symm.trans hu'
    cases hv.symm.trans hv'
    refine ⟨c, m, body, a, b, hc, hm, hbody, hchooses, ?_, s, emitted, u, v, hwritten, hu, hv,
      hoffsets⟩
    rw [hfixed, hverdict, ← hoffsets]
    split <;> simp_all
  · intro houtcome
    have hpatch : t.patchClass x = .ok .unmatched :=
      patchClass_of_outcome houtcome nofun fun _ => nofun
    obtain ⟨c, hc, -, ⟨-, h⟩ | ⟨-, ⟨hnone, -⟩ | ⟨m, hm, h⟩⟩⟩ := exists_of_patchClass hpatch
    · cases h
    · exact ⟨c, hc, .inl hnone⟩
    obtain ⟨s, emitted, verdict, hwritten, hfinish, -, hunmatched⟩ := exists_written hc hm h
    obtain ⟨forwarding, hreplay⟩ := hwritten.replay
    have hstate : s.decision.state = .scanning ∨ s.decision.state = .unmatched := by
      rcases Decision.finish_eq_ok hfinish with ⟨h, -⟩ | ⟨_, u, v, -, -, -, hverdict⟩
      · exact h
      · rw [hunmatched.mp rfl] at hverdict
        split at hverdict <;> cases hverdict
    obtain ⟨body, hbody, hsmall⟩ := Splice.small_of_unmatched fresh_start hreplay
      (fun l hl => by rcases hstate with h | h <;> cases h.symm.trans hl)
      (fun l hl => by rcases hstate with h | h <;> cases h.symm.trans hl)
    exact ⟨c, hc, .inr ⟨m, body, hm, hbody, hsmall⟩⟩

/-- In the example the two cases start at different offsets. -/
theorem verdict_sound_sample : ∃ c m body a b, ClassFile.parse sampleClass = .ok c ∧
    c.method? "f" "()I" = some m ∧ m.body c.pool = .ok (some body) ∧
    body.Chooses RoundingMode.up.ordinal RoundingMode.down.ordinal a b ∧ a ≠ b := by
  obtain ⟨c, m, body, a, b, hc, hm, hbody, hchooses, hfixed, -⟩ :=
    (verdict_sound sample "T" sampleClass).1 (.inr ⟨_, outcome_sample⟩)
  rw [outcome_sample] at hfixed
  exact ⟨c, m, body, a, b, hc, hm, hbody, hchooses, fun heq => by cases hfixed.mpr heq⟩

end Transformer

end RoundingPatch
