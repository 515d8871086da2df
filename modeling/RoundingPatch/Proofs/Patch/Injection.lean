import RoundingPatch.Proofs.Patch.Forwarding
import RoundingPatch.Proofs.Patch.Splice
import RoundingPatch.Proofs.Patch.Survival
/-!
# What becomes of the target method

The target method of a patched class is the original one with the forwarding call put in front of
the first instruction of the patched case (`modified_injects`). In index form everything else stays:
what stood at the case now stands at the call, and what stood behind it moves by the length of the
call.
-/

namespace RoundingPatch

open ClassFile MethodEvent Read

variable {t : Transformer} {x y : Bytes}

/-- Method `m'` is method `m` with the call `f` put in at position `k`, where a dense switch goes to
for the given mode. The positions are those of instructions. -/
structure Injected (mode : RoundingMode) (pool pool' : ConstantPool) (m m' : Member)
    (f : Forwarding) (k : Nat) : Prop where
  decodes : (m.decode pool).failure = none
  decodes' : (m'.decode pool').failure = none
  /-- The switch is the only one, and the case of the mode starts at position `k`. -/
  switch : ∃ low high default targets,
    (m.outline pool).insns.filter Insn.isSwitch = [.tableSwitch low high default targets] ∧
      targets[mode.ordinal]? = some (Body.labelAt k)
  lt : k < (m.outline pool).insns.length
  /-- The depth that the call needs has not been cut off. -/
  room : f.requiredStack.toNat = 1 + Forwarding.width f.signature.params
  outline : m'.outline pool' = (m.outline pool).insert k f.insns f.requiredStack

theorem isSwitch_mapLabels {g : Label → Label} (i : Insn) :
    (i.mapLabels g).isSwitch = i.isSwitch := by
  cases i <;> rfl

/-- The only switch of a method in index form. -/
theorem switch_of_accepts {d : Decision} {events : List MethodEvent} {labels : CaseLabels}
    {g : Label → Label} {i : Insn} (haccepts : d.Accepts events)
    (hseen : d.matcher.switchesSeen = 0) (hi : i ∈ insns events) (hgoes : d.Goes i labels) :
    ∃ low high default targets,
      ((insns events).map (·.mapLabels g)).filter Insn.isSwitch
        = [.tableSwitch low high default targets] ∧
      targets[d.matcher.patched.ordinal]? = some (g labels.patched) := by
  obtain ⟨low, high, default, targets, rfl, hpatched, -⟩ := hgoes
  refine ⟨low, high, g default, targets.map g, ?_, by rw [List.getElem?_map, hpatched]; rfl⟩
  rw [List.filter_map, show Insn.isSwitch ∘ (fun i : Insn => i.mapLabels g) = Insn.isSwitch from
    funext isSwitch_mapLabels, Decision.switches_of_accepts haccepts hseen hi rfl]
  rfl

section Reading

variable {pool larger : ConstantPool} {m : Member} {front rest : List MethodEvent} {j : Insn}
  {stack : UInt16} {code : List Insn}

/-- The method with `code` put in where its events are split. -/
def insertedSource (m : Member) (stack : UInt16) (code : List Insn)
    (front back : List MethodEvent) : MethodSource where
  access := m.access
  name := m.name
  descriptor := m.descriptor
  events := inserted stack code front back ((framesFrom 0 front).any (·.1 == (insns front).length))

theorem source_eq (hevents : (m.decode pool).events = front ++ .insn j :: rest) :
    m.source pool = ⟨m.access, m.name, m.descriptor, front ++ .insn j :: rest⟩ := by
  rw [Member.source, hevents]

theorem readable_insertedSource (hdecode : (m.decode pool).failure = none)
    (hevents : (m.decode pool).events = front ++ .insn j :: rest) (hextends : larger.Extends pool)
    (hcode : ∀ i ∈ code, i.Readable larger ∧ i.targets = []) :
    (insertedSource m stack code front (.insn j :: rest)).Readable larger := by
  have hreadable := (readable_source hdecode).mono hextends
  rw [source_eq hevents] at hreadable
  exact readable_inserted hreadable hcode

/-- A method with an instruction has code, whatever is put in. -/
theorem isSome_limits_insertedSource (hdecode : (m.decode pool).failure = none)
    (hevents : (m.decode pool).events = front ++ .insn j :: rest) :
    (insertedSource m stack code front (.insn j :: rest)).limits.isSome := by
  have hbodied := (readable_source hdecode).bodied
  rw [source_eq hevents] at hbodied
  rw [insertedSource, MethodSource.limits_eq, limits_inserted, Option.isSome_map]
  by_contra hnone
  rcases hbodied (by simpa [MethodSource.limits_eq] using hnone) (.insn j)
    (List.mem_append_right _ List.mem_cons_self) with ⟨_, h⟩ | h <;> cases h

variable {b c : PoolBuilder} {bytes : Bytes} {emitted : Emitted}

/-- A method with code put in that was finished fits the code array. -/
theorem exists_encodeAll_of_finish (hdecode : (m.decode pool).failure = none)
    (hevents : (m.decode pool).events = front ++ .insn j :: rest)
    (hy : Yields (insertedSource m stack code front (.insn j :: rest)).finish b
      (bytes, emitted) c) :
    ∃ b c placed, Yields (encodeAll 0 (insns front ++ code ++ insns (.insn j :: rest))) b placed c ∧
      placed.stop 0 ≤ 65535 := by
  obtain ⟨layout, b, c, hlays, hsize, _⟩ :=
    MethodSource.exists_lays_of_finish (isSome_limits_insertedSource hdecode hevents) hy
  have hencodes := hlays.encodes
  rw [insertedSource, insns_inserted] at hencodes
  exact ⟨b, c, _, hencodes, hlays.size_eq ▸ hsize⟩

/-- **A decoded method with code put in reads back**, and its outline is that of the method with the
code put in. -/
theorem exists_reads_insertedSource (what : String) (hdecode : (m.decode pool).failure = none)
    (hevents : (m.decode pool).events = front ++ .insn j :: rest) (hextends : larger.Extends pool)
    (hcode : ∀ i ∈ code, i.Readable larger ∧ i.targets = [])
    (hy : Yields (insertedSource m stack code front (.insn j :: rest)).finish b (bytes, emitted) c)
    (hmeans : c.Means larger) (hzero : ∀ e, larger.get 0 ≠ .ok e) :
    ∃ attrs, let found : Member := ⟨m.access, m.name, m.descriptor, bytes, attrs⟩
      Reads (readMember larger what) bytes found ∧ (found.decode larger).failure = none ∧
        found.outline larger = (m.outline pool).insert (insns front).length code stack := by
  obtain ⟨attrs, hfound, hread⟩ := MethodSource.reads_finish what hy hmeans fun hpart hu =>
    MethodSource.reads_codePart (readable_insertedSource hdecode hevents hextends hcode)
      hpart hu hzero
  refine ⟨_, hread, (hfound bytes).1, (hfound bytes).2.trans ?_⟩
  obtain ⟨_, _, placed, hencodes, hstop⟩ := exists_encodeAll_of_finish hdecode hevents hy
  have hlength : (insns (front ++ .insn j :: rest)).length < 2147483648 := by
    have hplaced := Placed.length_le_stop (contiguous_of_encodeAll hencodes)
    rw [length_of_encodeAll hencodes] at hplaced
    simp only [List.length_append, insns_append] at hplaced ⊢
    omega
  have hclosed := closed_source hdecode
  rw [Member.outline, source_eq hevents]
  rw [source_eq hevents] at hclosed
  exact outline_inserted hlength hclosed (fun i hi => (hcode i hi).2) rfl

end Reading

namespace Transformer

namespace Patching

variable (p : Patching t x y)

/-- What the splice made of the target. -/
theorem exists_spliced : ∃ labels, (p.target.decode p.original.pool).failure = none ∧
    Splice.Spliced p.forwarding.requiredStack p.forwarding.insns labels.patched
      (p.target.decode p.original.pool).events p.splice.written.toList ∧
    (∃ i ∈ insns (p.target.decode p.original.pool).events,
      (t.start p.forwarding).decision.Goes i labels) ∧
    (t.start p.forwarding).decision.Accepts (p.target.decode p.original.pool).events := by
  obtain ⟨labels, hpatched⟩ := Decision.exists_patched_of_finish p.verdict
  exact ⟨labels, Splice.spliced_of_replay ⟨rfl, rfl⟩ rfl rfl p.replay hpatched⟩

variable {p} {more : Array (Option PoolEntry)}

/-- **The target reads back** as the method with the call put in, at a stack map frame if the method
has any. -/
theorem exists_injected_framed (hsound : p.pool.Sound (p.original.pool.slots ++ more)) :
    ∃ attrs k, Reads (readMember (p.poolWith more) "method") p.targetBytes (p.newTarget attrs) ∧
      Injected t.settings.patchedMode p.original.pool (p.poolWith more) p.target
        (p.newTarget attrs) p.forwarding k ∧
      ((p.target.outline p.original.pool).frames ≠ [] →
        ∃ frame, (k, frame) ∈ (p.target.outline p.original.pool).frames) := by
  obtain ⟨labels, hdecode, hspliced, ⟨i, hi, hgoes⟩, haccepts⟩ := p.exists_spliced
  obtain ⟨front, j, rest, hevents, hposition, hwritten⟩ := hspliced.exists_inserted
  -- What was written is the target with the call in it.
  have hfinish : Yields (insertedSource p.target p.forwarding.requiredStack p.forwarding.insns front
      (.insn j :: rest)).finish (PoolBuilder.ofPool p.original.pool)
      (p.targetBytes, p.targetEmitted) p.targetPool := by
    have hfinish := p.finish_target
    rwa [Splice.source, hwritten] at hfinish
  obtain ⟨attrs, hread, hdecode', houtline⟩ := exists_reads_insertedSource "method" hdecode hevents
    (p.extends_poolWith more) (Forwarding.readable_insns _) hfinish
    (hsound.means.of_grows (p.grows_copy.trans p.grows_serialize)) hsound.get_zero
  obtain ⟨_, _, _, hencodes, hstop⟩ := exists_encodeAll_of_finish hdecode hevents hfinish
  refine ⟨attrs, (insns front).length, hread, ⟨hdecode, hdecode', ?_, ?_, ?_, houtline⟩,
    fun hframes => ?_⟩
  · obtain ⟨low, high, default, targets, hfilter, hpatched⟩ :=
      switch_of_accepts (g := indexLabel (p.target.decode p.original.pool).events)
        haccepts rfl hi hgoes
    refine ⟨low, high, default, targets, hfilter, hpatched.trans ?_⟩
    rw [indexLabel, hposition]
  · rw [Member.outline, source_eq hevents, MethodSource.outline, List.length_map, insns_append,
      List.length_append, insns_cons_insn, List.length_cons]
    omega
  · exact Forwarding.toNat_requiredStack
      ((List.sublist_append_right _ _).trans (List.sublist_append_left _ _)) hencodes hstop
  · have hne : framesFrom 0 (p.target.decode p.original.pool).events ≠ [] :=
      fun hnil => hframes (List.map_eq_nil_iff.mpr hnil)
    obtain ⟨⟨_, frame⟩, hmem, hk⟩ := List.any_eq_true.mp (hspliced.framed hne _ hposition)
    obtain rfl := beq_iff_eq.mp hk
    exact ⟨_, List.mem_map_of_mem hmem⟩

theorem exists_injected (hsound : p.pool.Sound (p.original.pool.slots ++ more)) :
    ∃ attrs k, Reads (readMember (p.poolWith more) "method") p.targetBytes (p.newTarget attrs) ∧
      Injected t.settings.patchedMode p.original.pool (p.poolWith more) p.target
        (p.newTarget attrs) p.forwarding k := by
  obtain ⟨attrs, k, hread, hinjected, -⟩ := exists_injected_framed hsound
  exact ⟨attrs, k, hread, hinjected⟩

theorem method?_original : p.original.method? t.settings.methodName t.settings.descriptor
    = some p.target := by
  rw [ClassFile.method?, p.methods_original, List.find?_append,
    List.find?_eq_none.mpr fun m hm => by simp [p.others m (List.mem_append_left _ hm)],
    Option.none_or, List.find?_cons_of_pos p.named]

theorem method?_patched {target copy : List RawAttribute} :
    (p.patched more target copy).method? t.settings.methodName t.settings.descriptor
      = some (p.newTarget target) := by
  have hnamed : (p.newTarget target).isNamed t.settings.methodName t.settings.descriptor = true :=
    p.named
  rw [ClassFile.method?, patched, List.append_assoc, List.find?_append,
    List.find?_eq_none.mpr fun m hm => by simp [p.others m (List.mem_append_left _ hm)],
    Option.none_or, List.cons_append, List.find?_cons_of_pos hnamed]

end Patching

/-- **The target method becomes the original with one call put in.** In a class that was modified it
is decoded from both versions. The one dense switch goes to instruction `k` for the patched mode,
and that is where the call stands in the new version. -/
theorem modified_injects {name : String} (h : t.outcome name x = .modified y) :
    ∃ c c' target target' forwarding k,
      ClassFile.parse x = .ok c ∧ ClassFile.parse y = .ok c' ∧
      c.method? t.settings.methodName t.settings.descriptor = some target ∧
      c'.method? t.settings.methodName t.settings.descriptor = some target' ∧
      Forwarding.plan t.settings.targetClass t.settings.replacement target.access
        t.settings.descriptor = .ok forwarding ∧
      Injected t.settings.patchedMode c.pool c'.pool target target' forwarding k := by
  obtain ⟨p⟩ := nonempty_patching h
  obtain ⟨more, hsound⟩ := p.exists_sound
  obtain ⟨target, k, htarget, hinjected⟩ := Patching.exists_injected hsound
  obtain ⟨_, copy, _, hcopy⟩ := Patching.exists_reads hsound
  exact ⟨p.original, p.patched more target copy, p.target, p.newTarget target, p.forwarding, k,
    p.parse_original, Patching.parse_eq hsound htarget hcopy, Patching.method?_original,
    Patching.method?_patched, p.plan, hinjected⟩

/-- In the example the call stands at the first case, behind the switch. -/
theorem modified_injects_sample : ∃ c c' : ClassFile, ∃ (target target' : Member) (k : Nat),
    sample.outcome "T" sampleClass = .modified samplePatched ∧
      ClassFile.parse sampleClass = .ok c ∧ ClassFile.parse samplePatched = .ok c' ∧
      ∃ forwarding, Injected .up c.pool c'.pool target target' forwarding k := by
  obtain ⟨c, c', target, target', forwarding, k, hc, hc', _, _, _, hinjected⟩ :=
    modified_injects outcome_sample
  exact ⟨c, c', target, target', k, outcome_sample, hc, hc', forwarding, hinjected⟩

end Transformer

end RoundingPatch
