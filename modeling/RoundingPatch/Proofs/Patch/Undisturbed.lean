import RoundingPatch.Proofs.Machine.Loading
import RoundingPatch.Proofs.Machine.Simulation
import RoundingPatch.Proofs.Patch.Patched
/-!
# Runs of a patched class

The call that a patch puts in is a detour of the target method (`keeps_of_injected`), and a patched
class is the original one with that detour and one method more (`Patched.widens`). So every run of
the original class that stays away from the patched case is a run of the patched class too
(`Transformer.modified_undisturbed`).
-/

namespace RoundingPatch

open ClassFile MethodEvent Machine

/-! ### Instructions around what was put in -/

/-- The instructions in front of position `k` and behind it have moved, with their labels. -/
theorem ClassFile.Outline.getElem?_insns_insert {o : Outline} {k n : ℕ} {code : List Insn}
    {stack : UInt16} (hk : k ≤ o.insns.length) (hn : n ≠ k) :
    (o.insert k code stack).insns[moved k code.length n]?
      = (o.insns[n]?).map (·.mapLabels (moveLabel k code.length)) := by
  have hfront : ((o.insns.take k).map (·.mapLabels (moveLabel k code.length))).length = k := by
    rw [List.length_map, List.length_take, Nat.min_eq_left hk]
  rw [insert]
  dsimp only
  -- Before the place nothing moves; behind it everything moves by the code's length.
  rcases Nat.lt_or_gt_of_ne hn with hlt | hgt
  · rw [moved_of_le (Nat.le_of_lt hlt), List.append_assoc,
      List.getElem?_append_left (by rw [hfront]; exact hlt), List.getElem?_map,
      List.getElem?_take_of_lt hlt]
  · rw [moved_of_lt hgt, List.getElem?_append_right (by rw [List.length_append, hfront]; omega),
      List.length_append, hfront, List.getElem?_map, List.getElem?_drop]
    congr 2
    omega

namespace Machine.Program

variable {pool : ConstantPool} {m : Member} {p : Program}

/-- A program is small, and its labels stand inside. -/
theorem bounds_of_ofMember (h : ofMember pool m = .ok p) :
    p.insns.size ≤ 65535 ∧ ∀ l n, p.target l = .ok n → n ≤ p.insns.size := by
  have hdecode := decodes_of_ofMember h
  obtain ⟨-, limits, -, rfl⟩ := (ofMember_eq_ok hdecode).mp h
  refine ⟨by simpa [ofBody] using length_insns_source_le hdecode, fun l n hn => ?_⟩
  have hposition := (target_ofBody (nodup_labels_source hdecode)).mp hn
  simpa [ofBody] using position_le hposition

end Machine.Program

section Target

variable {mode : RoundingMode} {pool pool' : ConstantPool} {m m' : Member} {f : Forwarding} {k : ℕ}
  {p p' : Program}

/-- What an instruction of the target does is done where it stands in the patched target. -/
theorem does_of_injected (h : Injected mode pool pool' m m' f k)
    (hp : Program.ofMember pool m = .ok p)
    (hp' : Program.ofMember pool' m' = .ok p') {n : ℕ} {i : Insn} {op : Operation}
    (hi : p.insns[n]? = some i) (hop : Operation.ofInsn i = .ok op) (hn : n ≠ k) :
    ∃ i' op', p'.insns[moved k f.insns.length n]? = some i' ∧ Operation.ofInsn i' = .ok op' ∧
      op.Alike (fun l l' => ∀ n, p.target l = .ok n →
        p'.target l' = .ok (moved k f.insns.length n)) op' := by
  have hfollows := Program.follows_of_ofMember hp
  have hfollows' := Program.follows_of_ofMember hp'
  obtain ⟨hsize, htarget⟩ := Program.bounds_of_ofMember hp
  obtain ⟨hsize', -⟩ := Program.bounds_of_ofMember hp'
  -- The instruction in index form, and the one in the patched target.
  have hlt : n < (m.outline pool).insns.length :=
    hfollows.size ▸ (Array.getElem?_eq_some_iff.mp hi).1
  obtain ⟨j, g, hj, hindex, hlabels⟩ := hfollows.has n _ (List.getElem?_eq_getElem hlt)
  obtain rfl : j = i := Option.some.inj (hj.symm.trans hi)
  have hmoved : (m'.outline pool').insns[moved k f.insns.length n]?
      = some ((j.mapLabels g).mapLabels (moveLabel k f.insns.length)) := by
    rw [h.outline, Outline.getElem?_insns_insert (Nat.le_of_lt h.lt) hn,
      List.getElem?_eq_getElem hlt, hindex]
    rfl
  obtain ⟨i', g', hi', hindex', hlabels'⟩ := hfollows'.has _ _ hmoved
  rw [Insn.mapLabels_mapLabels] at hindex'
  have hmap : (Operation.ofInsn i').map (Operation.mapLabels g')
      = (Operation.ofInsn j).map (Operation.mapLabels (moveLabel k f.insns.length ∘ g)) := by
    rw [← Operation.ofInsn_mapLabels, hindex', Operation.ofInsn_mapLabels]
  rw [hop] at hmap
  cases hop' : Operation.ofInsn i' with
  | error fault =>
    rw [hop'] at hmap
    cases hmap
  | ok op' =>
    rw [hop'] at hmap
    refine ⟨i', op', hi', hop', Operation.alike_of_mapLabels (Except.ok.inj hmap).symm ?_⟩
    intro l hl l' hl' hlabel n hn
    rw [Operation.targets_of_ofInsn hop] at hl
    rw [Operation.targets_of_ofInsn hop'] at hl'
    obtain ⟨n₁, hn₁, htarget₁, hg⟩ := hlabels l hl
    obtain ⟨n₂, hn₂, htarget₂, hg'⟩ := hlabels' l' hl'
    obtain rfl : n = n₁ := Except.ok.inj (hn.symm.trans htarget₁)
    have hcount : f.insns.length ≤ (m'.outline pool').insns.length := by
      rw [h.outline, Outline.insert]
      simp only [List.length_append]
      omega
    have hbound := htarget l n hn
    have hlength := hfollows'.size
    have hend : moved k f.insns.length n < 2147483648 := by
      unfold moved
      split <;> omega
    rw [Function.comp_apply, hg, moveLabel, Body.toNat_labelAt hn₁, hg'] at hlabel
    rw [htarget₂, Body.labelAt_inj hend hn₂ hlabel]

/-- **The patched target keeps the target**, the patched case apart. -/
theorem keeps_of_injected (h : Injected mode pool pool' m m' f k)
    (hp : Program.ofMember pool m = .ok p) : ∃ p', Program.ofMember pool' m' = .ok p' ∧
      (Detour.mk (m.name, m.descriptor) k f.insns.length).Keeps p p' := by
  have hfollows := Program.follows_of_ofMember hp
  -- A program has no handlers, and the call brings none.
  have hhandlers : (m'.outline pool').handlers = [] := by
    rw [h.outline, Outline.insert, Member.outline, MethodSource.outline]
    simp [((Program.ofMember_eq_ok h.decodes).mp hp).1]
  have hlimits : (m'.outline pool').limits
      = some (max p.maxStack f.requiredStack, p.maxLocals) := by
    rw [h.outline, Outline.insert, hfollows.limits]
    rfl
  obtain ⟨p', hp', hfollows'⟩ := Program.exists_ofMember h.decodes' hhandlers (by rw [hlimits]; rfl)
  have hkey : (p.name, p.descriptor) = (m.name, m.descriptor) :=
    Prod.ext hfollows.name hfollows.descriptor
  have hplace (n : ℕ) : (Detour.mk (m.name, m.descriptor) k f.insns.length).place p n
      = moved k f.insns.length n := if_pos hkey
  have hlands : (Detour.mk (m.name, m.descriptor) k f.insns.length).Lands p p' = fun l l' =>
      ∀ n, p.target l = .ok n → p'.target l' = .ok (moved k f.insns.length n) := by
    funext l l'
    unfold Detour.Lands
    simp only [hplace]
  obtain ⟨hmaxStack, hmaxLocals⟩ :=
    Prod.mk.inj (Option.some.inj (hfollows'.limits.symm.trans hlimits))
  refine ⟨p', hp', ?_, hmaxLocals, ?_, fun n i op hi hop hpasses => ?_⟩
  · rw [hfollows'.isStatic, hfollows.isStatic, h.outline]
    rfl
  · rw [hmaxStack]
    show p.maxStack.toNat
      ≤ (if p.maxStack ≤ f.requiredStack then f.requiredStack else p.maxStack).toNat
    split
    · next hle => exact UInt16.le_iff_toNat_le.mp hle
    · exact Nat.le_refl _
  · rw [hplace, hlands]
    exact does_of_injected h hp hp' hi hop fun heq => hpasses (by rw [hkey, heq])

end Target

/-! ### Patched classes -/

namespace Patched

variable {t : Transformer} {c c' : ClassFile} (q : Patched t c c') {name descriptor : String}

/-- The call as a detour. -/
def detour : Detour :=
  ⟨(t.settings.methodName, t.settings.descriptor), q.position, q.forwarding.insns.length⟩

/-- **A patched class** is the original one with a detour and the replacement. -/
theorem widens (hname : t.settings.replacement ∉ ["ordinal", "name", "toString"]) :
    q.detour.Widens (LoadedClass.ofClass c) (LoadedClass.ofClass c') where
  name := congrArg Header.name q.header
  cells := by
    unfold LoadedClass.ofClass
    rw [q.fields]
  program := by
    -- The target has the call in it; any other method is the same and is decoded with the larger
    -- pool.
    intro name descriptor p hp
    obtain ⟨m, hm, hp⟩ := LoadedClass.program_ofClass_eq_ok.mp hp
    have hfollows := Program.follows_of_ofMember hp
    have hkey : (p.name, p.descriptor) = (m.name, m.descriptor) :=
      Prod.ext hfollows.name hfollows.descriptor
    obtain ⟨rfl, hm'⟩ | ⟨hmem, hm'⟩ := q.find?_methods hm
    · obtain ⟨p', hp', hkeeps⟩ := keeps_of_injected q.injected hp
      obtain ⟨htarget, hdescriptor⟩ := isNamed_iff.mp q.named
      rw [htarget, hdescriptor] at hkeeps
      exact ⟨p', LoadedClass.program_ofClass_eq_ok.mpr ⟨_, hm', hp'⟩, hkeeps⟩
    · have hdecode := Member.decode_of_extends q.extends_pool (Program.decodes_of_ofMember hp)
      refine ⟨p, LoadedClass.program_ofClass_eq_ok.mpr ⟨m, hm', ?_⟩,
        Detour.keeps_refl fun heq => ?_⟩
      · unfold Program.ofMember at hp ⊢
        rwa [hdecode]
      · have hother := q.others m hmem
        rw [isNamed_iff.mpr (Prod.mk.inj (hkey.symm.trans heq))] at hother
        cases hother
  hasMethod := by
    intro name descriptor h
    rw [LoadedClass.hasMethod_ofClass_eq_find?, Option.isSome_iff_exists] at h ⊢
    obtain ⟨m, hm⟩ := h
    obtain ⟨-, hm'⟩ | ⟨-, hm'⟩ := q.find?_methods hm
    · exact ⟨_, hm'⟩
    · exact ⟨_, hm'⟩
  added := by
    intro name descriptor h h'
    rw [LoadedClass.hasMethod_ofClass_eq_find?, Option.isSome_eq_false_iff,
      Option.isNone_iff_eq_none] at h
    rw [LoadedClass.hasMethod_ofClass_eq_find?, Option.isSome_iff_exists] at h'
    obtain ⟨m, hm⟩ := h'
    obtain ⟨rfl, rfl⟩ := q.eq_replacement_of_find?_methods h hm
    exact ⟨hname, fun signature hsignature => Forwarding.isSome_result_of_plan q.plan hsignature⟩

end Patched

namespace Transformer

variable {t : Transformer} {x y : Bytes}

/-- **A patch does not disturb the runs that stay away from the patched case**, which is where the
one dense switch of the target goes for the patched mode, at instruction `k`. A call that returns
from the original class without executing this instruction returns the same from the patched class
and leaves the same store: the same heap, after the same number of instructions. The two classes
have the same name and the same fields, so the same requests prepare the same heap for both. -/
theorem modified_undisturbed {name : String} (h : t.outcome name x = .modified y)
    (hname : t.settings.replacement ∉ ["ordinal", "name", "toString"]) :
    ∃ c c' target low high default targets k,
      ClassFile.parse x = .ok c ∧ ClassFile.parse y = .ok c' ∧
      c.method? t.settings.methodName t.settings.descriptor = some target ∧
      (target.outline c.pool).insns.filter Insn.isSwitch = [.tableSwitch low high default targets] ∧
      targets[t.settings.patchedMode.ordinal]? = some (Body.labelAt k) ∧
      k < (target.outline c.pool).insns.length ∧
      (LoadedClass.ofClass c').name = (LoadedClass.ofClass c).name ∧
      (LoadedClass.ofClass c').cells = (LoadedClass.ofClass c).cells ∧
      ∀ (limits : Limits) (store : Store) (isStatic : Bool) (name descriptor : String)
        (args : List Value) (result : Option Value),
        let m : Machine := ⟨.ofClass c, limits, store⟩
        let m' : Machine := ⟨.ofClass c', limits, store⟩
        (m.call isStatic name descriptor args).1 = .ok result →
        ((t.settings.methodName, t.settings.descriptor), k)
          ∉ callTrace m isStatic name descriptor args →
        (m'.call isStatic name descriptor args).1 = .ok result ∧
          (m'.call isStatic name descriptor args).2.store
            = (m.call isStatic name descriptor args).2.store := by
  obtain ⟨c, c', hc, hc', ⟨q⟩⟩ := nonempty_patched h
  obtain ⟨low, high, default, targets, hswitch, hcase⟩ := q.injected.switch
  have hwidens := q.widens hname
  exact ⟨c, c', q.target, low, high, default, targets, q.position, hc, hc', q.method?_eq_target,
    hswitch, hcase, q.injected.lt, hwidens.name, hwidens.cells,
    fun _ _ _ _ _ _ _ hcall hpasses => Detour.call_simulates hwidens hcall hpasses⟩

/-- The patch of the example with the modes exchanged, which sends the second case of `f` to `g`. -/
def exchanged : Transformer :=
  { sample with settings := { sample.settings with patchedMode := .down, siblingMode := .up } }

/-- An object of class `T`. -/
def sampleStore : Store where
  heap := { objects := #[.object "T" []] }

/-- In the example method `f` goes to its first case, so it still answers 0 after four instructions
when the second case is patched. -/
theorem modified_undisturbed_exchanged : ∃ (y : Bytes) (c' : ClassFile),
    exchanged.outcome "T" sampleClass = .modified y ∧ ClassFile.parse y = .ok c' ∧
      let m : Machine := ⟨.ofClass c', {}, sampleStore⟩
      (m.callVirtual ⟨0⟩ "f" "()I" []).1 = .ok (some (.int 0)) ∧
        (m.callVirtual ⟨0⟩ "f" "()I" []).2.store.steps = 4 := by
  have houtcome : (exchanged.outcome "T" sampleClass).bytes?.isSome := by
    decide +kernel
  obtain ⟨y, hy⟩ := Option.isSome_iff_exists.mp houtcome
  have hswitches : (do
      let c ← ClassFile.parse sampleClass
      pure ((c.method? "f" "()I").map fun m : Member =>
        ((m.outline c.pool).insns.filter Insn.isSwitch, (m.outline c.pool).insns.length))) =
      .ok (some ([.tableSwitch 0 1 (Body.labelAt 4) [Body.labelAt 2, Body.labelAt 4]], 6)) := by
    decide +kernel
  have hcall : (do
      let c ← ClassFile.parse sampleClass
      let m : Machine := ⟨.ofClass c, {}, sampleStore⟩
      let result ← (m.call false "f" "()I" [.obj ⟨0⟩]).1
      pure (result, (m.call false "f" "()I" [.obj ⟨0⟩]).2.store.steps,
        callTrace m false "f" "()I" [.obj ⟨0⟩])) =
      .ok (some (.int 0), 4, [(("f", "()I"), 0), (("f", "()I"), 1), (("f", "()I"), 2),
        (("f", "()I"), 3)]) := by
    decide +kernel
  obtain ⟨c, c', target, low, high, default, targets, k, hc, hc', htarget, hswitch,
      hcase, hlt, -, -, hruns⟩ := modified_undisturbed (bytes?_eq_some.mp hy) (by decide)
  have htarget : c.method? "f" "()I" = some target := htarget
  obtain ⟨_, hparse, hswitches⟩ := except_bind_eq_ok.mp hswitches
  obtain rfl := Except.ok.inj (hc.symm.trans hparse)
  rw [htarget] at hswitches
  obtain ⟨hfilter, hlength⟩ := Prod.mk.inj (Option.some.inj (Except.ok.inj hswitches))
  obtain ⟨_, hparse, hcall⟩ := except_bind_eq_ok.mp hcall
  obtain rfl := Except.ok.inj (hc.symm.trans hparse)
  obtain ⟨result, hresult, hcall⟩ := except_bind_eq_ok.mp hcall
  obtain ⟨rfl, hmore⟩ := Prod.mk.inj (Except.ok.inj hcall)
  obtain ⟨hsteps, htrace⟩ := Prod.mk.inj hmore
  -- The patched case starts at instruction 4, and the call executes the first four.
  obtain ⟨hinsn, -⟩ := List.cons.inj (hswitch.symm.trans hfilter)
  obtain ⟨-, -, -, rfl⟩ := Insn.tableSwitch.inj hinsn
  have hk : Body.labelAt 4 = Body.labelAt k := Option.some.inj hcase
  obtain rfl := Body.labelAt_inj (by decide) (by omega) hk
  obtain ⟨hsame, hstore⟩ := hruns {} sampleStore false "f" "()I" [.obj ⟨0⟩] _ hresult
    (by rw [htrace]; decide)
  refine ⟨y, c', bytes?_eq_some.mp hy, hc', hsame, ?_⟩
  rw [Machine.callVirtual, hstore]
  exact hsteps

end Transformer

end RoundingPatch
