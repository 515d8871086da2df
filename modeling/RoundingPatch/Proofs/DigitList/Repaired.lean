import RoundingPatch.Proofs.DigitList.PatchedBuild
import RoundingPatch.Proofs.DigitList.Prepared
import RoundingPatch.Proofs.Patch.Rehearsal
/-!
# The patched build answers as the fixed build

The patch with all settings at their defaults modifies the affected build
(`Specimen.exists_patched`). On every receiver, and for all words as arguments, the decision of the
patched build comes to what that of the fixed build comes to (`patched_answers_as_fixed`): the same
word, or the same fault. The two execute different numbers of instructions in the half cases only,
where both stay far below the budget of a call; the loops, which may exceed it, are the same in
both.
-/

namespace RoundingPatch

open ClassFile Machine

namespace DigitList

variable {c c' : ClassFile} {machine : Machine} {this : ObjRef} {x : Receiver}

/-- **The patched build on a receiver.** -/
theorem callVirtual_patched (q : Patched .standard c c') (hc : Specimen.affected.IsReadAs c)
    (hloaded : machine.loaded = .ofClass c') (hx : x.IsAt machine.heap this)
    (hdepth : 1 ≤ machine.limits.maxDepth) (place rounded exact : Int32) :
    (machine.callVirtual this "shouldRoundUp" "(IZZ)Z"
      [.int place, .int rounded, .int exact]).1
        = (x.patched place rounded exact).within machine.limits := by
  obtain ⟨p, hp, hstatic, hlocals, hroom, hstands, hforwarding, hhalfDown⟩ := q.exists_program hc
  obtain ⟨callee, hcallee, hreplacement, hlimits⟩ := q.exists_program_replacement
  have hhost := q.isHost hc
  let args : List Value := [.int place, .int rounded, .int exact]
  obtain ⟨hargs, hlength⟩ := arguments_locals hlocals this place rounded exact
  have hcomes : Comes machine.loaded machine.limits ⟨⟨p, p.locals (.obj this :: args), [], 0⟩, []⟩
      machine.heap (x.patched place rounded exact) := by
    rw [hloaded]
    exact comes_patched hhost hx hstands (by rw [hhost.name]; exact hforwarding)
      hhalfDown hroom hargs hlength hcallee hreplacement hlimits hdepth
  exact (callVirtual_of_comes (by rw [hloaded]; exact hp) hstatic
    (by rw [hlocals]; exact show 3 < 5 by decide) hcomes).1

end DigitList

/-- **The affected build is modified.** -/
theorem Specimen.exists_patched : ∃ affected patched, Specimen.affected.bytes = .ok affected ∧
    Transformer.standard.outcome DigitList.Bytecode.className affected = .modified patched := by
  have hpatched : (Specimen.affected.bytes.toOption.bind Transformer.standard.rehearse).isSome := by
    decide +kernel
  obtain ⟨patched, hpatched⟩ := Option.isSome_iff_exists.mp hpatched
  obtain ⟨affected, haffected, hpatched⟩ := Option.bind_eq_some_iff.mp hpatched
  exact ⟨affected, patched, Transformer.toOption_eq_some.mp haffected,
    Transformer.modified_iff.mpr ⟨rfl, Transformer.rehearse_eq_some.mp hpatched⟩⟩

namespace DigitList

/-- **The patched build answers as the fixed build.** -/
theorem patched_answers_as_fixed : ∃ affected patched fixed,
    Specimen.affected.bytes = .ok affected ∧ Specimen.fixed.bytes = .ok fixed ∧
      (∀ disk, ∃ t, Transformer.ofSettings disk {} = .ok t ∧
        t.outcome Bytecode.className affected = .modified patched) ∧
      ∀ (x : Receiver) (decimalAt place rounded exact : Int32), ∃ this m this' m',
        x.prepare decimalAt patched {} = .ok (this, m) ∧
        x.prepare decimalAt fixed {} = .ok (this', m') ∧
          (m.callVirtual this "shouldRoundUp" "(IZZ)Z" [.int place, .int rounded, .int exact]).1
            = (m'.callVirtual this' "shouldRoundUp" "(IZZ)Z"
                [.int place, .int rounded, .int exact]).1 := by
  obtain ⟨affected, patched, haffected, hpatched⟩ := Specimen.exists_patched
  obtain ⟨fixed, hfixed⟩ := Specimen.exists_bytes_fixed
  obtain ⟨c, c', hc, hc', ⟨q⟩⟩ := Transformer.nonempty_patched hpatched
  obtain ⟨_, hparse, hread⟩ := Specimen.parse_of_bytes haffected
  obtain rfl := Except.ok.inj (hc.symm.trans hparse)
  obtain ⟨cfixed, hcfixed, hreadFixed⟩ := Specimen.parse_of_bytes hfixed
  have hname : (LoadedClass.ofClass c').name = Bytecode.className := (q.isHost hread).name
  have hcells : (LoadedClass.ofClass c').cells = Specimen.cells := by
    rw [← hread.cells_eq, LoadedClass.ofClass, LoadedClass.ofClass, q.fields]
  refine ⟨affected, patched, fixed, haffected, hfixed,
    fun disk => ⟨.standard, Transformer.ofSettings_default disk, hpatched⟩,
    fun x decimalAt place rounded exact => ?_⟩
  obtain ⟨this, m, hprepare, hx, hloaded, hlimits⟩ :=
    Receiver.exists_prepare hc' hname hcells x decimalAt {}
  obtain ⟨this', m', hprepare', hx', hloaded', hlimits'⟩ :=
    Receiver.exists_prepare hcfixed hreadFixed.name hreadFixed.cells_eq x decimalAt {}
  refine ⟨this, m, this', m', hprepare, hprepare', ?_⟩
  rw [callVirtual_patched q hread hloaded hx (by rw [hlimits]; decide),
    (callVirtual_fixed hreadFixed hloaded' hx' place rounded exact).1, hlimits, hlimits']
  exact Receiver.within_patched (by decide)

end DigitList

end RoundingPatch
