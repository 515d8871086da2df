import RoundingPatch.Proofs.DigitList.Repair
import RoundingPatch.Proofs.DigitList.Specimen
import RoundingPatch.Proofs.Patch.Undisturbed
/-!
# The patched build in index form

The patch with all settings at their defaults (`Transformer.standard`) makes the patched build of
the affected one. Its rounding decision consists of the parts that all builds have in common, the
call of the replacement and the affected half cases (`Patched.exists_program`), and its replacement
is the decision of the built-in template (`Patched.exists_program_replacement`).
-/

namespace RoundingPatch

open ClassFile MethodEvent Machine DigitList

/-- The patch of the digit list class. -/
def Transformer.standard : Transformer :=
  ⟨{}, TemplateSource.builtIn {}⟩

/-- The defaults of the settings are valid. -/
theorem PatchSettings.validate_default : PatchSettings.validate {} = .ok () := by
  have hfault : PatchSettings.fault? {} = none := by
    unfold fault?
    rw [DigitList.Decision.parse_descriptor]
    rfl
  unfold validate
  rw [hfault]

/-- It is the patch with all settings at their defaults. -/
theorem Transformer.ofSettings_default (disk : Disk) :
    Transformer.ofSettings disk {} = .ok .standard := by
  unfold ofSettings withTemplate
  rw [PatchSettings.validate_default]
  rfl

/-! ### The instructions -/

/-- The call of the replacement. -/
def standardForwarding : Forwarding where
  owner := Bytecode.className
  name := Transformer.standard.settings.replacement
  descriptor := "(IZZ)Z"
  signature := ⟨[.int, .boolean, .boolean], some .boolean⟩

namespace DigitList.Decision

/-- The affected case of `HALF_UP` at position `k`. -/
def halfUpAffected (k common : ℕ) : List Operation :=
  digit 1 ++ [.push (.int 53), goTo (.words .lt) common] ++ decisiveAndLast
    ++ [goTo (.words .ne) (k + 16), .loadInt 2, goTo (.withZero .eq) (k + 16)]
    ++ answer 0 ++ answer 1

end DigitList.Decision

namespace Specimen

set_option maxRecDepth 100000 in
/-- Where the cases of the affected build start. -/
theorem switch_affected : affected.shouldRoundUp.outline.insns.filter Insn.isSwitch
    = [.tableSwitch 0 7 (Body.labelAt (Decision.commonAt 46))
        (RoundingMode.all.map fun mode => Body.labelAt (Decision.caseAt 81 46 mode))] :=
  rfl

set_option maxRecDepth 100000 in
/-- The instructions of the affected build with the call in it. -/
theorem ofInsn_patched :
    ((affected.shouldRoundUp.outline.insert 63 standardForwarding.insns
      standardForwarding.requiredStack).insns.map Operation.ofInsn)
      = (Decision.front 87 52
          ++ (Decision.forwarding Bytecode.className Transformer.standard.settings.replacement
            ++ Decision.halfUpAffected 69 (Decision.commonAt 52)
            ++ Decision.halfDownAffected 87 (Decision.commonAt 52))
          ++ Decision.back 52).map .ok :=
  rfl

/-- The instructions of the replacement. -/
theorem ofInsn_replacement :
    ((Transformer.standard.transplant.outline
      (TemplateSource.decision Transformer.standard.settings.templateClass
        Transformer.standard.settings.replacement).outline).insns.map Operation.ofInsn)
      = Decision.replacement.map .ok := by
  decide +kernel

end Specimen

/-! ### The built-in template -/

namespace TemplateSource

/-- The assembly of the built-in template. -/
def standardAssembly : Assembly :=
  assembly Transformer.standard.settings.templateClass Transformer.standard.settings.replacement

/-- The replacement's assembly has only methods whose text the parser reads back. -/
theorem checkReadable_standardAssembly :
    ∀ m ∈ standardAssembly.methods, m.checkReadable = true := by
  decide

/-- The method that is copied from the built-in template. -/
theorem outline_of_builtIn {bytes : Bytes} {template : ClassFile} {copied : Member}
    (hcontents : Transformer.standard.template.contents = .ok bytes)
    (htemplate : ClassFile.parse bytes = .ok template)
    (hcopied : template.method? Transformer.standard.settings.replacement
      Transformer.standard.settings.descriptor = some copied) :
    copied.outline template.pool = (decision Transformer.standard.settings.templateClass
      Transformer.standard.settings.replacement).outline := by
  have hbytes : standardAssembly.bytes = .ok bytes := hcontents
  obtain ⟨_, hparse, -, -, -, -, houtlines⟩ :=
    Assembly.parse_of_bytes hbytes rfl checkReadable_standardAssembly
  obtain rfl := Except.ok.inj (htemplate.symm.trans hparse)
  -- Parsing the assembled bytes gives the outlines of the assembly, in order.
  have hfind : (standardAssembly.methods.map MethodSource.outline).find?
      (·.isNamed Transformer.standard.settings.replacement Transformer.standard.settings.descriptor)
        = some (copied.outline template.pool) := by
    rw [← houtlines, ← LoadedClass.find?_methods, ← method?_eq_find?, hcopied]
    rfl
  have hdecision : (standardAssembly.methods.map MethodSource.outline).find?
      (·.isNamed Transformer.standard.settings.replacement Transformer.standard.settings.descriptor)
        = some (decision Transformer.standard.settings.templateClass
            Transformer.standard.settings.replacement).outline :=
    rfl
  exact Option.some.inj (hfind.symm.trans hdecision)

end TemplateSource

/-! ### The programs -/

namespace Patched

variable {c c' : ClassFile} (q : Patched .standard c c')

include q

/-- The target is the affected decision. -/
theorem outline_target (hc : Specimen.affected.IsReadAs c) :
    q.target.outline c.pool = Specimen.affected.shouldRoundUp.outline := by
  have hfind : (c.methods.map (Member.outline c.pool)).find? (·.isNamed "shouldRoundUp" "(IZZ)Z")
      = some Specimen.affected.shouldRoundUp.outline := by
    rw [hc.outlines]
    rfl
  rw [← LoadedClass.find?_methods, ← method?_eq_find?] at hfind
  have htarget : c.method? "shouldRoundUp" "(IZZ)Z" = some q.target := q.method?_eq_target
  rw [htarget] at hfind
  exact Option.some.inj hfind

/-- The call is that of the replacement. -/
theorem forwarding_eq (hc : Specimen.affected.IsReadAs c) : q.forwarding = standardForwarding := by
  have haccess : q.target.access = Access.privateFlag :=
    congrArg Outline.access (q.outline_target hc)
  have hplan := q.plan
  have hstandard : Forwarding.plan Bytecode.className Transformer.standard.settings.replacement
      Access.privateFlag "(IZZ)Z" = .ok standardForwarding := by
    unfold Forwarding.plan
    rw [DigitList.Decision.parse_descriptor]
    rfl
  rw [haccess] at hplan
  exact Except.ok.inj (hplan.symm.trans hstandard)

/-- It stands at the affected case of `HALF_UP`. -/
theorem position_eq (hc : Specimen.affected.IsReadAs c) : q.position = 63 := by
  obtain ⟨low, high, default, targets, hswitch, hcase⟩ := q.injected.switch
  rw [q.outline_target hc, Specimen.switch_affected] at hswitch
  obtain ⟨hinsn, -⟩ := List.cons.inj hswitch
  obtain ⟨-, -, -, rfl⟩ := Insn.tableSwitch.inj hinsn
  -- Labels are words, so the offset is recovered from its label only below `2 ^ 16`.
  have hlength : (q.target.outline c.pool).insns.length ≤ 65535 :=
    (List.length_map ..).trans_le (Program.length_insns_source_le q.injected.decodes)
  have hlt := q.injected.lt
  have hcase : Body.labelAt 63 = Body.labelAt q.position := Option.some.inj hcase
  exact (Body.labelAt_inj (by decide) (by omega) hcase).symm

/-- The target with the call in it. -/
theorem outline_target' (hc : Specimen.affected.IsReadAs c) : q.target'.outline c'.pool
    = Specimen.affected.shouldRoundUp.outline.insert 63 standardForwarding.insns
        standardForwarding.requiredStack := by
  rw [q.injected.outline, q.outline_target hc, q.forwarding_eq hc, q.position_eq hc]

/-- **The program of the patched build.** -/
theorem exists_program (hc : Specimen.affected.IsReadAs c) :
    ∃ p, (LoadedClass.ofClass c').program "shouldRoundUp" "(IZZ)Z" = .ok p ∧ p.isStatic = false ∧
      p.maxLocals = 5 ∧ 4 ≤ p.maxStack.toNat ∧ DigitList.Decision.StandsIn p 87 52 ∧
      p.Segment 63 (DigitList.Decision.forwarding Bytecode.className
        Transformer.standard.settings.replacement) ∧
      p.Segment 87 (DigitList.Decision.halfDownAffected 87 (DigitList.Decision.commonAt 52)) := by
  have houtline := q.outline_target' hc
  obtain ⟨p, hp, hfollows⟩ := Program.exists_ofMember q.injected.decodes'
    (by rw [houtline]; rfl) (by rw [houtline]; rfl)
  rw [houtline] at hfollows
  have hsegment := hfollows.segment Specimen.ofInsn_patched
  have hlimits : some ((4 : UInt16), (5 : UInt16)) = some (p.maxStack, p.maxLocals) :=
    hfollows.limits
  obtain ⟨hstack, hlocals⟩ := Prod.mk.inj (Option.some.inj hlimits)
  -- The injected loads need one slot more than the method had.
  have hroom : 4 ≤ p.maxStack.toNat := by
    rw [← hstack]
    decide
  exact ⟨p, LoadedClass.program_ofClass_eq_ok.mpr ⟨q.target', q.find?_target, hp⟩,
    hfollows.isStatic, hlocals.symm, hroom,
    ⟨hsegment.left.left, hsegment.right, Nat.le_of_succ_le hroom, by decide⟩,
    hsegment.left.right.left.left, hsegment.left.right.right⟩

/-- **The program of the replacement.** -/
theorem exists_program_replacement :
    ∃ p, (LoadedClass.ofClass c').program Transformer.standard.settings.replacement "(IZZ)Z"
      = .ok p ∧
      p.Segment 0 DigitList.Decision.replacement ∧ 3 ≤ p.maxStack.toNat ∧
      3 < p.maxLocals.toNat := by
  obtain ⟨bytes, hcontents, htemplate⟩ := q.parse_template
  have houtline := q.outline_replacement
  rw [TemplateSource.outline_of_builtIn hcontents htemplate q.find_copied] at houtline
  obtain ⟨p, hp, hfollows⟩ := Program.exists_ofMember q.decodes_replacement
    (by rw [houtline]; rfl) (by rw [houtline]; rfl)
  rw [houtline] at hfollows
  have hlimits : some ((3 : UInt16), (4 : UInt16)) = some (p.maxStack, p.maxLocals) :=
    hfollows.limits
  obtain ⟨hstack, hlocals⟩ := Prod.mk.inj (Option.some.inj hlimits)
  refine ⟨p, LoadedClass.program_ofClass_eq_ok.mpr ⟨q.replacement, q.find?_replacement, hp⟩,
    hfollows.segment Specimen.ofInsn_replacement, ?_, ?_⟩
  · rw [← hstack]
    decide
  · rw [← hlocals]
    decide

/-- The patched build calls other classes for what the affected one does. -/
theorem isHost (hc : Specimen.affected.IsReadAs c) : DigitList.IsHost (LoadedClass.ofClass c') := by
  have hhost := hc.isHost
  -- The patch only adds the replacement, so what else was missing is still missing.
  have hlacks {name descriptor : String} (hname : name ≠ Transformer.standard.settings.replacement)
      (h : (LoadedClass.ofClass c).hasMethod name descriptor = false) :
      (LoadedClass.ofClass c').hasMethod name descriptor = false := by
    rw [LoadedClass.hasMethod_ofClass_eq_find?, Option.isSome_eq_false_iff,
      Option.isNone_iff_eq_none]
      at h ⊢
    by_contra hfound
    obtain ⟨m, hm⟩ := Option.ne_none_iff_exists'.mp hfound
    exact hname (q.eq_replacement_of_find?_methods h hm).1
  exact ⟨(congrArg Header.name q.header).trans hhost.name, hlacks (by decide) hhost.ordinal,
    hlacks (by decide) hhost.construct⟩

end Patched

end RoundingPatch
