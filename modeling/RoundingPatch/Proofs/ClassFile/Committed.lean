import RoundingPatch.Proofs.ClassFile.Construction
/-!
# Methods that are written are read back

A class is built from nothing, and one of its methods is given by any sequence of events. If the
method is committed and the class is written, then the class is read, the method is found in it, and
it decodes to the method that was given, up to the form of its instructions (`commit_read_back`).

Two things are left to whoever builds the class: writing takes any version of the class file format
and any switch over a range, but reading does not take a version it does not know, nor a range
without keys (`commit_unreadable`).
-/

namespace RoundingPatch.ClassFile

open Read ClassDraft MethodEvent

/-! ### Instructions as they should be -/

/-- Whether the opcode of an instruction belongs to its kind and its operands do not depend on a
pool. -/
def Insn.isProper : Insn → Bool
  | simple op => Opcode.isSimple op
  | int op _ => op == Opcode.bipush || op == Opcode.sipush || op == Opcode.newarray
  | var op _ => Opcode.isVar op
  | type op _ => Opcode.operands op == .classRef
  | field op .. => Opcode.operands op == .field
  | method op _ _ _ onInterface =>
    Opcode.operands op == .method || op == Opcode.invokeinterface && onInterface
  | jump op _ => Opcode.isJump op
  | callSite _ | ldc (.pooled _) => false
  | _ => true

/-- Whether an instruction is a switch over a range without keys. -/
def Insn.isEmptySwitch : Insn → Bool
  | tableSwitch _ _ _ [] => true
  | _ => false

/-- An instruction whose opcode belongs to its kind can be read back, if it is no switch without
targets. -/
theorem Insn.legible_of_isProper {i : Insn} (pool : ConstantPool) (h : i.isProper = true)
    (hswitch : i.isEmptySwitch = false) : i.Legible pool := by
  cases i with
  | simple op =>
    rcases operands_of_isSimple h with hop | ⟨access, index, hop⟩
    · exact .readable (.simple hop)
    · exact .packed hop
  | int op operand => exact .readable (.int op operand)
  | var op index => exact .readable (.var op index)
  | iinc index delta => exact .readable (.iinc index delta)
  | type op name => exact .readable (.type (beq_iff_eq.mp h) name)
  | field op owner name descriptor =>
    exact .readable (.field (beq_iff_eq.mp h) owner name descriptor)
  | method op owner name descriptor onInterface =>
    simp only [isProper, Bool.or_eq_true, Bool.and_eq_true, beq_iff_eq] at h
    rcases h with hop | ⟨rfl, rfl⟩
    · exact .readable (.method hop owner name descriptor onInterface)
    · exact .readable (.interfaceMethod owner name descriptor)
  | callSite index => cases h
  | ldc constant =>
    refine .readable (.ldc fun i hi => ?_)
    subst hi
    cases h
  | jump op target =>
    rcases operands_of_isJump h with hop | ⟨short, hop⟩
    · exact .readable (.jump hop target)
    · exact .wide hop target
  | tableSwitch low high default targets =>
    refine .readable (.tableSwitch low high default fun hempty => ?_)
    subst hempty
    cases hswitch
  | lookupSwitch default pairs => exact .readable (.lookupSwitch default pairs)
  | multiArray name dimensions => exact .readable (.multiArray name dimensions)

/-! ### Committed methods -/

/-- **A method that is committed reads back** from the bytes of its class, whatever calls build the
rest of the class. Its instructions are in normal form, and its line numbers are those of each
position. -/
theorem commit_read_back {header : Header} (before after : List DraftCall) {m : MethodSource}
    {emitted : Emitted} {draft : ClassDraft} {bytes : Bytes} (hlimits : m.limits.isSome)
    (hm : m.Anchored) (hproper : ∀ i ∈ insns m.events, i.isProper = true)
    (hattributes : m.attributes = [])
    (hcommit : Yields (commit m) ((ClassDraft.start header none).after before) emitted draft)
    (hbytes : (draft.after after).toBytes = .ok bytes)
    (hversion : isKnownVersion (draft.after after).header.major = true)
    (hswitches : ∀ i ∈ insns m.events, i.isEmptySwitch = false) :
    ∃ c found, parse bytes = .ok c ∧ c.method? m.name m.descriptor = some found ∧
      (found.decode c.pool).failure = none ∧ m.outline.ReadsAs (found.outline c.pool) := by
  -- Without a seed, copied members are refused and calls cannot bring in foreign indices.
  have hnative (call : DraftCall) : call.Native none := by cases call <;> simp [DraftCall.Native]
  have hframed : Framed none ((ClassDraft.start header none).after before) :=
    (framed_start.after fun call _ => hnative call).1
  obtain ⟨c, piece, b, hparse, hfinish, hmeans, hzero, hfound⟩ :=
    exists_found hframed hcommit (fun call _ => hnative call) nofun hbytes hversion
  obtain ⟨found, hread, hdecode, houtline⟩ := MethodSource.read_finish_upto "method" hm
    (fun i hi => Insn.legible_of_isProper _ (hproper i hi) (hswitches i hi))
    (by rw [hattributes]; nofun) hlimits hfinish hmeans hzero
  have hname : found.name = m.name ∧ found.descriptor = m.descriptor := by
    have h := houtline.rest
    exact ⟨congrArg Outline.name h, congrArg Outline.descriptor h⟩
  refine ⟨c, found, hparse, ?_, hdecode, houtline⟩
  rw [← hname.1, ← hname.2]
  exact hfound found hread

/-- The header of a class `T`. -/
def headerOfVersion (major : UInt16) : Header :=
  ⟨0, major, 0x21, "T", some "java/lang/Object", []⟩

/-- A method with forms of instructions that are not read as they are written, with its line numbers
out of order. -/
def assorted : MethodSource where
  access := 9
  name := "f"
  descriptor := "(I)V"
  events := [
    .code 1 1, .tryCatch ⟨.synthetic 0, .synthetic 2, .synthetic 1, none⟩,
    .label (.synthetic 0), .insn (.simple Opcode.iload0),
    .insn (.tableSwitch 3 3 (.synthetic 1) [.synthetic 0]),
    .label (.synthetic 1), .line 8 (.synthetic 1), .line 7 (.synthetic 0), .frame .same,
    .insn (.jump Opcode.gotoW (.synthetic 0)), .label (.synthetic 2),
    .localVariable ⟨.descriptors, "n", "I", .synthetic 0, .synthetic 2, 0⟩]

/-- What building a class with one method comes to. -/
theorem exists_committed (major : UInt16) (m : MethodSource)
    (h : ((ClassDraft.start (headerOfVersion major) none).build (commit m)).isOk = true) :
    ∃ emitted draft bytes,
      Yields (commit m) (.start (headerOfVersion major) none) emitted draft ∧
        draft.toBytes = .ok bytes := by
  rcases hbuild : (ClassDraft.start (headerOfVersion major) none).build (commit m) with _ | bytes
  · rw [hbuild] at h
    cases h
  · obtain ⟨emitted, draft, _, hcommit, hserialize⟩ := build_eq_ok.mp hbuild
    exact ⟨emitted, draft, bytes, hcommit, congrArg Prod.fst hserialize⟩

/-- The method reads back with `iload 0` and `goto`. -/
theorem commit_read_back_assorted : ∃ emitted draft bytes c found,
    Yields (commit assorted) (.start (headerOfVersion 52) none) emitted draft ∧
      draft.toBytes = .ok bytes ∧ parse bytes = .ok c ∧ c.method? "f" "(I)V" = some found ∧
      (found.decode c.pool).failure = none ∧ (found.outline c.pool).insns = [
        .var Opcode.iload 0,
        .tableSwitch 3 3 (Body.labelAt 2) [Body.labelAt 0],
        .jump Opcode.goto (Body.labelAt 0)] := by
  obtain ⟨emitted, draft, bytes, hcommit, hbytes⟩ :=
    exists_committed 52 assorted (by decide +kernel)
  have hanchored : assorted.Anchored :=
    ⟨by decide +kernel, by decide +kernel, by decide +kernel⟩
  have hversion : isKnownVersion draft.header.major = true := by
    obtain ⟨-, _, _, -, rfl⟩ := yields_commit.mp hcommit
    rfl
  obtain ⟨c, found, hparse, hfound, hdecode, houtline⟩ := commit_read_back [] [] (by decide +kernel)
    hanchored (by decide +kernel) (by decide +kernel) hcommit hbytes hversion (by decide +kernel)
  have hinsns := congrArg Outline.insns houtline.rest
  -- The instructions that come back are computed from the events.
  refine ⟨emitted, draft, bytes, c, found, hcommit, hbytes, hparse, hfound, hdecode,
    hinsns.trans ?_⟩
  show assorted.outline.insns.map Insn.normal = _
  decide +kernel

/-- A method that does nothing. -/
def idle : MethodSource where
  access := 9
  name := "f"
  descriptor := "()V"
  events := [.code 0 0, .insn (.simple Opcode.vreturn)]

/-- A method with a switch over the keys from 0 to -1. -/
def keyless : MethodSource where
  access := 9
  name := "f"
  descriptor := "()V"
  events := [
    .code 1 0, .insn (.simple Opcode.iconst0), .insn (.tableSwitch 0 (-1) (.synthetic 0) []),
    .label (.synthetic 0), .insn (.simple Opcode.vreturn)]

/-- **Not every method that is committed reads back.** A class of version 44 is written and is not
read, and a switch without keys is written and is not decoded. -/
theorem commit_unreadable :
    (∀ m ∈ [idle, keyless], m.limits.isSome ∧ m.Anchored ∧
      (∀ i ∈ insns m.events, i.isProper = true) ∧ m.attributes = []) ∧
    (∃ emitted draft bytes, Yields (commit idle) (.start (headerOfVersion 44) none) emitted draft ∧
      draft.toBytes = .ok bytes ∧ ∀ c, parse bytes ≠ .ok c) ∧
    ∃ emitted draft bytes c found,
      Yields (commit keyless) (.start (headerOfVersion 52) none) emitted draft ∧
      draft.toBytes = .ok bytes ∧ parse bytes = .ok c ∧ c.method? "f" "()V" = some found ∧
      (found.decode c.pool).failure ≠ none := by
  refine ⟨?_, ?_, ?_⟩
  · -- Both methods are what the reading back asks for.
    have hidle : idle.Anchored := ⟨by decide +kernel, by decide +kernel, by decide +kernel⟩
    have hkeyless : keyless.Anchored := ⟨by decide +kernel, by decide +kernel, by decide +kernel⟩
    rw [List.forall_mem_cons, List.forall_mem_singleton]
    exact ⟨⟨by decide +kernel, hidle, by decide +kernel, by decide +kernel⟩,
      by decide +kernel, hkeyless, by decide +kernel, by decide +kernel⟩
  · -- The version is written as it is, and refused.
    obtain ⟨emitted, draft, bytes, hcommit, hbytes⟩ :=
      exists_committed 44 idle (by decide +kernel)
    refine ⟨emitted, draft, bytes, hcommit, hbytes, fun c hparse => ?_⟩
    have hversion := isKnownVersion_of_parse hbytes hparse
    obtain ⟨-, _, _, -, rfl⟩ := yields_commit.mp hcommit
    cases hversion
  · obtain ⟨emitted, draft, bytes, hcommit, hbytes⟩ :=
      exists_committed 52 keyless (by decide +kernel)
    have hbuild : (ClassDraft.start (headerOfVersion 52) none).build (commit keyless) = .ok bytes :=
      build_eq_ok.mpr ⟨emitted, draft, _, hcommit, Prod.ext hbytes rfl⟩
    have hfails : (do
        let bytes ← (ClassDraft.start (headerOfVersion 52) none).build (commit keyless)
        let c ← parse bytes
        pure ((c.method? "f" "()V").map fun m : Member => (m.decode c.pool).failure.isSome))
        = .ok (some true) := by decide +kernel
    obtain ⟨_, hbuild', hfails⟩ := except_bind_eq_ok.mp hfails
    cases hbuild.symm.trans hbuild'
    obtain ⟨c, hparse, hfails⟩ := except_bind_eq_ok.mp hfails
    obtain ⟨found, hfound, hfailure⟩ := Option.map_eq_some_iff.mp (Except.ok.inj hfails)
    refine ⟨emitted, draft, bytes, c, found, hcommit, hbytes, hparse, hfound, fun hnone => ?_⟩
    rw [hnone] at hfailure
    cases hfailure

end RoundingPatch.ClassFile
