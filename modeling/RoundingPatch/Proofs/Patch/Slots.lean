import RoundingPatch.Proofs.ClassFile.Committed
import RoundingPatch.Proofs.ClassFile.Descriptor
import RoundingPatch.Proofs.Patch.Forwarding
/-!
# Counting places

The places of a method's parameters are counted three times: for the method alone, for the call that
is put into a class, and where a call through an interface is written. All three counts are right as
far as they fit into their fields, which have two bytes, two bytes and one (`slots_of_parse`). A
call through an interface is written without an error even if its count does not fit
(`countByte_lost`).
-/

namespace RoundingPatch

open ClassFile ClassDraft

namespace Forwarding

variable {f : Forwarding} {owner name descriptor : String} {access : Access} {d : MethodDescriptor}

/-- A call is planned from the method that its descriptor describes. -/
theorem eq_of_plan (hd : MethodDescriptor.parse descriptor = .ok d)
    (h : plan owner name access descriptor = .ok f) : f = ⟨owner, name, descriptor, d⟩ := by
  unfold plan at h
  split at h
  · cases h
  · obtain ⟨signature, hsignature, h⟩ := except_bind_eq_ok.mp h
    obtain rfl : d = signature := Except.ok.inj (hd.symm.trans hsignature)
    dsimp only at h
    split at h
    · cases h
    · exact (Except.ok.inj h).symm

/-- Each parameter is loaded from the variable behind those of the parameters in front of it. -/
theorem loads_eq_mapIdx (start : Nat) (params : List FieldType) :
    loads (UInt16.ofNat start) params = params.mapIdx fun i t =>
      .var t.loadOpcode (UInt16.ofNat (start + placesOf (params.take i))) := by
  induction params generalizing start with
  | nil => rfl
  | cons t params ih =>
    have hnext : UInt16.ofNat start + t.slots = UInt16.ofNat (start + t.places) := by
      rw [UInt16.ofNat_add, ← toNat_slots, UInt16.ofNat_toNat]
    rw [loads, hnext, ih, List.mapIdx_cons]
    simp only [List.take_zero, placesOf_nil, Nat.add_zero, List.take_succ_cons, placesOf_cons,
      Nat.add_assoc]

end Forwarding

/-- **Places are counted up to overflow.** For every method that a descriptor describes: the count
of its places is right up to a multiple of 65536; so is the depth of the stack that a call asks for,
and so are the variables that the call loads its parameters from; and wherever a method is committed
with a call through an interface, the count in the call is right up to a multiple of 256. -/
theorem slots_of_parse {descriptor : String} {d : MethodDescriptor}
    (hd : MethodDescriptor.parse descriptor = .ok d) :
    d.paramSlots.toNat = placesOf d.params % 65536 ∧
    (∀ (owner name : String) (access : Access) (f : Forwarding),
      Forwarding.plan owner name access descriptor = .ok f →
      f.requiredStack.toNat = (1 + placesOf d.params) % 65536 ∧
      f.insns = .var Opcode.aload 0 :: d.params.mapIdx (fun i t =>
          .var t.loadOpcode (UInt16.ofNat (1 + placesOf (d.params.take i))))
        ++ [.method Opcode.invokevirtual owner name descriptor false, .simple d.returnOpcode]) ∧
    ∀ (m : MethodSource) (draft next : ClassDraft) (emitted : Emitted), m.limits.isSome →
      Yields (commit m) draft emitted next →
      ∃ method pieces, next.methods = draft.methods.push method ∧
        codeArrayOf method = List.flatten pieces ∧
        CodePieces emitted.offsets (MethodEvent.insns m.events) pieces ∧
        ∀ (k : Nat) (owner name : String) (onInterface : Bool),
          (MethodEvent.insns m.events)[k]?
            = some (.method Opcode.invokeinterface owner name descriptor onInterface) →
          ∃ (index : UInt16) (count : UInt8),
            pieces[k]? = some (Opcode.invokeinterface :: Bytes.ofU2 index ++ [count, 0]) ∧
              count.toNat = (1 + placesOf d.params) % 256 := by
  refine ⟨toNat_paramSlots d, fun owner name access f hplan => ?_,
    fun m draft next emitted hlimits hcommit => ?_⟩
  · obtain rfl := Forwarding.eq_of_plan hd hplan
    refine ⟨Forwarding.requiredStack_mod _, ?_⟩
    rw [← Forwarding.loads_eq_mapIdx 1]
    rfl
  · obtain ⟨method, pieces, hmethods, hcode, hpieces⟩ :=
      exists_codePieces_of_commit hlimits hcommit
    -- Each instruction has its piece of the code array, so the call's own piece is found by its
    -- index.
    refine ⟨method, pieces, hmethods, hcode, hpieces, fun k owner name onInterface hk => ?_⟩
    exact exists_piece_of_interface hpieces hd hk

/-- A method that makes a call through an interface. -/
def interfaceCall (descriptor : String) : MethodSource where
  access := 9
  name := "f"
  descriptor := "()V"
  events := [
    .code 0 0, .insn (.method Opcode.invokeinterface "I" "m" descriptor true),
    .insn (.simple Opcode.vreturn)]

/-- A method of six places with its receiver. -/
theorem slots_of_parse_wide :
    MethodDescriptor.parse "(JLa;D)I" = .ok ⟨[.long, .object "a", .double], some .int⟩ ∧
      (∃ f, Forwarding.plan "T" "g" Access.privateFlag "(JLa;D)I" = .ok f ∧
        f.requiredStack.toNat = 6 ∧ f.insns = [
          .var Opcode.aload 0, .var Opcode.lload 1, .var Opcode.aload 3, .var Opcode.dload 4,
          .method Opcode.invokevirtual "T" "g" "(JLa;D)I" false, .simple Opcode.ireturn]) ∧
      ∃ emitted next pieces index count,
        Yields (commit (interfaceCall "(JLa;D)I")) (.start (headerOfVersion 52) none)
          emitted next ∧
        CodePieces emitted.offsets (MethodEvent.insns (interfaceCall "(JLa;D)I").events) pieces ∧
        pieces[0]? = some (Opcode.invokeinterface :: Bytes.ofU2 index ++ [count, 0]) ∧
        count.toNat = 6 := by
  have hparse : MethodDescriptor.parse "(JLa;D)I"
      = .ok ⟨[.long, .object "a", .double], some .int⟩ :=
    MethodDescriptor.parse_text
      (d := ⟨[.long, .object "a", .double], some .int⟩) (by decide) (by decide)
  have hplan : Forwarding.plan "T" "g" Access.privateFlag "(JLa;D)I"
      = .ok ⟨"T", "g", "(JLa;D)I", ⟨[.long, .object "a", .double], some .int⟩⟩ := by
    unfold Forwarding.plan
    rw [hparse]
    rfl
  obtain ⟨-, hcall, hcommitted⟩ := slots_of_parse hparse
  obtain ⟨hstack, hinsns⟩ := hcall _ _ _ _ hplan
  obtain ⟨emitted, next, bytes, hcommit, -⟩ :=
    exists_committed 52 (interfaceCall "(JLa;D)I") (by decide +kernel)
  obtain ⟨method, pieces, -, -, hpieces, hcounts⟩ := hcommitted _ _ _ _ rfl hcommit
  obtain ⟨index, count, hpiece, hcount⟩ := hcounts 0 "I" "m" true rfl
  exact ⟨hparse, ⟨_, hplan, hstack, hinsns⟩, emitted, next, pieces, index, count, hcommit, hpieces,
    hpiece, hcount⟩

/-- A method whose parameters take 255 places. -/
def crowded : MethodDescriptor :=
  ⟨.int :: List.replicate 127 .long, none⟩

/-- **A count of 256 is lost.** The call is written without an error, and its count is zero. -/
theorem countByte_lost :
    MethodDescriptor.parse crowded.text = .ok crowded ∧ 1 + placesOf crowded.params = 256 ∧
      ∃ emitted next method,
        Yields (commit (interfaceCall crowded.text)) (.start (headerOfVersion 52) none)
          emitted next ∧
        next.methods = #[method] ∧
        codeArrayOf method = [Opcode.invokeinterface, 0, 8, 0, 0, Opcode.vreturn] := by
  have hrun : (let (answer, next) :=
      (commit (interfaceCall crowded.text)).run (.start (headerOfVersion 52) none)
      (answer.isOk, next.methods.map codeArrayOf))
      = (true, #[[Opcode.invokeinterface, 0, 8, 0, 0, Opcode.vreturn]]) := by
    decide +kernel
  refine ⟨MethodDescriptor.parse_text (by decide +kernel) (by decide), by decide +kernel, ?_⟩
  rcases hcommit : (commit (interfaceCall crowded.text)).run (.start (headerOfVersion 52) none)
    with ⟨_ | emitted, next⟩
  · rw [hcommit] at hrun
    cases (Prod.mk.inj hrun).1
  · rw [hcommit] at hrun
    obtain ⟨method, hmethod, hcode⟩ := Array.map_eq_singleton_iff.mp (Prod.mk.inj hrun).2
    exact ⟨emitted, next, method, hcommit, hmethod, hcode⟩

end RoundingPatch
