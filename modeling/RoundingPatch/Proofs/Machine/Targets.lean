import RoundingPatch.Proofs.ClassFile.Method.Stream
import RoundingPatch.Proofs.ClassFile.Upright
import RoundingPatch.Proofs.Machine.Branching
import RoundingPatch.Proofs.Machine.Loading
/-!
# Where decoded programs branch

The program of a decoded method resolves (`Program.resolves_of_ofMember`), so every class that is
made ready to run does, and its runs fail for no branch (`isOther_call`). A program goes on where
the bytes of its branches say (`Program.branches_of_ofMember`). `events_closed` puts this together
with what the events of a decoded body look like.
-/

namespace RoundingPatch.Machine

open ClassFile

/-! ### Programs of methods -/

namespace Program

variable {pool : ConstantPool} {m : Member} {p : Program}

/-- **The program of a method resolves.** -/
theorem resolves_of_ofMember (h : ofMember pool m = .ok p) : p.Resolves := by
  have hdecode := decodes_of_ofMember h
  obtain ⟨-, limits, -, rfl⟩ := (ofMember_eq_ok hdecode).mp h
  intro k i hi
  have hi : i ∈ MethodEvent.insns (m.source pool).events :=
    List.mem_of_getElem? (List.getElem?_toArray ▸ hi)
  -- Switches that were read have a target for every key, and a label that a decoded method mentions
  -- stands in its code.
  refine ⟨?_, fun l hl => ?_⟩
  · obtain ⟨body, hevents, hbody⟩ := decode_eq_eventsOf hdecode
    rw [Member.source, hevents] at hi
    rcases body with _ | b
    · rw [MethodEvent.insns_of_isTable isTable_eventsOf_none] at hi
      cases hi
    · obtain ⟨info, -, hparse⟩ := hbody b rfl
      rw [Body.insns_eventsOf] at hi
      obtain ⟨q, hq, rfl⟩ := List.mem_map.mp hi
      exact ((Body.grounded_of_parse hparse).code.each q hq).encodable
  · obtain ⟨n, hn⟩ := (closed_source hdecode).insns i hi l hl
    exact ⟨n, (target_ofBody (nodup_labels_source hdecode)).mpr hn⟩

/-- **Loading a method** never fails for a branch that leads nowhere. -/
theorem grants_ofMember (pool : ConstantPool) (m : Member) :
    Grants Program.Resolves Fault.IsOther (ofMember pool m) := by
  cases hp : ofMember pool m with
  | ok p => exact resolves_of_ofMember hp
  | error fault =>
    cases hdecode : (m.decode pool).failure with
    -- Reading the method fails for its bytes, and not for a branch.
    | some cause =>
      have heq : ofMember pool m = .error cause := by
        unfold ofMember
        dsimp only
        rw [hdecode]
      rw [heq] at hp
      cases hp
      exact (isOfBytes_failure pool hdecode).isOther
    | none =>
      -- A method that decodes is refused for its handlers or for want of code.
      rw [ofMember_eq hdecode] at hp
      split at hp
      · split at hp
        · cases hp
          trivial
        · cases hp
      · cases hp
        trivial

end Program

/-- **Every class that is made ready to run resolves.** -/
theorem LoadedClass.resolves_ofClass (c : ClassFile) : (ofClass c).Resolves := by
  intro name descriptor
  rw [program_ofClass]
  cases c.methods.find? fun m => (name, descriptor) == (m.name, m.descriptor) with
  | none => exact grants_error trivial
  | some m => exact Program.grants_ofMember c.pool m

/-- **A call never fails for a label**, in a machine loaded from a class file. -/
theorem isOther_call {c : ClassFile} {m : RoundingPatch.Machine} (hm : m.loaded = .ofClass c)
    (isStatic : Bool) (name descriptor : String) (args : List Value) :
    FailsAs Fault.IsOther (m.call isStatic name descriptor args).1 := by
  have hc := LoadedClass.resolves_ofClass c
  have hprogram := hc name descriptor
  unfold Machine.call
  rw [hm]
  dsimp only
  cases hp : (LoadedClass.ofClass c).program name descriptor with
  | error fault =>
    rw [hp] at hprogram
    exact failsAs_error hprogram
  | ok p =>
    rw [hp] at hprogram
    dsimp only
    split
    · exact isOther_execute hc hprogram args _
    · refine failsAs_error ?_
      split <;> trivial

/-! ### Where a program goes on -/

/-- A program goes on where the bytes of a body say: it has the instructions of the body, and the
label at each distance of an instruction is that of the instruction which starts there. -/
def Program.Branches (p : Program) (b : Body) (code : Bytes) : Prop :=
  ∀ (k pc : Nat) (i : Insn), b.insns[k]? = some (pc, i) → p.insns[k]? = some i ∧
    ∀ r ∈ Body.displacements code pc, ∃ (k' target : Nat) (i' : Insn),
      b.insns[k']? = some (target, i') ∧ (target : Int) = pc + r.toInt ∧
      p.target (Body.labelOver pc r) = .ok k'

theorem Program.branches_of_ofMember {pool : ConstantPool} {m : Member} {p : Program} {b : Body}
    {info : Bytes} (h : ofMember pool m = .ok p) (hparse : Body.parse pool info = .ok b)
    (hevents : (m.decode pool).events
      = Body.eventsOf (RawAttribute.others m.attributes) (some b)) :
    p.Branches b (Body.codeArray info) := by
  have hdecode := decodes_of_ofMember h
  have hsource : (m.source pool).events
      = Body.eventsOf (RawAttribute.others m.attributes) (some b) := hevents
  have hgrounded := Body.grounded_of_parse hparse
  obtain ⟨-, limits, -, rfl⟩ := (ofMember_eq_ok hdecode).mp h
  intro k pc i hi
  refine ⟨?_, fun r hr => ?_⟩
  · rw [ofBody, hsource, Body.insns_eventsOf, List.getElem?_toArray, List.getElem?_map, hi]
    rfl
  · obtain ⟨k', target, i', hk', htarget, hlabel, hmem⟩ :=
      Body.exists_insn_of_displacement hparse (List.mem_of_getElem? hi) hr
    refine ⟨k', target, i', hk', htarget, ?_⟩
    rw [hlabel, target_ofBody (nodup_labels_source hdecode), hsource,
      Body.position_eventsOf hgrounded hmem, Body.indexOf_of_getElem? hgrounded hk']

/-- **Decoded code is a closed description of its body**, and so no branch leads nowhere. For
every method of a class that has code and decodes: the instructions take up all of the code array;
the labels among its events ascend, stand in front of what belongs to their offsets, and are those
that are mentioned, each once; each instruction has the targets that lie at the distances in its
bytes; and its program, which it has unless it handles exceptions, goes on there. No method of a
class is refused for a label without a position, and no call of a method, whatever the arguments,
the limits and the objects are, fails for such a label or for a table switch without a target. -/
theorem events_closed (c : ClassFile) :
    (∀ (m : Member) (info : Bytes), (m.decode c.pool).failure = none →
      ⟨"Code", info⟩ ∈ m.attributes → ∃ b, Body.parse c.pool info = .ok b ∧
        Body.Laid c.pool (Body.codeArray info) 0 b.insns ∧
        b.Streams (m.decode c.pool).events ∧
        (∀ pc i, (pc, i) ∈ b.insns →
          i.targets = (Body.displacements (Body.codeArray info) pc).map (Body.labelOver pc)) ∧
        (∀ p, Program.ofMember c.pool m = .ok p → p.Branches b (Body.codeArray info)) ∧
        (b.handlers = [] → ∃ p, Program.ofMember c.pool m = .ok p)) ∧
    (∀ name descriptor owner type l,
      Program.load c name descriptor ≠ .error (.malformed (.unboundBranch owner type l))) ∧
    (∀ m : Machine, m.loaded = .ofClass c →
      ∀ isStatic name descriptor args fault,
        (m.call isStatic name descriptor args).1 = .error fault →
        fault ≠ .malformed .missingSwitchTarget ∧
          ∀ owner type l, fault ≠ .malformed (.unboundBranch owner type l)) := by
  refine ⟨fun m info hdecode hinfo => ?_, fun name descriptor owner type l hload => ?_, ?_⟩
  · obtain ⟨b, hparse, hevents⟩ := exists_body_of_code hdecode hinfo
    have hgrounded := Body.grounded_of_parse hparse
    obtain ⟨-, hlaid⟩ := Body.laid_of_parse hparse
    refine ⟨b, hparse, hlaid, ?_, fun pc i hi => (hlaid.aims hi).1, fun p hp => ?_, fun hnil => ?_⟩
    · rw [hevents]
      exact Body.streams_eventsOf hgrounded
    · -- A program of the member, once made, has the branches of the code array.
      exact Program.branches_of_ofMember hp hparse hevents
    · refine ⟨_, (Program.ofMember_eq_ok hdecode).mpr ⟨?_, (b.maxStack, b.maxLocals), ?_, rfl⟩⟩
      · rw [MethodSource.handlers_eq, Member.source, hevents, Body.handlers_eventsOf, hnil]
      · rw [MethodSource.limits_eq, Member.source, hevents, Body.limits_eventsOf]
  · unfold Program.load at hload
    split at hload
    · next m _ =>
      have hgrants := Program.grants_ofMember c.pool m
      rw [hload] at hgrants
      exact hgrants
    · cases hload
  · intro m hm isStatic name descriptor args fault hfails
    have hother : fault.IsOther := (isOther_call hm isStatic name descriptor args) fault hfails
    refine ⟨?_, fun owner type l => ?_⟩ <;> rintro rfl <;> exact hother

/-- The code of a method that branches over a `return`. -/
def skippingCode : Bytes :=
  [0, 1, 0, 0, 0, 0, 0, 6, 0x03, 0x99, 0, 4, 0xb1, 0xb1, 0, 0, 0, 0]

/-- A method with this code. -/
def skippingMethod : Member where
  access := 0x0008
  name := "f"
  descriptor := "()V"
  raw := []
  attributes := [⟨"Code", skippingCode⟩]

/-- A class with this method. -/
def skipping : ClassFile where
  pool := ⟨#[none], [], 0⟩
  header := ⟨0, 52, 0x20, "T", none, []⟩
  fields := []
  methods := [skippingMethod]
  attributes := []

/-- Its branch goes on at the last of its four instructions, which ends the call. -/
theorem events_closed_skipping :
    (∃ p, Program.ofMember skipping.pool skippingMethod = .ok p ∧
      p.target (Body.labelAt 5) = .ok 3) ∧
    ∀ fault, ((Machine.ofClass skipping {}).call true "f" "()V" []).1 = .error fault →
      fault ≠ .malformed .missingSwitchTarget := by
  have hbody : (Body.parse skipping.pool skippingCode).toOption.map
      (fun b => (b.insns.map (·.1), b.handlers.length)) = some ([0, 1, 4, 5], 0) := by
    decide +kernel
  obtain ⟨hmethods, -, hcalls⟩ := events_closed skipping
  refine ⟨?_, fun fault hfault => (hcalls _ rfl _ _ _ _ fault hfault).1⟩
  obtain ⟨b, hparse, -, -, -, hbranches, hloads⟩ :=
    hmethods skippingMethod skippingCode (by decide +kernel) (List.mem_cons_self ..)
  rw [hparse] at hbody
  obtain ⟨hoffsets, hhandlers⟩ := Prod.mk.inj (Option.some.inj hbody)
  -- The branch at offset 1 has a distance of 4, so its label is that of offset 5.
  have hoffset (k : Nat) : (b.insns[k]?).map (·.1) = [0, 1, 4, 5][k]? := by
    rw [← List.getElem?_map, hoffsets]
  obtain ⟨p, hp⟩ := hloads (List.length_eq_zero_iff.mp hhandlers)
  obtain ⟨⟨pc, i⟩, hi, hpc⟩ := Option.map_eq_some_iff.mp (hoffset 1)
  obtain rfl : pc = 1 := hpc
  obtain ⟨-, hdistances⟩ := hbranches p hp 1 1 i hi
  obtain ⟨k, target, i', hk, htarget, hlabel⟩ := hdistances 4 (by decide +kernel)
  obtain rfl : target = 5 := Int.ofNat.inj htarget
  have hlast : some 5 = [0, 1, 4, 5][k]? := by rw [← hoffset, hk, Option.map_some]
  obtain rfl : k = 3 := by
    obtain ⟨hlt, hget⟩ := List.getElem?_eq_some_iff.mp hlast.symm
    match k, hlt with
    | 0, _ | 1, _ | 2, _ => cases hget
    | 3, _ => rfl
  exact ⟨p, hp, hlabel⟩

end RoundingPatch.Machine
