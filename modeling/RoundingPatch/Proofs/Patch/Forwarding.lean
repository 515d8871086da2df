import Mathlib.Algebra.Order.BigOperators.Group.List
import Mathlib.Algebra.Order.Group.Nat
import RoundingPatch.Patch.Forwarding
import RoundingPatch.Proofs.ClassFile.Code.Placing
import RoundingPatch.Proofs.ClassFile.Method.CodePieces
/-!
# The forwarding call in code

The instructions of a call read back as they are (`readable_insns`). Loads of local variables with
great indices take four bytes each, so code that can be written at all has no room for a call with
more parameters than an operand stack can hold (`toNat_requiredStack`).
-/

namespace RoundingPatch

open ClassFile

namespace Forwarding

variable {f : Forwarding} {slot : UInt16} {params : List FieldType}

/-- A method that a call is planned for has a result. -/
theorem isSome_result_of_plan {owner name descriptor : String} {access : Access}
    {signature : MethodDescriptor} (h : plan owner name access descriptor = .ok f)
    (hsignature : MethodDescriptor.parse descriptor = .ok signature) : signature.result.isSome := by
  unfold plan at h
  rw [hsignature] at h
  cases hresult : signature.result with
  | none =>
    simp [hresult, bind, Except.bind, throw, throwThe, MonadExceptOf.throw] at h
    split at h <;> cases h
  | some t => rfl

theorem returnOpcode_operands (d : MethodDescriptor) : Opcode.operands d.returnOpcode = .none := by
  have hall (t : FieldType) : Opcode.operands t.returnOpcode = .none := by
    cases t <;> rfl
  unfold MethodDescriptor.returnOpcode
  split
  · exact hall _
  · rfl

/-- A load of a local variable. -/
theorem exists_of_mem_loads {i : Insn} (h : i ∈ loads slot params) :
    ∃ (t : FieldType) (index : UInt16), i = .var t.loadOpcode index := by
  induction params generalizing slot with
  | nil => cases h
  | cons t rest ih =>
    rcases List.mem_cons.mp h with rfl | h
    · exact ⟨t, slot, rfl⟩
    · exact ih h

/-- The instructions of a call read back, and none of them is a branch. -/
theorem readable_insns (pool : ConstantPool) :
    ∀ i ∈ f.insns, i.Readable pool ∧ i.targets = [] := by
  intro i hi
  unfold insns at hi
  rw [List.mem_append, List.mem_cons, List.mem_cons, List.mem_singleton] at hi
  rcases hi with (rfl | hi) | rfl | rfl
  · exact ⟨.var _ _, rfl⟩
  · obtain ⟨op, index, rfl⟩ := exists_of_mem_loads hi
    exact ⟨.var _ _, rfl⟩
  · exact ⟨.method rfl _ _ _ _, rfl⟩
  · exact ⟨.simple (returnOpcode_operands _), rfl⟩

/-! ### Room for the loads -/

/-- A number of bytes that an instruction takes at least: a load with a great index is wide. -/
def leastSize : Insn → Nat
  | .var _ index => if index ≤ 255 then 0 else 4
  | _ => 0

theorem length_encodeVar {op : Opcode} {index : UInt16} {bytes : Bytes}
    (h : Insn.encodeVar op index = .ok bytes) (hindex : ¬ index ≤ 255) : bytes.length = 4 := by
  have hunpacked : (Insn.encodeVar.unpacked op index).length = 4 := by
    rw [Insn.encodeVar.unpacked, if_neg hindex]
    rfl
  have hfew : ¬ index ≤ 3 := fun hle => hindex (UInt16.le_trans hle (by decide))
  unfold Insn.encodeVar at h
  split at h
  · cases h
  split at h <;> cases h <;> exact hunpacked

theorem leastSize_le {i : Insn} {offset : Nat} {b c : PoolBuilder} {chunks : List Chunk}
    (h : Yields (i.encode offset) b chunks c) : leastSize i ≤ chunksSize chunks := by
  cases i with
  | var op index =>
    obtain ⟨bytes, hbytes, h⟩ := Pooling.yields_lift_bind.mp h
    obtain ⟨rfl, rfl⟩ := yields_pure.mp h
    by_cases hindex : index ≤ 255
    · simp [leastSize, hindex]
    · simp [leastSize, hindex, chunksSize, Chunk.size, length_encodeVar hbytes hindex]
  | _ => exact Nat.zero_le _

/-- Instructions take at least the sum of their least sizes. -/
theorem leastSize_encodeAll {insns : List Insn} {start : Nat} {b c : PoolBuilder} {placed : Placed}
    (h : Yields (encodeAll start insns) b placed c) :
    start + (insns.map leastSize).sum ≤ placed.stop start := by
  induction insns generalizing start b placed with
  | nil =>
    obtain ⟨rfl, rfl⟩ := yields_pure.mp h
    exact Nat.le_refl _
  | cons i insns ih =>
    obtain ⟨chunks, rest, m, rfl, hi, hrest⟩ := yields_encodeAll_cons.mp h
    have hsize := leastSize_le hi
    have hstop := ih hrest
    rw [List.map_cons, List.sum_cons, Placed.stop]
    omega

/-- The places that some parameters take. -/
def width (params : List FieldType) : Nat :=
  (params.map fun t => t.slots.toNat).sum

theorem slots_le (t : FieldType) : t.slots.toNat ≤ 2 := by
  unfold FieldType.slots
  split <;> decide

/-- Every two places behind the first 257 cost a wide load. -/
theorem width_le_leastSize (params : List FieldType) (slot : UInt16) :
    2 * min (slot.toNat + width params) 65535
      ≤ 2 * max slot.toNat 257 + ((loads slot params).map leastSize).sum := by
  induction params generalizing slot with
  | nil =>
    rw [width, List.map_nil, List.sum_nil]
    omega
  | cons t rest ih =>
    have hslots := slots_le t
    have hslot := slot.toNat_lt
    have hnext := ih (slot + t.slots)
    have hwidth : width (t :: rest) = t.slots.toNat + width rest := by
      simp [width]
    have hleast : leastSize (.var t.loadOpcode slot) = if slot.toNat ≤ 255 then 0 else 4 := by
      simp only [leastSize, UInt16.le_iff_toNat_le]
      rfl
    rw [loads, List.map_cons, List.sum_cons, hwidth, hleast]
    rw [UInt16.toNat_add] at hnext
    by_cases hwrap : slot.toNat + t.slots.toNat < 65536
    · rw [Nat.mod_eq_of_lt hwrap] at hnext
      split <;> omega
    · rw [if_neg (by omega)]
      omega

theorem width_eq (params : List FieldType) : width params = placesOf params := by
  simp only [width, placesOf, toNat_slots]

/-- Counting the places at a call wraps around at 65536. -/
theorem requiredStack_mod (f : Forwarding) :
    f.requiredStack.toNat = (1 + placesOf f.signature.params) % 65536 := by
  rw [requiredStack, UInt16.toNat_add, toNat_paramSlots]
  exact Nat.add_mod_mod 1 _ _

/-- **In code that can be written, a call has room on the stack**: the depth it asks for is the
number of places that the receiver and the parameters take. -/
theorem toNat_requiredStack {code : List Insn} {b c : PoolBuilder} {placed : Placed}
    (hcode : f.insns.Sublist code) (h : Yields (encodeAll 0 code) b placed c)
    (hstop : placed.stop 0 ≤ 65535) : f.requiredStack.toNat = 1 + width f.signature.params := by
  have hloads : (loads 1 f.signature.params).Sublist code :=
    ((List.sublist_cons_self _ _).trans (List.sublist_append_left _ _)).trans hcode
  have hleast := (hloads.map leastSize).sum_le_sum (fun _ _ => Nat.zero_le _)
  have hsize := leastSize_encodeAll h
  have hwidth := width_le_leastSize f.signature.params 1
  rw [show (1 : UInt16).toNat = 1 from rfl] at hwidth
  rw [requiredStack_mod, ← width_eq, Nat.mod_eq_of_lt (by omega)]

end Forwarding

end RoundingPatch
