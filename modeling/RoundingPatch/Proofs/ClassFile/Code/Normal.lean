import RoundingPatch.Proofs.ClassFile.Code.Insns
/-!
# The normal form of an instruction

Some instructions can be written in ways that reading does not tell apart. An access to a local
variable whose index is part of the opcode reads as one with an index, and a wide branch reads as
its short form. `Insn.normal` is the form that is read, and an instruction in the form in which
instructions are read is its own normal form (`Insn.Readable.normal_eq`). So `Insn.Legible`, which
allows the other forms as well, is enough for an instruction to be read back as its normal form
(`reads_normal`).
-/

namespace RoundingPatch.ClassFile

open Read

namespace Insn

/-- The form in which an instruction is read. -/
def normal : Insn → Insn
  | simple op =>
    match Opcode.operands op with
    | .packedLocal access index => var access index
    | _ => simple op
  | jump op target =>
    match Opcode.operands op with
    | .wideBranch short => jump short target
    | _ => jump op target
  | i => i

/-- The normal form leads where the instruction does. -/
theorem targets_normal (i : Insn) : i.normal.targets = i.targets := by
  cases i with
  | simple | jump =>
    simp only [normal]
    split <;> rfl
  | _ => rfl

/-- The normal form does not depend on what the labels are called. -/
theorem normal_mapLabels (f : Label → Label) (i : Insn) :
    (i.mapLabels f).normal = i.normal.mapLabels f := by
  cases i with
  | simple | jump =>
    simp only [normal, mapLabels]
    split <;> rfl
  | _ => rfl

variable {pool : ConstantPool}

/-- The normal form of an instruction that is read is the instruction. -/
theorem Readable.normal_eq {i : Insn} (h : i.Readable pool) : i.normal = i := by
  cases h with
  | simple h | jump h target => simp only [normal, h]
  | _ => rfl

/-- An instruction that can be read, in its normal form or in another one. -/
inductive Legible (pool : ConstantPool) : Insn → Prop
  | readable {i} (h : i.Readable pool) : Legible pool i
  | packed {op access index} (h : Opcode.operands op = .packedLocal access index) :
    Legible pool (simple op)
  | wide {op short} (h : Opcode.operands op = .wideBranch short) (target) :
    Legible pool (jump op target)

end Insn

/-! ### Opcodes -/

/-- What the class of an opcode tells about its operands. -/
def Opcode.isClassed (op : Opcode) : Bool :=
  (!Opcode.isSimple op || match Opcode.operands op with
    | .none | .packedLocal _ _ => true
    | _ => false) &&
  (!Opcode.isJump op || match Opcode.operands op with
    | .branch | .wideBranch _ => true
    | _ => false) &&
  match Opcode.operands op with
  | .wideBranch _ => op == Opcode.gotoW || op == Opcode.jsrW
  | _ => true

theorem isClassed (op : Opcode) : Opcode.isClassed op = true :=
  forall_uint8 (p := Opcode.isClassed) (by decide +kernel) op

theorem operands_of_isSimple {op : Opcode} (h : Opcode.isSimple op = true) :
    Opcode.operands op = .none ∨
    ∃ access index, Opcode.operands op = .packedLocal access index := by
  have htable := isClassed op
  simp only [Opcode.isClassed, h, Bool.and_eq_true, Bool.not_true, Bool.false_or] at htable
  have hclass := htable.1.1
  split at hclass
  · exact .inl ‹_›
  · exact .inr ⟨_, _, ‹_›⟩
  · cases hclass

theorem operands_of_isJump {op : Opcode} (h : Opcode.isJump op = true) :
    Opcode.operands op = .branch ∨ ∃ short, Opcode.operands op = .wideBranch short := by
  have htable := isClassed op
  simp only [Opcode.isClassed, h, Bool.and_eq_true, Bool.not_true, Bool.false_or] at htable
  have hclass := htable.1.2
  split at hclass
  · exact .inl ‹_›
  · exact .inr ⟨_, ‹_›⟩
  · cases hclass

theorem eq_of_wideBranch {op short : Opcode} (h : Opcode.operands op = .wideBranch short) :
    op = Opcode.gotoW ∨ op = Opcode.jsrW := by
  have htable := isClassed op
  simp only [Opcode.isClassed, h, Bool.and_eq_true, Bool.or_eq_true, beq_iff_eq] at htable
  exact htable.2

/-! ### Reading -/

variable {pool : ConstantPool} {b c : PoolBuilder} {offsets : Offsets} {length offset : Nat}
  {bytes : Bytes}

/-- An opcode that stands for a local variable reads as the access to it. -/
theorem reads_packed {op access : Opcode} {index : UInt16}
    (h : Opcode.operands op = .packedLocal access index) :
    Reads (Body.readInsn pool length offset) [op] (.var access index) := by
  unfold Body.readInsn
  refine (reads_u1 op _).bind_nil ?_
  simp only [h]
  exact reads_pure _

/-- A wide branch reads as its short form, wherever its target lies. -/
theorem reads_wide {op short : Opcode} {target : Label}
    (hop : Opcode.operands op = .wideBranch short)
    (h : Layout.resolve offsets offset (.far target) = .ok bytes)
    (hin : Inside offsets length target) (hlength : length ≤ 65535) (hoffset : offset ≤ 65535) :
    Reads (Body.readInsn pool length offset) (op :: bytes)
      (.jump short (labelIn offsets target)) := by
  unfold Body.readInsn
  refine (reads_u1 op _).bind ?_
  simp only [hop]
  have hread := (reads_far h hin hlength hoffset "branch offset").map fun l => Insn.jump short l
  rwa [bind_assoc] at hread

/-- **An instruction reads back in its normal form**, with its labels turned into those of their
offsets. -/
theorem reads_normal {i : Insn} {chunks : List Chunk} (hi : i.Legible pool)
    (hencode : Yields (i.encode offset) b chunks c) (hmeans : c.Means pool)
    (hbytes : Resolves offsets offset chunks bytes) (hlength : length ≤ 65535)
    (hoffset : offset ≤ 65535) (hsize : bytes.length ≤ 65535)
    (hin : ∀ l ∈ i.targets, Inside offsets length l) :
    Reads (Body.readInsn pool length offset) bytes (i.normal.mapLabels (labelIn offsets)) := by
  cases hi with
  | readable h =>
    rw [h.normal_eq]
    exact reads_insn h hencode hmeans hbytes hlength hoffset hsize hin
  | packed h =>
    obtain ⟨rfl, rfl⟩ := yields_pure.mp hencode
    rw [resolves_bytes.mp hbytes]
    simp only [Insn.normal, h]
    exact reads_packed h
  | @wide op short h target =>
    have hop := eq_of_wideBranch h
    simp only [Insn.encode, hop, ↓reduceIte] at hencode
    obtain ⟨rfl, rfl⟩ := yields_pure.mp hencode
    obtain ⟨rest, rfl, hrest⟩ := resolves_bytes_cons.mp hbytes
    obtain ⟨b1, b2, rfl, h1, h2⟩ := resolves_cons.mp hrest
    rw [resolves_nil.mp h2, List.append_nil]
    simp only [Insn.normal, h]
    exact reads_wide h h1 (hin target (List.mem_singleton.mpr rfl)) hlength hoffset

end RoundingPatch.ClassFile
