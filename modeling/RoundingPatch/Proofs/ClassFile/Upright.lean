import RoundingPatch.ClassFile.Code.Body
import RoundingPatch.Proofs.Blameless
/-!
# Reading is blameless

Whatever bytes are read as a class (`legible_parse`) or decoded as a method (`isOfBytes_failure`), a
fault that comes of it says what is wrong with the bytes: no fault of kind `internal`, and none that
only a program can have.
-/

namespace RoundingPatch.ClassFile

open Read

/-! ### The constant pool -/

namespace ConstantPool

/-- Reading an entry only blames the bytes. -/
theorem upright_readEntry (index : Nat) : Read.Upright (PoolEntry.read index) := by
  have hmember (kind : MemberKind) : Read.Upright (PoolEntry.read.readMember kind) :=
    (upright_u2 _).bind fun _ => (upright_u2 _).bind fun _ => upright_pure _
  have htext (bytes : Bytes) : Legible (PoolEntry.ofText index bytes) := by
    unfold PoolEntry.ofText
    split
    · exact failsAs_ok _
    · exact failsAs_error trivial
  refine (upright_u1 _).bind fun tag => ?_
  split
  · exact (upright_u2 _).bind fun _ => (upright_take _ _).bind fun _ => upright_lift (htext _)
  · exact (upright_i4 _).bind fun _ => upright_pure _
  · exact (upright_u4 _).bind fun _ => upright_pure _
  · exact (upright_u8 _).bind fun _ => upright_pure _
  · exact (upright_u8 _).bind fun _ => upright_pure _
  · exact (upright_u2 _).bind fun _ => upright_pure _
  · exact (upright_u2 _).bind fun _ => upright_pure _
  · exact hmember _
  · exact hmember _
  · exact hmember _
  · exact (upright_u2 _).bind fun _ => (upright_u2 _).bind fun _ => upright_pure _
  · exact (upright_u1 _).bind fun _ => (upright_u2 _).bind fun _ => upright_pure _
  · exact (upright_u2 _).bind fun _ => upright_pure _
  · exact (upright_u2 _).bind fun _ => (upright_u2 _).bind fun _ => upright_pure _
  · exact (upright_u2 _).bind fun _ => (upright_u2 _).bind fun _ => upright_pure _
  · exact (upright_u2 _).bind fun _ => upright_pure _
  · exact (upright_u2 _).bind fun _ => upright_pure _
  · exact upright_malformed trivial

theorem upright_readSlots (missing : Nat) (slots : Array (Option PoolEntry)) :
    Read.Upright (readSlots missing slots) := by
  induction missing using Nat.strongRecOn generalizing slots with
  | ind missing ih =>
    cases missing with
    | zero => exact upright_pure _
    | succ missing =>
      unfold readSlots
      refine (upright_readEntry _).bind fun entry => ?_
      split
      · cases missing with
        | zero => exact upright_malformed trivial
        | succ missing => exact ih missing (by omega) _
      · exact ih missing (by omega) _

theorem upright_read : Read.Upright ConstantPool.read :=
  (upright_u2 _).bind fun _ => .check trivial (upright_cursor.bind fun _ =>
    (upright_readSlots _ _).bind fun _ => upright_cursor.bind fun _ => upright_pure _)

variable (pool : ConstantPool) (i : UInt16)

theorem legible_get : Legible (pool.get i) := by
  unfold ConstantPool.get
  split
  · exact failsAs_ok _
  · exact failsAs_error trivial

theorem legible_utf8 : Legible (pool.utf8 i) := by
  refine (pool.legible_get i).bind fun entry _ => ?_
  split
  · exact failsAs_ok _
  · exact failsAs_error trivial

theorem legible_className : Legible (pool.className i) := by
  refine (pool.legible_get i).bind fun entry _ => ?_
  split
  · exact pool.legible_utf8 _
  · exact failsAs_error trivial

theorem legible_className? : Legible (pool.className? i) := by
  unfold className?
  split
  · exact failsAs_ok _
  · exact (pool.legible_className i).map _

theorem legible_nameAndType : Legible (pool.nameAndType i) := by
  refine (pool.legible_get i).bind fun entry _ => ?_
  split
  · exact (pool.legible_utf8 _).bind fun _ _ =>
      (pool.legible_utf8 _).bind fun _ _ => failsAs_ok _
  · exact failsAs_error trivial

theorem legible_member : Legible (pool.member i) := by
  refine (pool.legible_get i).bind fun entry _ => ?_
  split
  · exact (pool.legible_nameAndType _).bind fun _ _ =>
      (pool.legible_className _).bind fun _ _ => failsAs_ok _
  · exact failsAs_error trivial

theorem legible_loadable : Legible (pool.loadable i) := by
  refine (pool.legible_get i).bind fun entry _ => ?_
  split
  · exact failsAs_ok _
  · exact failsAs_ok _
  · exact failsAs_ok _
  · exact failsAs_ok _
  · exact (pool.legible_utf8 _).bind fun _ _ => failsAs_ok _
  · exact (pool.legible_utf8 _).bind fun _ _ => failsAs_ok _
  · exact failsAs_ok _
  · exact failsAs_ok _
  · exact failsAs_ok _
  · exact failsAs_error trivial

end ConstantPool

/-! ### Class files -/

variable (pool : ConstantPool)

theorem upright_readAttribute : Read.Upright (readAttribute pool) :=
  (upright_u2 _).bind fun _ => (upright_lift (pool.legible_utf8 _)).bind fun _ =>
    (upright_u4 _).bind fun _ => (upright_take _ _).bind fun _ => upright_pure _

theorem upright_readAttributes : Read.Upright (readAttributes pool) :=
  (upright_u2 _).bind fun _ => upright_many (upright_readAttribute pool) _

theorem upright_relabel {α : Type} {f : Fault → Fault} (h : ∀ fault, (f fault).IsOfBytes)
    (r : Read α) : Read.Upright (relabel f r) := by
  intro c
  unfold relabel
  split
  · exact failsAs_ok _
  · exact failsAs_error (h _)

theorem upright_readMembers (what : String) : Read.Upright (readMembers pool what) :=
  (upright_u2 _).bind fun _ => upright_many
    (upright_cursor.bind fun _ => (upright_u2 _).bind fun _ => (upright_u2 _).bind fun _ =>
      (upright_lift (pool.legible_utf8 _)).bind fun _ => (upright_u2 _).bind fun _ =>
      (upright_lift (pool.legible_utf8 _)).bind fun _ =>
      (upright_relabel (fun _ => by trivial) _).bind fun _ => upright_cursor.bind fun _ =>
      upright_pure _) _

/-- **No bytes are a class whose reading the library gets wrong.** -/
theorem legible_parse (bytes : Bytes) : Legible (ClassFile.parse bytes) := by
  refine legible_runOn ?_ bytes
  refine (upright_u4 _).bind fun found => .check trivial ?_
  refine (upright_u2 _).bind fun _ => (upright_u2 _).bind fun major =>
    .checkThat trivial ?_
  refine ConstantPool.upright_read.bind fun pool => (upright_u2 _).bind fun _ =>
    (upright_u2 _).bind fun _ => (upright_lift (pool.legible_className _)).bind fun _ =>
    (upright_u2 _).bind fun _ => (upright_lift (pool.legible_className? _)).bind fun _ =>
    (upright_u2 _).bind fun _ => (upright_many ((upright_u2 _).bind fun _ =>
      upright_lift (pool.legible_className _)) _).bind fun _ =>
    (upright_readMembers pool _).bind fun _ => (upright_readMembers pool _).bind fun methods =>
    (upright_readAttributes pool).bind fun _ => upright_cursor.bind fun _ => .check trivial ?_
  dsimp only
  split
  · refine (upright_malformed ?_).bind fun _ => upright_pure _
    trivial
  · exact upright_pure _

/-! ### Methods -/

namespace Body

theorem upright_branchTarget (length offset : Nat) (distance : Int32) :
    Read.Upright (branchTarget length offset distance) := by
  unfold branchTarget
  dsimp only
  split
  · exact upright_pure _
  · exact upright_malformed trivial

theorem upright_readTableSwitch (length offset : Nat) :
    Read.Upright (readTableSwitch length offset) :=
  (upright_skip _ _).bind fun _ => (upright_i4 _).bind fun _ =>
    (upright_branchTarget _ _ _).bind fun _ => (upright_i4 _).bind fun _ =>
    (upright_i4 _).bind fun _ => .check trivial (upright_cursor.bind fun _ => .check trivial
      ((upright_many ((upright_i4 _).bind fun _ => upright_branchTarget _ _ _) _).bind
        fun _ => upright_pure _))

theorem upright_readLookupSwitch (length offset : Nat) :
    Read.Upright (readLookupSwitch length offset) :=
  (upright_skip _ _).bind fun _ => (upright_i4 _).bind fun _ =>
    (upright_branchTarget _ _ _).bind fun _ => (upright_i4 _).bind fun _ =>
    upright_cursor.bind fun _ => .check trivial ((upright_many ((upright_i4 _).bind fun _ =>
      (upright_i4 _).bind fun _ => (upright_branchTarget _ _ _).bind fun _ =>
        upright_pure _) _).bind
      fun _ => upright_pure _)

theorem upright_readWidened (offset : Nat) : Read.Upright (readWidened offset) := by
  refine (upright_u1 _).bind fun op => ?_
  split
  · exact (upright_u2 _).bind fun _ => (upright_i2 _).bind fun _ => upright_pure _
  split
  · exact (upright_u2 _).bind fun _ => upright_pure _
  · exact upright_malformed trivial

/-- Reading an instruction only blames the bytes. -/
theorem upright_readInsn (length offset : Nat) : Read.Upright (readInsn pool length offset) := by
  refine (upright_u1 _).bind fun op => ?_
  -- One case for each kind of operands.
  split
  · exact upright_pure _
  · exact upright_pure _
  · exact (upright_i1 _).bind fun _ => upright_pure _
  · exact (upright_i2 _).bind fun _ => upright_pure _
  · exact (upright_u1 _).bind fun _ => upright_pure _
  · exact (upright_u1 _).bind fun _ =>
      (upright_lift (pool.legible_loadable _)).bind fun _ => upright_pure _
  · exact (upright_u2 _).bind fun _ =>
      (upright_lift (pool.legible_loadable _)).bind fun _ => upright_pure _
  · exact (upright_u1 _).bind fun _ => upright_pure _
  · exact (upright_u1 _).bind fun _ => (upright_i1 _).bind fun _ => upright_pure _
  · exact (upright_i2 _).bind fun _ => (upright_branchTarget _ _ _).bind fun _ => upright_pure _
  · exact (upright_i4 _).bind fun _ => (upright_branchTarget _ _ _).bind fun _ => upright_pure _
  · exact upright_readTableSwitch _ _
  · exact upright_readLookupSwitch _ _
  · exact (upright_u2 _).bind fun _ => (upright_lift (pool.legible_member _)).bind fun _ =>
      .check trivial (upright_pure _)
  · exact (upright_u2 _).bind fun _ => (upright_lift (pool.legible_member _)).bind fun _ =>
      .check trivial (upright_pure _)
  · exact (upright_u2 _).bind fun _ => (upright_lift (pool.legible_member _)).bind fun _ =>
      (upright_skip _ _).bind fun _ => upright_pure _
  · exact (upright_u2 _).bind fun _ => (upright_skip _ _).bind fun _ => upright_pure _
  · exact (upright_u2 _).bind fun _ =>
      (upright_lift (pool.legible_className _)).bind fun _ => upright_pure _
  · exact (upright_u2 _).bind fun _ => (upright_lift (pool.legible_className _)).bind fun _ =>
      (upright_u1 _).bind fun _ => upright_pure _
  · exact upright_readWidened _
  · exact upright_malformed trivial

theorem upright_readInsns (length fuel : Nat) (done : List (Nat × Insn)) :
    Read.Upright (readInsns pool length fuel done) := by
  induction fuel generalizing done with
  | zero => exact upright_pure _
  | succ fuel ih =>
    refine upright_cursor.bind fun c => ?_
    split
    · exact upright_pure _
    · exact (upright_readInsn pool _ _).bind fun _ => ih _

theorem upright_readHandler : Read.Upright (readHandler pool) :=
  (upright_u2 _).bind fun _ => (upright_u2 _).bind fun _ => (upright_u2 _).bind fun _ =>
    (upright_u2 _).bind fun _ => (upright_lift (pool.legible_className? _)).bind fun _ =>
    upright_pure _

theorem upright_readLines : Read.Upright readLines :=
  (upright_u2 _).bind fun _ => upright_many ((upright_u2 _).bind fun _ =>
    (upright_u2 _).bind fun _ => upright_pure _) _

theorem upright_readLocals (table : LocalTable) : Read.Upright (readLocals pool table) :=
  (upright_u2 _).bind fun _ => upright_many ((upright_u2 _).bind fun _ =>
    (upright_u2 _).bind fun _ => (upright_u2 _).bind fun _ =>
    (upright_lift (pool.legible_utf8 _)).bind fun _ => (upright_u2 _).bind fun _ =>
    (upright_lift (pool.legible_utf8 _)).bind fun _ => (upright_u2 _).bind fun _ =>
    upright_pure _) _

theorem upright_readVType : Read.Upright (readVType pool) := by
  refine (upright_u1 _).bind fun tag => ?_
  split
  · exact upright_pure _
  · exact upright_pure _
  · exact upright_pure _
  · exact upright_pure _
  · exact upright_pure _
  · exact upright_pure _
  · exact upright_pure _
  · exact (upright_u2 _).bind fun _ =>
      (upright_lift (pool.legible_className _)).bind fun _ => upright_pure _
  · exact (upright_u2 _).bind fun _ => upright_pure _
  · exact upright_malformed trivial

theorem upright_readFrame : Read.Upright (readFrame pool) := by
  refine (upright_u1 _).bind fun tag => ?_
  dsimp only
  split
  · exact upright_pure _
  split
  · exact (upright_readVType pool).bind fun _ => upright_pure _
  split
  · exact upright_malformed trivial
  refine (upright_u2 _).bind fun delta => ?_
  split
  · exact (upright_readVType pool).bind fun _ => upright_pure _
  split
  · exact upright_pure _
  split
  · exact upright_pure _
  split
  · exact (upright_many (upright_readVType pool) _).bind fun _ => upright_pure _
  · exact (upright_u2 _).bind fun _ => (upright_many (upright_readVType pool) _).bind fun _ =>
      (upright_u2 _).bind fun _ => (upright_many (upright_readVType pool) _).bind fun _ =>
      upright_pure _

theorem upright_readFrames (length count : Nat) (previous : Option Nat) :
    Read.Upright (readFrames pool length count previous) := by
  induction count generalizing previous with
  | zero => exact upright_pure _
  | succ count ih =>
    exact (upright_readFrame pool).bind fun _ =>
      .check trivial ((ih _).bind fun _ => upright_pure _)

theorem legible_addTable (body : Body) (attr : RawAttribute) :
    Legible (addTable pool body attr) := by
  unfold addTable
  split
  · exact (legible_runOn upright_readLines _).bind fun _ _ => failsAs_ok _
  · exact (legible_runOn (upright_readLocals pool _) _).bind fun _ _ => failsAs_ok _
  · exact (legible_runOn (upright_readLocals pool _) _).bind fun _ _ => failsAs_ok _
  · exact (legible_runOn ((upright_u2 _).bind fun _ => upright_readFrames pool _ _ _) _).bind
      fun _ _ => failsAs_ok _
  · exact failsAs_error trivial

theorem legible_checkReferences (body : Body) : Legible body.checkReferences := by
  unfold checkReferences
  dsimp only
  split
  · exact failsAs_error trivial
  · exact failsAs_ok _

/-- **Parsing a body only blames the bytes.** -/
theorem legible_parse (info : Bytes) : Legible (Body.parse pool info) := by
  refine legible_runOn ?_ info
  exact (upright_u2 _).bind fun _ => (upright_u2 _).bind fun _ => (upright_u4 _).bind fun _ =>
    .check trivial ((upright_take _ _).bind fun _ =>
      (upright_lift (legible_runOn (upright_readInsns pool _ _ _) _)).bind fun _ =>
      (upright_u2 _).bind fun _ => (upright_many (upright_readHandler pool) _).bind fun _ =>
      (upright_readAttributes pool).bind fun _ =>
      (upright_lift (failsAs_foldlM (fun _ _ _ => legible_addTable pool _ _) _)).bind fun _ =>
      (upright_lift (legible_checkReferences _)).bind fun _ => upright_pure _)

end Body

/-- A second body is a fault of the bytes. -/
theorem legible_splitCode {method : String} {attrs : List RawAttribute} {code : Option Bytes} :
    Legible (splitCode method code attrs).2 := by
  induction attrs generalizing code with
  | nil => exact failsAs_ok _
  | cons attr attrs ih =>
    unfold splitCode
    split
    · split
      · exact failsAs_error trivial
      · exact ih
    · exact ih

/-- **A method that cannot be decoded** has something wrong with its bytes. -/
theorem isOfBytes_failure {m : Member} {fault : Fault}
    (h : (m.decode pool).failure = some fault) : fault.IsOfBytes := by
  have hsplit : Legible (splitCode m.name none m.attributes).2 := legible_splitCode
  unfold Member.decode at h
  split at h
  · next hcode =>
    cases h
    exact hsplit _ (by rw [hcode])
  · cases h
  · split at h
    · next hparse =>
      cases h
      exact Body.legible_parse pool _ _ hparse
    · cases h

end RoundingPatch.ClassFile
