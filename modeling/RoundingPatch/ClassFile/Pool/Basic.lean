import RoundingPatch.ClassFile.Insn
import RoundingPatch.ClassFile.Pool.Entry
import RoundingPatch.Digest
/-!
# Constant pools

The pool of a class file as a table from indices to entries. Index 0 and the index after a wide
entry hold nothing. The look-ups follow references from entry to entry and say which index was of
the wrong kind; `loadable` turns an entry into a constant that no longer depends on the pool,
where that is possible.
-/

namespace RoundingPatch.ClassFile

/-- The constant pool of a class file. -/
structure ConstantPool where
  /-- The entries by index. -/
  slots : Array (Option PoolEntry)
  /-- The bytes of the entries. -/
  raw : Bytes
  /-- The hash of the bytes, which tells pools apart. -/
  fingerprint : UInt64

/-- A member reference with its parts looked up. -/
structure MemberRef where
  kind : MemberKind
  owner : String
  name : String
  descriptor : String
  deriving DecidableEq

namespace ConstantPool

/-! ### Reading -/

/-- Fills the next `missing` indices. -/
def readSlots : (missing : Nat) → Array (Option PoolEntry) → Read (Array (Option PoolEntry))
  | 0, slots => return slots
  | missing + 1, slots => do
    let entry ← PoolEntry.read slots.size
    if entry.isWide then
      match missing with
      | 0 => Read.malformed (.wideConstantOverruns slots.size)
      | missing + 1 => readSlots missing ((slots.push (some entry)).push none)
    else readSlots missing (slots.push (some entry))

/-- Reads a pool, from the count of its indices on. -/
def read : Read ConstantPool := do
  let count ← Read.u2 "constant_pool_count"
  if count = 0 then Read.malformed .emptyPoolCount
  let start ← Read.cursor
  let slots ← readSlots (count.toNat - 1) #[none]
  let raw := start.upTo (← Read.cursor)
  return { slots, raw, fingerprint := xxh3 raw }

/-! ### Looking up -/

/-- One more than the greatest index. -/
def count (pool : ConstantPool) : Nat :=
  pool.slots.size

/-- The entries in order, each with its index. -/
def entries (pool : ConstantPool) : List (UInt16 × PoolEntry) :=
  pool.slots.toList.zipIdx.filterMap fun (slot, i) => slot.map fun entry => (UInt16.ofNat i, entry)

/-- The entry at an index. -/
def get (pool : ConstantPool) (index : UInt16) : Except Fault PoolEntry :=
  match pool.slots[index.toNat]? with
  | some (some entry) => .ok entry
  | _ => .error (.malformed (.badPoolIndex index.toNat))

/-- The fault of an entry of the wrong kind. -/
def wrongKind (index : UInt16) (expected : String) (found : PoolEntry) : Except Fault α :=
  .error (.malformed (.wrongConstant index.toNat expected found.text))

/-- The text at an index. -/
def utf8 (pool : ConstantPool) (index : UInt16) : Except Fault String := do
  match ← pool.get index with
  | .utf8 text => return text
  | other => wrongKind index "Utf8" other

/-- The name of the class at an index. -/
def className (pool : ConstantPool) (index : UInt16) : Except Fault String := do
  match ← pool.get index with
  | .classRef name => pool.utf8 name
  | other => wrongKind index "Class" other

/-- The name of the class at an index, where index 0 stands for no class. -/
def className? (pool : ConstantPool) (index : UInt16) : Except Fault (Option String) :=
  if index = 0 then .ok none else some <$> pool.className index

/-- The name and the descriptor at an index. -/
def nameAndType (pool : ConstantPool) (index : UInt16) : Except Fault (String × String) := do
  match ← pool.get index with
  | .nameAndType name descriptor =>
    let name ← pool.utf8 name
    return (name, ← pool.utf8 descriptor)
  | other => wrongKind index "NameAndType" other

/-- The member reference at an index. -/
def member (pool : ConstantPool) (index : UInt16) : Except Fault MemberRef := do
  match ← pool.get index with
  | .member kind owner named =>
    let (name, descriptor) ← pool.nameAndType named
    let owner ← pool.className owner
    return { kind, owner, name, descriptor }
  | other => wrongKind index "member reference" other

/-- The constant at an index. -/
def loadable (pool : ConstantPool) (index : UInt16) : Except Fault Constant := do
  match ← pool.get index with
  | .integer value => return .integer value
  | .float bits => return .float bits
  | .long value => return .long value
  | .double bits => return .double bits
  | .string text => return .string (← pool.utf8 text)
  | .classRef name => return .classRef (← pool.utf8 name)
  | .methodHandle .. | .methodType .. | .dynamic .. => return .pooled index
  | other => wrongKind index "loadable constant" other

end ConstantPool

end RoundingPatch.ClassFile
