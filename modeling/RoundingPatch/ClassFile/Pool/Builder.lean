import Std.Data.TreeMap
import RoundingPatch.ClassFile.Pool.Basic
/-!
# Growing a pool

A pool builder starts empty or from the pool of a class file and only ever adds entries at the
end, so every index stays valid. A symbol is what an entry stands for once its references are
followed; the builder knows an index for each symbol it has seen and never adds a second entry for
one. Adding a symbol adds the entries it needs first, and those stay even if there is no room for
the symbol itself.
-/

namespace RoundingPatch.ClassFile

/-- What an entry stands for, whatever indices it uses. -/
inductive Symbol
  | utf8 (text : String)
  | integer (value : Int32)
  | float (bits : UInt32)
  | long (value : Int64)
  | double (bits : UInt64)
  | classRef (name : String)
  | string (text : String)
  | nameAndType (name descriptor : String)
  | member (ref : MemberRef)
  deriving DecidableEq

namespace Symbol

/-- The number of the kind of a symbol. -/
def kind : Symbol → Nat
  | utf8 _ => 0
  | integer _ => 1
  | float _ => 2
  | long _ => 3
  | double _ => 4
  | classRef _ => 5
  | string _ => 6
  | nameAndType _ _ => 7
  | member ref =>
    match ref.kind with
    | .field => 8
    | .method => 9
    | .interfaceMethod => 10

/-- The bits of a number. -/
def bits : Symbol → Nat
  | integer value => value.toUInt32.toNat
  | float bits => bits.toNat
  | long value => value.toUInt64.toNat
  | double bits => bits.toNat
  | _ => 0

/-- The texts a symbol consists of. -/
def texts : Symbol → List String
  | utf8 text | classRef text | string text => [text]
  | nameAndType name descriptor => [name, descriptor]
  | member ref => [ref.owner, ref.name, ref.descriptor]
  | _ => []

/-- Symbols are ordered by their kind, then by their bits, then by their texts. -/
instance : Ord Symbol where
  compare := compareLex (compareOn kind) (compareLex (compareOn bits) (compareOn texts))

instance : Std.TransOrd Symbol :=
  inferInstanceAs (Std.TransCmp
    (compareLex (compareOn kind) (compareLex (compareOn bits) (compareOn texts))))

/-- Kind, bits and texts tell symbols apart. -/
theorem eq_of_parts {a b : Symbol} (hk : a.kind = b.kind) (hb : a.bits = b.bits)
    (ht : a.texts = b.texts) : a = b := by
  rcases a with _ | ⟨⟨_⟩⟩ | _ | ⟨⟨_⟩⟩ | _ | _ | _ | _ | ⟨_ | _ | _, _, _, _⟩ <;>
    rcases b with _ | ⟨⟨_⟩⟩ | _ | ⟨⟨_⟩⟩ | _ | _ | _ | _ | ⟨_ | _ | _, _, _, _⟩ <;>
      simp_all [kind, bits, texts, UInt32.toNat_inj, UInt64.toNat_inj]

instance : Std.LawfulEqOrd Symbol where
  eq_of_compare {a b} h := by
    change compareLex _ _ a b = .eq at h
    simp only [compareLex, compareOn, Ordering.then_eq_eq, Std.compare_eq_iff_eq] at h
    exact eq_of_parts h.1 h.2.1 h.2.2

end Symbol

/-- The symbol an entry of `pool` stands for, if all it refers to is there. -/
def ConstantPool.symbol? (pool : ConstantPool) (index : UInt16) : PoolEntry → Option Symbol
  | .utf8 text => some (.utf8 text)
  | .integer value => some (.integer value)
  | .float bits => some (.float bits)
  | .long value => some (.long value)
  | .double bits => some (.double bits)
  | .classRef name => (pool.utf8 name).toOption.map .classRef
  | .string text => (pool.utf8 text).toOption.map .string
  | .nameAndType .. =>
    (pool.nameAndType index).toOption.map fun (name, descriptor) => .nameAndType name descriptor
  | .member .. => (pool.member index).toOption.map .member
  | _ => none

/-- A pool that can grow. -/
structure PoolBuilder where
  /-- The bytes of the entries the builder started from. -/
  seed : Bytes := []
  /-- The entries added since. -/
  added : Array PoolEntry := #[]
  /-- The next free index. -/
  next : Nat := 1
  /-- The fingerprint of the pool the builder started from. -/
  origin : Option UInt64 := none
  /-- The least index of each known symbol. -/
  known : Std.TreeMap Symbol UInt16 := {}

namespace PoolBuilder

/-- A builder that starts without entries. -/
def empty : PoolBuilder := {}

/-- A builder that starts from `pool`. -/
def ofPool (pool : ConstantPool) : PoolBuilder where
  seed := pool.raw
  next := pool.count
  origin := some pool.fingerprint
  -- Of several entries alike the first counts.
  known := pool.entries.foldl (fun known (index, entry) =>
    match pool.symbol? index entry with
    | some symbol => known.insertIfNew symbol index
    | none => known) {}

/-- One more than the greatest index. -/
def count (pool : PoolBuilder) : Nat :=
  pool.next

/-- The bytes of all entries. -/
def bytes (pool : PoolBuilder) : Bytes :=
  pool.seed ++ pool.added.toList.flatMap PoolEntry.encode

end PoolBuilder

/-- A step that may add entries to a pool. Entries that were added stay when a step fails. -/
abbrev Pooling := ExceptT Fault (StateM PoolBuilder)

namespace Pooling

/-- Give up. -/
def fail (fault : Fault) : Pooling α :=
  throw fault

/-- The value of an answer that may be a fault. -/
def lift (answer : Except Fault α) : Pooling α :=
  ExceptT.mk (pure answer)

/-- Adds `entry` under the next index and remembers it as `symbol`. -/
def push (symbol : Symbol) (entry : PoolEntry) : Pooling UInt16 := do
  let pool ← get
  if pool.next + entry.slots ≤ 65535 then
    let index := UInt16.ofNat pool.next
    set { pool with
      added := pool.added.push entry
      next := pool.next + entry.slots
      known := pool.known.insert symbol index }
    return index
  else fail (.unsupported .poolFull)

/-- The known index of `symbol`, or that of the entry that `make` yields. -/
def intern (symbol : Symbol) (make : Pooling PoolEntry) : Pooling UInt16 := do
  match (← get).known[symbol]? with
  | some index => return index
  | none => push symbol (← make)

/-- The index of a text. -/
def utf8 (text : String) : Pooling UInt16 :=
  intern (.utf8 text) do
    if (ModifiedUtf8.encode text).length ≤ 65535 then return .utf8 text
    else fail (.unsupported .textTooLong)

/-- The index of an integer. -/
def integer (value : Int32) : Pooling UInt16 :=
  intern (.integer value) (pure (.integer value))

/-- The index of a number of 32 bits with a fraction. -/
def float (bits : UInt32) : Pooling UInt16 :=
  intern (.float bits) (pure (.float bits))

/-- The index of an integer of 64 bits. -/
def long (value : Int64) : Pooling UInt16 :=
  intern (.long value) (pure (.long value))

/-- The index of a number of 64 bits with a fraction. -/
def double (bits : UInt64) : Pooling UInt16 :=
  intern (.double bits) (pure (.double bits))

/-- The index of a class. -/
def classRef (name : String) : Pooling UInt16 :=
  intern (.classRef name) do return .classRef (← utf8 name)

/-- The index of a string constant. -/
def string (text : String) : Pooling UInt16 :=
  intern (.string text) do return .string (← utf8 text)

/-- The index of a name with a descriptor. -/
def nameAndType (name descriptor : String) : Pooling UInt16 :=
  intern (.nameAndType name descriptor) do
    let name ← utf8 name
    return .nameAndType name (← utf8 descriptor)

/-- The index of a member reference. -/
def member (ref : MemberRef) : Pooling UInt16 :=
  intern (.member ref) do
    let owner ← classRef ref.owner
    return .member ref.kind owner (← nameAndType ref.name ref.descriptor)

/-- The index of a field reference. -/
def field (owner name descriptor : String) : Pooling UInt16 :=
  member ⟨.field, owner, name, descriptor⟩

/-- The index of a method reference. -/
def method (owner name descriptor : String) (onInterface : Bool) : Pooling UInt16 :=
  member ⟨if onInterface then .interfaceMethod else .method, owner, name, descriptor⟩

/-- The index of a constant. One that is an index already has to be in the pool the builder
started from. -/
def constant : Constant → Pooling UInt16
  | .integer value => integer value
  | .float bits => float bits
  | .long value => long value
  | .double bits => double bits
  | .string text => string text
  | .classRef name => classRef name
  | .pooled index => do
    let pool ← get
    if pool.origin.isNone || pool.next ≤ index.toNat then
      fail (.unsupported (.pooledConstant index.toNat))
    return index

end Pooling

end RoundingPatch.ClassFile
