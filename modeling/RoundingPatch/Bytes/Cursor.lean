import RoundingPatch.Bytes.Basic
import RoundingPatch.Fault
/-!
# Reading bytes

A cursor is a position together with the bytes from there on. A reader consumes bytes from the
front; one that needs more than there are fails, names the field it was reading, and leaves the
cursor where it was.
-/

namespace RoundingPatch

/-- A position in a byte sequence and the bytes that follow it. -/
structure Cursor where
  pos : Nat
  rest : Bytes
  /-- How far the position lies past the end of the bytes. -/
  gap : Nat := 0

namespace Cursor

/-- The start of `bytes`. -/
def start (bytes : Bytes) : Cursor :=
  { pos := 0, rest := bytes }

/-- Position `pos` of `bytes`, which may lie past their end. -/
def seek (bytes : Bytes) (pos : Nat) : Cursor :=
  { pos, rest := bytes.drop pos, gap := pos - bytes.length }

/-- The number of bytes left to read. -/
def remaining (c : Cursor) : Nat :=
  c.rest.length

/-- The bytes of `bytes` between a start position and the cursor. -/
def since (bytes : Bytes) (start : Nat) (c : Cursor) : Bytes :=
  (bytes.take c.pos).drop start

/-- The bytes between two cursors into the same bytes. -/
def upTo (c later : Cursor) : Bytes :=
  c.rest.take (later.pos - c.pos)

end Cursor

/-- Reads a value off the front of a byte sequence. -/
abbrev Read := StateT Cursor (Except Fault)

namespace Read

/-- Give up because of a malformation. -/
def malformed (cause : Malformation) : Read α :=
  throw (.malformed cause)

/-- The next `n` bytes, as field `field`. -/
def take (n : Nat) (field : String) : Read Bytes := fun c =>
  let taken := c.rest.take n
  if c.gap = 0 ∧ taken.length = n then
    .ok (taken, { c with pos := c.pos + n, rest := c.rest.drop n })
  else
    .error (.malformed (.truncated field n c.pos c.remaining))

/-- Pass over the next `n` bytes. -/
def skip (n : Nat) (field : String) : Read Unit :=
  discard (take n field)

/-- An unsigned number of one byte. -/
def u1 (field : String) : Read UInt8 :=
  return UInt8.ofNat (← take 1 field).toNat

/-- An unsigned number of two bytes. -/
def u2 (field : String) : Read UInt16 :=
  return UInt16.ofNat (← take 2 field).toNat

/-- An unsigned number of four bytes. -/
def u4 (field : String) : Read UInt32 :=
  return UInt32.ofNat (← take 4 field).toNat

/-- An unsigned number of eight bytes. -/
def u8 (field : String) : Read UInt64 :=
  return UInt64.ofNat (← take 8 field).toNat

/-- A signed number of one byte. -/
def i1 (field : String) : Read Int8 :=
  return (← u1 field).toInt8

/-- A signed number of two bytes. -/
def i2 (field : String) : Read Int16 :=
  return (← u2 field).toInt16

/-- A signed number of four bytes. -/
def i4 (field : String) : Read Int32 :=
  return (← u4 field).toInt32

/-- Where the reader stands. -/
def cursor : Read Cursor :=
  get

/-- The value of an answer that may be a fault. -/
def lift (answer : Except Fault α) : Read α :=
  StateT.lift answer

/-- `n` values, one after the other. -/
def many : Nat → Read α → Read (List α)
  | 0, _ => return []
  | n + 1, item => do
    let x ← item
    let xs ← many n item
    return x :: xs

/-- What `r` reads at the start of `bytes`. -/
def runOn (r : Read α) (bytes : Bytes) : Except Fault α :=
  (r.run (Cursor.start bytes)).map (·.1)

end Read

/-! ### Lengths that have to fit a field -/

/-- A count that a field of two bytes has to hold. -/
def countU2 (count : Nat) (what : String) : Except Fault UInt16 :=
  if count < 65536 then .ok (UInt16.ofNat count) else .error (.unsupported (.tooMany what count))

/-- A length that a field of four bytes has to hold. -/
def lengthU4 (length : Nat) (what : String) : Except Fault UInt32 :=
  if length < 4294967296 then .ok (UInt32.ofNat length)
  else .error (.unsupported (.tooLong what length))

end RoundingPatch
