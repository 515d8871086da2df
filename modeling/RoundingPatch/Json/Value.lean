import RoundingPatch.Bytes.Basic
import RoundingPatch.Text.Radix
/-!
# JSON values

Reports and listings are JSON values. Numbers are integers; longer numbers, bits and bytes are
written as text. An object keeps its entries in the order in which they were given.
-/

namespace RoundingPatch

/-- A JSON value. -/
inductive Json
  | null
  | bool (b : Bool)
  | int (n : Int)
  | str (s : String)
  | arr (items : List Json)
  | obj (entries : List (String × Json))
  deriving Inhabited

namespace Json

/-! ### Writing -/

/-- A natural number. -/
def nat (n : Nat) : Json :=
  int n

/-- A value that may be absent. -/
def opt (write : α → Json) : Option α → Json
  | some a => write a
  | none => null

/-- A list of values. -/
def list (write : α → Json) (items : List α) : Json :=
  arr (items.map write)

/-- A row that starts with the name of what it describes. -/
def row (name : String) (items : List Json) : Json :=
  arr (str name :: items)

/-- An integer in decimal, as text. -/
def decimal (n : Int) : Json :=
  str (toString n)

/-- Thirty-two bits in hexadecimal. -/
def bits32 (n : UInt32) : Json :=
  str (Text.hex 8 n.toNat)

/-- Sixty-four bits in hexadecimal. -/
def bits64 (n : UInt64) : Json :=
  str (Text.hex 16 n.toNat)

/-- The hexadecimal digit of a number below sixteen. -/
def hexDigit (n : Nat) : Char :=
  if n < 10 then Char.ofNat (48 + n) else Char.ofNat (87 + n)

/-- Bytes in hexadecimal. -/
def hexBytes (bytes : Bytes) : Json :=
  str (bytes.foldl (fun s b =>
    (s.push (hexDigit (b.toNat / 16))).push (hexDigit (b.toNat % 16))) "")

/-! ### Reading -/

/-- The value of a key, if it is there and not null. -/
def get? : Json → String → Option Json
  | obj entries, key =>
    match (entries.find? fun entry => entry.1 == key).map (·.2) with
    | some null => none
    | other => other
  | _, _ => none

/-- Whether an object has a key, be its value null. -/
def hasKey : Json → String → Bool
  | obj entries, key => entries.any fun entry => entry.1 == key
  | _, _ => false

/-- A truth value. -/
def bool? : Json → Option Bool
  | bool b => some b
  | _ => none

/-- An integer. -/
def int? : Json → Option Int
  | int n => some n
  | _ => none

/-- A natural number. -/
def nat? : Json → Option Nat
  | int (.ofNat n) => some n
  | _ => none

/-- A text. -/
def str? : Json → Option String
  | str s => some s
  | _ => none

/-- The items of an array. -/
def arr? : Json → Option (List Json)
  | arr items => some items
  | _ => none

/-- An array of values. -/
def list? (read : Json → Option α) (j : Json) : Option (List α) := do
  (← j.arr?).mapM read

/-- A value that may be null. -/
def opt? (read : Json → Option α) : Json → Option (Option α)
  | null => some none
  | j => some <$> read j

/-- An unsigned number of one byte. -/
def u1? (j : Json) : Option UInt8 :=
  UInt8.ofNat <$> j.nat?

/-- An unsigned number of two bytes. -/
def u2? (j : Json) : Option UInt16 :=
  UInt16.ofNat <$> j.nat?

/-- A signed number of two bytes. -/
def i2? (j : Json) : Option Int16 :=
  Int16.ofInt <$> j.int?

/-- A signed number of four bytes. -/
def i4? (j : Json) : Option Int32 :=
  Int32.ofInt <$> j.int?

/-- The value of a hexadecimal digit. -/
def hexDigit? (c : Char) : Option Nat :=
  if '0' ≤ c ∧ c ≤ '9' then some (c.toNat - '0'.toNat)
  else if 'a' ≤ c ∧ c ≤ 'f' then some (c.toNat - 'a'.toNat + 10)
  else if 'A' ≤ c ∧ c ≤ 'F' then some (c.toNat - 'A'.toNat + 10)
  else none

/-- A number in hexadecimal. -/
def hex? (j : Json) : Option Nat := do
  (← j.str?).toList.foldlM (fun n c => return n * 16 + (← hexDigit? c)) 0

/-- The bytes that pairs of hexadecimal digits stand for. -/
def bytesOfHex? (acc : Array UInt8) : List Char → Option Bytes
  | [] => some acc.toList
  | [_] => none
  | a :: b :: rest => do
    bytesOfHex? (acc.push (UInt8.ofNat ((← hexDigit? a) * 16 + (← hexDigit? b)))) rest

/-- Bytes in hexadecimal. -/
def hexBytes? (j : Json) : Option Bytes := do
  bytesOfHex? #[] (← j.str?).toList

/-- An integer in decimal, as text. -/
def decimal? (j : Json) : Option Int := do
  (← j.str?).toInt?

/-- The value of a key that has to be there. -/
def field? (j : Json) (key : String) (read : Json → Option α) : Option α := do
  read (← j.get? key)

/-- The value of a key, or a default if it is absent or null. -/
def fieldD (j : Json) (key : String) (read : Json → Option α) (default : α) : Option α :=
  match j.get? key with
  | some value => read value
  | none => some default

end Json

end RoundingPatch
