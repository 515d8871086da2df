import RoundingPatch.Bytes.Basic
import RoundingPatch.Fault
/-!
# Text constants

Class files hold text as UTF-16 code units, each unit in one to three bytes. Code unit zero takes
two bytes, so that no encoded text holds a zero byte, and a character outside the basic plane is
written as its two surrogates. `decode` also accepts units written in more bytes than necessary.
-/

namespace RoundingPatch.ModifiedUtf8

/-! ### Characters and code units -/

/-- The code units of one character. -/
def unitsOfChar (c : Char) : List UInt16 :=
  let n := c.toNat
  if n < 0x10000 then [UInt16.ofNat n]
  else
    let m := n - 0x10000
    [UInt16.ofNat (0xd800 + m / 0x400), UInt16.ofNat (0xdc00 + m % 0x400)]

/-- The code units of a text. -/
def units (s : List Char) : List UInt16 :=
  s.flatMap unitsOfChar

/-- Whether a unit opens a surrogate pair. -/
def isHighSurrogate (u : UInt16) : Bool :=
  0xd800 ≤ u && u < 0xdc00

/-- Whether a unit closes a surrogate pair. -/
def isLowSurrogate (u : UInt16) : Bool :=
  0xdc00 ≤ u && u < 0xe000

/-- The character of a surrogate pair. -/
def pairedChar (high low : UInt16) : Char :=
  Char.ofNat (0x10000 + (high.toNat - 0xd800) * 0x400 + (low.toNat - 0xdc00))

/-- The text with the given code units, unless a surrogate stands alone. -/
def ofUnits? : List UInt16 → Option (List Char)
  | [] => some []
  | [u] =>
    if isHighSurrogate u || isLowSurrogate u then none else some [Char.ofNat u.toNat]
  | u :: v :: rest =>
    if isHighSurrogate u then
      if isLowSurrogate v then (ofUnits? rest).map (pairedChar u v :: ·) else none
    else if isLowSurrogate u then none
    else (ofUnits? (v :: rest)).map (Char.ofNat u.toNat :: ·)

/-! ### Code units and bytes -/

/-- The bytes of one code unit. -/
def bytesOfUnit (u : UInt16) : Bytes :=
  if 0x0001 ≤ u && u ≤ 0x007f then [u.toUInt8]
  else if u ≤ 0x07ff then
    [(0xc0 : UInt8) ||| ((u >>> 6).toUInt8 &&& 0x1f), (0x80 : UInt8) ||| (u.toUInt8 &&& 0x3f)]
  else
    [(0xe0 : UInt8) ||| ((u >>> 12).toUInt8 &&& 0x0f),
      (0x80 : UInt8) ||| ((u >>> 6).toUInt8 &&& 0x3f), (0x80 : UInt8) ||| (u.toUInt8 &&& 0x3f)]

/-- Whether a byte continues a unit. -/
def isContinuation (b : UInt8) : Bool :=
  b &&& 0xc0 == 0x80

/-- The unit of a sequence of two bytes. -/
def unitOfTwo (b0 b1 : UInt8) : UInt16 :=
  ((b0 &&& 0x1f).toUInt16 <<< 6) ||| (b1 &&& 0x3f).toUInt16

/-- The unit of a sequence of three bytes. -/
def unitOfThree (b0 b1 b2 : UInt8) : UInt16 :=
  ((b0 &&& 0x0f).toUInt16 <<< 12) ||| ((b1 &&& 0x3f).toUInt16 <<< 6) ||| (b2 &&& 0x3f).toUInt16

/-- The code units of encoded text. -/
def unitsOfBytes : Bytes → Except TextFault (List UInt16)
  | [] => .ok []
  | b0 :: rest =>
    -- The unit zero is written in two bytes; a zero byte stands for nothing.
    if b0 == 0 then .error .nulByte
    else if b0 &&& 0x80 == 0 then (unitsOfBytes rest).map (b0.toUInt16 :: ·)
    else if b0 &&& 0xe0 == 0xc0 then
      match rest with
      | b1 :: rest =>
        if isContinuation b1 then (unitsOfBytes rest).map (unitOfTwo b0 b1 :: ·)
        else .error .truncatedSequence
      | [] => .error .truncatedSequence
    else if b0 &&& 0xf0 == 0xe0 then
      match rest with
      | b1 :: b2 :: rest =>
        if isContinuation b1 && isContinuation b2 then
          (unitsOfBytes rest).map (unitOfThree b0 b1 b2 :: ·)
        else .error .truncatedSequence
      | _ => .error .truncatedSequence
    else .error (.badLeadByte b0)

/-! ### Text and bytes -/

/-- The encoded form of a text. -/
def encode (s : String) : Bytes :=
  (units s.toList).flatMap bytesOfUnit

/-- The text of encoded bytes. -/
def decode (bytes : Bytes) : Except TextFault String := do
  match ofUnits? (← unitsOfBytes bytes) with
  | some s => return String.ofList s
  | none => .error .unpairedSurrogate

end RoundingPatch.ModifiedUtf8
