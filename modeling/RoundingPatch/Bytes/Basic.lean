/-!
# Byte sequences

A file is a list of bytes. Numbers are written with their most significant byte first.
-/

namespace RoundingPatch

/-- The contents of a file or of a part of it. -/
abbrev Bytes := List UInt8

namespace Bytes

/-- Two bytes. -/
def ofU2 (v : UInt16) : Bytes :=
  [(v >>> 8).toUInt8, v.toUInt8]

/-- Four bytes. -/
def ofU4 (v : UInt32) : Bytes :=
  [(v >>> 24).toUInt8, (v >>> 16).toUInt8, (v >>> 8).toUInt8, v.toUInt8]

/-- Eight bytes. -/
def ofU8 (v : UInt64) : Bytes :=
  [(v >>> 56).toUInt8, (v >>> 48).toUInt8, (v >>> 40).toUInt8, (v >>> 32).toUInt8,
    (v >>> 24).toUInt8, (v >>> 16).toUInt8, (v >>> 8).toUInt8, v.toUInt8]

/-- The number whose digits in base 256 are the bytes, most significant first. -/
def toNat (bytes : Bytes) : Nat :=
  bytes.foldl (fun n b => n * 256 + b.toNat) 0

/-- The bytes of a text in UTF-8. -/
def ofText (s : String) : Bytes :=
  s.toUTF8.toList

/-- The bytes with those from `pos` on replaced by `patch`, which lies inside them. -/
def overwrite (bytes : Bytes) (pos : Nat) (patch : Bytes) : Bytes :=
  bytes.take pos ++ patch ++ bytes.drop (pos + patch.length)

end Bytes

end RoundingPatch
