import RoundingPatch.Bytes.Basic
import RoundingPatch.Text.Radix
/-!
# Digests

The 64-bit XXH3 hash of a byte sequence, without a seed. The hash mixes the input with a fixed
secret, by one of five schemes according to the length of the input. Reports show a digest as
sixteen hexadecimal digits.
-/

namespace RoundingPatch.Digest

/-! ### Words -/

/-- A byte of the input or of the secret; nothing is read past the end. -/
def byteAt (data : Array UInt8) (i : Nat) : UInt64 :=
  (data.getD i 0).toUInt64

/-- The four bytes from `i` on as a number, least significant first. -/
def word32 (data : Array UInt8) (i : Nat) : UInt64 :=
  byteAt data i ||| (byteAt data (i + 1) <<< 8) ||| (byteAt data (i + 2) <<< 16)
    ||| (byteAt data (i + 3) <<< 24)

/-- The eight bytes from `i` on as a number, least significant first. -/
def word64 (data : Array UInt8) (i : Nat) : UInt64 :=
  word32 data i ||| (word32 data (i + 4) <<< 32)

/-- The bits of `x` moved up by `n` places, those that leave coming back at the bottom. -/
def rotate (x n : UInt64) : UInt64 :=
  (x <<< n) ||| (x >>> (64 - n))

/-- The eight bytes of `x` in the opposite order. -/
def swapBytes (x : UInt64) : UInt64 :=
  (Bytes.ofU8 x).reverse.foldl (fun n b => (n <<< 8) ||| b.toUInt64) 0

/-- The two halves of the 128-bit product, combined. -/
def foldedProduct (x y : UInt64) : UInt64 :=
  let product := x.toNat * y.toNat
  UInt64.ofNat product ^^^ UInt64.ofNat (product >>> 64)

/-! ### Constants -/

def prime32A : UInt64 := 0x9e3779b1
def prime32B : UInt64 := 0x85ebca77
def prime32C : UInt64 := 0xc2b2ae3d
def prime64A : UInt64 := 0x9e3779b185ebca87
def prime64B : UInt64 := 0xc2b2ae3d27d4eb4f
def prime64C : UInt64 := 0x165667b19e3779f9
def prime64D : UInt64 := 0x85ebca77c2b2ae63
def prime64E : UInt64 := 0x27d4eb2f165667c5
def mixerA : UInt64 := 0x165667919e3779f9
def mixerB : UInt64 := 0x9fb21c651e98df25

/-- The secret the input is mixed with. -/
def secret : Array UInt8 := #[
  0xb8, 0xfe, 0x6c, 0x39, 0x23, 0xa4, 0x4b, 0xbe, 0x7c, 0x01, 0x81, 0x2c, 0xf7, 0x21, 0xad, 0x1c,
  0xde, 0xd4, 0x6d, 0xe9, 0x83, 0x90, 0x97, 0xdb, 0x72, 0x40, 0xa4, 0xa4, 0xb7, 0xb3, 0x67, 0x1f,
  0xcb, 0x79, 0xe6, 0x4e, 0xcc, 0xc0, 0xe5, 0x78, 0x82, 0x5a, 0xd0, 0x7d, 0xcc, 0xff, 0x72, 0x21,
  0xb8, 0x08, 0x46, 0x74, 0xf7, 0x43, 0x24, 0x8e, 0xe0, 0x35, 0x90, 0xe6, 0x81, 0x3a, 0x26, 0x4c,
  0x3c, 0x28, 0x52, 0xbb, 0x91, 0xc3, 0x00, 0xcb, 0x88, 0xd0, 0x65, 0x8b, 0x1b, 0x53, 0x2e, 0xa3,
  0x71, 0x64, 0x48, 0x97, 0xa2, 0x0d, 0xf9, 0x4e, 0x38, 0x19, 0xef, 0x46, 0xa9, 0xde, 0xac, 0xd8,
  0xa8, 0xfa, 0x76, 0x3f, 0xe3, 0x9c, 0x34, 0x3f, 0xf9, 0xdc, 0xbb, 0xc7, 0xc7, 0x0b, 0x4f, 0x1d,
  0x8a, 0x51, 0xe0, 0x4b, 0xcd, 0xb4, 0x59, 0x31, 0xc8, 0x9f, 0x7e, 0xc9, 0xd9, 0x78, 0x73, 0x64,
  0xea, 0xc5, 0xac, 0x83, 0x34, 0xd3, 0xeb, 0xc3, 0xc5, 0x81, 0xa0, 0xff, 0xfa, 0x13, 0x63, 0xeb,
  0x17, 0x0d, 0xdd, 0x51, 0xb7, 0xf0, 0xda, 0x49, 0xd3, 0x16, 0x55, 0x26, 0x29, 0xd4, 0x68, 0x9e,
  0x2b, 0x16, 0xbe, 0x58, 0x7d, 0x47, 0xa1, 0xfc, 0x8f, 0xf8, 0xb8, 0xd1, 0x7a, 0xd0, 0x31, 0xce,
  0x45, 0xcb, 0x3a, 0x8f, 0x95, 0x16, 0x04, 0x28, 0xaf, 0xd7, 0xfb, 0xca, 0xbb, 0x4b, 0x40, 0x7e]

/-! ### Mixing -/

/-- The last mixing step of the longer schemes. -/
def finalMix (h : UInt64) : UInt64 :=
  let h := (h ^^^ (h >>> 37)) * mixerA
  h ^^^ (h >>> 32)

/-- The last mixing step of the shortest schemes. -/
def shortMix (h : UInt64) : UInt64 :=
  let h := (h ^^^ (h >>> 33)) * prime64B
  let h := (h ^^^ (h >>> 29)) * prime64C
  h ^^^ (h >>> 32)

/-- Sixteen bytes of the input mixed with sixteen bytes of the secret. -/
def mix16 (data : Array UInt8) (i s : Nat) : UInt64 :=
  foldedProduct (word64 data i ^^^ word64 secret s)
    (word64 data (i + 8) ^^^ word64 secret (s + 8))

/-! ### The five schemes -/

/-- At most three bytes. -/
def ofTiny (data : Array UInt8) : UInt64 :=
  if data.size = 0 then shortMix (word64 secret 56 ^^^ word64 secret 64)
  else
    let combined := (byteAt data 0 <<< 16) ||| (byteAt data (data.size / 2) <<< 24)
      ||| byteAt data (data.size - 1) ||| (UInt64.ofNat data.size <<< 8)
    shortMix (combined ^^^ (word32 secret 0 ^^^ word32 secret 4))

/-- Four to eight bytes. -/
def ofSmall (data : Array UInt8) : UInt64 :=
  let input := word32 data (data.size - 4) + (word32 data 0 <<< 32)
  let h := input ^^^ (word64 secret 8 ^^^ word64 secret 16)
  let h := (h ^^^ rotate h 49 ^^^ rotate h 24) * mixerB
  let h := (h ^^^ ((h >>> 35) + UInt64.ofNat data.size)) * mixerB
  h ^^^ (h >>> 28)

/-- Nine to sixteen bytes. -/
def ofShort (data : Array UInt8) : UInt64 :=
  let low := word64 data 0 ^^^ (word64 secret 24 ^^^ word64 secret 32)
  let high := word64 data (data.size - 8) ^^^ (word64 secret 40 ^^^ word64 secret 48)
  finalMix (UInt64.ofNat data.size + swapBytes low + high + foldedProduct low high)

/-- Seventeen to 128 bytes: blocks from both ends towards the middle. -/
def ofMedium (data : Array UInt8) : UInt64 :=
  let n := data.size
  let pairs := if n > 96 then 4 else if n > 64 then 3 else if n > 32 then 2 else 1
  let start := UInt64.ofNat n * prime64A
  finalMix <| (List.range pairs).foldl
    (fun acc i => acc + mix16 data (16 * i) (32 * i) + mix16 data (n - 16 * (i + 1)) (32 * i + 16))
    start

/-- 129 to 240 bytes: blocks in order, with a mixing step after the eighth. -/
def ofLong (data : Array UInt8) : UInt64 :=
  let n := data.size
  let start := UInt64.ofNat n * prime64A
  let first := (List.range 8).foldl (fun acc i => acc + mix16 data (16 * i) (16 * i)) start
  let rest := (List.range (n / 16 - 8)).foldl
    (fun acc i => acc + mix16 data (16 * (i + 8)) (16 * i + 3)) (finalMix first)
  finalMix (rest + mix16 data (n - 16) 119)

/-- The eight accumulators of the scheme for the longest inputs. -/
abbrev Lanes := Array UInt64

/-- The accumulators before any input. -/
def startLanes : Lanes :=
  #[prime32C, prime64A, prime64B, prime64C, prime64D, prime32B, prime64E, prime32A]

/-- Sixty-four bytes from `i` on, mixed with the secret from `s` on. -/
def stripe (data : Array UInt8) (lanes : Lanes) (i s : Nat) : Lanes :=
  Array.ofFn fun lane : Fin 8 =>
    let partner := word64 data (i + 8 * (lane.val ^^^ 1))
    let key := word64 data (i + 8 * lane.val) ^^^ word64 secret (s + 8 * lane.val)
    lanes.getD lane.val 0 + partner + (key &&& (0xffffffff : UInt64)) * (key >>> 32)

/-- The step between two blocks of 1024 bytes. -/
def scramble (lanes : Lanes) : Lanes :=
  Array.ofFn fun lane : Fin 8 =>
    let acc := lanes.getD lane.val 0
    ((acc ^^^ (acc >>> 47)) ^^^ word64 secret (128 + 8 * lane.val)) * prime32A

/-- `count` stripes of the block that starts at `i`. -/
def stripes (data : Array UInt8) (lanes : Lanes) (i count : Nat) : Lanes :=
  (List.range count).foldl (fun acc k => stripe data acc (i + 64 * k) (8 * k)) lanes

/-- More than 240 bytes. -/
def ofHuge (data : Array UInt8) : UInt64 :=
  let n := data.size
  let blocks := (n - 1) / 1024
  let full := (List.range blocks).foldl
    (fun acc b => scramble (stripes data acc (1024 * b) 16)) startLanes
  let partly := stripes data full (1024 * blocks) ((n - 1 - 1024 * blocks) / 64)
  let lanes := stripe data partly (n - 64) 121
  finalMix <| (List.range 4).foldl
    (fun acc i => acc + foldedProduct (lanes.getD (2 * i) 0 ^^^ word64 secret (11 + 16 * i))
      (lanes.getD (2 * i + 1) 0 ^^^ word64 secret (19 + 16 * i)))
    (UInt64.ofNat n * prime64A)

end Digest

/-- The XXH3 hash of a byte sequence. -/
def xxh3 (bytes : Bytes) : UInt64 :=
  let data := bytes.toArray
  if data.size ≤ 3 then Digest.ofTiny data
  else if data.size ≤ 8 then Digest.ofSmall data
  else if data.size ≤ 16 then Digest.ofShort data
  else if data.size ≤ 128 then Digest.ofMedium data
  else if data.size ≤ 240 then Digest.ofLong data
  else Digest.ofHuge data

/-- A digest as reports show it. -/
def digestText (bytes : Bytes) : String :=
  Text.hex 16 (xxh3 bytes).toNat

end RoundingPatch
