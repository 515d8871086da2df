import Mathlib.Data.Nat.Bitwise
import RoundingPatch.Text.ModifiedUtf8
/-!
# Modified UTF-8 reads back

`decode_encode`: encoded text decodes to itself. The proof goes through the code units. `IsSpelling
u bytes` says that `bytes` are read as unit `u` (`unitsOfBytes_spelling`), and the encoder writes
such bytes (`isSpelling_bytesOfUnit`). The units of a text determine the text (`ofUnits?_units`),
because a character outside the basic plane is exactly a high surrogate followed by a low one.
-/

namespace RoundingPatch.ModifiedUtf8

/-! ### Bits -/

/-- A mask takes apart a byte that was put together from marker bits and payload bits. -/
theorem or_and_mask (marker x payload mask : UInt8) :
    (marker ||| (x &&& payload)) &&& mask = (marker &&& mask) ||| (x &&& (payload &&& mask)) := by
  rw [← UInt8.and_assoc]
  exact UInt8.toBitVec_inj.mp BitVec.and_or_distrib_right

/-- Where the mask misses the payload, the marker bits are left. -/
theorem marker_of_mask {marker payload mask marked : UInt8} (hpayload : payload &&& mask = 0)
    (hmarked : marker &&& mask = marked) (x : UInt8) :
    (marker ||| (x &&& payload)) &&& mask = marked := by
  rw [or_and_mask, hpayload, hmarked, UInt8.and_zero, UInt8.or_zero]

/-- Where the mask misses the marker, the payload bits are left. -/
theorem payload_of_mask {marker payload : UInt8} (hmarker : marker &&& payload = 0) (x : UInt8) :
    (marker ||| (x &&& payload)) &&& payload = x &&& payload := by
  rw [or_and_mask, hmarker, UInt8.and_self, UInt8.zero_or]

theorem toNat_and_mask (x : UInt8) (i : Nat) (m : UInt8) (hm : m.toNat = 2 ^ i - 1) :
    (x &&& m).toUInt16.toNat = x.toNat % 2 ^ i := by
  rw [UInt8.toNat_toUInt16, UInt8.toNat_and, hm, Nat.and_two_pow_sub_one_eq_mod]

/-- The digits that stand behind the marker bits. -/
theorem toNat_payload {marker payload : UInt8} {i : Nat} (hpayload : payload.toNat = 2 ^ i - 1)
    (hmarker : marker &&& payload = 0) (x : UInt8) :
    (marker ||| (x &&& payload)).toNat % 2 ^ i = x.toNat % 2 ^ i := by
  rw [← toNat_and_mask _ i payload hpayload, payload_of_mask hmarker,
    toNat_and_mask _ i payload hpayload]

/-- A mask that has more bits decides what is left under one that has fewer. -/
theorem and_of_mask {b mask marked fewer : UInt8} (h : b &&& mask = marked)
    (hfewer : mask &&& fewer = fewer) : b &&& fewer = marked &&& fewer := by
  rw [← h, UInt8.and_assoc, hfewer]

theorem ne_zero_of_mask {b mask marked : UInt8} (h : b &&& mask = marked) (hmarked : marked ≠ 0) :
    b ≠ 0 := by
  rintro rfl
  exact hmarked (h.symm.trans UInt8.zero_and)

theorem lead_of_one (x : UInt8) (h : 1 ≤ x.toNat ∧ x.toNat ≤ 127) : x ≠ 0 ∧ x &&& 0x80 = 0 := by
  constructor
  · rintro rfl
    exact absurd h.1 (by decide)
  · have hlow : x &&& 0x7f = x := by
      apply UInt8.toNat_inj.mp
      rw [UInt8.toNat_and]
      exact (Nat.and_two_pow_sub_one_eq_mod _ 7).trans (Nat.mod_eq_of_lt (Nat.lt_succ_of_le h.2))
    calc x &&& 0x80 = (x &&& 0x7f) &&& 0x80 := by rw [hlow]
      _ = x &&& (0x7f &&& 0x80) := UInt8.and_assoc ..
      _ = 0 := UInt8.and_zero

theorem toNat_unitOfTwo (b0 b1 : UInt8) :
    (unitOfTwo b0 b1).toNat = b0.toNat % 32 * 64 + b1.toNat % 64 := by
  have hlow : b1.toNat % 2 ^ 6 < 2 ^ 6 := Nat.mod_lt _ (by decide)
  have hhigh : (b0.toNat % 2 ^ 5) <<< 6 < 2 ^ 16 := by
    rw [Nat.shiftLeft_eq]
    omega
  unfold unitOfTwo
  rw [UInt16.toNat_or, UInt16.toNat_shiftLeft, toNat_and_mask _ 5 _ rfl, toNat_and_mask _ 6 _ rfl]
  show ((b0.toNat % 2 ^ 5) <<< 6 % 2 ^ 16) ||| (b1.toNat % 2 ^ 6) = _
  rw [Nat.mod_eq_of_lt hhigh, ← Nat.shiftLeft_add_eq_or_of_lt hlow, Nat.shiftLeft_eq]
  rfl

theorem toNat_unitOfThree (b0 b1 b2 : UInt8) : (unitOfThree b0 b1 b2).toNat
    = b0.toNat % 16 * 4096 + b1.toNat % 64 * 64 + b2.toNat % 64 := by
  have hlow : b2.toNat % 2 ^ 6 < 2 ^ 6 := Nat.mod_lt _ (by decide)
  have hmid : (b1.toNat % 2 ^ 6) <<< 6 < 2 ^ 12 := by
    rw [Nat.shiftLeft_eq]
    omega
  have hrest : (b1.toNat % 2 ^ 6) <<< 6 + b2.toNat % 2 ^ 6 < 2 ^ 12 := by
    rw [Nat.shiftLeft_eq] at hmid ⊢
    omega
  have hhigh : (b0.toNat % 2 ^ 4) <<< 12 < 2 ^ 16 := by
    rw [Nat.shiftLeft_eq]
    omega
  unfold unitOfThree
  rw [UInt16.toNat_or, UInt16.toNat_or, UInt16.toNat_shiftLeft, UInt16.toNat_shiftLeft,
    toNat_and_mask _ 4 _ rfl, toNat_and_mask _ 6 _ rfl, toNat_and_mask _ 6 _ rfl]
  show ((b0.toNat % 2 ^ 4) <<< 12 % 2 ^ 16) ||| ((b1.toNat % 2 ^ 6) <<< 6 % 2 ^ 16)
    ||| (b2.toNat % 2 ^ 6) = _
  rw [Nat.mod_eq_of_lt hhigh, Nat.mod_eq_of_lt (Nat.lt_trans hmid (by decide)), Nat.or_assoc,
    ← Nat.shiftLeft_add_eq_or_of_lt hlow, ← Nat.shiftLeft_add_eq_or_of_lt hrest, Nat.shiftLeft_eq,
    Nat.shiftLeft_eq, Nat.add_assoc]
  rfl

/-! ### Spellings of a code unit -/

/-- Bytes that are read as a code unit, whether or not fewer would do. -/
inductive IsSpelling : UInt16 → Bytes → Prop
  | one {b : UInt8} : b ≠ 0 → b &&& 0x80 = 0 → IsSpelling b.toUInt16 [b]
  | two {b0 b1 : UInt8} : b0 &&& 0xe0 = 0xc0 → isContinuation b1 = true →
      IsSpelling (unitOfTwo b0 b1) [b0, b1]
  | three {b0 b1 b2 : UInt8} : b0 &&& 0xf0 = 0xe0 → isContinuation b1 = true →
      isContinuation b2 = true → IsSpelling (unitOfThree b0 b1 b2) [b0, b1, b2]

/-- **A spelling is read as its unit.** -/
theorem unitsOfBytes_spelling {u : UInt16} {bytes : Bytes} (h : IsSpelling u bytes) (rest : Bytes) :
    unitsOfBytes (bytes ++ rest) = (unitsOfBytes rest).map (u :: ·) := by
  cases h with
  | one hne hsingle =>
    rw [List.singleton_append, unitsOfBytes.eq_def]
    simp only [beq_iff_eq, hne, hsingle, ↓reduceIte]
  | @two b0 _ hlead hb1 =>
    have hne := ne_zero_of_mask hlead (by decide)
    have hhigh : b0 &&& 0x80 = 0x80 := and_of_mask hlead rfl
    rw [List.cons_append, List.singleton_append, unitsOfBytes.eq_def]
    simp [hne, hhigh, hlead, hb1]
  | @three b0 _ _ hlead hb1 hb2 =>
    have hne := ne_zero_of_mask hlead (by decide)
    have hhigh : b0 &&& 0x80 = 0x80 := and_of_mask hlead rfl
    have hnext : b0 &&& 0xe0 = 0xe0 := and_of_mask hlead rfl
    rw [List.cons_append, List.cons_append, List.singleton_append, unitsOfBytes.eq_def]
    simp [hne, hhigh, hnext, hlead, hb1, hb2]

/-- **The encoder spells a unit.** Marker bits and the digits of the unit stand in each byte side by
side, and the masks take them apart again. -/
theorem isSpelling_bytesOfUnit (u : UInt16) : IsSpelling u (bytesOfUnit u) := by
  have hcontinuation (x : UInt8) : isContinuation ((0x80 : UInt8) ||| (x &&& 0x3f)) = true :=
    beq_iff_eq.mpr (marker_of_mask rfl rfl x)
  have hdigits (x : UInt8) : ((0x80 : UInt8) ||| (x &&& 0x3f)).toNat % 64 = x.toNat % 64 :=
    toNat_payload (i := 6) rfl rfl x
  have hsix : (u >>> 6).toNat = u.toNat / 64 := by
    rw [UInt16.toNat_shiftRight]
    exact Nat.shiftRight_eq_div_pow _ 6
  have hu : u.toNat < 65536 := u.toNat_lt
  unfold bytesOfUnit
  split
  · next h =>
    simp only [Bool.and_eq_true, decide_eq_true_eq, UInt16.le_iff_toNat_le, UInt16.reduceToNat] at h
    -- Seven bits: the byte is the unit.
    have hbyte : u.toUInt8.toNat = u.toNat := by
      rw [UInt16.toNat_toUInt8]
      omega
    have hback : u.toUInt8.toUInt16 = u := by
      apply UInt16.toNat_inj.mp
      rw [UInt8.toNat_toUInt16, hbyte]
    obtain ⟨hne, hsingle⟩ := lead_of_one u.toUInt8 (by omega)
    have hspelling := IsSpelling.one hne hsingle
    rwa [hback] at hspelling
  · split
    · next h =>
      -- Eleven bits: five in the lead, six behind it.
      have hle : u.toNat ≤ 2047 := UInt16.le_iff_toNat_le.mp h
      have hlead : ((0xc0 : UInt8) ||| ((u >>> 6).toUInt8 &&& 0x1f)).toNat % 32
          = (u >>> 6).toUInt8.toNat % 32 := toNat_payload (i := 5) rfl rfl _
      have hback : unitOfTwo ((0xc0 : UInt8) ||| ((u >>> 6).toUInt8 &&& 0x1f))
          ((0x80 : UInt8) ||| (u.toUInt8 &&& 0x3f)) = u := by
        apply UInt16.toNat_inj.mp
        rw [toNat_unitOfTwo, hlead, hdigits, UInt16.toNat_toUInt8, UInt16.toNat_toUInt8, hsix]
        omega
      have hspelling := @IsSpelling.two ((0xc0 : UInt8) ||| ((u >>> 6).toUInt8 &&& 0x1f)) _
        (marker_of_mask rfl rfl _) (hcontinuation u.toUInt8)
      rwa [hback] at hspelling
    · have htwelve : (u >>> 12).toNat = u.toNat / 4096 := by
        rw [UInt16.toNat_shiftRight]
        exact Nat.shiftRight_eq_div_pow _ 12
      -- Sixteen bits: four in the lead, six and six behind it.
      have hlead : ((0xe0 : UInt8) ||| ((u >>> 12).toUInt8 &&& 0x0f)).toNat % 16
          = (u >>> 12).toUInt8.toNat % 16 := toNat_payload (i := 4) rfl rfl _
      have hback : unitOfThree ((0xe0 : UInt8) ||| ((u >>> 12).toUInt8 &&& 0x0f))
          ((0x80 : UInt8) ||| ((u >>> 6).toUInt8 &&& 0x3f))
          ((0x80 : UInt8) ||| (u.toUInt8 &&& 0x3f)) = u := by
        apply UInt16.toNat_inj.mp
        rw [toNat_unitOfThree, hlead, hdigits, hdigits, UInt16.toNat_toUInt8, UInt16.toNat_toUInt8,
          UInt16.toNat_toUInt8, hsix, htwelve]
        omega
      have hspelling := @IsSpelling.three ((0xe0 : UInt8) ||| ((u >>> 12).toUInt8 &&& 0x0f)) _
        _ (marker_of_mask rfl rfl _) (hcontinuation (u >>> 6).toUInt8) (hcontinuation u.toUInt8)
      rwa [hback] at hspelling

theorem unitsOfBytes_flatMap (us : List UInt16) :
    unitsOfBytes (us.flatMap bytesOfUnit) = .ok us := by
  induction us with
  | nil => rfl
  | cons u us ih =>
    rw [List.flatMap_cons, unitsOfBytes_spelling (isSpelling_bytesOfUnit u), ih]
    rfl

/-! ### Texts -/

theorem toNat_lt_of_char (c : Char) : c.toNat < 0xd800 ∨ (0xdfff < c.toNat ∧ c.toNat < 0x110000) :=
  c.valid

/-- A character of the basic plane is its own code unit, which is no surrogate. -/
theorem surrogate_of_small {n : Nat} (h : n < 0xd800 ∨ (0xdfff < n ∧ n < 0x10000)) :
    isHighSurrogate (UInt16.ofNat n) = false ∧ isLowSurrogate (UInt16.ofNat n) = false := by
  have hn : (UInt16.ofNat n).toNat = n := UInt16.toNat_ofNat_of_lt' (show _ < 65536 by omega)
  unfold isHighSurrogate isLowSurrogate
  simp only [UInt16.le_iff_toNat_le, UInt16.lt_iff_toNat_lt, hn, UInt16.reduceToNat,
    Bool.and_eq_false_iff, decide_eq_false_iff_not]
  omega

theorem ofUnits?_small {n : Nat} (h : n < 0xd800 ∨ (0xdfff < n ∧ n < 0x10000))
    (us : List UInt16) :
    ofUnits? (UInt16.ofNat n :: us) = (ofUnits? us).map (Char.ofNat n :: ·) := by
  have hn : (UInt16.ofNat n).toNat = n := UInt16.toNat_ofNat_of_lt' (show _ < 65536 by omega)
  obtain ⟨hh, hl⟩ := surrogate_of_small h
  cases us with
  | nil => simp only [ofUnits?, hh, hl, Bool.or_self, Bool.false_eq_true, ↓reduceIte, hn,
      Option.map_some]
  | cons v us => simp only [ofUnits?, hh, hl, Bool.false_eq_true, ↓reduceIte, hn]

theorem ofUnits?_pair {m : Nat} (h : m < 0x100000) (us : List UInt16) :
    ofUnits? (UInt16.ofNat (0xd800 + m / 0x400) :: UInt16.ofNat (0xdc00 + m % 0x400) :: us)
      = (ofUnits? us).map (Char.ofNat (0x10000 + m) :: ·) := by
  have h1 : (UInt16.ofNat (0xd800 + m / 0x400)).toNat = 0xd800 + m / 0x400 :=
    UInt16.toNat_ofNat_of_lt' (show _ < 65536 by omega)
  have h2 : (UInt16.ofNat (0xdc00 + m % 0x400)).toNat = 0xdc00 + m % 0x400 :=
    UInt16.toNat_ofNat_of_lt' (show _ < 65536 by omega)
  have hh : isHighSurrogate (UInt16.ofNat (0xd800 + m / 0x400)) = true := by
    unfold isHighSurrogate
    simp only [UInt16.le_iff_toNat_le, UInt16.lt_iff_toNat_lt, h1, UInt16.reduceToNat,
      Bool.and_eq_true, decide_eq_true_eq]
    omega
  have hl : isLowSurrogate (UInt16.ofNat (0xdc00 + m % 0x400)) = true := by
    unfold isLowSurrogate
    simp only [UInt16.le_iff_toNat_le, UInt16.lt_iff_toNat_lt, h2, UInt16.reduceToNat,
      Bool.and_eq_true, decide_eq_true_eq]
    omega
  have hm : 0x10000 + (0xd800 + m / 0x400 - 0xd800) * 0x400 + (0xdc00 + m % 0x400 - 0xdc00)
      = 0x10000 + m := by omega
  simp only [ofUnits?, hh, hl, ↓reduceIte, pairedChar, h1, h2, hm]

/-- The code units of a text determine it. -/
theorem ofUnits?_units (s : List Char) : ofUnits? (units s) = some s := by
  induction s with
  | nil => rfl
  | cons c s ih =>
    have hc := toNat_lt_of_char c
    have hs : units (c :: s) = unitsOfChar c ++ units s := rfl
    rw [hs, unitsOfChar]
    simp only
    split
    · next h =>
      rw [List.singleton_append, ofUnits?_small (by omega), ih, Char.ofNat_toNat]
      rfl
    · next h =>
      rw [List.cons_append, List.singleton_append, ofUnits?_pair (by omega), ih,
        show 0x10000 + (c.toNat - 0x10000) = c.toNat by omega, Char.ofNat_toNat]
      rfl

/-- **Encoded text decodes to itself.** -/
theorem decode_encode (s : String) : decode (encode s) = .ok s := by
  unfold decode encode
  rw [unitsOfBytes_flatMap]
  simp only [bind, Except.bind, ofUnits?_units, pure, Except.pure, String.ofList_toList]

end RoundingPatch.ModifiedUtf8
