import Mathlib.Data.List.Forall2
import RoundingPatch.Proofs.Text.ModifiedUtf8
/-!
# The shortest bytes of a text

A code unit may be spelled in one byte, in two or in three, and a small one in more bytes than it
needs. Whatever decodes is made of spellings of the units of the text (`exists_spellings`,
`units_of_ofUnits?`). There is at most one spelling of each length (`IsSpelling.eq_of_length`), and
the encoder writes the shortest (`length_bytesOfUnit_le`). So of all bytes that decode to a text the
encoded text is the shortest, and the only one of its length (`encode_canonical`).
-/

namespace RoundingPatch.ModifiedUtf8

variable {u : UInt16} {us : List UInt16} {bytes bytes' r : Bytes} {b : UInt8}

/-! ### Values of marked bytes -/

/-- A byte is its marker bits and, behind them, the digits that the mask leaves out. -/
theorem toNat_of_mask {mask marked : UInt8} (payload : UInt8) (i k : Nat) (h : b &&& mask = marked)
    (hall : mask ||| payload = 0xff) (hpayload : payload.toNat = 2 ^ i - 1)
    (hmarked : marked.toNat = k <<< i) : b.toNat = marked.toNat + b.toNat % 2 ^ i := by
  have hsplit : b = marked ||| (b &&& payload) := by
    calc b = b &&& 0xff := UInt8.and_neg_one.symm
      _ = b &&& (mask ||| payload) := by rw [hall]
      _ = (b &&& mask) ||| (b &&& payload) :=
        UInt8.toBitVec_inj.mp BitVec.and_or_distrib_left
      _ = marked ||| (b &&& payload) := by rw [h]
  have hlow : b.toNat % 2 ^ i < 2 ^ i := Nat.mod_lt _ (Nat.two_pow_pos i)
  calc b.toNat = marked.toNat ||| (b.toNat % 2 ^ i) := by
        conv_lhs => rw [hsplit]
        rw [UInt8.toNat_or, UInt8.toNat_and, hpayload, Nat.and_two_pow_sub_one_eq_mod]
    _ = marked.toNat + b.toNat % 2 ^ i := by
        rw [hmarked, Nat.shiftLeft_add_eq_or_of_lt hlow]

theorem toNat_of_single (h : b &&& 0x80 = 0) : b.toNat < 128 := by
  have hb : b.toNat = 0 + b.toNat % 128 := toNat_of_mask 0x7f 7 0 h rfl rfl rfl
  omega

theorem toNat_of_lead_two (h : b &&& 0xe0 = 0xc0) : b.toNat = 192 + b.toNat % 32 :=
  toNat_of_mask 0x1f 5 6 h rfl rfl rfl

theorem toNat_of_lead_three (h : b &&& 0xf0 = 0xe0) : b.toNat = 224 + b.toNat % 16 :=
  toNat_of_mask 0x0f 4 14 h rfl rfl rfl

theorem toNat_of_continuation (h : isContinuation b = true) : b.toNat = 128 + b.toNat % 64 :=
  toNat_of_mask 0x3f 6 2 (beq_iff_eq.mp h) rfl rfl rfl

/-- Bytes with the same marker bits differ in their digits. -/
theorem eq_of_digits {b c : UInt8} {marked n : Nat} (hb : b.toNat = marked + b.toNat % n)
    (hc : c.toNat = marked + c.toNat % n) (h : b.toNat % n = c.toNat % n) : b = c := by
  apply UInt8.toNat_inj.mp
  rw [hb, hc, h]

/-! ### Spellings of one unit -/

/-- **One spelling of each length.** The marks of the bytes are fixed, and what is left of them are
the digits of the unit. -/
theorem IsSpelling.eq_of_length (h : IsSpelling u bytes) (h' : IsSpelling u bytes')
    (hlength : bytes.length = bytes'.length) : bytes = bytes' := by
  generalize hu : u = u' at h'
  have hnat := congrArg UInt16.toNat hu
  -- The length tells which marks the bytes have.
  cases h with
  | @one b _ _ =>
    cases h' with
    | @one c _ _ =>
      have hbyte : b = c := UInt8.toNat_inj.mp hnat
      rw [hbyte]
    | two | three => simp at hlength
  | @two b0 b1 hb0 hb1 =>
    cases h' with
    | @two c0 c1 hc0 hc1 =>
      rw [toNat_unitOfTwo, toNat_unitOfTwo] at hnat
      have h0 : b0 = c0 := eq_of_digits (toNat_of_lead_two hb0) (toNat_of_lead_two hc0) (by omega)
      have h1 : b1 = c1 :=
        eq_of_digits (toNat_of_continuation hb1) (toNat_of_continuation hc1) (by omega)
      rw [h0, h1]
    | one | three => simp at hlength
  | @three b0 b1 b2 hb0 hb1 hb2 =>
    cases h' with
    | @three c0 c1 c2 hc0 hc1 hc2 =>
      rw [toNat_unitOfThree, toNat_unitOfThree] at hnat
      have h0 : b0 = c0 :=
        eq_of_digits (toNat_of_lead_three hb0) (toNat_of_lead_three hc0) (by omega)
      have h1 : b1 = c1 :=
        eq_of_digits (toNat_of_continuation hb1) (toNat_of_continuation hc1) (by omega)
      have h2 : b2 = c2 :=
        eq_of_digits (toNat_of_continuation hb2) (toNat_of_continuation hc2) (by omega)
      rw [h0, h1, h2]
    | one | two => simp at hlength

/-- No spelling has a zero byte: all bytes of two and of three are marked. -/
theorem IsSpelling.zero_not_mem (h : IsSpelling u bytes) : 0 ∉ bytes := by
  have hcontinuation {b : UInt8} (hb : isContinuation b = true) : b ≠ 0 := by
    rintro rfl
    exact absurd hb (by decide)
  cases h with
  | one hb _ => simpa using hb.symm
  | two hb0 hb1 =>
    have h0 := ne_zero_of_mask hb0 (by decide)
    simp [h0.symm, (hcontinuation hb1).symm]
  | three hb0 hb1 hb2 =>
    have h0 := ne_zero_of_mask hb0 (by decide)
    simp [h0.symm, (hcontinuation hb1).symm, (hcontinuation hb2).symm]

/-- **The encoder writes the shortest spelling.** -/
theorem length_bytesOfUnit_le (h : IsSpelling u bytes) :
    (bytesOfUnit u).length ≤ bytes.length := by
  have hthree : (bytesOfUnit u).length ≤ 3 := by
    unfold bytesOfUnit
    split
    · simp
    · split <;> simp
  cases h with
  | @one b hb hsingle =>
    have hne : b.toNat ≠ 0 := fun h => hb (UInt8.toNat_inj.mp h)
    have hlt := toNat_of_single hsingle
    have hone : (0x0001 ≤ b.toUInt16 && b.toUInt16 ≤ 0x007f) = true := by
      simp only [Bool.and_eq_true, decide_eq_true_eq, UInt16.le_iff_toNat_le, UInt16.reduceToNat,
        UInt8.toNat_toUInt16]
      omega
    rw [bytesOfUnit, if_pos hone]
    exact Nat.le_refl 1
  | @two b0 b1 =>
    have htwo : unitOfTwo b0 b1 ≤ 0x7ff := by
      rw [UInt16.le_iff_toNat_le, toNat_unitOfTwo]
      show _ ≤ 2047
      omega
    unfold bytesOfUnit
    simp only [if_pos htwo]
    split <;> simp
  | three => exact hthree

/-! ### Spellings of texts -/

/-- What is read as some units is made of their spellings. -/
theorem exists_spellings (h : unitsOfBytes r = .ok us) :
    ∃ pieces : List Bytes, r = pieces.flatten ∧ List.Forall₂ IsSpelling us pieces := by
  -- One spelling is taken off the front, and the induction goes on behind it.
  have hcons {u : UInt16} {bytes rest : Bytes} {us : List UInt16} (hu : IsSpelling u bytes)
      (ih : ∀ {us}, unitsOfBytes rest = .ok us →
        ∃ pieces : List Bytes, rest = pieces.flatten ∧ List.Forall₂ IsSpelling us pieces)
      (h : (unitsOfBytes rest).map (u :: ·) = .ok us) :
      ∃ pieces : List Bytes, bytes ++ rest = pieces.flatten ∧
      List.Forall₂ IsSpelling us pieces := by
    cases hrest : unitsOfBytes rest with
    | error fault =>
      rw [hrest] at h
      cases h
    | ok more =>
      rw [hrest] at h
      obtain rfl : u :: more = us := Except.ok.inj h
      obtain ⟨pieces, rfl, hpieces⟩ := ih hrest
      exact ⟨bytes :: pieces, by rw [List.flatten_cons], .cons hu hpieces⟩
  fun_induction unitsOfBytes r generalizing us with
  | case1 =>
    obtain rfl : [] = us := Except.ok.inj h
    exact ⟨[], rfl, .nil⟩
  | case3 b0 rest hzero hone ih =>
    exact hcons (.one (by simpa using hzero) (by simpa using hone)) ih h
  | case4 b0 _ _ htwo b1 rest hb1 ih => exact hcons (.two (by simpa using htwo) hb1) ih h
  | case7 b0 _ _ _ hthree b1 b2 rest hboth ih =>
    obtain ⟨hb1, hb2⟩ := Bool.and_eq_true_iff.mp hboth
    exact hcons (.three (by simpa using hthree) hb1 hb2) ih h
  | _ => cases h

/-- The units of a spelled text take no fewer bytes than the encoder writes, and its own if they
take as many. -/
theorem length_flatMap_le {pieces : List Bytes} (h : List.Forall₂ IsSpelling us pieces) :
    (us.flatMap bytesOfUnit).length ≤ pieces.flatten.length ∧
      ((us.flatMap bytesOfUnit).length = pieces.flatten.length →
        us.flatMap bytesOfUnit = pieces.flatten) := by
  induction h with
  | nil => exact ⟨Nat.le_refl _, fun _ => rfl⟩
  | @cons u bytes us pieces hu _ ih =>
    obtain ⟨hle, heq⟩ := ih
    have hshortest := length_bytesOfUnit_le hu
    rw [List.flatMap_cons, List.flatten_cons, List.length_append, List.length_append]
    refine ⟨Nat.add_le_add hshortest hle, fun hlength => ?_⟩
    -- Neither part can be longer than its counterpart, so both are as long.
    rw [(isSpelling_bytesOfUnit u).eq_of_length hu (by omega), heq (by omega)]

/-! ### Units of texts -/

theorem isHighSurrogate_iff : isHighSurrogate u = true ↔ 0xd800 ≤ u.toNat ∧ u.toNat < 0xdc00 := by
  simp [isHighSurrogate, UInt16.le_iff_toNat_le, UInt16.lt_iff_toNat_lt]

theorem isLowSurrogate_iff : isLowSurrogate u = true ↔ 0xdc00 ≤ u.toNat ∧ u.toNat < 0xe000 := by
  simp [isLowSurrogate, UInt16.le_iff_toNat_le, UInt16.lt_iff_toNat_lt]

/-- A unit that is no surrogate is the one unit of its character. -/
theorem unitsOfChar_alone (hhigh : ¬ isHighSurrogate u = true) (hlow : ¬ isLowSurrogate u = true) :
    unitsOfChar (Char.ofNat u.toNat) = [u] := by
  have hlt : u.toNat < 0x10000 := u.toNat_lt
  rw [isHighSurrogate_iff] at hhigh
  rw [isLowSurrogate_iff] at hlow
  have hvalid : u.toNat.isValidChar := by
    unfold Nat.isValidChar
    omega
  have hchar : (Char.ofNat u.toNat).toNat = u.toNat := by
    rw [Char.ofNat, dif_pos hvalid]
    rfl
  simp only [unitsOfChar, hchar, hlt, ↓reduceIte, UInt16.ofNat_toNat]

/-- Two surrogates are the two units of their character. -/
theorem unitsOfChar_pairedChar {v : UInt16} (hhigh : isHighSurrogate u = true)
    (hlow : isLowSurrogate v = true) : unitsOfChar (pairedChar u v) = [u, v] := by
  obtain ⟨hu, hu'⟩ := isHighSurrogate_iff.mp hhigh
  obtain ⟨hv, hv'⟩ := isLowSurrogate_iff.mp hlow
  have hvalid : (0x10000 + (u.toNat - 0xd800) * 0x400 + (v.toNat - 0xdc00)).isValidChar := by
    unfold Nat.isValidChar
    omega
  have hchar : (pairedChar u v).toNat
      = 0x10000 + (u.toNat - 0xd800) * 0x400 + (v.toNat - 0xdc00) := by
    rw [pairedChar, Char.ofNat, dif_pos hvalid]
    rfl
  have hbig : ¬ (pairedChar u v).toNat < 0x10000 := by omega
  have hfirst : 0xd800 + ((pairedChar u v).toNat - 0x10000) / 0x400 = u.toNat := by omega
  have hsecond : 0xdc00 + ((pairedChar u v).toNat - 0x10000) % 0x400 = v.toNat := by omega
  simp only [unitsOfChar, hbig, ↓reduceIte, hfirst, hsecond, UInt16.ofNat_toNat]

/-- **The text of some units** has these units. -/
theorem units_of_ofUnits? {s : List Char} (h : ofUnits? us = some s) : units s = us := by
  fun_induction ofUnits? us generalizing s with
  | case1 =>
    obtain rfl : [] = s := Option.some.inj h
    rfl
  | case3 u hsurrogate =>
    obtain rfl : [Char.ofNat u.toNat] = s := Option.some.inj h
    rw [Bool.or_eq_true, not_or] at hsurrogate
    show unitsOfChar (Char.ofNat u.toNat) ++ [] = [u]
    rw [unitsOfChar_alone hsurrogate.1 hsurrogate.2, List.append_nil]
  | case4 u v rest hhigh hlow ih =>
    obtain ⟨s, hs, rfl⟩ := Option.map_eq_some_iff.mp h
    show unitsOfChar (pairedChar u v) ++ units s = u :: v :: rest
    rw [unitsOfChar_pairedChar hhigh hlow, ih hs]
    rfl
  | case7 u v rest hhigh hlow ih =>
    obtain ⟨s, hs, rfl⟩ := Option.map_eq_some_iff.mp h
    show unitsOfChar (Char.ofNat u.toNat) ++ units s = u :: v :: rest
    rw [unitsOfChar_alone hhigh hlow, ih hs]
    rfl
  | _ => cases h

/-- Whatever decodes to a text spells the units of the text. -/
theorem exists_spellings_of_decode {s : String} (h : decode r = .ok s) :
    ∃ pieces : List Bytes, r = pieces.flatten ∧
      List.Forall₂ IsSpelling (units s.toList) pieces := by
  unfold decode at h
  cases hunits : unitsOfBytes r with
  | error fault =>
    rw [hunits] at h
    cases h
  | ok us =>
    cases hchars : ofUnits? us with
    | none => simp [hunits, hchars, bind, Except.bind] at h
    | some chars =>
      obtain rfl : String.ofList chars = s := by
        simpa [hunits, hchars, bind, Except.bind, pure, Except.pure] using h
      rw [String.toList_ofList, units_of_ofUnits? hchars]
      exact exists_spellings hunits

theorem zero_not_mem_encode (s : String) : 0 ∉ encode s := by
  intro hzero
  obtain ⟨u, -, hu⟩ := List.mem_flatMap.mp hzero
  exact (isSpelling_bytesOfUnit u).zero_not_mem hu

/-- **The encoder loses nothing and wastes nothing.** Encoded text decodes to itself and has no zero
byte, and of all bytes that decode to a text the encoded text is the shortest, and the only one of
its length. -/
theorem encode_canonical :
    (∀ s : String, decode (encode s) = .ok s ∧ 0 ∉ encode s) ∧
      ∀ (r : Bytes) (s : String), decode r = .ok s →
        (encode s).length ≤ r.length ∧ ((encode s).length = r.length → encode s = r) := by
  refine ⟨fun s => ⟨decode_encode s, zero_not_mem_encode s⟩, fun r s h => ?_⟩
  obtain ⟨pieces, rfl, hpieces⟩ := exists_spellings_of_decode h
  exact length_flatMap_le hpieces

/-- A zero character in three bytes and a letter in two, in front of the surrogates of a character
outside the basic plane: the encoder writes two bytes less. -/
theorem encode_canonical_overlong :
    decode [0xe0, 0x80, 0x80, 0xc1, 0x81, 0xed, 0xa0, 0xbd, 0xed, 0xb8, 0x80] = .ok "\x00A😀" ∧
      (encode "\x00A😀").length ≤ 11 := by
  have h : decode [0xe0, 0x80, 0x80, 0xc1, 0x81, 0xed, 0xa0, 0xbd, 0xed, 0xb8, 0x80]
      = .ok "\x00A😀" := by
    decide +kernel
  exact ⟨h, (encode_canonical.2 _ _ h).1⟩

end RoundingPatch.ModifiedUtf8
