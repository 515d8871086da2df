/-!
# Numbers in fewer bytes

A signed number that fits fewer bytes comes back when the low bytes are extended by their sign
(`int16_of_low8`, `int32_of_low8`, `int32_of_low16`); an unsigned one comes back when they are
extended by zeros.
-/

namespace RoundingPatch

/-- What a table of the first 256 numbers says holds of every byte. The table is Boolean because the
kernel evaluates it much faster than an instance for the bounded quantifier. -/
theorem forall_uint8 {p : UInt8 → Bool}
    (h : ((List.range 256).all fun n => p (UInt8.ofNat n)) = true) (v : UInt8) : p v = true := by
  have hv := List.all_eq_true.mp h v.toNat (List.mem_range.mpr v.toNat_lt)
  rwa [UInt8.ofNat_toNat] at hv

/-! ### Signed values of unsigned words -/

/-- A byte as a signed number is its balanced remainder. -/
theorem toInt_toInt8 (v : UInt8) : v.toInt8.toInt = (v.toNat : Int).bmod 256 := by
  show v.toBitVec.toInt = _
  rw [BitVec.toInt_eq_toNat_bmod]
  rfl

theorem toInt_toInt16 (v : UInt16) : v.toInt16.toInt = (v.toNat : Int).bmod 65536 := by
  show v.toBitVec.toInt = _
  rw [BitVec.toInt_eq_toNat_bmod]
  rfl

theorem toInt_toInt32 (v : UInt32) : v.toInt32.toInt = (v.toNat : Int).bmod 4294967296 := by
  show v.toBitVec.toInt = _
  rw [BitVec.toInt_eq_toNat_bmod]
  rfl

/-- A signed number without its sign is its remainder. -/
theorem toNat_toUInt16 (v : Int16) : (v.toUInt16.toNat : Int) = v.toInt % 65536 := by
  show (v.toBitVec.toNat : Int) = v.toBitVec.toInt % 65536
  have hlt := v.toBitVec.isLt
  rw [BitVec.toInt_eq_toNat_cond]
  split <;> omega

theorem toNat_toUInt32 (v : Int32) : (v.toUInt32.toNat : Int) = v.toInt % 4294967296 := by
  show (v.toBitVec.toNat : Int) = v.toBitVec.toInt % 4294967296
  have hlt := v.toBitVec.isLt
  rw [BitVec.toInt_eq_toNat_cond]
  split <;> omega

/-! ### Low bytes -/

/-- A short that fits in a signed byte survives being written as one. -/
theorem int16_of_low8 {v : Int16} (h1 : -128 ≤ v.toInt) (h2 : v.toInt ≤ 127) :
    v.toUInt16.toUInt8.toInt8.toInt16 = v := by
  apply Int16.toInt_inj.mp
  have hv := toNat_toUInt16 v
  rw [Int8.toInt_toInt16, toInt_toInt8, UInt16.toNat_toUInt8, Int.bmod_def]
  omega

/-- The same for a word that fits in a signed byte. -/
theorem int32_of_low8 {v : Int32} (h1 : -128 ≤ v.toInt) (h2 : v.toInt ≤ 127) :
    v.toUInt32.toUInt8.toInt8.toInt32 = v := by
  apply Int32.toInt_inj.mp
  have hv := toNat_toUInt32 v
  rw [Int8.toInt_toInt32, toInt_toInt8, UInt32.toNat_toUInt8, Int.bmod_def]
  omega

/-- The same for a word that fits in a short. -/
theorem int32_of_low16 {v : Int32} (h1 : -32768 ≤ v.toInt) (h2 : v.toInt ≤ 32767) :
    v.toUInt32.toUInt16.toInt16.toInt32 = v := by
  apply Int32.toInt_inj.mp
  have hv := toNat_toUInt32 v
  rw [Int16.toInt_toInt32, toInt_toInt16, UInt32.toNat_toUInt16, Int.bmod_def]
  omega

/-- A word that fits in an unsigned byte survives being written as one. -/
theorem int32_of_unsigned_low8 {v : Int32} (h1 : 0 ≤ v.toInt) (h2 : v.toInt ≤ 255) :
    v.toUInt32.toUInt8.toUInt32.toInt32 = v := by
  have hlow : v.toUInt32.toUInt8.toUInt32 = v.toUInt32 := by
    apply UInt32.toNat_inj.mp
    have hv := toNat_toUInt32 v
    rw [UInt8.toNat_toUInt32, UInt32.toNat_toUInt8]
    omega
  rw [hlow, Int32.toInt32_toUInt32]

theorem uint16_of_low8 {v : UInt16} (h : v ≤ 255) : v.toUInt8.toUInt16 = v := by
  apply UInt16.toNat_inj.mp
  have hv : v.toNat ≤ 255 := h
  rw [UInt8.toNat_toUInt16, UInt16.toNat_toUInt8]
  omega

end RoundingPatch
