import RoundingPatch.Proofs.Decimal.Digits
import RoundingPatch.Proofs.Decimal.Shortest
/-!
# What shortest digits say about a number

The digits of a positive number denote its shortest decimal, and the two flags say on which side of
the number the decimal lies (`sound_of`). Between the number and the decimal there is no decimal
with the same last place or a higher one (`Sound.eq_of_between`).
-/

namespace RoundingPatch

/-! ### Numbers of 64 bits -/

/-- The number of a mantissa and an exponent. -/
def Binary64.toRat (mantissa : ℕ) (exponent : ℤ) : ℚ :=
  mantissa * 2 ^ exponent

/-- How large the parts of a finite number are. -/
theorem Binary64.bounds_of_unpack {v : Binary64} {negative : Bool} {mantissa : ℕ} {exponent : ℤ}
    (h : v.unpack = .finite negative mantissa exponent) :
    mantissa < 2 ^ 53 ∧ -1074 ≤ exponent ∧ exponent ≤ 971 := by
  have hfull : BinaryFormat.binary64.fullMantissa = 2 ^ 52 := rfl
  have hleast : BinaryFormat.binary64.leastExponent = -1074 := rfl
  have hexponents : Nat.pow 2 BinaryFormat.binary64.exponentBits = 2048 := rfl
  unfold Binary64.unpack BinaryFormat.unpack at h
  simp only [hfull, hleast, hexponents] at h
  have hfraction := Nat.mod_lt v.bits.toNat (show 0 < 2 ^ 52 by omega)
  -- Infinite or not a number first, then a subnormal, whose exponent is the least, then a normal
  -- number.
  split at h
  · split at h <;> cases h
  · split at h
    · cases h
      omega
    · cases h
      omega

/-- The span of a positive number is proper. -/
theorem BinaryFormat.proper_span {mantissa : ℕ} {exponent : ℤ} (hpos : mantissa ≠ 0)
    (hexponent : -1074 ≤ exponent) : (binary64.span mantissa exponent).Proper where
  low_pos := by
    unfold span
    dsimp only
    split <;> omega
  low_lt := by
    unfold span
    dsimp only
    split <;> omega
  lt_high := by
    unfold span
    dsimp only
    omega
  exponent_ge := by
    unfold span
    dsimp only
    omega

/-- The number in the middle of a double's span is the double's own value. -/
theorem BinaryFormat.number_span (mantissa : ℕ) (exponent : ℤ) :
    (binary64.span mantissa exponent).number = Binary64.toRat mantissa exponent := by
  unfold Span.number Span.place span Binary64.toRat
  dsimp only
  rw [zpow_sub₀ (by norm_num)]
  push_cast
  ring

namespace ShortestDigits

/-- The number that the digits denote. -/
def toRat (s : ShortestDigits) : ℚ :=
  Digits.number s.digits * 10 ^ (s.decimalAt.toInt - s.digits.length)

/-- The comparison with the exact value is one of natural numbers. -/
theorem compareExact_eq {digits : List Char} (point : ℤ) {mantissa : ℕ} (exponent : ℤ)
    (hdigits : ∀ c ∈ digits, c.isDigit = true) (hmantissa : mantissa < 2 ^ 64) :
    let scale := point - digits.length
    compareExact digits point mantissa exponent
      = Ord.compare (Nat.ofDigitChars 10 digits 0 * 10 ^ scale.toNat * 2 ^ (-exponent).toNat)
        (mantissa * 10 ^ (-scale).toNat * 2 ^ exponent.toNat) := by
  obtain ⟨hvalue, hcanonical⟩ := Digits.toNat_coefficient hdigits
  have hbinary : (Limbs.ofUInt64 (UInt64.ofNat mantissa)).toNat = mantissa := by
    rw [Limbs.toNat_ofUInt64, UInt64.toNat_ofNat_of_lt' hmantissa]
  unfold compareExact
  dsimp only
  rw [Limbs.compare_eq ((hcanonical.mulPow10 _).mulPow2 _)
    (((Limbs.isCanonical_ofUInt64 _).mulPow10 _).mulPow2 _), Limbs.toNat_mulPow2,
    Limbs.toNat_mulPow2, Limbs.toNat_mulPow10, Limbs.toNat_mulPow10, hvalue, hbinary]

/-- Multiplying a decimal and a number up to whole numbers keeps their order. -/
theorem cast_scaled (coefficient : ℕ) (scale : ℤ) (mantissa : ℕ) (exponent : ℤ) :
    ∃ unit : ℚ, 0 < unit ∧
      ((coefficient * 10 ^ scale.toNat * 2 ^ (-exponent).toNat : ℕ) : ℚ)
        = coefficient * 10 ^ scale * unit ∧
      ((mantissa * 10 ^ (-scale).toNat * 2 ^ exponent.toNat : ℕ) : ℚ)
        = Binary64.toRat mantissa exponent * unit := by
  -- Both sides are cleared of their negative powers by one common unit.
  refine ⟨10 ^ (-scale).toNat * 2 ^ (-exponent).toNat, by positivity, ?_, ?_⟩
  · push_cast
    rw [pow_toNat (by norm_num : (10 : ℚ) ≠ 0)]
    ring
  · push_cast
    rw [pow_toNat (by norm_num : (2 : ℚ) ≠ 0), Binary64.toRat]
    ring

/-- **The comparison with the exact value** is one of rational numbers, whatever the digits are. -/
theorem compareExact_iff {digits : List Char} (point : ℤ) {mantissa : ℕ} (exponent : ℤ)
    (hdigits : ∀ c ∈ digits, c.isDigit = true) (hmantissa : mantissa < 2 ^ 64) :
    let decimal : ℚ := Nat.ofDigitChars 10 digits 0 * 10 ^ (point - digits.length)
    (compareExact digits point mantissa exponent = .gt ↔
      Binary64.toRat mantissa exponent < decimal) ∧
      (compareExact digits point mantissa exponent = .eq ↔
        decimal = Binary64.toRat mantissa exponent) := by
  intro decimal
  obtain ⟨unit, hunit, hdecimal, hbinary⟩ :=
    cast_scaled (Nat.ofDigitChars 10 digits 0) (point - digits.length) mantissa exponent
  rw [compareExact_eq point exponent hdigits hmantissa]
  constructor
  · rw [Nat.compare_eq_gt, ← Nat.cast_lt (α := ℚ), hdecimal, hbinary, mul_lt_mul_iff_left₀ hunit]
  · rw [Nat.compare_eq_eq, ← Nat.cast_inj (R := ℚ), hdecimal, hbinary, mul_left_inj' hunit.ne']

/-- What the digits of a record denote if they were printed. -/
theorem toRat_ofPrinted {digits : List Char} (point : Int32) (mantissa : ℕ) (exponent : ℤ)
    (hdigits : ∀ c ∈ digits, c.isDigit = true) :
    (ofPrinted digits point mantissa exponent).toRat
      = Nat.ofDigitChars 10 digits 0 * 10 ^ (point.toInt - digits.length) := by
  unfold toRat ofPrinted
  dsimp only
  rw [Digits.number_map hdigits, List.length_map]

/-- **The flags of printed digits** say how the digits of the record compare with the number. -/
theorem ofPrinted_iff {digits : List Char} (point : Int32) {mantissa : ℕ} (exponent : ℤ)
    (hdigits : ∀ c ∈ digits, c.isDigit = true) (hmantissa : mantissa < 2 ^ 64) :
    let s := ofPrinted digits point mantissa exponent
    (s.roundedUp = true ↔ Binary64.toRat mantissa exponent < s.toRat) ∧
      (s.exact = true ↔ s.toRat = Binary64.toRat mantissa exponent) := by
  intro s
  obtain ⟨hgt, heq⟩ := compareExact_iff point.toInt exponent hdigits hmantissa
  rw [toRat_ofPrinted point mantissa exponent hdigits, ← hgt, ← heq]
  exact ⟨beq_iff_eq, beq_iff_eq⟩

/-- **What is known of shortest digits** of the positive number `x`. -/
structure Sound (s : ShortestDigits) (x : ℚ) : Prop where
  valid : Digits.Valid s.digits
  nonempty : s.digits ≠ []
  /-- The digits do not end in a zero. -/
  last : Digits.number s.digits % 10 ≠ 0
  roundedUp : s.roundedUp = true ↔ x < s.toRat
  exact : s.exact = true ↔ s.toRat = x
  point : -400 < s.decimalAt.toInt ∧ s.decimalAt.toInt < 400
  pos : 0 < x
  /-- No decimal with the same last place or a higher one lies between the digits and the number. -/
  eq_of_between : ∀ (c : ℕ) (p : ℤ), s.decimalAt.toInt - s.digits.length ≤ p →
    (s.toRat ≤ c * 10 ^ p ∧ c * 10 ^ p ≤ x ∨ x ≤ c * 10 ^ p ∧ c * 10 ^ p ≤ s.toRat) →
    (c : ℚ) * 10 ^ p = s.toRat

/-- Digits denote no negative number: the sign is kept apart. -/
theorem toRat_nonneg (s : ShortestDigits) : 0 ≤ s.toRat := by
  unfold toRat
  positivity

/-- All digits stand behind the point that the list counts from. -/
theorem toRat_lt_zpow {s : ShortestDigits} (hvalid : Digits.Valid s.digits) :
    s.toRat < 10 ^ s.decimalAt.toInt := by
  have hnumber : (Digits.number s.digits : ℚ) < 10 ^ (s.digits.length : ℤ) := by
    exact_mod_cast Digits.number_lt hvalid
  calc s.toRat < 10 ^ (s.digits.length : ℤ) * 10 ^ (s.decimalAt.toInt - s.digits.length) :=
        mul_lt_mul_of_pos_right hnumber (by positivity)
    _ = 10 ^ s.decimalAt.toInt := by
        rw [← zpow_add₀ (by norm_num)]
        congr 1
        omega

/-- Three bits are less than a decimal digit. -/
theorem two_zpow_le (k : ℕ) : (2 : ℚ) ^ ((3 * k : ℕ) : ℤ) ≤ 10 ^ (k : ℤ) := by
  rw [zpow_natCast, zpow_natCast, pow_mul]
  exact pow_le_pow_left₀ (by norm_num) (by norm_num) k

/-- A positive decimal is not less than its first digit says. -/
theorem ten_zpow_le {d : Decimal} (hd : 0 < d.coefficient) :
    (10 : ℚ) ^ (d.point - 1) ≤ d.toRat := by
  have hlength : 0 < d.digits.length := Nat.length_toDigits_pos
  have hpoint : d.point - 1 = ((d.digits.length - 1 : ℕ) : ℤ) + d.exponent := by
    unfold Decimal.point
    omega
  -- The first digit is not zero.
  have hdigits : ((10 ^ (d.digits.length - 1) : ℕ) : ℚ) ≤ d.coefficient := by
    have hle := Digits.pow_length_ofNat_le hd
    rw [Digits.length_ofNat] at hle
    exact Nat.cast_le.mpr hle
  push_cast at hdigits
  rw [hpoint, zpow_add₀ (by norm_num), zpow_natCast, Decimal.toRat]
  exact mul_le_mul_of_nonneg_right hdigits (by positivity)

/-- How far the point of a shortest decimal is from its first digit. -/
theorem point_bounds {mantissa : ℕ} {exponent : ℤ} {d : Decimal} (hmantissa : mantissa < 2 ^ 53)
    (hexponent : exponent ≤ 971) (h : (BinaryFormat.binary64.span mantissa exponent).Shortest d)
    (hd : 0 < d.coefficient) (hfinest : -343 ≤ d.exponent) : -400 < d.point ∧ d.point < 400 := by
  have hlength : 0 < d.digits.length := Nat.length_toDigits_pos
  constructor
  · unfold Decimal.point
    omega
  -- The high end of the widest span stays under `2 ^ 1026`, and ten is more than `2 ^ 3`.
  have hhigh : (BinaryFormat.binary64.span mantissa exponent).place
      (BinaryFormat.binary64.span mantissa exponent).high ≤ 2 ^ ((3 * 342 : ℕ) : ℤ) := by
    have hplaces : ((4 * mantissa + 2 : ℕ) : ℚ) ≤ 2 ^ (57 : ℤ) := by
      exact_mod_cast (show 4 * mantissa + 2 ≤ 2 ^ 57 by omega)
    calc ((4 * mantissa + 2 : ℕ) : ℚ) * 2 ^ (exponent - 2)
        ≤ 2 ^ (57 : ℤ) * 2 ^ (969 : ℤ) := by
          refine mul_le_mul hplaces (zpow_le_zpow_right₀ (by norm_num) (by omega)) (by positivity)
            (by positivity)
      _ = 2 ^ ((3 * 342 : ℕ) : ℤ) := (zpow_add₀ (by norm_num) 57 969).symm
  have hleast : (10 : ℚ) ^ (d.point - 1) ≤ 10 ^ ((342 : ℕ) : ℤ) :=
    (((ten_zpow_le hd).trans h.mem.bounds.2).trans hhigh).trans (two_zpow_le 342)
  have hle := (zpow_le_zpow_iff_right₀ (by norm_num : (1 : ℚ) < 10)).mp hleast
  omega

/-- The search goes no further than to the finest grid. -/
theorem finest_le_search (s : Span) (n : ℕ) : -343 ≤ (s.search n).exponent := by
  have hfinest : Span.finest = -343 := rfl
  induction n with
  | zero => exact le_refl _
  | succ n ih =>
    rw [Span.search]
    split
    · dsimp only
      omega
    · exact ih

/-- The shortest digits of a positive number are those of its shortest decimal. -/
theorem of_eq {v : Binary64} {negative : Bool} {mantissa : ℕ} {exponent : ℤ}
    (hv : v.unpack = .finite negative mantissa exponent) (hpos : mantissa ≠ 0) :
    of v = ofPrinted (BinaryFormat.binary64.shortest mantissa exponent).digits
      (Int32.ofInt (BinaryFormat.binary64.shortest mantissa exponent).point) mantissa exponent := by
  obtain ⟨k, rfl⟩ := Nat.exists_eq_succ_of_ne_zero hpos
  unfold of
  rw [hv]
  rfl

theorem digits_of {v : Binary64} {negative : Bool} {mantissa : ℕ} {exponent : ℤ}
    (hv : v.unpack = .finite negative mantissa exponent) (hpos : mantissa ≠ 0) :
    (of v).digits = Digits.ofNat
      (BinaryFormat.binary64.shortest mantissa exponent).coefficient := by
  rw [of_eq hv hpos]
  rfl

/-- **The shortest digits of a positive number** are sound. -/
theorem sound_of {v : Binary64} {negative : Bool} {mantissa : ℕ} {exponent : ℤ}
    (hv : v.unpack = .finite negative mantissa exponent) (hpos : mantissa ≠ 0) :
    (of v).Sound (Binary64.toRat mantissa exponent) ∧
      ∃ d, (BinaryFormat.binary64.span mantissa exponent).Shortest d ∧ (of v).toRat = d.toRat := by
  -- The digits are those of the shortest decimal in the span; the bounds of the format keep all of
  -- its numbers in words.
  obtain ⟨hmantissa, hleast, hmost⟩ := Binary64.bounds_of_unpack hv
  have hproper := BinaryFormat.proper_span hpos hleast
  have hshortest := Span.shortest_spec hproper
  have hfinest : -343 ≤ (BinaryFormat.binary64.shortest mantissa exponent).exponent :=
    finest_le_search _ _
  have hof := of_eq hv hpos
  have hdigits := digits_of hv hpos
  have hd : BinaryFormat.binary64.shortest mantissa exponent
      = (BinaryFormat.binary64.span mantissa exponent).shortest := rfl
  rw [hd] at hfinest hof hdigits
  -- From here on only what the search promises of the decimal counts, not how it was found.
  generalize (BinaryFormat.binary64.span mantissa exponent).shortest = d
    at hshortest hfinest hof hdigits
  have hcoefficient : 0 < d.coefficient := by
    have hne := hshortest.mod_ten_ne_zero
    omega
  have hpoint := point_bounds hmantissa hmost hshortest hcoefficient hfinest
  have hdecimalAt : (of v).decimalAt.toInt = d.point := by
    rw [hof]
    exact Int32.toInt_ofInt_of_le (by omega) (by omega)
  have hplace : (of v).decimalAt.toInt - (of v).digits.length = d.exponent := by
    rw [hdecimalAt, hdigits, Digits.length_ofNat, Decimal.point, Decimal.digits]
    omega
  have htoRat : (of v).toRat = d.toRat := by
    rw [toRat, hplace, hdigits, Digits.number_ofNat, Decimal.toRat]
  have hnumber := BinaryFormat.number_span mantissa exponent
  have hflags := ofPrinted_iff (Int32.ofInt d.point) exponent
    (fun c (hc : c ∈ d.digits) => Digits.isDigit_toDigits hc) (show mantissa < 2 ^ 64 by omega)
  dsimp only at hflags
  rw [← hof] at hflags
  refine ⟨{
    valid := hdigits ▸ Digits.valid_ofNat _
    nonempty := hdigits ▸ Digits.ofNat_ne_nil _
    last := by
      rw [hdigits, Digits.number_ofNat]
      exact hshortest.mod_ten_ne_zero
    roundedUp := hflags.1
    exact := hflags.2
    point := hdecimalAt ▸ hpoint
    pos := hnumber ▸ hproper.pos_of_mem hproper.mem_number
    eq_of_between := fun c p hp hc => by
      rw [htoRat] at hc ⊢
      rw [hplace] at hp
      exact hshortest.eq_of_between hproper.mem_number hp (hnumber ▸ hc) }, d, hshortest, htoRat⟩

/-- **The flags compare the digits with the exact value.** For a finite number that is not zero, be
it ever so small or large, and whatever digits are printed for it with whatever point, the flags say
on which side of the number the digits lie. The shortest digits of the number are a case of this. -/
theorem flags_compare {v : Binary64} {negative : Bool} {mantissa : ℕ} {exponent : ℤ}
    (hv : v.unpack = .finite negative mantissa exponent) (hpos : mantissa ≠ 0) :
    (∀ (digits : List Char) (point : Int32), (∀ c ∈ digits, c.isDigit = true) →
      let s := ofPrinted digits point mantissa exponent
      let decimal : ℚ := Nat.ofDigitChars 10 digits 0 * 10 ^ (point.toInt - digits.length)
      s.toRat = decimal ∧
        (s.roundedUp = true ↔ Binary64.toRat mantissa exponent < decimal) ∧
        (s.exact = true ↔ decimal = Binary64.toRat mantissa exponent)) ∧
    of v = ofPrinted (BinaryFormat.binary64.shortest mantissa exponent).digits
      (Int32.ofInt (BinaryFormat.binary64.shortest mantissa exponent).point) mantissa exponent ∧
    ((of v).roundedUp = true ↔ Binary64.toRat mantissa exponent < (of v).toRat) ∧
    ((of v).exact = true ↔ (of v).toRat = Binary64.toRat mantissa exponent) := by
  obtain ⟨hmantissa, -, -⟩ := Binary64.bounds_of_unpack hv
  have hflags (digits : List Char) (point : Int32) (hdigits : ∀ c ∈ digits, c.isDigit = true) :=
    ofPrinted_iff point exponent hdigits (show mantissa < 2 ^ 64 by omega)
  have hof := of_eq hv hpos
  refine ⟨fun digits point hdigits => ?_, hof, ?_⟩
  · intro s decimal
    have hvalue : s.toRat = decimal := toRat_ofPrinted point mantissa exponent hdigits
    exact ⟨hvalue, hvalue ▸ hflags digits point hdigits⟩
  · rw [hof]
    exact hflags _ _ fun c hc => Digits.isDigit_toDigits hc

/-- The number nearest to `0.15` lies below `0.15`, but not below `0.14`. -/
theorem flags_compare_fifteen :
    let v : Binary64 := ⟨0x3FC3333333333333⟩
    let x := Binary64.toRat 0x13333333333333 (-55)
    v.unpack = .finite false 0x13333333333333 (-55) ∧
      x < 15 * 10 ^ (-2 : ℤ) ∧ ¬ x < 14 * 10 ^ (-2 : ℤ) := by
  intro v x
  have hv : v.unpack = .finite false 0x13333333333333 (-55) := by decide
  obtain ⟨hprinted, -⟩ := flags_compare hv (by decide)
  have habove := (hprinted ['1', '5'] 0 (by simp [Char.isDigit])).2.1
  have hbelow := (hprinted ['1', '4'] 0 (by simp [Char.isDigit])).2.1
  exact ⟨hv, habove.mp (by decide), fun hlt => absurd (hbelow.mpr hlt) (by decide)⟩

/-- No number has very many digits. -/
theorem valid_of (v : Binary64) : Digits.Valid (of v).digits ∧ (of v).digits.length < 743 := by
  have hnone : Digits.Valid [] ∧ ([] : Bytes).length < 743 := ⟨nofun, by decide⟩
  cases hv : v.unpack with
  | finite negative mantissa exponent =>
    by_cases hzero : mantissa = 0
    · subst hzero
      rw [of, hv]
      exact hnone
    · obtain ⟨hmantissa, hleast, hmost⟩ := Binary64.bounds_of_unpack hv
      have hproper := BinaryFormat.proper_span hzero hleast
      have hshortest := Span.shortest_spec hproper
      have hfinest : -343 ≤ (BinaryFormat.binary64.span mantissa exponent).shortest.exponent :=
        finest_le_search _ _
      have hlast := hshortest.mod_ten_ne_zero
      have hpoint := (point_bounds hmantissa hmost hshortest (by omega) hfinest).2
      refine ⟨(sound_of hv hzero).1.valid, ?_⟩
      rw [digits_of hv hzero, Digits.length_ofNat]
      show (Nat.toDigits 10
          (BinaryFormat.binary64.span mantissa exponent).shortest.coefficient).length < _
      unfold Decimal.point Decimal.digits at hpoint
      omega
  | _ =>
    rw [of, hv]
    exact hnone

end ShortestDigits

end RoundingPatch
