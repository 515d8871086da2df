import RoundingPatch.Proofs.DigitList.Formatting
/-!
# Rounding is monotone

A greater number is not rounded to a smaller one, in any mode that rounds at all. Its shortest
decimal is not smaller either, since the spans of two numbers do not overlap
(`IsCanonical.span_le`). So the only question is about two decimals between the same two multiples
of the unit (`Lands.le`). There a mode that rounds to the nearest goes by the numbers themselves
(`Rounds.le`), and any other mode goes the same way with both, unless one of them is so small that
nobody is asked. A minus turns the order around, and the text of a number denotes the rounded list
with its sign (`denoted_of_shows`).
-/

namespace RoundingPatch

open Digits

/-! ### Shortest decimals in order -/

namespace Binary64

/-- A mantissa and an exponent as numbers of 64 bits have them: the mantissa is full, unless the
exponent is the least one. -/
structure IsCanonical (mantissa : ℕ) (exponent : ℤ) : Prop where
  lt : mantissa < 2 ^ 53
  least : -1074 ≤ exponent
  full : exponent = -1074 ∨ 2 ^ 52 ≤ mantissa

variable {m n : ℕ} {e p : ℤ}

/-- A finite double unpacks to a canonical mantissa and exponent. -/
theorem isCanonical_of_unpack {v : Binary64} {negative : Bool}
    (h : v.unpack = .finite negative m e) : IsCanonical m e := by
  obtain ⟨hlt, hleast, -⟩ := bounds_of_unpack h
  refine ⟨hlt, hleast, ?_⟩
  have hfull : BinaryFormat.binary64.fullMantissa = 2 ^ 52 := rfl
  have hexponent : BinaryFormat.binary64.leastExponent = -1074 := rfl
  unfold unpack BinaryFormat.unpack at h
  simp only [hfull, hexponent] at h
  split at h
  · split at h <;> cases h
  · split at h
    · cases h
      exact .inl rfl
    · cases h
      exact .inr (Nat.le_add_right _ _)

/-- A greater exponent is the same value with the mantissa shifted. -/
theorem toRat_add (m : ℕ) (e : ℤ) (k : ℕ) : toRat m (e + k) = ((m * 2 ^ k : ℕ) : ℚ) * 2 ^ e := by
  rw [toRat, zpow_add₀ (by norm_num), zpow_natCast]
  push_cast
  ring

/-- The quarters of the last place, in a larger unit. -/
theorem place_add (m : ℕ) (e : ℤ) (k i : ℕ) :
    (BinaryFormat.binary64.span m (e + k)).place i = ((i * 2 ^ k : ℕ) : ℚ) * 2 ^ (e - 2) := by
  have hexponent : (BinaryFormat.binary64.span m (e + k)).exponent = (e - 2) + k := by
    show e + k - 2 = e - 2 + k
    ring
  rw [Span.place, hexponent, zpow_add₀ (by norm_num), zpow_natCast]
  push_cast
  ring

theorem mul_two_le (i k : ℕ) : i * 2 ≤ i * 2 ^ (k + 1) := by
  rw [pow_succ']
  exact Nat.mul_le_mul_left i (Nat.le_mul_of_pos_right 2 (Nat.two_pow_pos k))

/-- **Spans do not overlap**: that of a number ends below the one of a greater number, or where it
starts. -/
theorem IsCanonical.span_le (hm : IsCanonical m e) (hn : IsCanonical n p)
    (hlt : toRat m e < toRat n p) :
    (BinaryFormat.binary64.span m e).place (BinaryFormat.binary64.span m e).high
      ≤ (BinaryFormat.binary64.span n p).place (BinaryFormat.binary64.span n p).low := by
  have hmlt := hm.lt
  have hnlt := hn.lt
  rcases le_or_gt e p with hep | hpe
  · obtain ⟨k, hk⟩ := Int.le.dest hep
    obtain rfl : p = e + k := hk.symm
    have hhigh := place_add m e 0 (4 * m + 2)
    rw [Nat.cast_zero, add_zero, pow_zero, mul_one] at hhigh
    have hle : 4 * m + 2 ≤ (4 * n - if n = 2 ^ 52 then 1 else 2) * 2 ^ k := by
      rcases k with _ | k
      · rw [Nat.cast_zero, add_zero] at hlt
        have hlt : (m : ℚ) < n := lt_of_mul_lt_mul_right hlt (by positivity)
        have hlt : m < n := by exact_mod_cast hlt
        rw [pow_zero, mul_one]
        split <;> omega
      · -- A number of a larger exponent has a full mantissa.
        have hfull := hn.full.resolve_left (by have := hm.least; push_cast; omega)
        refine le_trans ?_ (mul_two_le _ k)
        split <;> omega
    show (BinaryFormat.binary64.span m e).place (4 * m + 2) ≤ _
    rw [hhigh, place_add]
    exact mul_le_mul_of_nonneg_right (by exact_mod_cast hle) (by positivity)
  · -- The smaller number cannot have the larger exponent.
    obtain ⟨k, hk⟩ := Int.le.dest (Int.add_one_le_of_lt hpe)
    obtain rfl : e = p + (k + 1 : ℕ) := by
      push_cast
      omega
    rw [toRat_add, toRat] at hlt
    have hlt : ((m * 2 ^ (k + 1) : ℕ) : ℚ) < n := lt_of_mul_lt_mul_right hlt (by positivity)
    have hlt : m * 2 ^ (k + 1) < n := by exact_mod_cast hlt
    have hfull := hm.full.resolve_left (by have := hn.least; push_cast; omega)
    have htwo := mul_two_le m k
    omega

/-- Equal numbers have the same parts. -/
theorem IsCanonical.eq_of_toRat (hm : IsCanonical m e) (hn : IsCanonical n p) (hpos : m ≠ 0)
    (heq : toRat m e = toRat n p) : m = n ∧ e = p := by
  wlog hep : e ≤ p generalizing m n e p
  · have hne : n ≠ 0 := by
      rintro rfl
      have hzero : toRat m e = 0 := by rw [heq, toRat, Nat.cast_zero, zero_mul]
      rcases mul_eq_zero.mp hzero with hzero | hzero
      · exact hpos (by exact_mod_cast hzero)
      · exact absurd hzero (by positivity)
    obtain ⟨hmn, hpe⟩ := this hn hm hne heq.symm (le_of_not_ge hep)
    exact ⟨hmn.symm, hpe.symm⟩
  obtain ⟨k, hk⟩ := Int.le.dest hep
  obtain rfl : p = e + k := hk.symm
  rw [toRat_add, toRat] at heq
  have heq : (m : ℚ) = ((n * 2 ^ k : ℕ) : ℚ) := mul_right_cancel₀ (by positivity) heq
  have heq : m = n * 2 ^ k := by exact_mod_cast heq
  rcases k with _ | k
  · rw [pow_zero, mul_one] at heq
    exact ⟨heq, by simp⟩
  · -- With a greater exponent `n` would be full, and shifted it would be no mantissa any more.
    have hlt := hm.lt
    have hfull := hn.full.resolve_left (by have := hm.least; push_cast; omega)
    have htwo := mul_two_le n k
    omega

/-- A mantissa and an exponent denote no negative number. -/
theorem toRat_nonneg (m : ℕ) (e : ℤ) : 0 ≤ toRat m e := by
  unfold toRat
  positivity

/-- Only the mantissa zero denotes a value that is not positive. -/
theorem eq_zero_of_toRat_le (h : toRat m e ≤ 0) : m = 0 := by
  have hzero : toRat m e = 0 := le_antisymm h (toRat_nonneg m e)
  rcases mul_eq_zero.mp hzero with hzero | hzero
  · exact_mod_cast hzero
  · exact absurd hzero (by positivity)

end Binary64

namespace ShortestDigits

variable {v w : Binary64} {negative negative' : Bool} {m n : ℕ} {e p : ℤ} {s t : ShortestDigits}
  {x y : ℚ}

/-- The shortest digits of zero denote zero. -/
theorem toRat_of_zero (hv : v.unpack = .finite negative 0 e) : (of v).toRat = 0 := by
  rw [of_zero hv, toRat]
  simp [none]

/-- **The shortest decimal of a greater number** is not smaller. -/
theorem toRat_of_le (hv : v.unpack = .finite negative m e) (hw : w.unpack = .finite negative' n p)
    (hle : Binary64.toRat m e ≤ Binary64.toRat n p) : (of v).toRat ≤ (of w).toRat := by
  by_cases hm : m = 0
  · subst hm
    rw [toRat_of_zero hv]
    exact toRat_nonneg _
  have hn : n ≠ 0 := by
    rintro rfl
    have hzero : Binary64.toRat 0 p = 0 := by simp [Binary64.toRat]
    exact hm (Binary64.eq_zero_of_toRat_le (hle.trans_eq hzero))
  have hcanonical := Binary64.isCanonical_of_unpack hv
  have hcanonical' := Binary64.isCanonical_of_unpack hw
  rcases hle.lt_or_eq with hlt | heq
  · -- The spans of two different doubles do not overlap, so neither do their members.
    obtain ⟨-, d, hd, hdv⟩ := sound_of hv hm
    obtain ⟨-, d', hd', hdw⟩ := sound_of hw hn
    rw [hdv, hdw]
    exact hd.mem.bounds.2.trans ((hcanonical.span_le hcanonical' hlt).trans hd'.mem.bounds.1)
  · obtain ⟨rfl, rfl⟩ := hcanonical.eq_of_toRat hcanonical' hm heq
    rw [of_eq hv hm, of_eq hw hn]

/-- The point of a greater decimal does not stand further to the left. -/
theorem decimalAt_le (hs : s.Sound x) (hfirst : s.digits.head? ≠ some DigitList.zeroDigit)
    (ht : t.Sound y) (hle : s.toRat ≤ t.toRat) : s.decimalAt.toInt ≤ t.decimalAt.toInt := by
  have hlt : (10 : ℚ) ^ (s.decimalAt.toInt - 1) < 10 ^ t.decimalAt.toInt :=
    ((zpow_le_toRat hs hfirst).trans hle).trans_lt (toRat_lt_zpow ht.valid)
  have hlt := (zpow_lt_zpow_iff_right₀ (by norm_num : (1 : ℚ) < 10)).mp hlt
  omega

/-- Digits that do not end in a zero are no multiple of a unit in front of the last of them. -/
theorem not_multiple_of_lt (hs : s.Sound x) {place : ℕ} (hplace : place < s.digits.length) :
    ¬ ∃ k : ℤ, s.toRat = k * 10 ^ (s.decimalAt.toInt - place) := by
  rintro ⟨k, hk⟩
  obtain ⟨behind, hbehind⟩ := Nat.exists_eq_add_of_lt hplace
  have hunit : (10 : ℚ) ^ (s.decimalAt.toInt - place)
      = 10 * 10 ^ behind * 10 ^ (s.decimalAt.toInt - s.digits.length) := by
    rw [← zpow_natCast (10 : ℚ) behind, ← zpow_one_add₀ (by norm_num), ← zpow_add₀ (by norm_num)]
    congr 1
    omega
  rw [toRat, hunit, ← mul_assoc] at hk
  have hk : (number s.digits : ℚ) = k * (10 * 10 ^ behind) := mul_right_cancel₀ (by positivity) hk
  have hk : (number s.digits : ℤ) = 10 * (k * 10 ^ behind) := by
    have hk : (number s.digits : ℚ) = ((10 * (k * 10 ^ behind) : ℤ) : ℚ) := by
      rw [hk]
      push_cast
      ring
    exact_mod_cast hk
  -- A multiple of that unit would end in the digit zero, which sound digits never do.
  have hlast := hs.last
  omega

end ShortestDigits

/-! ### Modes -/

namespace RoundingMode

variable {mode : RoundingMode} {x y : ℚ} {n k : ℤ}

/-- **Rounding to the nearest is monotone.** If the results were the other way round, both numbers
would be the tie between them, and a tie goes one way only. -/
theorem Rounds.le (hmode : mode.IsHalf) (hx : mode.Rounds x n) (hy : mode.Rounds y k)
    (hle : x ≤ y) : n ≤ k := by
  by_contra hlt
  have hlt : k + 1 ≤ n := by omega
  have hnear := abs_le.mp hx.near
  have hnear' := abs_le.mp hy.near
  have hcast : (k : ℚ) + 1 ≤ n := by exact_mod_cast hlt
  -- The two numbers are at most half a unit from results that are a unit apart.
  have hxn : x - n = -(1 / 2) := by linarith [hnear.1, hnear'.2]
  have hyk : y - k = 1 / 2 := by linarith [hnear.1, hnear'.2]
  have htie := hx.tie (by rw [hxn]; norm_num)
  have htie' := hy.tie (by rw [hyk]; norm_num)
  cases mode with
  | halfUp =>
    have htie' : y < k := htie'
    linarith
  | halfDown =>
    have htie : (n : ℚ) < x := htie
    linarith
  | halfEven =>
    have hn : (n : ℚ) = ((k + 1 : ℤ) : ℚ) := by
      push_cast
      linarith
    have hn : n = k + 1 := by exact_mod_cast hn
    obtain ⟨i, hi⟩ : Even n := htie
    obtain ⟨j, hj⟩ : Even k := htie'
    omega
  | _ => exact hmode.elim

/-- Whether the digits in front of what is dropped go up, in a mode that always goes the same way.
-/
def direction (mode : RoundingMode) (negative : Bool) : Option Bool :=
  match mode with
  | .up => some true
  | .down => some false
  | .ceiling => some (!negative)
  | .floor => some negative
  | _ => none

/-- A mode that rounds goes to the nearest or always the same way. -/
theorem isHalf_or_direction (hmode : mode ≠ .unnecessary) (negative : Bool) :
    mode.IsHalf ∨ ∃ up, mode.direction negative = some up := by
  cases mode with
  | halfUp | halfDown | halfEven => exact .inl trivial
  | up | down | ceiling | floor => exact .inr ⟨_, rfl⟩
  | unnecessary => exact absurd rfl hmode

end RoundingMode

/-- The reference goes the same way with all digits that do not end in a zero. -/
theorem Reference.answer_direction {q : RoundingQuestion} {s : ShortestDigits} {x : ℚ}
    {mode : RoundingMode} {negative up : Bool} (about : q.IsAbout s mode negative) (hs : s.Sound x)
    (hup : mode.direction negative = some up) : answer q = .ok up := by
  -- There is a digit at the place, so something is cut off.
  obtain ⟨hlow, hhigh⟩ := about.place
  have hlt : q.place.toInt < s.digits.length := hhigh.resolve_right fun hnone => hs.nonempty hnone.1
  have hnonneg : ¬ q.place < 0 := by
    rw [Int32.lt_iff_toInt_lt, Int32.toInt_zero]
    omega
  have hplace : q.place.toNatClampNeg < s.digits.length := by
    rw [← Int32.toNat_toInt]
    omega
  have hdrop := List.drop_eq_getElem_cons hplace
  obtain ⟨c, hcut, hdropped⟩ : ∃ c, cut? q = some c ∧
      s.digits.drop q.place.toNatClampNeg = c.first :: c.rest := by
    refine ⟨⟨s.digits.take q.place.toNatClampNeg, s.digits[q.place.toNatClampNeg],
      s.digits.drop (q.place.toNatClampNeg + 1)⟩, ?_, hdrop⟩
    unfold cut?
    rw [if_neg hnonneg]
    dsimp only
    rw [about.digits, hdrop]
  -- The last digit is dropped, and it is not a zero.
  have hdrops : c.dropsValue = true := by
    have hvalid := hs.valid.drop q.place.toNatClampNeg
    have hlast := hs.last
    rw [← List.take_append_drop q.place.toNatClampNeg s.digits, number_append,
      List.length_drop] at hlast
    obtain ⟨behind, hbehind⟩ := Nat.exists_eq_add_of_lt hplace
    rw [hbehind,
      show q.place.toNatClampNeg + behind + 1 - q.place.toNatClampNeg = behind + 1 by omega,
      pow_succ] at hlast
    have hpos : 0 < number (s.digits.drop q.place.toNatClampNeg) := by
      by_contra hzero
      rw [Nat.eq_zero_of_not_pos hzero, Nat.add_zero, ← Nat.mul_assoc] at hlast
      exact hlast (Nat.mul_mod_left _ _)
    obtain ⟨d, hd, hne⟩ := (number_pos hvalid).mp hpos
    rw [hdropped] at hd
    exact List.any_eq_true.mpr ⟨d, hd, bne_iff_ne.mpr hne⟩
  rw [answer, hcut]
  show decide q c = .ok up
  unfold decide
  rw [about.mode, about.sign, hdrops]
  cases mode with
  | up | down | ceiling | floor => simpa [RoundingMode.direction] using hup
  | _ => cases hup

/-- What the reference leads to, it leads to whatever else is kept. -/
theorem Rounding.yields_reference {rounding : Rounding} {r : DigitList}
    (hr : rounding.resolve Reference.answer = .ok r) :
    Yields (rounding.resolve Oracle.ask) .reference r .reference :=
  rounding.resolve_reference.trans (by rw [hr])

/-! ### Where rounding lands -/

namespace DigitList

variable {l r : DigitList} {s t : ShortestDigits} {v w : Binary64} {m : Int32} {mode : RoundingMode}
  {x x' y y' unit : ℚ} {negative : Bool}

/-- Cutting to a multiple of a unit keeps the order. -/
theorem floorTo_mono (hunit : 0 < unit) (hle : x ≤ x') : floorTo unit x ≤ floorTo unit x' := by
  have hfloor : ⌊x / unit⌋ ≤ ⌊x' / unit⌋ :=
    Int.floor_le_floor (div_le_div_of_nonneg_right hle hunit.le)
  exact mul_le_mul_of_nonneg_right (by exact_mod_cast hfloor) hunit.le

/-- A multiple of the unit keeps its place. -/
theorem floorTo_multiple (hunit : 0 < unit) (n : ℤ) : floorTo unit (n * unit) = n * unit := by
  rw [floorTo, mul_div_cancel_right₀ _ hunit.ne', Int.floor_intCast]

/-- A greater multiple of the unit is at least one unit above. -/
theorem floorTo_add_le (hunit : 0 < unit) {n : ℤ} (hlt : x < n * unit) :
    floorTo unit x + unit ≤ n * unit := by
  have hfloor : ⌊x / unit⌋ + 1 ≤ n := Int.floor_lt.mpr ((div_lt_iff₀ hunit).mpr hlt)
  have hfloor : (⌊x / unit⌋ : ℚ) + 1 ≤ n := by exact_mod_cast hfloor
  calc floorTo unit x + unit = (⌊x / unit⌋ + 1) * unit := by
        rw [floorTo]
        ring
    _ ≤ n * unit := mul_le_mul_of_nonneg_right hfloor hunit.le

/-- **Where rounding the number `x` lands**, if its digits are `s`: on their value if that is a
multiple of the unit, and else on one of the two multiples next to it. -/
structure Lands (mode : RoundingMode) (negative : Bool) (s : ShortestDigits) (x : ℚ)
    (m : ℤ) (y : ℚ) : Prop where
  whole : (∃ n : ℤ, s.toRat = n * 10 ^ (-m)) → y = s.toRat
  near : y = floorTo (10 ^ (-m)) s.toRat ∨ y = floorTo (10 ^ (-m)) s.toRat + 10 ^ (-m)
  half : mode.IsHalf → (¬ ∃ n : ℤ, s.toRat = n * 10 ^ (-m)) →
    ∃ n : ℤ, y = n * 10 ^ (-m) ∧ mode.Rounds (x / 10 ^ (-m)) n
  /-- What lies far below the last place is nothing in every mode. -/
  directed : ∀ up, mode.direction negative = some up → (¬ ∃ n : ℤ, s.toRat = n * 10 ^ (-m)) →
    y = floorTo (10 ^ (-m)) s.toRat + if up ∧ 0 ≤ m + s.decimalAt.toInt then 10 ^ (-m) else 0

/-- What a number lands on is not negative. -/
theorem Lands.nonneg {m : ℤ} (h : Lands mode negative s x m y) : 0 ≤ y := by
  have hunit : (0 : ℚ) < 10 ^ (-m) := by positivity
  have hzero := floorTo_multiple hunit 0
  rw [Int.cast_zero, zero_mul] at hzero
  have hfloor : 0 ≤ floorTo (10 ^ (-m)) s.toRat :=
    hzero.symm.trans_le (floorTo_mono hunit s.toRat_nonneg)
  rcases h.near with rfl | rfl
  · exact hfloor
  · exact add_nonneg hfloor hunit.le

/-- Nothing is rounded to nothing. -/
theorem Lands.eq_zero {m : ℤ} (h : Lands mode negative s x m y) (hzero : s.toRat = 0) : y = 0 := by
  rw [h.whole ⟨0, by rw [hzero, Int.cast_zero, zero_mul]⟩, hzero]

/-- **Rounding is monotone**, given that the digits are. If a multiple of the unit lies between the
two decimals, it lies between the results too; else both are rounded within the same unit. -/
theorem Lands.le {m : ℤ} (h : Lands mode negative s x m y) (h' : Lands mode negative t x' m y')
    (hmode : mode ≠ .unnecessary) (hx : x ≤ x') (hle : s.toRat ≤ t.toRat)
    (hpoint : s.decimalAt.toInt ≤ t.decimalAt.toInt) : y ≤ y' := by
  have hunit : (0 : ℚ) < 10 ^ (-m) := by positivity
  have hfloors := floorTo_mono hunit hle
  have hlow : floorTo (10 ^ (-m)) t.toRat ≤ y' := by
    rcases h'.near with rfl | rfl
    · exact le_rfl
    · exact le_add_of_nonneg_right hunit.le
  have hhigh : y ≤ floorTo (10 ^ (-m)) s.toRat + 10 ^ (-m) := by
    rcases h.near with rfl | rfl
    · exact le_add_of_nonneg_right hunit.le
    · exact le_rfl
  -- A decimal that is a multiple of the unit stays where it is.
  by_cases hs : ∃ n : ℤ, s.toRat = n * 10 ^ (-m)
  · obtain ⟨n, hn⟩ := hs
    rw [h.whole ⟨n, hn⟩]
    rw [hn, floorTo_multiple hunit, ← hn] at hfloors
    exact hfloors.trans hlow
  by_cases ht : ∃ n : ℤ, t.toRat = n * 10 ^ (-m)
  · obtain ⟨n, hn⟩ := ht
    have hlt : s.toRat < n * 10 ^ (-m) := hn ▸ lt_of_le_of_ne hle fun heq => hs ⟨n, heq.trans hn⟩
    rw [h'.whole ⟨n, hn⟩, hn]
    exact hhigh.trans (floorTo_add_le hunit hlt)
  -- Neither is a multiple: a multiple lies between them, or they are cut at the same one.
  rcases hfloors.lt_or_eq with hlt | heq
  · have hbelow : s.toRat < ⌊t.toRat / 10 ^ (-m)⌋ * 10 ^ (-m) := by
      by_contra hge
      have hmono := floorTo_mono hunit (not_lt.mp hge)
      rw [floorTo_multiple hunit] at hmono
      exact absurd hlt (not_lt.mpr hmono)
    exact hhigh.trans ((floorTo_add_le hunit hbelow).trans hlow)
  rcases mode.isHalf_or_direction hmode negative with hhalf | ⟨up, hup⟩
  · obtain ⟨n, rfl, hrounds⟩ := h.half hhalf hs
    obtain ⟨k, rfl, hrounds'⟩ := h'.half hhalf ht
    have hnk := hrounds.le hhalf hrounds' (div_le_div_of_nonneg_right hx hunit.le)
    exact mul_le_mul_of_nonneg_right (by exact_mod_cast hnk) hunit.le
  · rw [h.directed up hup hs, h'.directed up hup ht, heq]
    refine add_le_add_right ?_ _
    split
    · next hasked => rw [if_pos ⟨hasked.1, hasked.2.trans (by omega)⟩]
    · split
      · exact hunit.le
      · exact le_rfl

/-! ### What a list lands on -/

section Set

variable (negative)

/-- A question is only asked about a place among the digits. -/
theorem lt_length_of_asks (hs : (ShortestDigits.of v).Sound x)
    (hlow : -2 ^ 31 ≤ m.toInt + (ShortestDigits.of v).decimalAt.toInt)
    (hhigh : m.toInt + (ShortestDigits.of v).decimalAt.toInt < 2 ^ 31)
    {q : RoundingQuestion} {answered : Bool → DigitList}
    (hasks : l.set negative v m true = .asks q answered) : ∃ place : ℕ,
      m.toInt + (ShortestDigits.of v).decimalAt.toInt = place ∧
        place < (ShortestDigits.of v).digits.length := by
  unfold set at hasks
  dsimp only at hasks
  generalize ShortestDigits.of v = s at *
  obtain ⟨hneg, hsum⟩ := toInt_decimalAt_load (l := l) (m := m) negative hs hlow hhigh
  have hlength := List.length_pos_iff.mpr hs.nonempty
  rw [trim_load negative hs] at hasks
  simp only [true_and, if_true] at hasks
  -- Two of the branches ask: right in front of the digits, and among them.
  split at hasks
  · cases hasks
  · split at hasks
    · next hfirst =>
      rw [← Int32.toInt_inj, hneg] at hfirst
      exact ⟨0, by omega, hlength⟩
    · unfold round at hasks
      split at hasks
      · cases hasks
      · next hcut =>
        obtain ⟨hnonneg, hlt⟩ := not_or.mp hcut
        rw [Int32.lt_iff_toInt_lt, Int32.toInt_zero, hsum, not_lt] at hnonneg
        obtain ⟨place, hplace⟩ := Int.eq_ofNat_of_zero_le hnonneg
        refine ⟨place, hplace, ?_⟩
        rw [(toNatClampNeg_of_toInt (hsum.trans hplace)).1] at hlt
        exact Nat.lt_of_not_le hlt

/-- Where rounding lands in a mode that always goes the same way. -/
theorem exists_lands_directed {sign : Bool} {mantissa : ℕ} {exponent : ℤ}
    (hv : v.unpack = .finite sign mantissa exponent) (hpos : mantissa ≠ 0)
    (hlow : -2 ^ 31 ≤ m.toInt + (ShortestDigits.of v).decimalAt.toInt)
    (hhigh : m.toInt + (ShortestDigits.of v).decimalAt.toInt < 2 ^ 31) {up : Bool}
    (hup : l.roundingMode.direction negative = some up) :
    ∃ r, (l.set negative v m true).resolve Reference.answer = .ok r ∧
      Lands l.roundingMode negative (ShortestDigits.of v) x m.toInt r.value := by
  have hs := (ShortestDigits.sound_of hv hpos).1
  have htruncates := set_truncates (l := l) (m := m) negative hv fun _ : true = true =>
    ⟨hlow, hhigh⟩
  have hasked := @lt_length_of_asks l v m (Binary64.toRat mantissa exponent) negative hs hlow hhigh
  have hunit : (0 : ℚ) < 10 ^ (-m.toInt) := by positivity
  have hnearest : ¬ l.roundingMode.IsHalf := by
    intro hhalf
    cases hmode : l.roundingMode <;> simp_all [RoundingMode.IsHalf, RoundingMode.direction]
  generalize l.set negative v m true = rounding at htruncates hasked
  -- Either nothing has to be asked, or the question is answered by the direction.
  cases htruncates with
  | @settled r whole h =>
    have hvalue := whole rfl
    refine ⟨r, rfl, ⟨?_, .inl hvalue, fun hhalf => absurd hhalf hnearest, ?_⟩⟩
    · rintro ⟨n, hn⟩
      rw [hvalue, hn, floorTo_multiple hunit]
    · intro up' _ hcut
      have hbelow : ¬ 0 ≤ m.toInt + (ShortestDigits.of v).decimalAt.toInt := by
        intro habove
        have hkept := h.value
        rw [if_neg (by rintro ⟨-, hlt⟩; omega), hvalue] at hkept
        exact hcut ⟨_, hkept.symm⟩
      rw [if_neg fun hboth => hbelow hboth.2, add_zero, hvalue]
  | @asks q answered about h =>
    obtain ⟨place, hplace, hlt⟩ := hasked rfl
    have hanswer := Reference.answer_direction about hs hup
    have hcut := ShortestDigits.not_multiple_of_lt hs hlt
    rw [show (ShortestDigits.of v).decimalAt.toInt - place = -m.toInt by omega] at hcut
    have hvalue := (h up).value
    rw [show lastPlace (ShortestDigits.of v) m true = -m.toInt from rfl] at hvalue
    refine ⟨answered up, by rw [Rounding.resolve, hanswer]; rfl,
      ⟨fun hwhole => absurd hwhole hcut, ?_, fun hhalf => absurd hhalf hnearest, ?_⟩⟩
    · cases up with
      | true => exact .inr hvalue
      | false => exact .inl (hvalue.trans (add_zero _))
    · intro up' hup' _
      obtain rfl := Option.some.inj (hup.symm.trans hup')
      rw [hvalue]
      simp [show 0 ≤ m.toInt + (ShortestDigits.of v).decimalAt.toInt by omega]

/-- Where rounding to the nearest lands. -/
theorem exists_lands_half {sign : Bool} {mantissa : ℕ} {exponent : ℤ}
    (hv : v.unpack = .finite sign mantissa exponent) (hpos : mantissa ≠ 0)
    (hlow : -2 ^ 31 ≤ m.toInt + (ShortestDigits.of v).decimalAt.toInt)
    (hhigh : m.toInt + (ShortestDigits.of v).decimalAt.toInt < 2 ^ 31)
    (hmode : l.roundingMode.IsHalf) :
    ∃ r, (l.set negative v m true).resolve Reference.answer = .ok r ∧
      Lands l.roundingMode negative (ShortestDigits.of v) (Binary64.toRat mantissa exponent) m.toInt
        r.value := by
  have hs := (ShortestDigits.sound_of hv hpos).1
  obtain ⟨r, hr, hnearest⟩ := exists_resolve_set (l := l) (m := m) negative hs hmode hlow hhigh
  have htruncates := set_truncates (l := l) (m := m) negative hv fun _ : true = true =>
    ⟨hlow, hhigh⟩
  obtain ⟨up, y, hrounded, hy⟩ := htruncates.exists_isRounded (Rounding.yields_reference hr)
  refine ⟨r, hr, ⟨hnearest.whole, ?_, fun _ => hnearest.nearest, ?_⟩⟩
  · -- Half modes leave the cut number or move it up by one unit.
    rw [hrounded.value, hy]
    cases up with
    | true => exact .inr rfl
    | false => exact .inl (add_zero _)
  · intro up' hup'
    cases hcase : l.roundingMode <;> simp_all [RoundingMode.IsHalf, RoundingMode.direction]

/-- **Rounding with the reference lands**, in every mode that rounds. -/
theorem exists_lands {sign : Bool} {mantissa : ℕ} {exponent : ℤ}
    (hv : v.unpack = .finite sign mantissa exponent)
    (hlow : -2 ^ 31 ≤ m.toInt + (ShortestDigits.of v).decimalAt.toInt)
    (hhigh : m.toInt + (ShortestDigits.of v).decimalAt.toInt < 2 ^ 31)
    (hmode : l.roundingMode ≠ .unnecessary) :
    ∃ r, (l.set negative v m true).resolve Reference.answer = .ok r ∧
      Lands l.roundingMode negative (ShortestDigits.of v) (Binary64.toRat mantissa exponent) m.toInt
        r.value := by
  by_cases hzero : mantissa = 0
  · subst hzero
    obtain ⟨r, hr, hcount⟩ :=
      exists_resolve_zero (l := l) (m := m) negative (ShortestDigits.of_zero hv)
    have htoRat := ShortestDigits.toRat_of_zero hv
    have hwhole : ∃ n : ℤ, (ShortestDigits.of v).toRat = n * 10 ^ (-m.toInt) :=
      ⟨0, by rw [htoRat, Int.cast_zero, zero_mul]⟩
    refine ⟨r, hr, ⟨fun _ => ?_, .inl ?_, fun _ hcut => absurd hwhole hcut,
      fun _ _ hcut => absurd hwhole hcut⟩⟩
    · rw [value_of_count hcount, htoRat]
    · rw [value_of_count hcount, htoRat, floorTo, zero_div, Int.floor_zero, Int.cast_zero, zero_mul]
  · rcases l.roundingMode.isHalf_or_direction hmode negative with hhalf | ⟨up, hup⟩
    · exact exists_lands_half negative hv hzero hlow hhigh hhalf
    · exact exists_lands_directed negative hv hzero hlow hhigh hup

end Set

end DigitList

/-! ### Formatted numbers in order -/

/-- A number behind a minus or not. -/
def withSign (negative : Bool) (x : ℚ) : ℚ :=
  if negative then -x else x

/-- **The number that a text denotes**, with its sign and without its commas. -/
def Decimal.denoted (text : String) : ℚ :=
  match text.toList with
  | '-' :: rest => -read (uncommaed rest)
  | unsigned => read (uncommaed unsigned)

namespace NumberFormat

open DigitList

variable {f : NumberFormat} {v w : Binary64} {sign sign' : Bool} {mantissa mantissa' : ℕ}
  {exponent exponent' : ℤ}

/-- A text that shows a list denotes the list's value under the sign. -/
theorem denoted_of_shows {negative : Bool} {r : DigitList} {text : String}
    (h : f.Shows negative r text) : Decimal.denoted text = withSign negative r.value := by
  obtain ⟨whole, fraction, htext, hnumeral, hread⟩ := h
  unfold Decimal.denoted withSign
  rw [htext]
  cases negative with
  | true =>
    show -Decimal.read (Decimal.uncommaed (whole ++ Decimal.pointed fraction)) = -r.value
    rw [hread]
  | false =>
    -- There is a digit in front, and no minus.
    cases whole with
    | nil => exact absurd rfl hnumeral.nonempty
    | cons c rest =>
      have hminus : c ≠ '-' := by
        rintro rfl
        have hmem : '-' ∈ Decimal.uncommaed ('-' :: rest) :=
          List.mem_filter.mpr ⟨List.mem_cons_self, by decide⟩
        exact absurd (hnumeral.digits '-' (List.mem_append_left _ hmem)) (by decide)
      rw [← hread]
      simp only [Bool.false_eq_true, if_false, List.nil_append, List.cons_append]
      split
      · next hcons => exact absurd (List.cons.inj hcons).1 hminus
      · rfl

/-- Where two numbers of one sign land. -/
theorem value_le {mode : RoundingMode} {negative : Bool} {m : ℤ} {y y' : ℚ}
    (hmode : mode ≠ .unnecessary) (hv : v.unpack = .finite sign mantissa exponent)
    (hw : w.unpack = .finite sign' mantissa' exponent')
    (h : Lands mode negative (ShortestDigits.of v) (Binary64.toRat mantissa exponent) m y)
    (h' : Lands mode negative (ShortestDigits.of w) (Binary64.toRat mantissa' exponent') m y')
    (hle : Binary64.toRat mantissa exponent ≤ Binary64.toRat mantissa' exponent') : y ≤ y' := by
  by_cases hzero : mantissa = 0
  · subst hzero
    rw [h.eq_zero (ShortestDigits.toRat_of_zero hv)]
    exact h'.nonneg
  have hzero' : mantissa' ≠ 0 := by
    rintro rfl
    exact hzero (Binary64.eq_zero_of_toRat_le (hle.trans_eq (by simp [Binary64.toRat])))
  -- Both are positive: their shortest digits are in the order of the doubles, and so are the
  -- points.
  have hdigits := ShortestDigits.toRat_of_le hv hw hle
  have hpoint := ShortestDigits.decimalAt_le (ShortestDigits.sound_of hv hzero).1
    (ShortestDigits.head?_of hv hzero) (ShortestDigits.sound_of hw hzero').1 hdigits
  exact h.le h' hmode hle hdigits hpoint

/-- The list that formatting a number leads to, and its text. -/
theorem exists_format (hmode : f.roundingMode ≠ .unnecessary)
    (hv : v.unpack = .finite sign mantissa exponent)
    (hfits : (max f.maximumFractionDigits 0).toInt
      + (ShortestDigits.of v.abs).decimalAt.toInt < 2 ^ 31) :
    ∃ text y, Yields (f.format Oracle.ask v) .reference text .reference ∧
      Decimal.denoted text = withSign sign y ∧
      Lands f.roundingMode sign (ShortestDigits.of v.abs) (Binary64.toRat mantissa exponent)
        (max f.maximumFractionDigits 0).toInt y := by
  obtain ⟨hsign, habs⟩ := Binary64.unpack_abs hv
  have hpoint := ShortestDigits.point_of habs
  have hlow : -2 ^ 31 ≤ (max f.maximumFractionDigits 0).toInt
      + (ShortestDigits.of v.abs).decimalAt.toInt := by
    rw [toInt_max_zero]
    omega
  obtain ⟨r, hr, hlands⟩ := exists_lands (l := { roundingMode := f.roundingMode }) v.isNegative habs
    hlow hfits hmode
  obtain ⟨text, htext, hshows⟩ := exists_text f hv hlow hfits (Rounding.yields_reference hr)
  rw [hsign] at hlands
  exact ⟨text, r.value, htext, denoted_of_shows hshows, hlands⟩

/-- **Formatting is monotone.** In every mode that rounds, the text of a number denotes at most what
the text of a greater number denotes, whatever their signs, with the reference to decide about the
digits. -/
theorem format_monotone (f : NumberFormat) (hmode : f.roundingMode ≠ .unnecessary)
    (hv : v.unpack = .finite sign mantissa exponent)
    (hw : w.unpack = .finite sign' mantissa' exponent')
    (hfits : (max f.maximumFractionDigits 0).toInt
      + (ShortestDigits.of v.abs).decimalAt.toInt < 2 ^ 31)
    (hfits' : (max f.maximumFractionDigits 0).toInt
      + (ShortestDigits.of w.abs).decimalAt.toInt < 2 ^ 31)
    (hle : withSign sign (Binary64.toRat mantissa exponent)
      ≤ withSign sign' (Binary64.toRat mantissa' exponent')) :
    ∃ text text', Yields (f.format Oracle.ask v) .reference text .reference ∧
      Yields (f.format Oracle.ask w) .reference text' .reference ∧
      Decimal.denoted text ≤ Decimal.denoted text' := by
  obtain ⟨text, y, htext, hdenoted, hlands⟩ := exists_format hmode hv hfits
  obtain ⟨text', y', htext', hdenoted', hlands'⟩ := exists_format hmode hw hfits'
  refine ⟨text, text', htext, htext', ?_⟩
  rw [hdenoted, hdenoted']
  obtain ⟨-, habs⟩ := Binary64.unpack_abs hv
  obtain ⟨-, habs'⟩ := Binary64.unpack_abs hw
  have hy := hlands.nonneg
  have hy' := hlands'.nonneg
  have hx := Binary64.toRat_nonneg mantissa exponent
  have hx' := Binary64.toRat_nonneg mantissa' exponent'
  cases sign with
  | false =>
    cases sign' with
    | false => exact value_le hmode habs habs' hlands hlands' hle
    | true =>
      -- Both numbers are zero.
      have hle : Binary64.toRat mantissa exponent ≤ -Binary64.toRat mantissa' exponent' := hle
      obtain rfl := Binary64.eq_zero_of_toRat_le
        (show Binary64.toRat mantissa exponent ≤ 0 by linarith)
      obtain rfl := Binary64.eq_zero_of_toRat_le
        (show Binary64.toRat mantissa' exponent' ≤ 0 by linarith)
      show y ≤ -y'
      rw [hlands.eq_zero (ShortestDigits.toRat_of_zero habs),
        hlands'.eq_zero (ShortestDigits.toRat_of_zero habs'), neg_zero]
  | true =>
    cases sign' with
    | false =>
      show -y ≤ y'
      linarith
    | true =>
      have hle : -Binary64.toRat mantissa exponent ≤ -Binary64.toRat mantissa' exponent' := hle
      exact neg_le_neg (value_le hmode habs' habs hlands' hlands (neg_le_neg_iff.mp hle))

/-- Two numbers right below a hundred, with two places. -/
theorem format_monotone_hundred :
    let f : NumberFormat := { maximumFractionDigits := 2, roundingMode := .halfUp }
    let v : Binary64 := ⟨0x4058FFEDFA43FE5D⟩
    let w : Binary64 := ⟨0x4058FFEF9DB22D0E⟩
    (f.roundingMode ≠ .unnecessary ∧
      v.unpack = .finite false 0x18FFEDFA43FE5D (-46) ∧
      w.unpack = .finite false 0x18FFEF9DB22D0E (-46) ∧
      2 + (ShortestDigits.of v.abs).decimalAt.toInt < 2 ^ 31 ∧
      2 + (ShortestDigits.of w.abs).decimalAt.toInt < 2 ^ 31 ∧
      withSign false (Binary64.toRat 0x18FFEDFA43FE5D (-46))
        ≤ withSign false (Binary64.toRat 0x18FFEF9DB22D0E (-46))) ∧
    ∃ text text', Yields (f.format Oracle.ask v) .reference text .reference ∧
      Yields (f.format Oracle.ask w) .reference text' .reference ∧
      Decimal.denoted text ≤ Decimal.denoted text' := by
  intro f v w
  have hmode : f.roundingMode ≠ .unnecessary := by decide
  have hv : v.unpack = .finite false 0x18FFEDFA43FE5D (-46) := by decide
  have hw : w.unpack = .finite false 0x18FFEF9DB22D0E (-46) := by decide
  have hpoint := ShortestDigits.point_of (Binary64.unpack_abs hv).2
  have hpoint' := ShortestDigits.point_of (Binary64.unpack_abs hw).2
  have hfits : 2 + (ShortestDigits.of v.abs).decimalAt.toInt < 2 ^ 31 := by omega
  have hfits' : 2 + (ShortestDigits.of w.abs).decimalAt.toInt < 2 ^ 31 := by omega
  have hle : withSign false (Binary64.toRat 0x18FFEDFA43FE5D (-46))
      ≤ withSign false (Binary64.toRat 0x18FFEF9DB22D0E (-46)) :=
    mul_le_mul_of_nonneg_right (by norm_num) (by positivity)
  exact ⟨⟨hmode, hv, hw, hfits, hfits', hle⟩, format_monotone f hmode hv hw hfits hfits' hle⟩

end NumberFormat

end RoundingPatch
