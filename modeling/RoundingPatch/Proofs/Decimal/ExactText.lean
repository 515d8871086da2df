import Mathlib.Algebra.Order.Floor.Semifield
import Mathlib.Data.Int.Log
import Mathlib.Data.Nat.Prime.Basic
import Mathlib.Data.Rat.Floor
import RoundingPatch.Decimal.Text
import RoundingPatch.Proofs.Decimal.LimbDigits
import RoundingPatch.Proofs.Decimal.Numeral
import RoundingPatch.Proofs.Decimal.ShortestDigits
/-!
# Exact values as text

A number with a negative exponent is an odd number over a power of two once the factors of two are
out of the mantissa (`reduceTwos_spec`). As many fives make it a number of decimal places: it is `n
/ 10 ^ places` for the coefficient `n = odd * 5 ^ places`, and no fewer places are enough
(`isLeast_places`). The digits of `n` are split by the point at `places` (`positional_eq`) or stand
behind their first one (`scientific_eq`), where the place of the first digit decides between the two
(`log_eq`).
-/

namespace RoundingPatch

open Digits Decimal

variable {mantissa odd places n : ℕ} {exponent : ℤ}

/-! ### Factors of two -/

/-- **Moving factors of two out** keeps the quotient, and leaves an odd number or no power of two.
-/
theorem reduceTwos_spec (mantissa halvings : ℕ) :
    let r := reduceTwos mantissa halvings
    r.1 * 2 ^ halvings = mantissa * 2 ^ r.2 ∧ r.1 ≤ mantissa ∧ (0 < r.2 → r.1 % 2 = 1) := by
  induction halvings generalizing mantissa with
  | zero => exact ⟨rfl, Nat.le_refl _, fun h => absurd h (Nat.lt_irrefl 0)⟩
  | succ halvings ih =>
    rw [reduceTwos]
    split
    · next heven =>
      obtain ⟨hvalue, hle, hodd⟩ := ih (mantissa / 2)
      have hhalf : mantissa = 2 * (mantissa / 2) := by omega
      refine ⟨?_, by omega, hodd⟩
      calc (reduceTwos (mantissa / 2) halvings).1 * 2 ^ (halvings + 1)
          = 2 * (mantissa / 2) * 2 ^ (reduceTwos (mantissa / 2) halvings).2 := by
            rw [pow_succ, ← mul_assoc, hvalue]
            ring
        _ = _ := by rw [← hhalf]
    · exact ⟨rfl, Nat.le_refl _, fun _ => by omega⟩

/-- An odd number over a power of two is a number of decimal places. -/
theorem div_two_pow (odd places : ℕ) :
    (odd : ℚ) / 2 ^ places = ((odd * 5 ^ places : ℕ) : ℚ) / (10 ^ places : ℕ) := by
  have hten : (10 : ℚ) ^ places = 2 ^ places * 5 ^ places := by
    rw [← mul_pow]
    norm_num
  push_cast
  rw [hten, mul_div_mul_right _ _ (by positivity)]

/-- **The least number of places** of an odd number over a power of two is the power of two. -/
theorem isLeast_places (hodd : 0 < places → odd % 2 = 1) :
    IsLeast {s : ℕ | ∃ n : ℕ, (odd : ℚ) / 2 ^ places * 10 ^ s = n} places := by
  constructor
  · refine ⟨odd * 5 ^ places, ?_⟩
    rw [div_two_pow, Nat.cast_pow]
    exact div_mul_cancel₀ _ (by positivity)
  · rintro s ⟨n, hn⟩
    rcases Nat.eq_zero_or_pos places with rfl | hpos
    · exact Nat.zero_le s
    -- All twos of the denominator are in the power of ten, for there is none in the odd number.
    have hwhole : odd * 5 ^ s * 2 ^ s = n * 2 ^ places := by
      rw [div_mul_eq_mul_div, div_eq_iff (by positivity)] at hn
      have hten : (10 : ℚ) ^ s = 5 ^ s * 2 ^ s := by
        rw [← mul_pow]
        norm_num
      rw [hten, ← mul_assoc] at hn
      exact_mod_cast hn
    have hcoprime : Nat.Coprime (2 ^ places) (odd * 5 ^ s) := by
      refine Nat.Coprime.pow_left _ (Nat.Coprime.mul_right ?_ (Nat.Coprime.pow_right _ (by decide)))
      exact Nat.coprime_two_left.mpr (Nat.odd_iff.mpr (hodd hpos))
    have hdvd : 2 ^ places ∣ 2 ^ s := hcoprime.dvd_of_dvd_mul_left (hwhole ▸ Dvd.intro_left n rfl)
    exact (Nat.pow_dvd_pow_iff_le_right (by omega)).mp hdvd

/-! ### Where the first digit stands -/

/-- The place of the first digit of a number of decimal places. -/
theorem log_eq (hn : 0 < n) (places : ℕ) :
    Int.log 10 ((n : ℚ) / (10 ^ places : ℕ)) = (Nat.toDigits 10 n).length - places - 1 := by
  have hlength : 0 < (Nat.toDigits 10 n).length := Nat.length_toDigits_pos
  have hpos : (0 : ℚ) < (n : ℚ) / (10 ^ places : ℕ) := by positivity
  -- Both bounds are compared as integers, over the same power of ten.
  have hunit (k : ℕ) : (10 : ℚ) ^ ((k : ℤ) - places) = ((10 ^ k : ℕ) : ℚ) / (10 ^ places : ℕ) := by
    rw [zpow_sub₀ (by norm_num)]
    push_cast
    rfl
  have hten : ((10 : ℕ) : ℚ) = 10 := by norm_num
  have hlow : (Nat.toDigits 10 n).length - places - 1
      ≤ Int.log 10 ((n : ℚ) / (10 ^ places : ℕ)) := by
    have hle := pow_length_ofNat_le hn
    rw [length_ofNat] at hle
    rw [← Int.zpow_le_iff_le_log (by omega) hpos, hten,
      show ((Nat.toDigits 10 n).length : ℤ) - places - 1
        = (((Nat.toDigits 10 n).length - 1 : ℕ) : ℤ) - places by omega, hunit]
    exact div_le_div_of_nonneg_right (Nat.cast_le.mpr hle) (by positivity)
  have hhigh : Int.log 10 ((n : ℚ) / (10 ^ places : ℕ)) < (Nat.toDigits 10 n).length - places := by
    have hlt := (Nat.length_toDigits_le_iff (b := 10) (by omega) hlength).mp (Nat.le_refl _)
    rw [← Int.lt_zpow_iff_log_lt (by omega) hpos, hten, hunit]
    exact div_lt_div_of_pos_right (Nat.cast_lt.mpr hlt) (by positivity)
  omega

/-! ### The two notations -/

theorem isDigit_padded {k : ℕ} : ∀ c ∈ padded k n, c.isDigit = true := by
  intro c hc
  rcases List.mem_append.mp hc with hzero | hdigit
  · rw [List.eq_of_mem_replicate hzero]
    rfl
  · exact isDigit_toDigits hdigit

/-- Zeros in front do not change the number. -/
theorem ofDigitChars_padded (k n : ℕ) : Nat.ofDigitChars 10 (padded k n) 0 = n := by
  rw [padded, Nat.ofDigitChars_append, Nat.ofDigitChars_replicate_zero, Nat.mul_zero,
    Nat.ofDigitChars_ten_toDigits]

theorem fraction_eq (digits : List Char) : fraction false digits = pointed digits := by
  unfold fraction pointed
  cases digits <;> rfl

/-- **Positional notation** splits the digits at the point, with zeros as far as they are missing.
-/
theorem positional_eq (hplaces : 0 < places) (n : ℕ) :
    positional false (Nat.toDigits 10 n) ((Nat.toDigits 10 n).length - places)
      = Nat.toDigits 10 (n / 10 ^ places) ++ pointed (padded places (n % 10 ^ places)) := by
  have hsplit : 10 ^ places * (n / 10 ^ places) + n % 10 ^ places = n := Nat.div_add_mod n _
  have hmod : n % 10 ^ places < 10 ^ places := Nat.mod_lt _ (by positivity)
  unfold positional
  rw [fraction_eq, fraction_eq]
  split
  · next hpoint =>
    have hlt : n < 10 ^ places :=
      (Nat.length_toDigits_le_iff (b := 10) (by omega) hplaces).mp (by omega)
    -- All digits stand behind the point, with zeros in between.
    have hzeros : (-(((Nat.toDigits 10 n).length : ℤ) - places)).toNat
        = places - (Nat.toDigits 10 n).length := by omega
    rw [hzeros, Nat.div_eq_of_lt hlt, Nat.mod_eq_of_lt hlt]
    rfl
  · next hpoint =>
    -- The point stands among the digits.
    have hle : 10 ^ places ≤ n := by
      by_contra hlt
      have := (Nat.length_toDigits_le_iff (b := 10) (by omega) hplaces).mpr (Nat.lt_of_not_le hlt)
      omega
    have hdigits := toDigits_padded (Nat.div_pos hle (by positivity)) hplaces hmod
    have hlength := length_padded hplaces hmod
    rw [hsplit] at hdigits
    have hpoint : (((Nat.toDigits 10 n).length : ℤ) - places).toNat
        = (Nat.toDigits 10 (n / 10 ^ places)).length := by
      rw [hdigits, List.length_append, hlength]
      omega
    rw [hpoint, hdigits, List.take_left, List.drop_left]
    dsimp only
    rw [Nat.sub_self, List.replicate_zero, List.append_nil]

/-- A number without places has its digits only. -/
theorem positional_whole (n : ℕ) :
    positional false (Nat.toDigits 10 n) (Nat.toDigits 10 n).length = Nat.toDigits 10 n := by
  have hlength : 0 < (Nat.toDigits 10 n).length := Nat.length_toDigits_pos
  unfold positional
  rw [if_neg (by omega)]
  simp [fraction]

/-- **Scientific notation** has its point behind the first digit. -/
theorem scientific_eq (d : Char) (rest : List Char) (point : ℤ) :
    scientific false 'E' (d :: rest) point
      = ([d] ++ pointed rest) ++ 'E' :: (toString (point - 1)).toList := by
  unfold scientific
  rw [fraction_eq]
  rfl

/-! ### Positive numbers -/

/-- How a positive number is written exactly: a whole number by its digits; another one by as many
places as it has, or with one digit in front of the point if its first digit stands more than six
places behind the point. -/
structure IsExactText (x : ℚ) (text : List Char) : Prop where
  read : readScientific text = x
  head : text.head? ≠ some '-'
  whole : ∀ n : ℕ, x = n → text = Nat.toDigits 10 n
  fraction : (¬ ∃ n : ℕ, x = n) →
    ∃ places, IsLeast {s : ℕ | ∃ n : ℕ, x * 10 ^ s = n} places ∧
      (-6 ≤ Int.log 10 x → ∃ fraction, (∀ c ∈ fraction, c.isDigit = true) ∧
        fraction.length = places ∧ text = Nat.toDigits 10 ⌊x⌋₊ ++ '.' :: fraction) ∧
      (Int.log 10 x < -6 → ∃ d rest, rest ≠ [] ∧
        (∀ n : ℕ, x * 10 ^ places = n → d :: rest = Nat.toDigits 10 n) ∧
        text = d :: '.' :: rest ++ 'E' :: (toString (Int.log 10 x)).toList)

theorem not_mem_of_isDigit {text : List Char} {c : Char} (h : ∀ c ∈ text, c.isDigit = true)
    (hc : c.isDigit = false) : c ∉ text := fun hmem =>
  absurd (h c hmem) (by simp [hc])

/-- The digits of a whole number. -/
theorem isExactText_whole (n : ℕ) : IsExactText n (Nat.toDigits 10 n) where
  read := by
    have hdigits : ∀ c ∈ Nat.toDigits 10 n, c.isDigit = true := fun c hc => isDigit_toDigits hc
    have hread := @read_pointed _ [] (not_mem_of_isDigit hdigits (c := '.') rfl)
    rw [readScientific_of_not_mem (not_mem_of_isDigit hdigits rfl)]
    simpa [pointed, Nat.ofDigitChars_ten_toDigits] using hread
  head := fun hhead => absurd (isDigit_toDigits (List.mem_of_mem_head? hhead)) (by decide)
  whole := fun m hm => congrArg _ (Nat.cast_inj.mp hm)
  fraction := fun hnot => absurd ⟨n, rfl⟩ hnot

/-- Digits on both sides of a point, and no mark of an exponent. -/
theorem not_mem_pointed {mark : Char} {whole fraction : List Char}
    (hwhole : ∀ c ∈ whole, c.isDigit = true) (hfraction : ∀ c ∈ fraction, c.isDigit = true)
    (hmark : mark.isDigit = false) (hpoint : mark ≠ '.') : mark ∉ whole ++ pointed fraction := by
  intro hmem
  rcases List.mem_append.mp hmem with hmem | hmem
  · exact not_mem_of_isDigit hwhole hmark hmem
  · unfold pointed at hmem
    split at hmem
    · cases hmem
    · exact (List.mem_cons.mp hmem).elim hpoint (not_mem_of_isDigit hfraction hmark)

/-- What positional notation is read as. -/
theorem read_positional (n places : ℕ) (hplaces : 0 < places) :
    readScientific (Nat.toDigits 10 (n / 10 ^ places) ++ pointed (padded places (n % 10 ^ places)))
      = (n : ℚ) / (10 ^ places : ℕ) := by
  have hwhole : ∀ c ∈ Nat.toDigits 10 (n / 10 ^ places), c.isDigit = true := fun c hc =>
    isDigit_toDigits hc
  have hlength := length_padded hplaces (Nat.mod_lt n (show 0 < 10 ^ places by positivity))
  rw [readScientific_of_not_mem (not_mem_pointed hwhole isDigit_padded rfl (by decide)),
    read_pointed (not_mem_of_isDigit hwhole rfl), Nat.ofDigitChars_append,
    Nat.ofDigitChars_ten_toDigits, Nat.ofDigitChars_eq_ofDigitChars_zero,
    ofDigitChars_padded, hlength,
    Nat.div_add_mod, zpow_neg, zpow_natCast, Nat.cast_pow]
  exact (div_eq_mul_inv _ _).symm

/-- What scientific notation is read as. -/
theorem read_scientific {d : Char} {rest : List Char} (hdigits : Nat.toDigits 10 n = d :: rest)
    (places : ℕ) :
    readScientific (([d] ++ pointed rest) ++
        'E' :: (toString (((Nat.toDigits 10 n).length : ℤ) - places - 1)).toList)
      = (n : ℚ) / (10 ^ places : ℕ) := by
  have hall : ∀ c ∈ d :: rest, c.isDigit = true := fun c hc => isDigit_toDigits (hdigits ▸ hc)
  obtain ⟨hd, hrest⟩ := List.forall_mem_cons.mp hall
  have hfirst : ∀ c ∈ [d], c.isDigit = true := by simpa using hd
  have hvalue : Nat.ofDigitChars 10 ([d] ++ rest) 0 = n := by
    rw [List.singleton_append, ← hdigits, Nat.ofDigitChars_ten_toDigits]
  rw [readScientific_marked (not_mem_pointed hfirst hrest rfl (by decide)),
    read_pointed (not_mem_of_isDigit hfirst rfl), hvalue, mul_assoc,
    ← zpow_add₀ (by norm_num), hdigits,
    List.length_cons,
    show -(rest.length : ℤ) + (((rest.length + 1 : ℕ) : ℤ) - places - 1) = -(places : ℤ) by omega,
    zpow_neg, zpow_natCast, Nat.cast_pow]
  exact (div_eq_mul_inv _ _).symm

section Fraction

variable (hn : 0 < n) (hplaces : 0 < places)
  (hleast : IsLeast {s : ℕ | ∃ m : ℕ, (n : ℚ) / (10 ^ places : ℕ) * 10 ^ s = m} places)
include hplaces hleast

/-- A number that needs places is not whole. -/
theorem not_whole : ¬ ∃ m : ℕ, (n : ℚ) / (10 ^ places : ℕ) = m := by
  rintro ⟨m, hm⟩
  have hle := hleast.2 (show 0 ∈ _ from ⟨m, by rw [pow_zero, mul_one, hm]⟩)
  omega

include hn

/-- Down to the millionth a number is shown with its point. -/
theorem isExactText_positional (hnear : -6 ≤ ((Nat.toDigits 10 n).length : ℤ) - places - 1) :
    IsExactText ((n : ℚ) / (10 ^ places : ℕ))
      (positional false (Nat.toDigits 10 n) ((Nat.toDigits 10 n).length - places)) := by
  have hlength := length_padded hplaces (Nat.mod_lt n (show 0 < 10 ^ places by positivity))
  have hpadded : padded places (n % 10 ^ places) ≠ [] := by
    rw [← List.length_pos_iff, hlength]
    exact hplaces
  rw [positional_eq hplaces n]
  refine {
    read := read_positional n places hplaces
    head := fun hhead => ?_
    whole := fun m hm => absurd ⟨m, hm⟩ (not_whole hplaces hleast)
    fraction := fun _ =>
      ⟨places, hleast, fun _ => ⟨_, isDigit_padded, hlength, ?_⟩, fun hfar => ?_⟩ }
  · rw [List.head?_append_of_ne_nil _ Nat.toDigits_ne_nil] at hhead
    exact absurd (isDigit_toDigits (List.mem_of_mem_head? hhead)) (by decide)
  · rw [Nat.floor_div_eq_div, pointed, if_neg hpadded]
  · rw [log_eq hn places] at hfar
    omega

/-- A smaller number is shown with its exponent. -/
theorem isExactText_scientific (hmany : 1 < (Nat.toDigits 10 n).length)
    (hfar : ((Nat.toDigits 10 n).length : ℤ) - places - 1 < -6) :
    IsExactText ((n : ℚ) / (10 ^ places : ℕ))
      (scientific false 'E' (Nat.toDigits 10 n) ((Nat.toDigits 10 n).length - places)) := by
  -- There is more than one digit, so the first one has a point behind it.
  obtain ⟨d, rest, hrest, hdigits⟩ : ∃ d rest, rest ≠ [] ∧ Nat.toDigits 10 n = d :: rest := by
    generalize Nat.toDigits 10 n = digits at hmany
    rcases digits with _ | ⟨d, _ | ⟨c, rest⟩⟩
    · cases hmany
    · exact absurd hmany (Nat.lt_irrefl 1)
    · exact ⟨d, c :: rest, List.cons_ne_nil _ _, rfl⟩
  have hd : d.isDigit = true :=
    isDigit_toDigits (hdigits ▸ List.mem_cons_self : d ∈ Nat.toDigits 10 n)
  have htext := scientific_eq d rest ((Nat.toDigits 10 n).length - places)
  rw [← hdigits] at htext
  rw [htext]
  refine {
    read := read_scientific hdigits places
    head := fun hhead => ?_
    whole := fun m hm => absurd ⟨m, hm⟩ (not_whole hplaces hleast)
    fraction := fun _ =>
      ⟨places, hleast, fun hnear => ?_, fun _ => ⟨d, rest, hrest, fun m hm => ?_, ?_⟩⟩ }
  · rw [Option.some_inj.mp hhead] at hd
    cases hd
  · rw [log_eq hn places] at hnear
    omega
  · have hvalue : (n : ℚ) / (10 ^ places : ℕ) * 10 ^ places = n := by
      rw [Nat.cast_pow, Nat.cast_ofNat]
      exact div_mul_cancel₀ _ (by positivity)
    rw [← hdigits, Nat.cast_inj.mp (hvalue.symm.trans hm)]
  · rw [log_eq hn places, pointed, if_neg hrest]
    rfl

end Fraction

/-- **The text of a positive number** is exact. -/
theorem isExactText_exactMagnitude (hmantissa : mantissa ≠ 0) (hlt : mantissa < 2 ^ 64)
    (exponent : ℤ) :
    IsExactText (Binary64.toRat mantissa exponent) (exactMagnitude mantissa exponent) := by
  have hlimbs {m : ℕ} (hm : m < 2 ^ 64) : (Limbs.ofUInt64 (UInt64.ofNat m)).toNat = m := by
    rw [Limbs.toNat_ofUInt64, UInt64.toNat_ofNat_of_lt' hm]
  have hcanonical (m : ℕ) := Limbs.isCanonical_ofUInt64 (UInt64.ofNat m)
  unfold exactMagnitude
  split
  · next hexponent =>
    obtain ⟨e, rfl⟩ := Int.eq_ofNat_of_zero_le hexponent
    have hvalue : Binary64.toRat mantissa e = (mantissa * 2 ^ e : ℕ) := by
      rw [Binary64.toRat, zpow_natCast]
      push_cast
      rfl
    rw [Limbs.decimalDigits_eq ((hcanonical mantissa).mulPow2 _), Limbs.toNat_mulPow2, hlimbs hlt,
      Int.toNat_natCast, hvalue]
    exact isExactText_whole _
  · next hexponent =>
    obtain ⟨hvalue, hle, hodd⟩ := reduceTwos_spec mantissa (-exponent).toNat
    dsimp only
    generalize reduceTwos mantissa (-exponent).toNat = r at *
    obtain ⟨odd, places⟩ := r
    dsimp only at hvalue hle hodd ⊢
    have hquotient : Binary64.toRat mantissa exponent = (odd : ℚ) / 2 ^ places := by
      have hback : exponent = -((-exponent).toNat : ℤ) := by omega
      rw [Binary64.toRat, hback, zpow_neg, zpow_natCast, ← div_eq_mul_inv,
        div_eq_div_iff (by positivity) (by positivity)]
      exact_mod_cast hvalue.symm
    -- The digits are those of `odd * 5 ^ places`, with `places` of them behind the point.
    have hpos : 0 < odd := Nat.pos_of_ne_zero fun hzero => by
      rw [hzero, Nat.zero_mul] at hvalue
      exact absurd hvalue.symm (Nat.mul_ne_zero hmantissa (by positivity))
    have hn : 0 < odd * 5 ^ places := Nat.mul_pos hpos (by positivity)
    rw [Limbs.decimalDigits_eq ((hcanonical odd).mulPow5 _), Limbs.toNat_mulPow5,
      hlimbs (hle.trans_lt hlt), hquotient, div_two_pow]
    rcases Nat.eq_zero_or_pos places with rfl | hplaces
    · rw [if_neg (by have := @Nat.length_toDigits_pos 10 (odd * 5 ^ 0); omega),
        Nat.cast_zero, sub_zero, positional_whole, pow_zero, pow_zero, mul_one,
        Nat.cast_one, div_one]
      exact isExactText_whole odd
    · have hleast := isLeast_places hodd
      rw [div_two_pow] at hleast
      split
      · next hfar =>
        -- With so many places there are powers of five enough for a second digit.
        refine isExactText_scientific hn hplaces hleast ?_ hfar
        by_contra hsingle
        have hlt := (Nat.length_toDigits_le_iff (b := 10) (by omega) Nat.one_pos).mp
          (Nat.le_of_not_lt hsingle)
        have hfives : 5 ^ 2 ≤ 5 ^ places := Nat.pow_le_pow_right (by omega) (by omega)
        have hmany : 5 ^ places ≤ odd * 5 ^ places := Nat.le_mul_of_pos_left _ hpos
        omega
      · next hnear => exact isExactText_positional hn hplaces hleast (by omega)

/-! ### All finite numbers -/

section Finite

variable {v : Binary64} {negative : Bool} (hv : v.unpack = .finite negative mantissa exponent)
include hv

theorem Binary64.exactText_of_zero (hzero : mantissa = 0) : v.exactText = "0" := by
  subst hzero
  unfold Binary64.exactText
  rw [hv]
  rfl

theorem Binary64.exactText_of_ne_zero (hmantissa : mantissa ≠ 0) :
    v.exactText = signed negative (exactMagnitude mantissa exponent) := by
  obtain ⟨k, rfl⟩ := Nat.exists_eq_succ_of_ne_zero hmantissa
  unfold Binary64.exactText
  rw [hv]
  rfl

end Finite

/-- **The exact text of a finite number** is that of its absolute value, behind a minus if the
number is negative. Both zeros are written alike. -/
theorem Binary64.exactText_exact {v : Binary64} {negative : Bool}
    (hv : v.unpack = .finite negative mantissa exponent) :
    let x := Binary64.toRat mantissa exponent
    let sign : List Char := if negative ∧ mantissa ≠ 0 then ['-'] else []
    (∃ text, IsExactText x text ∧ v.exactText.toList = sign ++ text) ∧
      readSigned v.exactText.toList = (if negative then -x else x) ∧
      (mantissa = 0 → v.exactText = "0") := by
  intro x sign
  have hlt := (Binary64.bounds_of_unpack hv).1
  -- Zero has no sign, whatever its sign bit is.
  by_cases hzero : mantissa = 0
  · have hx : x = ((0 : ℕ) : ℚ) := by simp [x, Binary64.toRat, hzero]
    have htext := isExactText_whole 0
    rw [Nat.toDigits_of_lt_base (by omega), ← hx] at htext
    rw [Binary64.exactText_of_zero hv hzero]
    refine ⟨⟨_, htext, by simp [sign, hzero]⟩, ?_, fun _ => rfl⟩
    have hread : readSigned ['0'] = x := htext.read
    rw [hx, Nat.cast_zero] at hread ⊢
    simpa using hread
  · have htext := isExactText_exactMagnitude hzero (by omega : mantissa < 2 ^ 64) exponent
    have hsign : sign = if negative then ['-'] else [] := by simp [sign, hzero]
    have hshape : v.exactText.toList = sign ++ exactMagnitude mantissa exponent := by
      rw [Binary64.exactText_of_ne_zero hv hzero, signed, String.toList_ofList, hsign]
      cases negative <;> rfl
    rw [hshape]
    refine ⟨⟨_, htext, rfl⟩, ?_, fun h => absurd h hzero⟩
    rw [hsign, readSigned_sign htext.head, htext.read]

/-- The text of `2 ^ -20`. -/
theorem exactText_exact_twenty :
    let v : Binary64 := ⟨0x3EB0000000000000⟩
    v.unpack = .finite false 0x10000000000000 (-72) ∧ v.exactText = "9.5367431640625E-7" ∧
      readSigned "9.5367431640625E-7".toList = 2 ^ (-20 : ℤ) := by
  intro v
  have hv : v.unpack = .finite false 0x10000000000000 (-72) := by decide
  have htext : v.exactText = "9.5367431640625E-7" := by decide +kernel
  have hread := (Binary64.exactText_exact hv).2.1
  rw [htext] at hread
  refine ⟨hv, htext, hread.trans ?_⟩
  norm_num [Binary64.toRat]

end RoundingPatch
