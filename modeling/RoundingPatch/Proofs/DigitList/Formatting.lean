import Mathlib.Data.Nat.Bitwise
import RoundingPatch.DigitList.NumberFormat
import RoundingPatch.Proofs.Decimal.Numeral
import RoundingPatch.Proofs.DigitList.Truncation
/-!
# Numbers as text

A number format writes a rounded digit list out. Read as a decimal number, without the sign and the
commas, the text denotes the value of the list (`Decimal.read`); and it looks as people write
numbers (`IsNumeral`): no zero too many in front or at the end, a point only with digits behind it,
and commas where groups of three digits start.

A list that is rounded to `m` places is a multiple of `10 ^ -m`. Its last digit is not zero, so no
digit stands behind place `m` (`IsPrintable.count_le`), and the text leaves none out.
-/

namespace RoundingPatch

/-! ### Numerals -/

namespace Decimal

/-- A text without its commas. -/
def uncommaed (text : List Char) : List Char :=
  text.filter (· ≠ ',')

/-- Digits before the point, with a comma in front of every group of three, counted from the point.
-/
structure IsGrouped (commas : Bool) (whole : List Char) : Prop where
  first : whole.head? ≠ some ','
  comma : ∀ i (h : i < whole.length),
    whole[i] = ',' ↔ commas = true ∧ (whole.length - i) % 4 = 0

/-- What stands before and behind the point of a number that people read. -/
structure IsNumeral (commas : Bool) (places : ℕ) (whole fraction : List Char) : Prop where
  digits : ∀ c ∈ uncommaed whole ++ fraction, c.isDigit = true
  nonempty : uncommaed whole ≠ []
  first : (uncommaed whole).head? = some '0' → uncommaed whole = ['0']
  grouped : IsGrouped commas whole
  places : fraction.length ≤ places
  last : fraction.getLast? ≠ some '0'

end Decimal

/-! ### Groups -/

namespace NumberFormat

open Decimal

variable {digits : List Char}

/-- Taking the separators out of a grouped text gives the digits back. -/
theorem uncommaed_grouped (h : ∀ c ∈ digits, c ≠ ',') : uncommaed (grouped digits) = digits := by
  unfold uncommaed
  induction digits with
  | nil => rfl
  | cons c rest ih =>
    obtain ⟨hc, hrest⟩ := List.forall_mem_cons.mp h
    rw [grouped]
    split <;> simpa [hc] using ih hrest

/-- Grouping adds a separator for each three digits behind the first. -/
theorem length_grouped (digits : List Char) :
    (grouped digits).length = digits.length + (digits.length - 1) / 3 := by
  induction digits with
  | nil => rfl
  | cons c rest ih =>
    rw [grouped]
    split
    · next hgroup =>
      have hpos := List.length_pos_iff.mpr hgroup.1
      have hmod : rest.length % 3 = 0 := hgroup.2
      simp only [List.length_cons, ih]
      omega
    · next hgroup =>
      simp only [List.length_cons, ih]
      -- No separator here: either the digits end, or the rest is no multiple of three long.
      by_cases hnil : rest = []
      · rw [hnil]
        rfl
      · have hmod : rest.length % 3 ≠ 0 := fun hmod => hgroup ⟨hnil, hmod⟩
        omega

/-- **Commas stand in front of every group.** -/
theorem isGrouped_grouped (h : ∀ c ∈ digits, c ≠ ',') : IsGrouped true (grouped digits) := by
  induction digits with
  | nil => exact ⟨nofun, nofun⟩
  | cons c rest ih =>
    obtain ⟨hc, hrest⟩ := List.forall_mem_cons.mp h
    have ih := ih hrest
    have hlength := length_grouped (c :: rest)
    have hlengthRest := length_grouped rest
    rw [List.length_cons] at hlength
    rw [grouped] at hlength ⊢
    split
    · next hgroup =>
      rw [if_pos hgroup, List.length_cons, List.length_cons] at hlength
      have hpos := List.length_pos_iff.mpr hgroup.1
      have hmod : rest.length % 3 = 0 := hgroup.2
      refine ⟨by simpa using hc, fun i hi => ?_⟩
      -- The first digit, the comma behind it, and the rest.
      rcases i with _ | _ | i
      · simp only [List.getElem_cons_zero, List.length_cons, true_and, hc, false_iff]
        omega
      · simp only [List.getElem_cons_succ, List.getElem_cons_zero, List.length_cons,
          true_and, true_iff]
        omega
      · simp only [List.length_cons] at hi
        simpa [Nat.add_sub_add_right] using ih.comma i (by omega)
    · next hgroup =>
      rw [if_neg hgroup, List.length_cons] at hlength
      refine ⟨by simpa using hc, fun i hi => ?_⟩
      rcases i with _ | i
      · simp only [List.getElem_cons_zero, List.length_cons, true_and, hc, false_iff]
        omega
      · simp only [List.length_cons] at hi
        simpa [Nat.add_sub_add_right] using ih.comma i (by omega)

/-- Without groups there are no commas. -/
theorem isGrouped_of_not_mem (h : ∀ c ∈ digits, c ≠ ',') : IsGrouped false digits where
  first := fun hhead => h _ (List.mem_of_mem_head? hhead) rfl
  comma := fun i hi => by
    simp only [Bool.false_eq_true, false_and, iff_false]
    exact h _ (List.getElem_mem hi)

end NumberFormat

/-! ### Digits as characters -/

namespace Digits

variable {digits : Bytes}

/-- The digits as characters. -/
def chars (digits : Bytes) : List Char :=
  digits.map fun d => Char.ofNat d.toNat

theorem toNat_chars {d : UInt8} (h : 48 ≤ d.toNat ∧ d.toNat ≤ 57) :
    (Char.ofNat d.toNat).toNat = d.toNat := by
  have hvalid : d.toNat.isValidChar := .inl (by omega)
  rw [Char.ofNat, dif_pos hvalid]
  rfl

/-- The characters of valid digits are decimal digits. -/
theorem isDigit_chars (h : Valid digits) : ∀ c ∈ chars digits, c.isDigit = true := by
  intro c hc
  obtain ⟨d, hd, rfl⟩ := List.mem_map.mp hc
  have hchar := toNat_chars (h d hd)
  have hd := h d hd
  rw [← hchar] at hd
  simpa [Char.isDigit, UInt32.le_iff_toNat_le] using hd

/-- **Digits as characters** denote the same number. -/
theorem ofDigitChars_chars (h : Valid digits) :
    Nat.ofDigitChars 10 (chars digits) 0 = number digits := by
  rw [number, chars, Nat.ofDigitChars_eq_foldl, List.foldl_map]
  refine List.foldl_ext _ _ _ fun n d hd => ?_
  rw [toNat_chars (h d hd)]
  rfl

theorem chars_append (front back : Bytes) : chars (front ++ back) = chars front ++ chars back :=
  List.map_append

theorem chars_zeros (n : ℕ) :
    chars (List.replicate n DigitList.zeroDigit) = List.replicate n '0' :=
  List.map_replicate

theorem valid_zeros (n : ℕ) : Valid (List.replicate n DigitList.zeroDigit) := by
  intro d hd
  rw [List.eq_of_mem_replicate hd]
  decide

theorem number_zeros (n : ℕ) : number (List.replicate n DigitList.zeroDigit) = 0 := by
  by_contra h
  obtain ⟨d, hd, hne⟩ := (number_pos (valid_zeros n)).mp (Nat.pos_of_ne_zero h)
  exact hne (List.eq_of_mem_replicate hd)

/-- A character is a zero only if its digit is. -/
theorem char_eq_zero {d : UInt8} (h : 48 ≤ d.toNat ∧ d.toNat ≤ 57) :
    Char.ofNat d.toNat = '0' ↔ d = DigitList.zeroDigit := by
  rw [← UInt8.toNat_inj, ← Char.toNat_inj, toNat_chars h]
  rfl

end Digits

/-! ### Lists that can be written out -/

namespace DigitList

open Digits

variable {r : DigitList} {places : ℕ}

/-- A list in normal form without digits behind a place, and nothing in front of the point if it has
no digits. -/
structure IsPrintable (places : ℕ) (r : DigitList) : Prop where
  normal : r.IsNormal
  point : -400 ≤ r.decimalAt.toInt ∧ r.decimalAt.toInt ≤ 400
  multiple : ∃ k : ℤ, r.value = k * 10 ^ (-(places : ℤ))
  nothing : r.count = 0 → r.decimalAt.toInt ≤ 0

theorem length_significant (h : r.Sound) : r.significant.length = r.count :=
  List.length_take_of_le h.count_le

/-- **No digit stands behind the last place**, for the last one is not zero. -/
theorem IsPrintable.count_le (h : r.IsPrintable places) (hpos : r.count ≠ 0) :
    (r.count : ℤ) ≤ places + r.decimalAt.toInt := by
  by_contra hlt
  obtain ⟨k, hk⟩ := h.multiple
  have hlength := length_significant h.normal.sound
  rcases List.eq_nil_or_concat r.significant with hnil | ⟨front, d, hdigits⟩
  · rw [hnil] at hlength
    exact hpos hlength.symm
  rw [List.concat_eq_append] at hdigits
  have hvalid := h.normal.sound.valid
  have hlast := h.normal.last
  rw [hdigits] at hvalid hlast
  have hmod := number_mod_ten hvalid
  have hd := (hvalid d (by simp)).1
  have hne : d.toNat ≠ 48 := fun heq => hlast (by
    rw [List.getLast?_concat]
    exact congrArg some (UInt8.toNat_inj.mp heq))
  -- The digits denote a multiple of ten if the last of them stands behind the place.
  obtain ⟨e, he⟩ := Int.eq_ofNat_of_zero_le
    (show 0 ≤ (r.count : ℤ) - r.decimalAt.toInt - places - 1 by omega)
  have hnumber : (number r.significant : ℚ) = ((k * 10 ^ e * 10 : ℤ) : ℚ) := by
    have hunit : (10 : ℚ) ^ (-(places : ℤ))
        = 10 ^ e * 10 * 10 ^ (r.decimalAt.toInt - r.count) := by
      rw [← zpow_natCast (10 : ℚ) e, ← zpow_add_one₀ (by norm_num), ← zpow_add₀ (by norm_num)]
      congr 1
      omega
    rw [value, hunit, ← mul_assoc] at hk
    have hcancel := mul_right_cancel₀ (by positivity) hk
    rw [hcancel]
    push_cast
    ring
  have hnumber : (number r.significant : ℤ) = k * 10 ^ e * 10 := by exact_mod_cast hnumber
  rw [hdigits] at hnumber
  omega

/-- The digits before the point. -/
def wholeDigits (r : DigitList) : Bytes :=
  if r.decimalAt.toInt ≤ 0 then [zeroDigit]
  else r.significant.take r.decimalAt.toInt.toNat
    ++ List.replicate (r.decimalAt.toInt.toNat - r.count) zeroDigit

/-- The digits behind the point. -/
def fractionDigits (r : DigitList) : Bytes :=
  if (r.count : ℤ) ≤ max r.decimalAt.toInt 0 then []
  else List.replicate (-r.decimalAt.toInt).toNat zeroDigit
    ++ r.significant.drop r.decimalAt.toInt.toNat

/-- A sound list prints digits before the point. -/
theorem valid_wholeDigits (h : r.Sound) : Valid r.wholeDigits := by
  unfold wholeDigits
  split
  · exact valid_zeros 1
  · exact (h.valid.take _).append (valid_zeros _)

/-- A sound list prints digits behind the point. -/
theorem valid_fractionDigits (h : r.Sound) : Valid r.fractionDigits := by
  unfold fractionDigits
  split
  · nofun
  · exact (valid_zeros _).append (h.valid.drop _)

/-- Before the point there is always a digit to print. -/
theorem wholeDigits_ne_nil (h : r.Sound) : r.wholeDigits ≠ [] := by
  have hlength := length_significant h
  unfold wholeDigits
  split
  · nofun
  · next hpos =>
    intro hnil
    have hnone := congrArg List.length hnil
    rw [List.length_append, List.length_take, List.length_replicate, hlength,
      List.length_nil] at hnone
    omega

/-- **The digits on both sides of the point** denote the value of the list. -/
theorem number_wholeDigits (h : r.Sound) :
    (number (r.wholeDigits ++ r.fractionDigits) : ℚ) * 10 ^ (-(r.fractionDigits.length : ℤ))
      = r.value := by
  have hlength := length_significant h
  have hzero : number [zeroDigit] = 0 := rfl
  unfold wholeDigits fractionDigits value
  -- The point stands in front of the digits, behind them, or among them; zeros fill the gap.
  split
  · next hpoint =>
    have hnat : r.decimalAt.toInt.toNat = 0 := by omega
    rw [max_eq_right hpoint, hnat, List.drop_zero]
    split
    · next hnone =>
      have hcount : r.significant = [] := List.length_eq_zero_iff.mp (by omega)
      rw [hcount]
      simp [hzero]
    · next hsome =>
      rw [number_append, number_append, hzero, number_zeros, List.length_append,
        List.length_replicate, hlength, Nat.zero_mul, Nat.zero_add, Nat.zero_mul, Nat.zero_add]
      congr 2
      omega
  · next hpoint =>
    rw [max_eq_left (by omega)]
    split
    · next hwhole =>
      have htake : r.significant.take r.decimalAt.toInt.toNat = r.significant :=
        List.take_of_length_le (by omega)
      rw [htake, List.append_nil, number_append, number_zeros, List.length_replicate, Nat.add_zero]
      push_cast
      rw [List.length_nil, Nat.cast_zero, neg_zero, zpow_zero, mul_one, ← zpow_natCast]
      congr 2
      omega
    · next hfraction =>
      have hback : r.decimalAt.toInt.toNat - r.count = 0 := by omega
      have hfront : (-r.decimalAt.toInt).toNat = 0 := by omega
      rw [hback, hfront, List.replicate_zero, List.append_nil, List.nil_append,
        List.take_append_drop, List.length_drop, hlength]
      congr 2
      omega

/-- There is a zero in front only if nothing else is. -/
theorem head?_wholeDigits (h : r.IsPrintable places)
    (hzero : r.wholeDigits.head? = some zeroDigit) :
    r.wholeDigits = [zeroDigit] := by
  have hlength := length_significant h.normal.sound
  have hfirst := h.normal.first
  have hnothing := h.nothing
  unfold wholeDigits at hzero ⊢
  split
  · rfl
  · next hpoint =>
    rw [if_neg hpoint] at hzero
    cases hdigits : r.significant with
    | nil =>
      rw [hdigits] at hlength
      exact absurd (hnothing hlength.symm) hpoint
    | cons d rest =>
      obtain ⟨n, hn⟩ : ∃ n, r.decimalAt.toInt.toNat = n + 1 :=
        Nat.exists_eq_succ_of_ne_zero (by omega)
      -- The first digit of a normal list is not zero, so only the lone zero is left.
      rw [hdigits, hn] at hzero
      rw [hdigits] at hfirst
      exact absurd hzero hfirst

/-- There is no zero at the end. -/
theorem getLast?_fractionDigits (h : r.IsPrintable places) :
    r.fractionDigits.getLast? ≠ some zeroDigit := by
  have hlength := length_significant h.normal.sound
  unfold fractionDigits
  split
  · nofun
  · next hsome =>
    have hdrop : ¬ r.significant.length ≤ r.decimalAt.toInt.toNat := by omega
    have hlast : r.significant.getLast? ≠ none := fun hnone => by
      rw [List.getLast?_eq_none_iff.mp hnone] at hdrop
      exact hdrop (Nat.zero_le _)
    -- The last fraction digit is the last digit of the list, which is normal.
    rw [List.getLast?_append, List.getLast?_drop, if_neg hdrop, Option.or_of_isSome
      (Option.isSome_iff_ne_none.mpr hlast)]
    exact h.normal.last

/-- No digit is left out. -/
theorem length_fractionDigits (h : r.IsPrintable places) : r.fractionDigits.length ≤ places := by
  have hlength := length_significant h.normal.sound
  unfold fractionDigits
  split
  · exact Nat.zero_le _
  · next hsome =>
    have hle := h.count_le (by omega)
    rw [List.length_append, List.length_replicate, List.length_drop, hlength]
    omega

end DigitList

/-! ### The text of a list -/

namespace NumberFormat

open Decimal Digits DigitList

variable {f : NumberFormat} {r : DigitList}

/-- **The text before the point** is that of the whole digits, padded with zeros up to the point. -/
theorem integerDigits_eq (h : r.Sound) : integerDigits r = chars r.wholeDigits := by
  have hlength : (digitChars r).length = r.count := (List.length_map _).trans (length_significant h)
  have hnat := r.decimalAt.toNat_toInt
  unfold integerDigits wholeDigits
  dsimp only
  rw [List.length_take, hlength, ← hnat]
  split
  · next hzero =>
    rw [if_pos (by omega)]
    rfl
  · next hpos =>
    rw [if_neg (by omega), chars_append, chars_zeros, chars, List.map_take]
    congr 2
    omega

/-- **The text behind the point** is that of the fraction digits, with no point where there are
none. -/
theorem fractionPart_eq (h : r.IsPrintable f.maximumFractionDigits.toNatClampNeg) :
    f.fractionPart r = pointed (chars r.fractionDigits) := by
  have hlength : (digitChars r).length = r.count :=
    (List.length_map _).trans (length_significant h.normal.sound)
  have hneg : (-r.decimalAt).toInt = -r.decimalAt.toInt := by
    have hpoint := h.point
    rw [Int32.toInt_neg]
    exact Int.bmod_eq_of_le (by omega) (by omega)
  have hplaces := length_fractionDigits h
  unfold fractionPart
  rw [← r.decimalAt.toNat_toInt, ← (-r.decimalAt).toNat_toInt, hneg]
  unfold fractionDigits at hplaces ⊢
  split
  · next hnone =>
    have hle := List.drop_eq_nil_iff.mp hnone
    rw [if_pos (by omega)]
    rfl
  · next hsome =>
    have hlt : ¬ (digitChars r).length ≤ r.decimalAt.toInt.toNat := fun hle =>
      hsome (List.drop_eq_nil_iff.mpr hle)
    rw [if_neg (by omega)] at hplaces ⊢
    -- The zeros and digits are those of the fraction, and none of them is cut off.
    have hchars : chars (List.replicate (-r.decimalAt.toInt).toNat zeroDigit
        ++ r.significant.drop r.decimalAt.toInt.toNat)
        = List.replicate (-r.decimalAt.toInt).toNat '0'
          ++ (digitChars r).drop r.decimalAt.toInt.toNat := by
      rw [chars_append, chars_zeros, chars, List.map_drop]
      rfl
    have hkept := hplaces
    rw [← List.length_map (f := fun d : UInt8 => Char.ofNat d.toNat), ← chars, hchars] at hkept
    rw [hchars, pointed, if_neg (List.append_ne_nil_of_right_ne_nil _ hsome),
      List.take_of_length_le hkept]

/-- What a text says about the list it shows: it is a numeral behind a minus or not, and without the
commas it denotes the value of the list. -/
def Shows (f : NumberFormat) (negative : Bool) (r : DigitList) (text : String) : Prop :=
  ∃ whole fraction : List Char,
    text.toList = (if negative then ['-'] else []) ++ (whole ++ pointed fraction) ∧
    IsNumeral f.grouping f.maximumFractionDigits.toNatClampNeg whole fraction ∧
    Decimal.read (uncommaed (whole ++ pointed fraction)) = r.value

/-- A digit is neither a comma nor the point. -/
theorem ne_of_isDigit {c : Char} (h : c.isDigit = true) : c ≠ ',' ∧ c ≠ '.' := by
  constructor <;> rintro rfl <;> exact absurd h (by decide)

theorem uncommaed_of_digits {digits : List Char} (h : ∀ c ∈ digits, c.isDigit = true) :
    uncommaed digits = digits :=
  List.filter_eq_self.mpr fun c hc => decide_eq_true (ne_of_isDigit (h c hc)).1

theorem uncommaed_pointed {fraction : List Char} (h : ∀ c ∈ fraction, c.isDigit = true) :
    uncommaed (pointed fraction) = pointed fraction := by
  have hfraction := uncommaed_of_digits h
  unfold uncommaed at hfraction ⊢
  unfold pointed
  split
  · rfl
  · rw [List.filter_cons_of_pos (by decide), hfraction]

/-- Digits without a zero at the end are shown without one. -/
theorem getLast?_chars {digits : Bytes} (h : Valid digits)
    (hlast : digits.getLast? ≠ some zeroDigit) :
    (chars digits).getLast? ≠ some '0' := by
  intro hzero
  rw [chars, List.getLast?_map, Option.map_eq_some_iff] at hzero
  obtain ⟨d, hd, hchar⟩ := hzero
  rw [char_eq_zero (h d (List.mem_of_mem_getLast? hd))] at hchar
  exact hlast (hchar ▸ hd)

/-- **The text of a list** shows it. -/
theorem shows_text (h : r.IsPrintable f.maximumFractionDigits.toNatClampNeg) (negative : Bool) :
    f.Shows negative r (Decimal.signed negative (f.text r)) := by
  have hsound := h.normal.sound
  have hwhole := isDigit_chars (valid_wholeDigits hsound)
  have hfraction := isDigit_chars (valid_fractionDigits hsound)
  have hcommas : ∀ c ∈ chars r.wholeDigits, c ≠ ',' := fun c hc => (ne_of_isDigit (hwhole c hc)).1
  -- With grouping or without, the digits in front of the point are the same but for the commas.
  obtain ⟨whole, htext, huncommaed, hgrouped⟩ : ∃ whole,
      f.text r = whole ++ pointed (chars r.fractionDigits) ∧
        uncommaed whole = chars r.wholeDigits ∧ IsGrouped f.grouping whole := by
    rw [text, integerDigits_eq hsound, fractionPart_eq h]
    cases f.grouping with
    | true => exact ⟨_, rfl, uncommaed_grouped hcommas, isGrouped_grouped hcommas⟩
    | false => exact ⟨_, rfl, uncommaed_of_digits hwhole, isGrouped_of_not_mem hcommas⟩
  refine ⟨whole, chars r.fractionDigits, ?_, ?_, ?_⟩
  · rw [Decimal.signed, String.toList_ofList, htext]
    cases negative <;> rfl
  · refine ⟨?_, ?_, fun hzero => ?_, hgrouped, ?_,
      getLast?_chars (valid_fractionDigits hsound) (getLast?_fractionDigits h)⟩
    · rw [huncommaed]
      exact fun c hc => (List.mem_append.mp hc).elim (hwhole c) (hfraction c)
    · rw [huncommaed, chars, ne_eq, List.map_eq_nil_iff]
      exact wholeDigits_ne_nil hsound
    · rw [huncommaed] at hzero ⊢
      rw [chars, List.head?_map, Option.map_eq_some_iff] at hzero
      obtain ⟨d, hd, hchar⟩ := hzero
      rw [char_eq_zero (valid_wholeDigits hsound d (List.mem_of_mem_head? hd))] at hchar
      rw [head?_wholeDigits h (hchar ▸ hd)]
      rfl
    · rw [chars, List.length_map]
      exact length_fractionDigits h
  · have hsplit : uncommaed (whole ++ pointed (chars r.fractionDigits))
        = chars r.wholeDigits ++ pointed (chars r.fractionDigits) := by
      rw [uncommaed, List.filter_append]
      exact congrArg₂ _ huncommaed (uncommaed_pointed hfraction)
    have hvalid := (valid_wholeDigits hsound).append (valid_fractionDigits hsound)
    rw [hsplit, read_pointed fun hmem => (ne_of_isDigit (hwhole _ hmem)).2 rfl, ← chars_append,
      ofDigitChars_chars hvalid, ← number_wholeDigits hsound, chars, List.length_map]

end NumberFormat

/-! ### Numbers without a sign -/

namespace Binary64

variable {v : Binary64}

theorem toNat_abs : v.abs.bits.toNat = v.bits.toNat % 2 ^ 63 := by
  rw [abs, UInt64.toNat_and, show (~~~signBit).toNat = 2 ^ 63 - 1 from rfl,
    Nat.and_two_pow_sub_one_eq_mod]

theorem isNegative_eq : v.isNegative = v.bits.toNat.testBit 63 := by
  have hand : (v.bits &&& signBit).toNat = (v.bits.toNat.testBit 63).toNat * 2 ^ 63 := by
    rw [UInt64.toNat_and, show signBit.toNat = 2 ^ 63 from rfl, Nat.and_two_pow]
  rw [isNegative, Bool.eq_iff_iff, bne_iff_ne, ne_eq, ← UInt64.toNat_inj, hand]
  cases v.bits.toNat.testBit 63 <;> simp

/-- **A number without its sign** has the same mantissa and exponent. -/
theorem unpack_abs {sign : Bool} {mantissa : ℕ} {exponent : ℤ}
    (hv : v.unpack = .finite sign mantissa exponent) :
    v.isNegative = sign ∧ v.abs.unpack = .finite false mantissa exponent := by
  have hfull : BinaryFormat.binary64.fullMantissa = 2 ^ 52 := rfl
  have hexponents : Nat.pow 2 BinaryFormat.binary64.exponentBits = 2048 := rfl
  have hsign : BinaryFormat.binary64.fractionBits + BinaryFormat.binary64.exponentBits = 63 := rfl
  have hfraction : v.bits.toNat % 2 ^ 63 % 2 ^ 52 = v.bits.toNat % 2 ^ 52 := by omega
  have hbiased : v.bits.toNat % 2 ^ 63 / 2 ^ 52 % 2048 = v.bits.toNat / 2 ^ 52 % 2048 := by omega
  have hfalse : (v.bits.toNat % 2 ^ 63).testBit 63 = false :=
    Nat.testBit_lt_two_pow (Nat.mod_lt _ (by omega))
  unfold unpack BinaryFormat.unpack at hv ⊢
  rw [toNat_abs, isNegative_eq]
  simp only [hfull, hexponents, hsign, hfraction, hbiased, hfalse] at hv ⊢
  -- Clearing the sign bit changes neither the exponent's bits nor the fraction's.
  split at hv
  · split at hv <;> cases hv
  · next hfinite =>
    rw [if_neg hfinite]
    split at hv
    · next hsmall =>
      cases hv
      exact ⟨rfl, if_pos hsmall⟩
    · next hlarge =>
      cases hv
      exact ⟨rfl, if_neg hlarge⟩

end Binary64

/-! ### What rounding leaves for the text -/

namespace Digits

/-- Digits without a zero in front denote a number with as many digits. -/
theorem pow_le_number {digits : Bytes} (hvalid : Valid digits) (hne : digits ≠ [])
    (hfirst : digits.head? ≠ some DigitList.zeroDigit) :
    10 ^ (digits.length - 1) ≤ number digits := by
  cases digits with
  | nil => exact absurd rfl hne
  | cons d rest =>
    have hd := (hvalid d (by simp)).1
    have hzero : d.toNat ≠ 48 := fun heq => hfirst (congrArg some (UInt8.toNat_inj.mp heq))
    rw [number_cons, List.length_cons, Nat.add_sub_cancel]
    calc 10 ^ rest.length = 1 * 10 ^ rest.length := (Nat.one_mul _).symm
      _ ≤ (d.toNat - 48) * 10 ^ rest.length := Nat.mul_le_mul_right _ (by omega)
      _ ≤ _ := Nat.le_add_right _ _

end Digits

/-- A number is at least what its first digit alone denotes. -/
theorem ShortestDigits.zpow_le_toRat {s : ShortestDigits} {x : ℚ} (hs : s.Sound x)
    (hfirst : s.digits.head? ≠ some DigitList.zeroDigit) :
    (10 : ℚ) ^ (s.decimalAt.toInt - 1) ≤ s.toRat := by
  have hlength := List.length_pos_iff.mpr hs.nonempty
  have hnumber : ((10 ^ (s.digits.length - 1) : ℕ) : ℚ) ≤ Digits.number s.digits := by
    exact_mod_cast Digits.pow_le_number hs.valid hs.nonempty hfirst
  calc (10 : ℚ) ^ (s.decimalAt.toInt - 1)
      = ((10 ^ (s.digits.length - 1) : ℕ) : ℚ) * 10 ^ (s.decimalAt.toInt - s.digits.length) := by
        push_cast
        rw [← zpow_natCast, ← zpow_add₀ (by norm_num)]
        congr 1
        omega
    _ ≤ s.toRat := mul_le_mul_of_nonneg_right hnumber (by positivity)

namespace DigitList

open Digits

variable {l r : DigitList} {s : ShortestDigits} {v : Binary64} {m : Int32} {places : ℕ}

/-- A number that is nothing in units of a place behind the point has no digits in front of it. -/
theorem decimalAt_of_floorTo {sign : Bool} {mantissa : ℕ} {exponent : ℤ}
    (hv : v.unpack = .finite sign mantissa exponent)
    (hnothing : floorTo (10 ^ (-(places : ℤ))) (ShortestDigits.of v).toRat = 0) :
    (ShortestDigits.of v).decimalAt.toInt ≤ 0 := by
  by_cases hzero : mantissa = 0
  · subst hzero
    rw [ShortestDigits.of_zero hv]
    decide
  · have hs := (ShortestDigits.sound_of hv hzero).1
    have hfirst := ShortestDigits.head?_of hv hzero
    generalize ShortestDigits.of v = s at *
    -- A point behind the first digit makes the digits at least one, and one is a multiple of the
    -- unit.
    by_contra hpoint
    have hunit : (0 : ℚ) < 10 ^ (-(places : ℤ)) := by positivity
    have hle : (10 : ℚ) ^ (-(places : ℤ)) ≤ s.toRat :=
      (zpow_le_zpow_right₀ (by norm_num) (by omega)).trans (ShortestDigits.zpow_le_toRat hs hfirst)
    have hfloor : 1 ≤ ⌊s.toRat / 10 ^ (-(places : ℤ))⌋ :=
      Int.le_floor.mpr (by rw [Int.cast_one]; exact (one_le_div hunit).mpr hle)
    rcases mul_eq_zero.mp hnothing with hnone | hnone
    · rw [Int.cast_eq_zero] at hnone
      omega
    · exact hunit.ne' hnone

/-- A list that comes out of rounding is some units of the last place, and one more if it went up.
-/
theorem Truncates.exists_isRounded {isNegative : Bool} {rounding : Rounding} {σ : Type}
    {ask : RoundingQuestion → ExceptT Fault (StateM σ) Bool} {t t' : σ}
    (h : l.Truncates s isNegative m true rounding) (hr : Yields (rounding.resolve ask) t r t') :
    ∃ up x, r.IsRounded s up x ∧
      x = floorTo (10 ^ (-m.toInt)) s.toRat + if up then 10 ^ (-m.toInt) else 0 := by
  cases h with
  | settled whole h =>
    obtain ⟨rfl, -⟩ := yields_pure.mp hr
    exact ⟨false, _, h, by rw [← h.value, whole rfl]; simp⟩
  | asks about h =>
    obtain ⟨up, -, rfl⟩ := yields_map.mp hr
    exact ⟨up, _, h up, rfl⟩

/-- **A list that comes out of rounding** to places behind the point can be written out. -/
theorem Truncates.isPrintable {isNegative : Bool} {rounding : Rounding} {σ : Type}
    {ask : RoundingQuestion → ExceptT Fault (StateM σ) Bool} {t t' : σ}
    (h : l.Truncates s isNegative m true rounding) (hm : m.toInt = places)
    (hpoint : -400 < s.decimalAt.toInt ∧ s.decimalAt.toInt < 400)
    (hnothing : floorTo (10 ^ (-(places : ℤ))) s.toRat = 0 → s.decimalAt.toInt ≤ 0)
    (hr : Yields (rounding.resolve ask) t r t') : r.IsPrintable places := by
  have hunit : (0 : ℚ) < 10 ^ (-(places : ℤ)) := by positivity
  obtain ⟨up, x, hrounded, hx⟩ := h.exists_isRounded hr
  rw [hm] at hx
  have hvalue := hrounded.value.trans hx
  have hpoints := hrounded.point
  refine ⟨hrounded.normal, by omega, ?_, fun hcount => ?_⟩
  · refine ⟨⌊s.toRat / 10 ^ (-(places : ℤ))⌋ + if up then 1 else 0, ?_⟩
    rw [hvalue, floorTo]
    cases up
    · simp
    · simp [add_mul]
  · rw [value_of_count hcount] at hvalue
    -- No digit is left: either everything was cut off, or the cut was moved up and is not zero.
    cases up with
    | false =>
      have hdecimalAt := hnothing (by simpa using hvalue.symm)
      simp only [Bool.false_eq_true, false_and, or_false] at hpoints
      omega
    | true =>
      have hfloor : 0 ≤ floorTo (10 ^ (-(places : ℤ))) s.toRat :=
        mul_nonneg (by exact_mod_cast Int.floor_nonneg.mpr (div_nonneg s.toRat_nonneg hunit.le))
          hunit.le
      rw [if_pos rfl] at hvalue
      linarith

end DigitList

/-! ### Formatting -/

namespace NumberFormat

open DigitList

variable {σ : Type} {v : Binary64}

theorem toInt_max_zero (p : Int32) : (max p 0).toInt = p.toNatClampNeg := by
  rw [← Int32.toNat_toInt, show max p 0 = if p ≤ 0 then 0 else p from rfl]
  split <;> rename_i h <;> rw [Int32.le_iff_toInt_le, Int32.toInt_zero] at h
  · rw [Int32.toInt_zero]
    omega
  · omega

/-- **A finite double is formatted** by rounding its digits and showing the result under the
sign. -/
theorem format_eq (f : NumberFormat) {sign : Bool} {mantissa : ℕ} {exponent : ℤ}
    (hv : v.unpack = .finite sign mantissa exponent)
    (ask : RoundingQuestion → ExceptT Fault (StateM σ) Bool) :
    let l : DigitList := { roundingMode := f.roundingMode }
    f.format ask v =
      ((l.set v.isNegative v.abs (max f.maximumFractionDigits 0) true).resolve ask >>=
        fun r => pure (Decimal.signed v.isNegative (f.text r))) := by
  intro l
  unfold format
  rw [hv]

/-- The text of the list that rounding leads to. -/
theorem exists_text (f : NumberFormat) {sign : Bool} {mantissa : ℕ} {exponent : ℤ}
    (hv : v.unpack = .finite sign mantissa exponent)
    (hlow : -2 ^ 31 ≤ (max f.maximumFractionDigits 0).toInt
      + (ShortestDigits.of v.abs).decimalAt.toInt)
    (hhigh : (max f.maximumFractionDigits 0).toInt
      + (ShortestDigits.of v.abs).decimalAt.toInt < 2 ^ 31)
    {ask : RoundingQuestion → ExceptT Fault (StateM σ) Bool} {t t' : σ} {r : DigitList}
    (hr : Yields ((({ roundingMode := f.roundingMode } : DigitList).set v.isNegative v.abs
      (max f.maximumFractionDigits 0) true).resolve ask) t r t') :
    ∃ text, Yields (f.format ask v) t text t' ∧ f.Shows sign r text := by
  obtain ⟨hsign, habs⟩ := Binary64.unpack_abs hv
  have hpoint := ShortestDigits.point_of habs
  -- What rounding gave is normal and ends at the last place, which is what printing relies on.
  have htruncates := set_truncates (l := { roundingMode := f.roundingMode }) v.isNegative habs
    fun _ : true = true => ⟨hlow, hhigh⟩
  have hprintable := htruncates.isPrintable (toInt_max_zero _) hpoint (decimalAt_of_floorTo habs) hr
  rw [format_eq f hv]
  refine ⟨_, yields_bind.mpr ⟨r, t', hr, yields_pure.mpr ⟨rfl, rfl⟩⟩, ?_⟩
  rw [hsign]
  exact shows_text hprintable sign

/-- **A format writes the rounded digits out.** Whoever decides about the digits, the text shows the
list that rounding leads to, with a minus in front of the numbers that have one. Where rounding
fails, formatting does. -/
theorem format_shows (f : NumberFormat) {sign : Bool} {mantissa : ℕ} {exponent : ℤ}
    (hv : v.unpack = .finite sign mantissa exponent)
    (hlow : -2 ^ 31 ≤ (max f.maximumFractionDigits 0).toInt
      + (ShortestDigits.of v.abs).decimalAt.toInt)
    (hhigh : (max f.maximumFractionDigits 0).toInt
      + (ShortestDigits.of v.abs).decimalAt.toInt < 2 ^ 31)
    (ask : RoundingQuestion → ExceptT Fault (StateM σ) Bool) (t t' : σ) :
    let l : DigitList := { roundingMode := f.roundingMode }
    let rounded := (l.set v.isNegative v.abs (max f.maximumFractionDigits 0) true).resolve ask
    (∀ r, Yields rounded t r t' → ∃ text, Yields (f.format ask v) t text t' ∧ f.Shows sign r text) ∧
      ∀ fault, Fails rounded t fault t' → Fails (f.format ask v) t fault t' := by
  intro l rounded
  refine ⟨fun r hr => exists_text f hv hlow hhigh hr, fun fault hfails => ?_⟩
  rw [format_eq f hv]
  exact fails_bind.mpr (.inl hfails)

/-- A thousand and an eighth below zero, with two places: the tie goes to the even digit, and the
text has a minus and a comma. -/
theorem format_shows_eighth :
    let f : NumberFormat := { maximumFractionDigits := 2 }
    let v : Binary64 := ⟨0xC08F410000000000⟩
    let l : DigitList := { roundingMode := .halfEven }
    let rounded := (l.set v.isNegative v.abs (max 2 0) true).resolve Oracle.ask
    let r : DigitList := ⟨[49, 48, 48, 48, 49, 50, 53], 6, 4, true, .halfEven⟩
    v.unpack = .finite true 0x1F410000000000 (-43) ∧ Yields rounded .reference r .reference ∧
      Yields (f.format Oracle.ask v) .reference "-1,000.12" .reference ∧
      f.Shows true r "-1,000.12" := by
  intro f v l rounded r
  have hv : v.unpack = .finite true 0x1F410000000000 (-43) := by decide
  have hpoint := ShortestDigits.point_of (Binary64.unpack_abs hv).2
  have hlow : -2 ^ 31 ≤ 2 + (ShortestDigits.of v.abs).decimalAt.toInt := by omega
  have hhigh : 2 + (ShortestDigits.of v.abs).decimalAt.toInt < 2 ^ 31 := by omega
  have hrounded : Yields rounded .reference r .reference := by
    dsimp only [rounded, l, v, r]
    rfl
  have hformat : Yields (f.format Oracle.ask v) .reference "-1,000.12" .reference := by
    dsimp only [f, v]
    rfl
  obtain ⟨text, htext, hshows⟩ :=
    (format_shows f hv hlow hhigh Oracle.ask .reference .reference).1 r hrounded
  obtain ⟨rfl, -⟩ := Yields.unique hformat htext
  exact ⟨hv, hrounded, hformat, hshows⟩

end NumberFormat

end RoundingPatch
