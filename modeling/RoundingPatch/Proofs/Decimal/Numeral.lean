import Mathlib.Algebra.Order.Field.Power
import Mathlib.Data.Rat.Cast.Order
import RoundingPatch.Decimal.Notation
/-!
# Decimal numerals

What a text denotes that writes a number in decimal: digits with a point among them
(`Decimal.read`), perhaps with an exponent behind a mark (`Decimal.readScientific`) and a minus in
front (`Decimal.readSigned`). What is put together from digits, a point and an exponent is read that
way (`read_pointed`, `readScientific_marked`).
-/

namespace RoundingPatch.Decimal

/-- The point and digits behind it; no point without digits. -/
def pointed (fraction : List Char) : List Char :=
  if fraction = [] then [] else '.' :: fraction

/-- What a text denotes: the digits on both sides of its point as one number, moved back by the
digits behind the point. -/
def read (text : List Char) : ℚ :=
  let whole := text.takeWhile (· ≠ '.')
  let fraction := text.drop (whole.length + 1)
  Nat.ofDigitChars 10 (whole ++ fraction) 0 * 10 ^ (-(fraction.length : ℤ))

/-- What a text denotes that writes an integer. -/
def readInteger : List Char → ℤ
  | '-' :: digits => -(Nat.ofDigitChars 10 digits 0 : ℤ)
  | digits => Nat.ofDigitChars 10 digits 0

/-- What a text denotes that may have an exponent behind its digits. -/
def readScientific (text : List Char) : ℚ :=
  let coefficient := text.takeWhile (· ≠ 'E')
  read coefficient * 10 ^ readInteger (text.drop (coefficient.length + 1))

/-- What a text denotes that may have a minus in front. -/
def readSigned : List Char → ℚ
  | '-' :: text => -readScientific text
  | text => readScientific text

/-! ### Texts put together -/

variable {mark : Char} {front back whole fraction coefficient : List Char}

/-- What stands in front of the first mark. -/
theorem takeWhile_mark (h : mark ∉ front) (hback : ∀ c ∈ back.head?, c = mark) :
    (front ++ back).takeWhile (· ≠ mark) = front := by
  have hall : ∀ c ∈ front, decide (c ≠ mark) = true := fun c hc =>
    decide_eq_true fun heq => h (heq ▸ hc)
  rw [List.takeWhile_append_of_pos hall]
  cases back with
  | nil => simp
  | cons c back => simp [hback c rfl]

/-- Digits with a point read as the digits without it, scaled by what stands behind the point. -/
theorem read_pointed (h : '.' ∉ whole) :
    read (whole ++ pointed fraction)
      = Nat.ofDigitChars 10 (whole ++ fraction) 0 * 10 ^ (-(fraction.length : ℤ)) := by
  have hwhole : (whole ++ pointed fraction).takeWhile (· ≠ '.') = whole := by
    refine takeWhile_mark h ?_
    unfold pointed
    split <;> simp
  have hfraction : (whole ++ pointed fraction).drop (whole.length + 1) = fraction := by
    rw [← List.drop_drop, List.drop_left, pointed]
    split
    · next hnil => rw [hnil, List.drop_nil]
    · rfl
  rw [read, hwhole, hfraction]

/-- Integers are read as they are written. -/
theorem readInteger_toString (i : ℤ) : readInteger (toString i).toList = i := by
  cases i with
  | ofNat n =>
    have htext : (toString (Int.ofNat n)).toList = Nat.toDigits 10 n := by
      show (Nat.repr n).toList = _
      rw [Nat.repr_eq_ofList_toDigits, String.toList_ofList]
    rw [htext, readInteger]
    · rw [Nat.ofDigitChars_ten_toDigits]
      rfl
    · -- A minus is no digit.
      intro digits hdigits
      have hminus : '-' ∈ Nat.toDigits 10 n := hdigits ▸ List.mem_cons_self
      exact absurd (Nat.isDigit_of_mem_toDigits (by omega) (by omega) hminus) (by decide)
  | negSucc n =>
    have htext : (toString (Int.negSucc n)).toList = '-' :: Nat.toDigits 10 (n + 1) := by
      show ("-" ++ Nat.repr (n + 1)).toList = _
      rw [Nat.repr_eq_ofList_toDigits, String.toList_append]
      exact congrArg ('-' :: ·) String.toList_ofList
    rw [htext, readInteger, Nat.ofDigitChars_ten_toDigits]
    rfl

theorem readScientific_of_not_mem (h : 'E' ∉ coefficient) :
    readScientific coefficient = read coefficient := by
  have hcoefficient : coefficient.takeWhile (· ≠ 'E') = coefficient := by
    have hfront := @takeWhile_mark 'E' coefficient [] h (by simp)
    rwa [List.append_nil] at hfront
  have hexponent : coefficient.drop (coefficient.length + 1) = [] :=
    List.drop_eq_nil_of_le (by omega)
  -- No mark: the exponent's text is empty and reads as zero.
  rw [readScientific, hcoefficient, hexponent]
  show read coefficient * 10 ^ (0 : ℤ) = _
  rw [zpow_zero, mul_one]

/-- A coefficient with an exponent behind it is scaled by that power of ten. -/
theorem readScientific_marked (h : 'E' ∉ coefficient) (exponent : ℤ) :
    readScientific (coefficient ++ 'E' :: (toString exponent).toList)
      = read coefficient * 10 ^ exponent := by
  have hcoefficient : (coefficient ++ 'E' :: (toString exponent).toList).takeWhile (· ≠ 'E')
      = coefficient := takeWhile_mark h (by simp)
  rw [readScientific, hcoefficient, ← List.drop_drop, List.drop_left, List.drop_one, List.tail_cons,
    readInteger_toString]

/-- A text is read with the sign in front of it. -/
theorem readSigned_sign (h : front.head? ≠ some '-') (negative : Bool) :
    readSigned ((if negative then ['-'] else []) ++ front)
      = if negative then -readScientific front else readScientific front := by
  cases negative with
  | true => rfl
  | false =>
    show readSigned front = readScientific front
    rw [readSigned]
    rintro text rfl
    exact h rfl

end RoundingPatch.Decimal
