import Mathlib.Algebra.Order.Field.Power
import Mathlib.Data.Rat.Cast.Order
import Mathlib.Tactic.FieldSimp
import RoundingPatch.Proofs.Decimal.Digits
/-!
# The value of a digit list

The value of a list is the number that its digits denote, moved to its place. Zeros at the end do
not matter (`value_trim`), and cutting a list leaves the number in front of the cut, or one more
(`cut_spec`): a nine that would become a ten is cut off, and the digit before it goes up instead.
-/

namespace RoundingPatch.DigitList

open Digits

/-- The number that a digit list stands for. -/
def value (l : DigitList) : ℚ :=
  number l.significant * 10 ^ (l.decimalAt.toInt - l.count)

/-- The digits in use are digits. -/
structure Sound (l : DigitList) : Prop where
  valid : Valid l.significant
  count_le : l.count ≤ l.digits.length

variable {l : DigitList} {n : ℕ} {d : UInt8}

/-! ### Zeros at the end -/

/-- Trimming never counts more digits. -/
theorem trimmedCount_le (digits : Bytes) (n : ℕ) : trimmedCount digits n ≤ n := by
  fun_induction trimmedCount digits n with
  | case1 n hzero ih => omega
  | case2 n hother => exact le_rfl
  | case3 n hsmall => exact le_rfl

/-- Leaving out a zero makes a number ten times less. -/
theorem number_take_succ_of_zero {digits : Bytes} (h : digits[n]? = some zeroDigit) :
    number (digits.take (n + 1)) = 10 * number (digits.take n) := by
  rw [List.take_add_one, h, Option.toList_some, number_concat]
  rfl

/-- **Trimming keeps the value**: the zeros taken are made up for by the exponent. -/
theorem number_take_trimmedCount (digits : Bytes) (n : ℕ) (p : ℤ) :
    (number (digits.take (trimmedCount digits n)) : ℚ) * 10 ^ (p - trimmedCount digits n)
      = number (digits.take n) * 10 ^ (p - n) := by
  -- Each zero taken divides the number by ten and raises the exponent by one.
  fun_induction trimmedCount digits n with
  | case1 n hzero ih =>
    have hten : (10 : ℚ) ^ (p - (n + 1 : ℕ)) = 10 * 10 ^ (p - (n + 2 : ℕ)) := by
      rw [← zpow_one_add₀ (by norm_num)]
      congr 1
      omega
    rw [ih, number_take_succ_of_zero hzero, hten, Nat.cast_mul]
    generalize (10 : ℚ) ^ (p - (n + 2 : ℕ)) = unit
    ring
  | case2 n hother => rfl
  | case3 n hsmall => rfl

/-- **Zeros at the end** do not matter. -/
theorem value_trim : l.trim.value = l.value :=
  number_take_trimmedCount l.digits l.count l.decimalAt.toInt

/-- A sound list stays sound when trimmed. -/
theorem Sound.trim (h : l.Sound) : l.trim.Sound where
  valid := by
    intro d hd
    have hle := trimmedCount_le l.digits l.count
    refine h.valid d ?_
    have htake : l.trim.significant = l.significant.take (trimmedCount l.digits l.count) := by
      rw [significant, significant, List.take_take, Nat.min_eq_left hle]
      rfl
    rw [htake] at hd
    exact List.mem_of_mem_take hd
  count_le := (trimmedCount_le _ _).trans h.count_le

/-- A list that does not end in a zero stays as it is. -/
theorem trim_of_last (hlast : l.digits[l.count - 1]? ≠ some zeroDigit) : l.trim = l := by
  have hcount : trimmedCount l.digits l.count = l.count := by
    rcases hn : l.count with _ | _ | n
    · rw [trimmedCount]
      nofun
    · rw [trimmedCount]
      nofun
    · rw [hn] at hlast
      exact if_neg hlast
  rw [trim, hcount]

/-! ### One more -/

section AddOne

variable (hroom : l.decimalAt.toInt < 2 ^ 31 - 1)
include hroom

omit hroom in
/-- A carry out of the first digit leaves the digit one alone. -/
theorem significant_carryOut : l.carryOut.significant = [oneDigit] := by
  unfold carryOut significant
  cases l.digits <;> rfl

/-- A carry out moves the point by one. -/
theorem decimalAt_carryOut : l.carryOut.decimalAt.toInt = l.decimalAt.toInt + 1 := by
  have hlow := Int32.le_toInt l.decimalAt
  exact (Int32.toInt_add ..).trans (Int.bmod_eq_of_le (by simp; omega) (by simp; omega))

/-- **A carry out of the first digit** leaves a power of ten. -/
theorem value_carryOut : l.carryOut.value = 10 ^ l.decimalAt.toInt := by
  have hcount : l.carryOut.count = 1 := rfl
  have hone : number [oneDigit] = 1 := rfl
  rw [value, decimalAt_carryOut hroom, significant_carryOut, hone, hcount]
  push_cast
  rw [add_sub_cancel_right, one_mul]

omit hroom in
/-- A carry out leaves a sound list. -/
theorem sound_carryOut : l.carryOut.Sound where
  valid := by
    intro d hd
    rw [significant_carryOut, List.mem_singleton] at hd
    rw [hd]
    decide
  count_le := by
    unfold carryOut
    cases l.digits <;> simp

/-- **One more than the first `n` digits.** -/
theorem addOne_spec (hvalid : Valid (l.digits.take n)) (hn : n ≤ l.digits.length) :
    (l.addOne n).value = (number (l.digits.take n) + 1) * 10 ^ (l.decimalAt.toInt - n) ∧
      (l.addOne n).Sound := by
  -- Digit by digit from the back: the carry goes on to shorter digits of another list.
  induction n generalizing l with
  | zero =>
    rw [addOne, value_carryOut hroom]
    exact ⟨by simp, sound_carryOut⟩
  | succ n ih =>
    have hlt : n < l.digits.length := hn
    obtain ⟨d, hd⟩ : ∃ d, l.digits[n]? = some d := ⟨_, List.getElem?_eq_getElem hlt⟩
    have htake : l.digits.take (n + 1) = l.digits.take n ++ [d] := by
      rw [List.take_add_one, hd, Option.toList_some]
    have hset : (l.digits.set n (d + 1)).take (n + 1) = l.digits.take n ++ [d + 1] := by
      rw [List.take_add_one, List.getElem?_set_self hlt, Option.toList_some,
        List.take_set_of_le (Nat.le_refl n)]
    rw [htake] at hvalid
    obtain ⟨hdlow, hdhigh⟩ := hvalid d (by simp)
    have hfront : Valid (l.digits.take n) := fun c hc => hvalid c (List.mem_append_left _ hc)
    have hsucc : (d + 1).toNat = d.toNat + 1 := by
      rw [UInt8.toNat_add]
      exact Nat.mod_eq_of_lt (by simp; omega)
    have hten : (10 : ℚ) ^ (l.decimalAt.toInt - n)
        = 10 * 10 ^ (l.decimalAt.toInt - (n + 1 : ℕ)) := by
      rw [← zpow_one_add₀ (by norm_num)]
      congr 1
      omega
    rw [addOne, hd, Option.getD_some]
    dsimp only
    by_cases hnine : d + 1 ≤ nineDigit
    · have hbound : (d + 1).toNat ≤ 57 := UInt8.le_iff_toNat_le.mp hnine
      rw [if_pos hnine]
      refine ⟨?_, ?_, by simpa using hn⟩
      · have hnumber :
            number (l.digits.take n ++ [d + 1]) = number (l.digits.take (n + 1)) + 1 := by
          rw [htake, number_concat, number_concat]
          omega
        rw [value, significant, hset, hnumber]
        push_cast
        rfl
      · rw [significant, hset]
        refine hfront.append fun c hc => ?_
        rw [List.mem_singleton.mp hc]
        omega
    · -- The nine becomes a zero that is cut off.
      have hbound : ¬ (d + 1).toNat ≤ 57 := fun hle => hnine (UInt8.le_iff_toNat_le.mpr hle)
      have hsame : (l.digits.set n (d + 1)).take n = l.digits.take n :=
        List.take_set_of_le (Nat.le_refl n)
      rw [if_neg hnine]
      obtain ⟨hvalue, hsound⟩ := @ih { l with digits := l.digits.set n (d + 1) } hroom
        (by rw [hsame]; exact hfront) (by simpa using Nat.le_of_lt hlt)
      refine ⟨hvalue.trans ?_, hsound⟩
      have hnumber : number (l.digits.take (n + 1)) = 10 * number (l.digits.take n) + 9 := by
        rw [htake, number_concat]
        omega
      dsimp only
      rw [hsame, hnumber, hten]
      generalize (10 : ℚ) ^ (l.decimalAt.toInt - (n + 1 : ℕ)) = unit
      push_cast
      ring

/-- **What a cut leaves**: the number in front of it, or one more. -/
theorem cut_spec (hvalid : Valid (l.digits.take n)) (hn : n ≤ l.digits.length) (up : Bool) :
    (l.cut n up).value
        = (number (l.digits.take n) + up.toNat) * 10 ^ (l.decimalAt.toInt - n) ∧
      (l.cut n up).Sound := by
  unfold cut
  rw [value_trim]
  cases up with
  | true =>
    obtain ⟨hvalue, hsound⟩ := addOne_spec hroom hvalid hn
    refine ⟨?_, hsound.trim⟩
    rw [if_pos rfl, hvalue]
    simp
  | false =>
    rw [if_neg Bool.false_ne_true]
    refine ⟨?_, Sound.trim ⟨hvalid, hn⟩⟩
    rw [value, significant]
    simp

end AddOne

end RoundingPatch.DigitList
