import Mathlib.Algebra.Order.Ring.Nat
import Mathlib.Data.List.Basic
import Mathlib.Data.List.Induction
import Mathlib.Tactic.Ring
import RoundingPatch.DigitList.Basic
import RoundingPatch.Proofs.Decimal.Limbs
/-!
# The number that digits denote

`number digits` is the number that ASCII digits denote. Digits after one another denote a sum
(`number_append`), and what they denote is less than the power of ten with as many zeros
(`number_lt`). The digits that are made of a number denote it again (`number_ofNat`), also in limbs
(`toNat_coefficient`).
-/

namespace RoundingPatch.Digits

/-- The number that some ASCII digits denote. -/
def number (digits : Bytes) : ℕ :=
  digits.foldl (fun n d => 10 * n + (d.toNat - 48)) 0

/-- All bytes are ASCII digits. -/
def Valid (digits : Bytes) : Prop :=
  ∀ d ∈ digits, 48 ≤ d.toNat ∧ d.toNat ≤ 57

/-- The digits of a number in decimal. -/
def ofNat (n : ℕ) : Bytes :=
  (Nat.toDigits 10 n).map fun c => UInt8.ofNat c.toNat

variable {front back digits : Bytes} {d : UInt8} {n : ℕ}

@[simp]
theorem number_nil : number [] = 0 := rfl

theorem number_concat : number (front ++ [d]) = 10 * number front + (d.toNat - 48) := by
  rw [number, List.foldl_append]
  rfl

/-- The digits in front are that many places further up. -/
theorem number_append : number (front ++ back) = number front * 10 ^ back.length + number back := by
  induction back using List.reverseRecOn with
  | nil => simp
  | append_singleton back d ih =>
    rw [← List.append_assoc, number_concat, number_concat, ih, List.length_append, pow_add]
    simp only [List.length_singleton, pow_one]
    ring

theorem number_cons : number (d :: back) = (d.toNat - 48) * 10 ^ back.length + number back := by
  rw [← List.singleton_append, number_append]
  simp [number]

theorem Valid.append (hfront : Valid front) (hback : Valid back) : Valid (front ++ back) :=
  fun d hd => (List.mem_append.mp hd).elim (hfront d) (hback d)

theorem Valid.take (h : Valid digits) (n : ℕ) : Valid (digits.take n) :=
  fun d hd => h d (List.mem_of_mem_take hd)

theorem Valid.drop (h : Valid digits) (n : ℕ) : Valid (digits.drop n) :=
  fun d hd => h d (List.mem_of_mem_drop hd)

/-- So many digits count to less than the next power of ten. -/
theorem number_lt (h : Valid digits) : number digits < 10 ^ digits.length := by
  induction digits using List.reverseRecOn with
  | nil => simp
  | append_singleton front d ih =>
    have hd := (h d (by simp)).2
    have hfront := ih fun c hc => h c (List.mem_append_left _ hc)
    rw [number_concat, List.length_append, pow_add]
    simp only [List.length_singleton, pow_one]
    omega

/-- The last digit is the remainder by ten. -/
theorem number_mod_ten (h : Valid (front ++ [d])) : number (front ++ [d]) % 10 = d.toNat - 48 := by
  have hd := (h d (by simp)).2
  rw [number_concat]
  omega

/-- Digits denote zero only if all of them are zeros. -/
theorem number_pos (h : Valid digits) :
    0 < number digits ↔ ∃ d ∈ digits, d ≠ DigitList.zeroDigit := by
  induction digits using List.reverseRecOn with
  | nil => simp
  | append_singleton front d ih =>
    have hd := (h d (by simp)).1
    have hzero : d ≠ DigitList.zeroDigit ↔ 0 < d.toNat - 48 := by
      rw [ne_eq, ← UInt8.toNat_inj, show DigitList.zeroDigit.toNat = 48 from rfl]
      omega
    have hfront := ih fun c hc => h c (List.mem_append_left _ hc)
    rw [number_concat]
    simp only [List.mem_append, List.mem_singleton, or_and_right, exists_or, exists_eq_left, hzero,
      ← hfront]
    omega

/-! ### Digits of numbers -/

theorem toNat_ofNat_toNat {c : Char} (h : c.isDigit = true) :
    (UInt8.ofNat c.toNat).toNat = c.toNat ∧ 48 ≤ c.toNat ∧ c.toNat ≤ 57 := by
  have hbounds : 48 ≤ c.toNat ∧ c.toNat ≤ 57 := by
    simpa [Char.isDigit, UInt32.le_iff_toNat_le] using h
  exact ⟨UInt8.toNat_ofNat_of_lt' (by simp [UInt8.size]; omega), hbounds⟩

theorem isDigit_toDigits {c : Char} (h : c ∈ Nat.toDigits 10 n) : c.isDigit = true :=
  Nat.isDigit_of_mem_toDigits (by omega) (by omega) h

theorem valid_ofNat (n : ℕ) : Valid (ofNat n) := by
  intro d hd
  obtain ⟨c, hc, rfl⟩ := List.mem_map.mp hd
  obtain ⟨heq, hbounds⟩ := toNat_ofNat_toNat (isDigit_toDigits hc)
  rwa [heq]

/-- Digits as bytes count like digits as characters. -/
theorem number_map {chars : List Char} (h : ∀ c ∈ chars, c.isDigit = true) :
    number (chars.map fun c => UInt8.ofNat c.toNat) = Nat.ofDigitChars 10 chars 0 := by
  rw [number, List.foldl_map, Nat.ofDigitChars_eq_foldl]
  refine List.foldl_ext _ _ _ fun n c hc => ?_
  rw [(toNat_ofNat_toNat (h c hc)).1]
  rfl

/-- **The digits of a number** denote it. -/
theorem number_ofNat (n : ℕ) : number (ofNat n) = n := by
  rw [ofNat, number_map fun c hc => isDigit_toDigits hc, Nat.ofDigitChars_ten_toDigits]

theorem length_ofNat (n : ℕ) : (ofNat n).length = (Nat.toDigits 10 n).length :=
  List.length_map _

theorem ofNat_ne_nil (n : ℕ) : ofNat n ≠ [] := by
  rw [ofNat, ne_eq, List.map_eq_nil_iff]
  exact Nat.toDigits_ne_nil

/-- A positive number has no more digits than it needs. -/
theorem pow_length_ofNat_le (hn : 0 < n) : 10 ^ ((ofNat n).length - 1) ≤ n := by
  rw [length_ofNat]
  by_contra hlt
  rcases Nat.eq_zero_or_pos ((Nat.toDigits 10 n).length - 1) with hzero | hpos
  · rw [hzero] at hlt
    omega
  · have hle := (Nat.length_toDigits_le_iff (b := 10) (by omega) hpos).mpr (Nat.lt_of_not_le hlt)
    omega

open ShortestDigits in
/-- **Digits in limbs** denote the same number. -/
theorem toNat_coefficient {chars : List Char} (h : ∀ c ∈ chars, c.isDigit = true) :
    (coefficient chars).toNat = Nat.ofDigitChars 10 chars 0 ∧
      (coefficient chars).IsCanonical := by
  have hfold (start : Limbs) (hstart : start.IsCanonical) :
      (chars.foldl (fun n c => n.mulAdd 10 (UInt32.ofNat (c.toNat - '0'.toNat))) start).toNat
          = Nat.ofDigitChars 10 chars start.toNat ∧
        (chars.foldl (fun n c => n.mulAdd 10 (UInt32.ofNat (c.toNat - '0'.toNat)))
          start).IsCanonical := by
    induction chars generalizing start with
    | nil => exact ⟨rfl, hstart⟩
    | cons c chars ih =>
      rw [List.forall_mem_cons] at h
      obtain ⟨hvalue, hcanonical⟩ := ih h.2 _ (Limbs.isCanonical_mulAdd start 10 _)
      refine ⟨?_, hcanonical⟩
      have hbound := (toNat_ofNat_toNat h.1).2.2
      have hdigit : (UInt32.ofNat (c.toNat - '0'.toNat)).toNat = c.toNat - '0'.toNat :=
        UInt32.toNat_ofNat_of_lt' (Nat.lt_of_le_of_lt (Nat.sub_le ..)
          (Nat.lt_of_le_of_lt hbound (by decide)))
      rw [List.foldl_cons, hvalue, Limbs.toNat_mulAdd, hdigit, Nat.ofDigitChars_cons, Nat.mul_comm]
      rfl
  exact hfold [] Limbs.isCanonical_nil

end RoundingPatch.Digits
