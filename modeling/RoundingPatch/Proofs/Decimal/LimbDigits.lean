import Mathlib.Data.Nat.Digits.Lemmas
import RoundingPatch.Proofs.Decimal.Limbs
/-!
# The decimal digits of limbs

Limbs are written in decimal by dividing them by a billion again and again: the remainders are the
digits in base `10 ^ 9` (`map_billions`), and each of them but the first is written with all nine
digits. Written one after another they are the digits of the number (`toDigits_padded`,
`decimalDigits_eq`), without a zero in front (`isNumeral_toDigits`).
-/

namespace RoundingPatch

/-! ### Digits after one another -/

namespace Digits

/-- The digits of a number with zeros in front up to a length. -/
def padded (length n : ℕ) : List Char :=
  List.replicate (length - (Nat.toDigits 10 n).length) '0' ++ Nat.toDigits 10 n

variable {a b k : ℕ}

theorem length_padded (hk : 0 < k) (hb : b < 10 ^ k) : (padded k b).length = k := by
  have hle := (Nat.length_toDigits_le_iff (b := 10) (by omega) hk).mpr hb
  rw [padded, List.length_append, List.length_replicate, Nat.sub_add_cancel hle]

/-- One digit more is one digit behind the others. -/
theorem padded_succ (hk : 0 < k) (b : ℕ) :
    padded (k + 1) b = padded k (b / 10) ++ Nat.toDigits 10 (b % 10) := by
  have hdigit : (Nat.toDigits 10 (b % 10)).length = 1 := by
    rw [Nat.toDigits_of_lt_base (Nat.mod_lt _ (by omega)), List.length_singleton]
  rcases Nat.eq_zero_or_pos (b / 10) with hzero | hpos
  · -- A single digit has a zero in front of it as soon as there is room for one.
    have hmod : b % 10 = b := Nat.mod_eq_of_lt (by omega)
    rw [hmod] at hdigit ⊢
    rw [padded, padded, hzero, hdigit, Nat.toDigits_of_lt_base (by omega : 0 < 10),
      List.length_singleton]
    show List.replicate (k + 1 - 1) '0' ++ _ = List.replicate (k - 1) '0' ++ ['0'] ++ _
    rw [← List.replicate_succ', Nat.sub_add_cancel hk, Nat.add_sub_cancel]
  · have hsplit : Nat.toDigits 10 (b / 10) ++ Nat.toDigits 10 (b % 10) = Nat.toDigits 10 b := by
      rw [Nat.toDigits_append_toDigits (by omega) hpos (Nat.mod_lt _ (by omega)), Nat.div_add_mod]
    rw [padded, padded, ← hsplit, List.length_append, hdigit, Nat.add_sub_add_right,
      List.append_assoc]

/-- **Digits after one another**: what is less than a power of ten takes as many digits behind the
others. -/
theorem toDigits_padded (ha : 0 < a) (hk : 0 < k) (hb : b < 10 ^ k) :
    Nat.toDigits 10 (10 ^ k * a + b) = Nat.toDigits 10 a ++ padded k b := by
  induction k, hk using Nat.le_induction generalizing b with
  | base =>
    have hlt : b < 10 := by omega
    rw [padded, Nat.toDigits_of_lt_base hlt, List.length_singleton, Nat.pow_one]
    rw [← Nat.toDigits_append_toDigits (by omega) ha hlt, Nat.toDigits_of_lt_base hlt]
    rfl
  | succ k hk ih =>
    have hfront : b / 10 < 10 ^ k := Nat.div_lt_of_lt_mul (by rwa [pow_succ'] at hb)
    have hpos : 0 < 10 ^ k * a + b / 10 := Nat.add_pos_left (by positivity) _
    have hsplit : 10 ^ (k + 1) * a + b = 10 * (10 ^ k * a + b / 10) + b % 10 := by
      conv_lhs => rw [← Nat.div_add_mod b 10]
      ring
    rw [hsplit, ← Nat.toDigits_append_toDigits (by omega) hpos (Nat.mod_lt _ (by omega)), ih hfront,
      padded_succ hk b, List.append_assoc]

/-! ### Numerals -/

/-- A text that writes a number: decimal digits that denote it, the first of which is a zero only if
it is the only one. -/
structure IsNumeral (text : List Char) (n : ℕ) : Prop where
  isDigit : ∀ c ∈ text, c.isDigit = true
  ne_nil : text ≠ []
  value : Nat.ofDigitChars 10 text 0 = n
  head : text.head? = some '0' → text = ['0']

/-- The first digit of a number is a zero only if the number is. -/
theorem head?_toDigits (n : ℕ) (h : (Nat.toDigits 10 n).head? = some '0') : n = 0 := by
  induction n using Nat.strong_induction_on with
  | _ n ih =>
    rcases Nat.lt_or_ge n 10 with hlt | hge
    · rw [Nat.toDigits_of_lt_base hlt, List.head?_cons, Option.some_inj] at h
      exact (by decide : ∀ n < 10, n.digitChar = '0' → n = 0) n hlt h
    · rw [Nat.toDigits_of_base_le (by omega) hge,
        List.head?_append_of_ne_nil _ Nat.toDigits_ne_nil] at h
      have hfront := ih (n / 10) (by omega) h
      omega

theorem isNumeral_toDigits (n : ℕ) : IsNumeral (Nat.toDigits 10 n) n where
  isDigit := fun _ hc => Nat.isDigit_of_mem_toDigits (by omega) (by omega) hc
  ne_nil := Nat.toDigits_ne_nil
  value := Nat.ofDigitChars_ten_toDigits
  head := fun h => by rw [head?_toDigits n h, Nat.toDigits_zero]

end Digits

/-! ### Limbs in base `10 ^ 9` -/

namespace Limbs

open Digits

variable {n : Limbs}

theorem toNat_billion : billion.toNat = 10 ^ 9 := rfl

/-- The digits of a limb are padded to nine. -/
theorem nineDigits_eq (v : UInt32) : nineDigits v = padded 9 v.toNat := rfl

/-- **The remainders by a billion** are the digits in base `10 ^ 9`. -/
theorem map_billions {fuel : ℕ} (hn : n.IsCanonical) (hfuel : toNat n < (10 ^ 9) ^ fuel) :
    (billions fuel n).map UInt32.toNat = Nat.digits (10 ^ 9) (toNat n) := by
  induction fuel generalizing n with
  | zero =>
    have hzero : toNat n = 0 := by omega
    rw [hzero, Nat.digits_zero]
    rfl
  | succ fuel ih =>
    obtain ⟨hquotient, hremainder⟩ := toNat_divMod (show billion ≠ 0 by decide) n
    rw [toNat_billion] at hquotient hremainder
    have hfits : toNat (n.divMod billion).1 < (10 ^ 9) ^ fuel := by
      rw [hquotient]
      exact Nat.div_lt_of_lt_mul (by rwa [pow_succ'] at hfuel)
    rw [billions]
    split
    · next hnil => simp [List.isEmpty_iff.mp hnil]
    · next hne =>
      have hpos := hn.toNat_pos (by simpa using hne)
      rw [Nat.digits_def' (by norm_num) hpos, ← hquotient, ← hremainder,
        ← ih (isCanonical_divMod n billion) hfits, List.map_cons]

/-- Nine digits for each digit in base `10 ^ 9` behind a first one. -/
theorem toDigits_flatMap (chunks : List UInt32) (hchunks : ∀ c ∈ chunks, c.toNat < 10 ^ 9) {a : ℕ}
    (ha : 0 < a) :
    Nat.toDigits 10 (chunks.foldl (fun value c => 10 ^ 9 * value + c.toNat) a)
      = Nat.toDigits 10 a ++ chunks.flatMap nineDigits := by
  induction chunks generalizing a with
  | nil => simp
  | cons c chunks ih =>
    rw [List.forall_mem_cons] at hchunks
    rw [List.foldl_cons, ih hchunks.2 (by positivity), toDigits_padded ha (by omega) hchunks.1,
      List.flatMap_cons, nineDigits_eq, List.append_assoc]

/-- **The decimal digits of canonical limbs** are those of their number. -/
theorem decimalDigits_eq (hn : n.IsCanonical) : n.decimalDigits = Nat.toDigits 10 (toNat n) := by
  -- A limb is less than two digits in base `10 ^ 9` can say.
  have hfuel : toNat n < (10 ^ 9) ^ (2 * n.length) := by
    refine (toNat_lt n).trans_le ?_
    rw [pow_mul, pow_mul]
    exact Nat.pow_le_pow_left (by norm_num) _
  have hchunks := map_billions hn hfuel
  have hvalue : (billions (2 * n.length) n).reverse.foldl
      (fun value c => 10 ^ 9 * value + c.toNat) 0
      = toNat n := by
    rw [List.foldl_reverse, ← Nat.ofDigits_digits (10 ^ 9) (toNat n), ← hchunks,
      Nat.ofDigits_eq_foldr, List.foldr_map]
    simp only [Nat.cast_id, Nat.add_comm]
  have hlt : ∀ c ∈ (billions (2 * n.length) n).reverse, c.toNat < 10 ^ 9 := fun c hc =>
    Nat.digits_lt_base (by norm_num)
      (hchunks ▸ List.mem_map_of_mem (List.mem_reverse.mp hc))
  unfold decimalDigits
  split
  · next hnil =>
    rw [hnil] at hvalue
    rw [← hvalue]
    rfl
  · next top rest htop =>
    have hne : toNat n ≠ 0 := by
      intro hzero
      rw [hzero, Nat.digits_zero, List.map_eq_nil_iff] at hchunks
      rw [hchunks] at htop
      cases htop
    have hpos : 0 < top.toNat := by
      have hlast := Nat.getLast_digit_ne_zero (10 ^ 9) hne
      refine Nat.pos_of_ne_zero fun hzero => hlast ?_
      rw [← Option.some_inj, ← List.getLast?_eq_some_getLast, ← hchunks, List.getLast?_map,
        ← List.head?_reverse, htop, List.head?_cons, Option.map_some, hzero]
    rw [htop] at hvalue hlt
    rw [List.forall_mem_cons] at hlt
    rw [← hvalue, List.foldl_cons, Nat.mul_zero, Nat.zero_add, toDigits_flatMap rest hlt.2 hpos]

end Limbs

end RoundingPatch
