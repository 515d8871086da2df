import Mathlib.Tactic.Ring
import RoundingPatch.Decimal.Limbs
/-!
# Arithmetic on limbs

Every operation on limbs does to the limbs what its namesake does to the number that they denote
(`toNat_mulAdd`, `toNat_mulPow2`, `toNat_mulPow5`, `toNat_mulPow10`, `toNat_divMod`,
`toNat_ofUInt64`). What the operations make of canonical limbs is canonical again. A number has one
canonical spelling (`IsCanonical.toNat_inj`), and the order of canonical limbs is that of their
numbers (`compare_eq`).
-/

namespace RoundingPatch.Limbs

variable {n m : Limbs} {a b : UInt32}

@[simp]
theorem toNat_nil : toNat [] = 0 := rfl

theorem toNat_cons : toNat (a :: n) = a.toNat + 2 ^ 32 * toNat n := rfl

theorem toNat_limb_pos (h : a ≠ 0) : 0 < a.toNat :=
  Nat.pos_of_ne_zero fun hzero => h (UInt32.toNat_inj.mp hzero)

/-! ### Canonical numbers -/

theorem isCanonical_nil : IsCanonical [] :=
  nofun

theorem isCanonical_singleton : IsCanonical [a] ↔ a ≠ 0 := by
  simp [IsCanonical]

theorem isCanonical_cons_cons : IsCanonical (a :: b :: n) ↔ IsCanonical (b :: n) := by
  simp [IsCanonical]

/-- The limbs above the last one are canonical too. -/
theorem IsCanonical.tail (h : IsCanonical (a :: n)) : IsCanonical n := by
  cases n with
  | nil => exact isCanonical_nil
  | cons b n => exact isCanonical_cons_cons.mp h

theorem IsCanonical.cons (h : IsCanonical n) (hn : n ≠ []) : IsCanonical (a :: n) := by
  cases n with
  | nil => exact absurd rfl hn
  | cons b n => exact isCanonical_cons_cons.mpr h

/-- Canonical limbs denote zero only if there are none. -/
theorem IsCanonical.toNat_pos (h : IsCanonical n) (hn : n ≠ []) : 0 < toNat n := by
  induction n with
  | nil => exact absurd rfl hn
  | cons a n ih =>
    rw [toNat_cons]
    cases n with
    | nil =>
      have hpos := toNat_limb_pos (isCanonical_singleton.mp h)
      omega
    | cons b n =>
      have hpos := ih h.tail (List.cons_ne_nil _ _)
      omega

/-- The two ways in which a number becomes trimmed. -/
theorem trim_cons (a : UInt32) (n : Limbs) :
    trim (a :: n) = if trim n = [] ∧ a = 0 then [] else a :: trim n := by
  rw [trim]
  split
  · next h => simp [h]
  · next h => rw [if_neg fun hand => h hand.1]

theorem toNat_trim (n : Limbs) : toNat (trim n) = toNat n := by
  induction n with
  | nil => rfl
  | cons a n ih =>
    rw [trim_cons]
    split
    · next h =>
      rw [toNat_cons, ← ih, h.1, h.2]
      rfl
    · rw [toNat_cons, toNat_cons, ih]

/-- Trimmed limbs have no zero at their end. -/
theorem isCanonical_trim (n : Limbs) : IsCanonical (trim n) := by
  induction n with
  | nil => exact isCanonical_nil
  | cons a n ih =>
    rw [trim_cons]
    split
    · exact isCanonical_nil
    · next h =>
      by_cases hn : trim n = []
      · rw [hn]
        exact isCanonical_singleton.mpr fun ha => h ⟨hn, ha⟩
      · exact ih.cons hn

/-- The upper half of a word; the lower one is its remainder. -/
theorem toNat_upperHalf (v : UInt64) : (v >>> 32).toUInt32.toNat = v.toNat / 2 ^ 32 := by
  have hlt := v.toNat_lt
  rw [UInt64.toNat_toUInt32, UInt64.toNat_shiftRight, show (32 : UInt64).toNat % 64 = 32 from rfl,
    Nat.shiftRight_eq_div_pow]
  omega

theorem toNat_ofUInt64 (v : UInt64) : toNat (ofUInt64 v) = v.toNat := by
  rw [ofUInt64, toNat_trim, toNat_cons, toNat_cons, toNat_nil, UInt64.toNat_toUInt32,
    toNat_upperHalf, Nat.mul_zero, Nat.add_zero, Nat.mod_add_div]

theorem isCanonical_ofUInt64 (v : UInt64) : IsCanonical (ofUInt64 v) :=
  isCanonical_trim _

/-! ### Products -/

theorem toNat_ofCarry (c : UInt32) : toNat (ofCarry c) = c.toNat := by
  unfold ofCarry
  split
  · next h => rw [h, toNat_nil, UInt32.toNat_zero]
  · rw [toNat_cons, toNat_nil, Nat.mul_zero, Nat.add_zero]

theorem isCanonical_ofCarry (c : UInt32) : IsCanonical (ofCarry c) := by
  unfold ofCarry
  split
  · exact isCanonical_nil
  · next h => exact isCanonical_singleton.mpr h

/-- The word of one step of a multiplication has room for the product and the carry. -/
theorem toNat_mul_add (a m c : UInt32) :
    (a.toUInt64 * m.toUInt64 + c.toUInt64).toNat = a.toNat * m.toNat + c.toNat := by
  have hroom : a.toNat * m.toNat + c.toNat < 2 ^ 64 := by
    have hproduct : a.toNat * m.toNat ≤ (2 ^ 32 - 1) * (2 ^ 32 - 1) :=
      Nat.mul_le_mul (Nat.le_sub_one_of_lt a.toNat_lt) (Nat.le_sub_one_of_lt m.toNat_lt)
    have hcarry := c.toNat_lt
    omega
  rw [UInt64.toNat_add, UInt64.toNat_mul, UInt32.toNat_toUInt64, UInt32.toNat_toUInt64,
    UInt32.toNat_toUInt64, Nat.mod_add_mod, Nat.mod_eq_of_lt hroom]

/-- One step of a multiplication: what leaves the limb at the top is the next carry. -/
theorem toNat_product (a m c : UInt32) :
    let v := a.toUInt64 * m.toUInt64 + c.toUInt64
    v.toUInt32.toNat + 2 ^ 32 * (v >>> 32).toUInt32.toNat = a.toNat * m.toNat + c.toNat := by
  intro v
  rw [UInt64.toNat_toUInt32, toNat_upperHalf, Nat.mod_add_div]
  exact toNat_mul_add a m c

/-- **Multiplying limb by limb multiplies the number** and adds the carry. -/
theorem toNat_mulAddCarry (m c : UInt32) (n : Limbs) :
    toNat (mulAddCarry m c n) = toNat n * m.toNat + c.toNat := by
  induction n generalizing c with
  | nil =>
    rw [mulAddCarry, toNat_ofCarry, toNat_nil]
    omega
  | cons a n ih =>
    have hstep := toNat_product a m c
    dsimp only at hstep
    rw [mulAddCarry, toNat_cons, ih, toNat_cons, Nat.add_mul, Nat.mul_add, Nat.mul_assoc]
    omega

/-- The carry that is left at the end is one more limb. -/
@[simp]
theorem toNat_mulAdd (n : Limbs) (m add : UInt32) :
    toNat (n.mulAdd m add) = toNat n * m.toNat + add.toNat := by
  rw [mulAdd, toNat_trim, toNat_mulAddCarry]

theorem isCanonical_mulAdd (n : Limbs) (m add : UInt32) : IsCanonical (n.mulAdd m add) :=
  isCanonical_trim _

/-- A power of five that is a limb. -/
theorem toNat_ofNat_pow {k : Nat} (h : k ≤ limbFives) :
    (UInt32.ofNat (Nat.pow 5 k)).toNat = 5 ^ k := by
  have hle : 5 ^ k ≤ 5 ^ 13 := Nat.pow_le_pow_right (by omega) h
  exact UInt32.toNat_ofNat_of_lt' (Nat.lt_of_le_of_lt hle (by decide))

theorem toNat_repeat (k : Nat) (n : Limbs) :
    toNat (Nat.repeat (mulAdd · (UInt32.ofNat (Nat.pow 5 limbFives)) 0) k n)
      = toNat n * 5 ^ (limbFives * k) := by
  induction k with
  | zero => simp [Nat.repeat]
  | succ k ih =>
    rw [Nat.repeat, toNat_mulAdd, ih, toNat_ofNat_pow (Nat.le_refl _), Nat.mul_succ, Nat.pow_add,
      UInt32.toNat_zero]
    ring

theorem IsCanonical.repeat {c : UInt32} (h : IsCanonical n) (k : Nat) :
    IsCanonical (Nat.repeat (mulAdd · c 0) k n) := by
  cases k with
  | zero => exact h
  | succ k => exact isCanonical_mulAdd _ _ _

/-- Powers of five are multiplied in steps that fit in a limb. -/
@[simp]
theorem toNat_mulPow5 (n : Limbs) (k : Nat) : toNat (n.mulPow5 k) = toNat n * 5 ^ k := by
  have hk : k = limbFives * (k / limbFives) + k % limbFives := (Nat.div_add_mod ..).symm
  have hrest : k % limbFives ≤ limbFives := Nat.le_of_lt (Nat.mod_lt _ (by decide))
  unfold mulPow5
  dsimp only
  split
  · next hzero =>
    have hwhole : limbFives * (k / limbFives) = k := by omega
    rw [toNat_repeat, hwhole]
  · rw [toNat_mulAdd, toNat_repeat, toNat_ofNat_pow hrest, UInt32.toNat_zero, Nat.add_zero,
      Nat.mul_assoc, ← Nat.pow_add, ← hk]

theorem IsCanonical.mulPow5 (h : IsCanonical n) (k : Nat) : IsCanonical (n.mulPow5 k) := by
  unfold Limbs.mulPow5
  dsimp only
  split
  · exact h.repeat _
  · exact isCanonical_mulAdd _ _ _

/-! ### Shifts -/

section Shift

variable {bits c : UInt32} (hbits : 0 < bits.toNat ∧ bits.toNat < 32)
include hbits

/-- One step of a shift: what leaves the limb at the top is the next carry. -/
theorem toNat_shifted (hc : c.toNat < 2 ^ bits.toNat) :
    ((a <<< bits) ||| c).toNat + 2 ^ 32 * (a >>> (32 - bits)).toNat
      = a.toNat * 2 ^ bits.toNat + c.toNat := by
  obtain ⟨hpos, hlt⟩ := hbits
  have hback : (32 - bits).toNat = 32 - bits.toNat := by
    rw [UInt32.toNat_sub_of_le _ _ (UInt32.le_iff_toNat_le.mpr (Nat.le_of_lt hlt))]
    rfl
  have hsplit : 2 ^ 32 = 2 ^ bits.toNat * 2 ^ (32 - bits.toNat) := by
    rw [← Nat.pow_add]
    congr 1
    omega
  have hlow : (a <<< bits).toNat = 2 ^ bits.toNat * (a.toNat % 2 ^ (32 - bits.toNat)) := by
    rw [UInt32.toNat_shiftLeft, Nat.mod_eq_of_lt hlt, Nat.shiftLeft_eq, Nat.mul_comm]
    conv_lhs => rw [hsplit]
    exact Nat.mul_mod_mul_left ..
  have hhigh : (a >>> (32 - bits)).toNat = a.toNat / 2 ^ (32 - bits.toNat) := by
    rw [UInt32.toNat_shiftRight, hback, Nat.mod_eq_of_lt (by omega), Nat.shiftRight_eq_div_pow]
  -- The shifted limb and the carry have no bit in common.
  have hor : ((a <<< bits) ||| c).toNat = 2 ^ bits.toNat * (a.toNat % 2 ^ (32 - bits.toNat))
      + c.toNat := by
    rw [UInt32.toNat_or, hlow]
    exact (Nat.two_pow_add_eq_or_of_lt hc _).symm
  have hdivMod := Nat.div_add_mod a.toNat (2 ^ (32 - bits.toNat))
  rw [hor, hhigh]
  conv_rhs => rw [← hdivMod]
  rw [show (2 : Nat) ^ 32 = 2 ^ bits.toNat * 2 ^ (32 - bits.toNat) from hsplit]
  ring

/-- What leaves a limb at the top fits in below. -/
theorem toNat_carry_lt : (a >>> (32 - bits)).toNat < 2 ^ bits.toNat := by
  obtain ⟨hpos, hlt⟩ := hbits
  have hstep := @toNat_shifted a bits 0 ⟨hpos, hlt⟩ (Nat.two_pow_pos _)
  have ha := a.toNat_lt
  rw [UInt32.toNat_zero, Nat.add_zero] at hstep
  have hle : 2 ^ 32 * (a >>> (32 - bits)).toNat < 2 ^ 32 * 2 ^ bits.toNat := by
    refine Nat.lt_of_le_of_lt (hstep ▸ Nat.le_add_left ..) ?_
    exact Nat.mul_lt_mul_of_pos_right ha (Nat.two_pow_pos _)
  exact Nat.lt_of_mul_lt_mul_left hle

/-- Shifting limb by limb multiplies by a power of two. -/
theorem toNat_shiftCarry (hc : c.toNat < 2 ^ bits.toNat) (n : Limbs) :
    toNat (shiftCarry bits c n) = toNat n * 2 ^ bits.toNat + c.toNat := by
  induction n generalizing c with
  | nil =>
    rw [shiftCarry, toNat_ofCarry, toNat_nil]
    omega
  | cons a n ih =>
    have hstep := @toNat_shifted a bits c hbits hc
    rw [shiftCarry, toNat_cons, ih (toNat_carry_lt hbits), toNat_cons, Nat.add_mul, Nat.mul_add,
      Nat.mul_assoc]
    omega

/-- Shifting leaves no zero at the end. -/
theorem IsCanonical.shiftCarry (hc : c.toNat < 2 ^ bits.toNat) (h : IsCanonical n) :
    IsCanonical (Limbs.shiftCarry bits c n) := by
  induction n generalizing c with
  | nil => exact isCanonical_ofCarry c
  | cons a n ih =>
    rw [Limbs.shiftCarry]
    have hrest := ih (toNat_carry_lt (a := a) hbits) h.tail
    by_cases hnil : Limbs.shiftCarry bits (a >>> (32 - bits)) n = []
    · -- Nothing is above this limb, so all of the value is in it.
      rw [hnil]
      have hvalue := toNat_shiftCarry hbits hc (a :: n)
      have hpos := h.toNat_pos (List.cons_ne_nil _ _)
      rw [Limbs.shiftCarry, hnil, toNat_cons, toNat_nil, Nat.mul_zero, Nat.add_zero] at hvalue
      refine isCanonical_singleton.mpr fun hzero => ?_
      rw [hzero, UInt32.toNat_zero] at hvalue
      have := Nat.mul_pos hpos (Nat.two_pow_pos bits.toNat)
      omega
    · exact hrest.cons hnil

end Shift

theorem toNat_replicate_append (k : Nat) (n : Limbs) :
    toNat (List.replicate k 0 ++ n) = 2 ^ (32 * k) * toNat n := by
  induction k with
  | zero => simp
  | succ k ih =>
    rw [List.replicate_succ, List.cons_append, toNat_cons, ih, UInt32.toNat_zero, Nat.mul_succ,
      Nat.pow_add]
    ring

theorem isCanonical_replicate_append (h : IsCanonical n) (hn : n ≠ []) (k : Nat) :
    IsCanonical (List.replicate k 0 ++ n) := by
  rwa [IsCanonical, List.getLast?_append, List.getLast?_eq_some_getLast hn, Option.some_or,
    ← List.getLast?_eq_some_getLast hn]

/-- The bits of a shift that are less than a limb. -/
theorem toNat_ofNat_mod {k : Nat} (hk : k % 32 ≠ 0) :
    (UInt32.ofNat (k % 32)).toNat = k % 32 ∧
      0 < (UInt32.ofNat (k % 32)).toNat ∧ (UInt32.ofNat (k % 32)).toNat < 32 := by
  have hlt := Nat.mod_lt k (show 0 < 32 by omega)
  have heq : (UInt32.ofNat (k % 32)).toNat = k % 32 :=
    UInt32.toNat_ofNat_of_lt' (Nat.lt_trans hlt (by decide))
  omega

/-- A power of two is whole limbs and a shift. -/
@[simp]
theorem toNat_mulPow2 (n : Limbs) (k : Nat) : toNat (n.mulPow2 k) = toNat n * 2 ^ k := by
  have hk : k = 32 * (k / 32) + k % 32 := (Nat.div_add_mod ..).symm
  unfold mulPow2
  split
  · next hn => simp [List.isEmpty_iff.mp hn]
  · dsimp only
    rw [toNat_replicate_append]
    split
    · next hzero =>
      have hwhole : 32 * (k / 32) = k := by omega
      rw [hwhole, Nat.mul_comm]
    · next hne =>
      obtain ⟨heq, hbits⟩ := toNat_ofNat_mod hne
      rw [toNat_shiftCarry hbits (Nat.two_pow_pos _), heq, UInt32.toNat_zero, Nat.add_zero]
      conv_rhs => rw [hk, Nat.pow_add]
      ring

theorem IsCanonical.mulPow2 (h : IsCanonical n) (k : Nat) : IsCanonical (n.mulPow2 k) := by
  unfold Limbs.mulPow2
  split
  · exact isCanonical_nil
  · next hn =>
    have hn : n ≠ [] := by simpa using hn
    dsimp only
    split
    · exact isCanonical_replicate_append h hn _
    · next hne =>
      obtain ⟨-, hbits⟩ := toNat_ofNat_mod hne
      refine isCanonical_replicate_append (h.shiftCarry hbits (Nat.two_pow_pos _)) ?_ _
      cases n with
      | nil => exact absurd rfl hn
      | cons a n => exact List.cons_ne_nil _ _

@[simp]
theorem toNat_mulPow10 (n : Limbs) (k : Nat) : toNat (n.mulPow10 k) = toNat n * 10 ^ k := by
  rw [mulPow10, toNat_mulPow2, toNat_mulPow5, Nat.mul_assoc, ← Nat.mul_pow]

theorem IsCanonical.mulPow10 (h : IsCanonical n) (k : Nat) : IsCanonical (n.mulPow10 k) :=
  (h.mulPow5 k).mulPow2 k

/-! ### Quotients -/

/-- The next dividend is a word of two limbs. -/
theorem toNat_dividend {r : UInt64} (hr : r.toNat < 2 ^ 32) (a : UInt32) :
    ((r <<< 32) ||| a.toUInt64).toNat = 2 ^ 32 * r.toNat + a.toNat := by
  have hshift : (r <<< 32).toNat = 2 ^ 32 * r.toNat := by
    rw [UInt64.toNat_shiftLeft, show (32 : UInt64).toNat % 64 = 32 from rfl, Nat.shiftLeft_eq]
    omega
  rw [UInt64.toNat_or, hshift, UInt32.toNat_toUInt64]
  exact (Nat.two_pow_add_eq_or_of_lt a.toNat_lt _).symm

/-- One step of a division: the remainder from above is less than the divisor, so that the quotient
is a limb. -/
theorem toNat_quotient {d : UInt32} {r : UInt64} (hr : r.toNat < d.toNat) (a : UInt32) :
    let v := (r <<< 32) ||| a.toUInt64
    (v / d.toUInt64).toUInt32.toNat = v.toNat / d.toNat := by
  intro v
  have ha := a.toNat_lt
  have hv : v.toNat = 2 ^ 32 * r.toNat + a.toNat := toNat_dividend (Nat.lt_trans hr d.toNat_lt) a
  have hfits : v.toNat / d.toNat < 2 ^ 32 := by
    rw [Nat.div_lt_iff_lt_mul (Nat.zero_lt_of_lt hr), hv]
    calc 2 ^ 32 * r.toNat + a.toNat
        < 2 ^ 32 * (r.toNat + 1) := by omega
      _ ≤ 2 ^ 32 * d.toNat := Nat.mul_le_mul_left _ hr
  rw [UInt64.toNat_toUInt32, UInt64.toNat_div, UInt32.toNat_toUInt64, Nat.mod_eq_of_lt hfits]

/-- **Division from the top**: each quotient is a limb, and the remainder goes into the next
dividend. -/
theorem toNat_divCarry {d : UInt32} (hd : d ≠ 0) (n : Limbs) :
    toNat (divCarry d n).1 = toNat n / d.toNat ∧ (divCarry d n).2.toNat = toNat n % d.toNat := by
  have hpos := toNat_limb_pos hd
  induction n with
  | nil => exact ⟨(Nat.zero_div _).symm, (Nat.zero_mod _).symm⟩
  | cons a n ih =>
    obtain ⟨hquotient, hremainder⟩ := ih
    have hr : (divCarry d n).2.toNat < d.toNat := hremainder ▸ Nat.mod_lt _ hpos
    have hv := toNat_dividend (Nat.lt_trans hr d.toNat_lt) a
    have hlimb := toNat_quotient hr a
    set v := (divCarry d n).2 <<< 32 ||| a.toUInt64 with hvdef
    have hsplit : toNat (a :: n) = v.toNat + d.toNat * (2 ^ 32 * toNat (divCarry d n).1) := by
      have hdivMod := Nat.div_add_mod (toNat n) d.toNat
      rw [toNat_cons, hv, hquotient, hremainder]
      conv_lhs => rw [← hdivMod]
      ring
    rw [divCarry]
    dsimp only
    rw [← hvdef, toNat_cons, hlimb, UInt64.toNat_mod, UInt32.toNat_toUInt64, hsplit,
      Nat.add_mul_div_left _ _ hpos, Nat.add_mul_mod_self_left]
    exact ⟨rfl, rfl⟩

/-- The remainder is less than the divisor at every limb. -/
theorem divCarry_lt {d : UInt32} (hd : d ≠ 0) (n : Limbs) : (divCarry d n).2.toNat < d.toNat :=
  (toNat_divCarry hd n).2 ▸ Nat.mod_lt _ (toNat_limb_pos hd)

/-- **The quotient and the remainder** of a division by a limb. -/
theorem toNat_divMod {d : UInt32} (hd : d ≠ 0) (n : Limbs) :
    toNat (n.divMod d).1 = toNat n / d.toNat ∧ (n.divMod d).2.toNat = toNat n % d.toNat := by
  obtain ⟨hquotient, hremainder⟩ := toNat_divCarry hd n
  have hlt := Nat.lt_trans (divCarry_lt hd n) d.toNat_lt
  unfold divMod
  dsimp only
  rw [toNat_trim, UInt64.toNat_toUInt32, Nat.mod_eq_of_lt hlt]
  exact ⟨hquotient, hremainder⟩

theorem isCanonical_divMod (n : Limbs) (d : UInt32) : IsCanonical (n.divMod d).1 :=
  isCanonical_trim _

/-- **One spelling for each number**: canonical limbs of the same number are the same. -/
theorem IsCanonical.toNat_inj (hn : IsCanonical n) (hm : IsCanonical m) :
    toNat n = toNat m ↔ n = m := by
  refine ⟨fun h => ?_, congrArg toNat⟩
  induction n generalizing m with
  | nil =>
    by_contra hne
    have hpos := hm.toNat_pos (Ne.symm hne)
    rw [← h] at hpos
    exact absurd hpos (Nat.lt_irrefl 0)
  | cons a n ih =>
    cases m with
    | nil => exact absurd h (Nat.ne_of_gt (hn.toNat_pos (List.cons_ne_nil _ _)))
    | cons b m =>
      have ha := a.toNat_lt
      have hb := b.toNat_lt
      rw [toNat_cons, toNat_cons] at h
      have hlimb : a = b := UInt32.toNat_inj.mp (by omega)
      have hrest : n = m := ih hn.tail hm.tail (by omega)
      rw [hlimb, hrest]

/-- A number has no more bits than its limbs. -/
theorem toNat_lt (n : Limbs) : toNat n < 2 ^ (32 * n.length) := by
  induction n with
  | nil => exact Nat.one_pos
  | cons a n ih =>
    have ha := a.toNat_lt
    rw [toNat_cons, List.length_cons, Nat.mul_succ, Nat.pow_add]
    omega

/-! ### Order -/

theorem compare_toNat (a b : UInt32) : Ord.compare a b = Ord.compare a.toNat b.toNat := by
  show compareOfLessAndEq a b = compareOfLessAndEq a.toNat b.toNat
  unfold compareOfLessAndEq
  simp only [UInt32.lt_iff_toNat_lt, UInt32.toNat_inj]

/-- **The order of canonical limbs** is that of their numbers. -/
theorem compare_eq (hn : IsCanonical n) (hm : IsCanonical m) :
    n.compare m = Ord.compare (toNat n) (toNat m) := by
  induction n generalizing m with
  | nil =>
    cases m with
    | nil => rfl
    | cons b m =>
      have hpos := hm.toNat_pos (List.cons_ne_nil _ _)
      exact (Nat.compare_eq_lt.mpr hpos).symm
  | cons a n ih =>
    cases m with
    | nil =>
      have hpos := hn.toNat_pos (List.cons_ne_nil _ _)
      exact (Nat.compare_eq_gt.mpr hpos).symm
    | cons b m =>
      have ha := a.toNat_lt
      have hb := b.toNat_lt
      rw [Limbs.compare, ih hn.tail hm.tail, compare_toNat, toNat_cons, toNat_cons]
      -- The upper limbs decide; the lowest one only if they are equal.
      rcases Nat.lt_trichotomy (toNat n) (toNat m) with h | h | h
      · rw [Nat.compare_eq_lt.mpr h]
        exact (Nat.compare_eq_lt.mpr (by omega)).symm
      · rw [Nat.compare_eq_eq.mpr h, h]
        show Ord.compare a.toNat b.toNat = _
        rcases Nat.lt_trichotomy a.toNat b.toNat with h | h | h
        · rw [Nat.compare_eq_lt.mpr h]
          exact (Nat.compare_eq_lt.mpr (by omega)).symm
        · rw [h]
          exact (Nat.compare_eq_eq.mpr rfl).trans (Nat.compare_eq_eq.mpr rfl).symm
        · rw [Nat.compare_eq_gt.mpr h]
          exact (Nat.compare_eq_gt.mpr (by omega)).symm
      · rw [Nat.compare_eq_gt.mpr h]
        exact (Nat.compare_eq_gt.mpr (by omega)).symm

end RoundingPatch.Limbs
