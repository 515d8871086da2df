import Mathlib.Algebra.Order.Ring.Abs
import Mathlib.Tactic.Linarith
import RoundingPatch.DigitList.Oracle
import RoundingPatch.Proofs.Decimal.ShortestDigits
import RoundingPatch.Proofs.DigitList.Value
/-!
# Rounding to the nearest

`mode.Rounds x n` says that `n` is the integer that `x` is rounded to in one of the modes that round
to the nearest. A digit list only knows the shortest digits of a number and on which side of it they
lie. That is enough to round the number itself (`set_nearest`): between the number and its shortest
digits there is no half of a unit of a higher place, so both are on the same side of every tie that
is none of them (`rounds_of_between`), and the reference goes by the digits unless they are a tie
(`Reference.answer_half`).
-/

namespace RoundingPatch

open Digits

/-! ### Rounding rational numbers -/

/-- The modes that round to the nearest. -/
def RoundingMode.IsHalf : RoundingMode → Prop
  | .halfUp | .halfDown | .halfEven => True
  | _ => False

/-- **The integer to which a number is rounded** in a mode that rounds to the nearest. -/
structure RoundingMode.Rounds (mode : RoundingMode) (x : ℚ) (n : ℤ) : Prop where
  near : |x - n| ≤ 1 / 2
  /-- A tie goes up, down, or to the even number. -/
  tie : |x - n| = 1 / 2 → match mode with
    | .halfUp => x < n
    | .halfDown => n < x
    | .halfEven => Even n
    | _ => True

namespace RoundingMode

variable {mode : RoundingMode} {x d : ℚ} {k : ℕ}

/-- Below the middle every half mode rounds down. -/
theorem rounds_down (hlow : k < x) (hhigh : x < k + 1 / 2) : mode.Rounds x (k : ℕ) := by
  have hnear : |x - (k : ℤ)| < 1 / 2 := abs_lt.mpr (by push_cast; constructor <;> linarith)
  exact ⟨hnear.le, fun heq => absurd heq hnear.ne⟩

/-- Above the middle every half mode rounds up. -/
theorem rounds_up (hlow : k + 1 / 2 < x) (hhigh : x < k + 1) : mode.Rounds x (k + 1 : ℕ) := by
  have hnear : |x - ((k + 1 : ℕ) : ℤ)| < 1 / 2 :=
    abs_lt.mpr (by push_cast; constructor <;> linarith)
  exact ⟨hnear.le, fun heq => absurd heq hnear.ne⟩

/-- Whether a tie goes up, if the digits of a number are a tie: that may depend on where the number
is, and on whether the number in front of the tie is odd. -/
def tieUp (mode : RoundingMode) (roundedUp exact odd : Bool) : Bool :=
  match mode with
  | .halfUp => exact || !roundedUp
  | .halfDown => !exact && !roundedUp
  | _ => !roundedUp && (!exact || odd)

/-- Digits that are a tie are rounded by where the number lies. -/
theorem rounds_tie (hmode : mode.IsHalf) {roundedUp exact : Bool} (hlow : k < x) (hhigh : x < k + 1)
    (hd : d = k + 1 / 2) (hroundedUp : roundedUp = true ↔ x < d) (hexact : exact = true ↔ d = x) :
    mode.Rounds x (k + (mode.tieUp roundedUp exact (k % 2 == 1)).toNat : ℕ) := by
  -- Below or above the tie the flags send it down or up; the mode decides only on the tie.
  rcases lt_trichotomy x d with hx | hx | hx
  · obtain rfl : roundedUp = true := hroundedUp.mpr hx
    have hdown : mode.tieUp true exact (k % 2 == 1) = false := by
      have hne : exact = false := by
        rw [← Bool.not_eq_true, hexact]
        exact hx.ne'
      cases mode <;> simp [tieUp, hne]
    rw [hdown]
    exact rounds_down hlow (hd ▸ hx)
  · -- The number itself is a tie.
    obtain rfl : exact = true := hexact.mpr hx.symm
    obtain rfl : roundedUp = false := by
      rw [← Bool.not_eq_true, hroundedUp]
      exact hx.not_lt
    have habove : x - ((k + 1 : ℕ) : ℤ) = -(1 / 2) := by
      push_cast
      linarith
    have hbelow : x - ((k : ℕ) : ℤ) = 1 / 2 := by
      push_cast
      linarith
    have hnear (n : ℕ) (h : n = k ∨ n = k + 1) : |x - (n : ℤ)| = 1 / 2 := by
      rcases h with rfl | rfl
      · rw [hbelow]
        norm_num
      · rw [habove]
        norm_num
    cases mode with
    | halfUp =>
      refine ⟨(hnear _ (.inr rfl)).le, fun _ => ?_⟩
      show x < ((k + 1 : ℕ) : ℤ)
      linarith
    | halfDown =>
      refine ⟨(hnear _ (.inl rfl)).le, fun _ => ?_⟩
      show (((k : ℕ) : ℤ) : ℚ) < x
      linarith
    | halfEven =>
      rcases Nat.mod_two_eq_zero_or_one k with hk | hk
      · rw [hk]
        exact ⟨(hnear _ (.inl rfl)).le, fun _ => (Int.even_coe_nat _).mpr (Nat.even_iff.mpr hk)⟩
      · rw [hk]
        exact ⟨(hnear _ (.inr rfl)).le, fun _ =>
          (Int.even_coe_nat _).mpr (Nat.even_iff.mpr (by show (k + 1) % 2 = 0; omega))⟩
    | _ => exact hmode.elim
  · have hne : exact = false := by
      rw [← Bool.not_eq_true, hexact]
      exact hx.ne
    have hlow' : roundedUp = false := by
      rw [← Bool.not_eq_true, hroundedUp]
      exact hx.not_gt
    have hup : mode.tieUp roundedUp exact (k % 2 == 1) = true := by
      cases mode <;> simp [tieUp, hne, hlow']
    rw [hup]
    exact rounds_up (hd ▸ hx) hhigh

/-- **Rounding by the digits is rounding the number.** The number `x` is only known by a decimal `d`
that lies between `k` and `k + 1`, with no half between `d` and `x`. -/
theorem rounds_of_between (hmode : mode.IsHalf) {roundedUp exact up : Bool} (hlow : k < d)
    (hhigh : d < k + 1) (hroundedUp : roundedUp = true ↔ x < d) (hexact : exact = true ↔ d = x)
    (hbetween : ∀ j : ℕ, (d ≤ j / 2 ∧ (j : ℚ) / 2 ≤ x ∨ x ≤ j / 2 ∧ (j : ℚ) / 2 ≤ d) →
        (j : ℚ) / 2 = d)
    (hup : up = true ↔ k + 1 / 2 < d ∨
      d = k + 1 / 2 ∧ mode.tieUp roundedUp exact (k % 2 == 1) = true) :
    mode.Rounds x (k + up.toNat : ℕ) := by
  -- The number stays between the same two integers as its digits.
  have hxlow : (k : ℚ) < x := by
    by_contra hle
    have heq := hbetween (2 * k) (.inr (by push_cast; constructor <;> linarith))
    push_cast at heq
    linarith
  have hxhigh : x < k + 1 := by
    by_contra hle
    have heq := hbetween (2 * k + 2) (.inl (by push_cast; constructor <;> linarith))
    push_cast at heq
    linarith
  -- The decimal and the number stand on one side of the half, unless the decimal is the half.
  rcases lt_trichotomy d (k + 1 / 2) with hd | hd | hd
  · have hx : x < k + 1 / 2 := by
      by_contra hle
      have heq := hbetween (2 * k + 1) (.inl (by push_cast; constructor <;> linarith))
      push_cast at heq
      linarith
    have hdown : up = false := by
      rw [← Bool.not_eq_true, hup]
      rintro (h | h) <;> linarith [h]
    rw [hdown]
    exact rounds_down hxlow hx
  · have hup : up = mode.tieUp roundedUp exact (k % 2 == 1) := by
      rw [Bool.eq_iff_iff, hup]
      simp [hd]
    rw [hup]
    exact rounds_tie hmode hxlow hxhigh hd hroundedUp hexact
  · have hx : k + 1 / 2 < x := by
      by_contra hle
      have heq := hbetween (2 * k + 1) (.inr (by push_cast; constructor <;> linarith))
      push_cast at heq
      linarith
    have hyes : up = true := hup.mpr (.inl hd)
    rw [hyes]
    exact rounds_up hx hxhigh

end RoundingMode

/-! ### The reference -/

namespace Reference

variable {c : Cut} {q : RoundingQuestion}

/-- The digits that are dropped, against half a unit of the last place that is kept. -/
theorem nearest_iff (hvalid : Valid (c.first :: c.rest)) {five : Bool} :
    c.nearest five = true ↔ 6 * 10 ^ c.rest.length ≤ number (c.first :: c.rest) ∨
      5 * 10 ^ c.rest.length ≤ number (c.first :: c.rest) ∧
        number (c.first :: c.rest) < 6 * 10 ^ c.rest.length ∧ five = true := by
  have hrest := number_lt fun d hd => hvalid d (List.mem_cons_of_mem _ hd)
  obtain ⟨hlow, -⟩ := hvalid c.first List.mem_cons_self
  have hpow : 0 < 10 ^ c.rest.length := Nat.pow_pos (by omega)
  have hfirst : DigitList.fiveDigit < c.first ↔ 6 ≤ c.first.toNat - 48 := by
    rw [UInt8.lt_iff_toNat_lt, show DigitList.fiveDigit.toNat = 53 from rfl]
    omega
  have hequal : c.first = DigitList.fiveDigit ↔ c.first.toNat - 48 = 5 := by
    rw [← UInt8.toNat_inj, show DigitList.fiveDigit.toNat = 53 from rfl]
    omega
  rw [number_cons]
  -- The first digit that is dropped decides, unless it is a five.
  generalize c.first.toNat - 48 = a at hfirst hequal
  unfold Cut.nearest
  simp only [hfirst, hequal]
  split
  · next h =>
    have hle : 6 * 10 ^ c.rest.length ≤ a * 10 ^ c.rest.length := Nat.mul_le_mul_right _ h
    simp only [true_iff]
    exact .inl (by omega)
  · next h =>
    have hle : a * 10 ^ c.rest.length ≤ 5 * 10 ^ c.rest.length := Nat.mul_le_mul_right _ (by omega)
    split
    · next heq =>
      subst heq
      constructor
      · exact fun hfive => .inr ⟨by omega, by omega, hfive⟩
      · rintro (h' | ⟨-, -, hfive⟩)
        · omega
        · exact hfive
    · next hne =>
      have hle' : a * 10 ^ c.rest.length ≤ 4 * 10 ^ c.rest.length :=
        Nat.mul_le_mul_right _ (by omega)
      simp only [Bool.false_eq_true, false_iff]
      omega

/-- Whether the last digit that is kept is odd decides whether all of them are. -/
theorem keepsOdd_eq (hvalid : Valid c.kept) : c.keepsOdd = (number c.kept % 2 == 1) := by
  unfold Cut.keepsOdd
  -- The last digit kept decides, and without one the number is zero and even.
  rcases List.eq_nil_or_concat c.kept with hnil | ⟨front, d, hkept⟩
  · rw [hnil]
    rfl
  · rw [List.concat_eq_append] at hkept
    have hd := (hvalid d (by simp [hkept])).1
    have hsub : (d - DigitList.zeroDigit).toNat = d.toNat - 48 :=
      UInt8.toNat_sub_of_le _ _ (UInt8.le_iff_toNat_le.mpr hd)
    rw [hkept, List.getLast?_concat, number_concat, Bool.eq_iff_iff]
    dsimp only
    rw [bne_iff_ne, beq_iff_eq, ne_eq, ← UInt8.toNat_inj, UInt8.toNat_mod, hsub,
      show (2 : UInt8).toNat = 2 from rfl, show (0 : UInt8).toNat = 0 from rfl]
    omega

/-- The reference looks at where the number is only if just a five is dropped. -/
theorem decide_half (hmode : q.list.roundingMode.IsHalf) (hvalid : Valid (c.first :: c.rest))
    (hlast : number (c.first :: c.rest) % 10 ≠ 0) :
    decide q c = .ok (c.nearest
      (!c.rest.isEmpty || q.list.roundingMode.tieUp q.alreadyRounded q.exact c.keepsOdd)) := by
  unfold decide RoundingMode.tieUp
  cases hmodeEq : q.list.roundingMode with
  | halfUp => simp only [Bool.or_assoc]
  | halfDown => rfl
  | halfEven =>
    dsimp only
    congr 2
    rcases List.eq_nil_or_concat c.rest with hnil | ⟨front, d, hrest⟩
    · rw [hnil]
      rfl
    · -- The last digit that is dropped is not a zero.
      rw [List.concat_eq_append] at hrest
      have hpos : 0 < number c.rest := by
        rw [hrest, ← List.cons_append] at hlast hvalid
        rw [number_mod_ten hvalid] at hlast
        rw [hrest, number_concat]
        omega
      have hany : c.rest.any (· != DigitList.zeroDigit) = true := by
        obtain ⟨d, hd, hne⟩ :=
          (number_pos fun d hd => hvalid d (List.mem_cons_of_mem _ hd)).mp hpos
        exact List.any_eq_true.mpr ⟨d, hd, bne_iff_ne.mpr hne⟩
      have hempty : c.rest.isEmpty = false := by simp [hrest]
      rw [hany, hempty]
      rfl
  | _ =>
    rw [hmodeEq] at hmode
    exact hmode.elim

/-- **How the reference rounds to the nearest**: by half a unit of the last place that is kept, and
by where the number is if exactly that is dropped. -/
theorem answer_half (hmode : q.list.roundingMode.IsHalf) (hcut : cut? q = some c)
    (hkept : Valid c.kept) (hvalid : Valid (c.first :: c.rest))
    (hlast : number (c.first :: c.rest) % 10 ≠ 0) :
    ∃ up, answer q = .ok up ∧ (up = true ↔
      5 * 10 ^ c.rest.length < number (c.first :: c.rest) ∨
        number (c.first :: c.rest) = 5 * 10 ^ c.rest.length ∧
          q.list.roundingMode.tieUp q.alreadyRounded q.exact (number c.kept % 2 == 1) = true) := by
  have hanswer : answer q = .ok (c.nearest
      (!c.rest.isEmpty || q.list.roundingMode.tieUp q.alreadyRounded q.exact c.keepsOdd)) := by
    rw [answer, hcut]
    exact decide_half hmode hvalid hlast
  refine ⟨_, hanswer, ?_⟩
  rw [nearest_iff hvalid, keepsOdd_eq hkept]
  generalize q.list.roundingMode.tieUp q.alreadyRounded q.exact (number c.kept % 2 == 1) = tie
  cases hrest : c.rest with
  | nil =>
    cases tie <;> simp <;> omega
  | cons d rest =>
    rw [hrest] at hlast
    -- What is dropped ends in a digit that is not zero, so it is no tie.
    have hne : number (c.first :: d :: rest) ≠ 5 * 10 ^ (d :: rest).length := by
      intro heq
      rw [heq, List.length_cons, pow_succ] at hlast
      omega
    simp only [List.isEmpty_cons, Bool.not_false, Bool.true_or, and_true, hne, false_and, or_false]
    omega

end Reference

/-! ### Digit lists -/

/-- Digits that end before a unit are a multiple of it. -/
theorem ShortestDigits.exists_toRat_eq_mul {s : ShortestDigits} {p : ℤ}
    (hp : p ≤ s.decimalAt.toInt - s.digits.length) : ∃ k : ℤ, s.toRat = k * 10 ^ p := by
  refine ⟨number s.digits * 10 ^ (s.decimalAt.toInt - s.digits.length - p).toNat, ?_⟩
  rw [ShortestDigits.toRat]
  push_cast
  rw [mul_assoc, ← zpow_natCast, ← zpow_add₀ (by norm_num)]
  congr 2
  omega

/-- The reference answers without a change. -/
theorem Rounding.resolve_reference (r : Rounding) :
    (r.resolve Oracle.ask).run.run .reference = (r.resolve Reference.answer, .reference) := by
  cases r with
  | settled l => rfl
  | asks q answered =>
    have hask : (Oracle.ask q).run.run .reference = (Reference.answer q, .reference) := rfl
    cases h : Reference.answer q <;> rw [h] at hask <;> simp [Rounding.resolve, h, hask] <;> rfl

namespace DigitList

variable {l : DigitList} {s : ShortestDigits} {x : ℚ} {n : ℕ}

/-- Loading makes the printed digits the significant ones. -/
theorem significant_load (negative : Bool) : (l.load negative s).significant = s.digits :=
  List.take_length

/-- A word that stands for a natural number is read as that number. -/
theorem toNatClampNeg_of_toInt {p : Int32} (h : p.toInt = n) :
    p.toNatClampNeg = n ∧ ¬ p < 0 := by
  rw [← Int32.toNat_toInt, Int32.lt_iff_toInt_lt, h, Int32.toInt_zero]
  exact ⟨rfl, by omega⟩

/-- The digits in front of a place and behind it. -/
theorem cut?_load {negative : Bool} {place : Int32} (hplace : place.toInt = n)
    (hn : n < s.digits.length) : ∃ c : Reference.Cut,
      Reference.cut? ⟨l.load negative s, place, s.roundedUp, s.exact⟩ = some c ∧
        c.kept = s.digits.take n ∧ s.digits = c.kept ++ (c.first :: c.rest) := by
  obtain ⟨hnat, hnonneg⟩ := toNatClampNeg_of_toInt hplace
  have hdrop := List.drop_eq_getElem_cons hn
  refine ⟨⟨s.digits.take n, s.digits[n], s.digits.drop (n + 1)⟩, ?_, rfl, ?_⟩
  · unfold Reference.cut?
    rw [if_neg hnonneg]
    dsimp only
    rw [significant_load, hnat, hdrop]
  · rw [← hdrop, List.take_append_drop]

/-- Digits of which the first is compared with five, as a fraction of the unit in front of them. -/
theorem half_lt_iff {k n : ℕ} {dropped : ℚ} (h : dropped * (10 * 10 ^ k) = n) :
    5 * 10 ^ k < n ↔ 1 / 2 < dropped := by
  have hfive : (5 : ℚ) * 10 ^ k = 1 / 2 * (10 * 10 ^ k) := by ring
  rw [← Nat.cast_lt (α := ℚ), ← h]
  push_cast
  rw [hfive]
  exact mul_lt_mul_iff_left₀ (by positivity)

theorem eq_half_iff {k n : ℕ} {dropped : ℚ} (h : dropped * (10 * 10 ^ k) = n) :
    n = 5 * 10 ^ k ↔ dropped = 1 / 2 := by
  have hfive : (5 : ℚ) * 10 ^ k = 1 / 2 * (10 * 10 ^ k) := by ring
  rw [← Nat.cast_inj (R := ℚ), ← h]
  push_cast
  rw [hfive]
  exact mul_left_inj' (by positivity)

/-- **The answer to a question about shortest digits** rounds the number itself. -/
theorem rounds_answer (negative : Bool) {place : Int32} (hs : s.Sound x)
    (hmode : l.roundingMode.IsHalf) (hplace : place.toInt = n) (hn : n < s.digits.length) :
    let unit : ℚ := 10 ^ (s.decimalAt.toInt - n)
    (number (s.digits.take n) * unit < s.toRat ∧ s.toRat < (number (s.digits.take n) + 1) * unit) ∧
      ∃ up, Reference.answer ⟨l.load negative s, place, s.roundedUp, s.exact⟩ = .ok up ∧
        l.roundingMode.Rounds (x / unit) (number (s.digits.take n) + up.toNat : ℕ) := by
  intro unit
  obtain ⟨c, hcut, hkept, hdigits⟩ := @cut?_load l s n negative place hplace hn
  have hvalid := hs.valid
  rw [hdigits] at hvalid
  have hkeptValid : Valid c.kept := fun d hd => hvalid d (List.mem_append_left _ hd)
  have hdropped : Valid (c.first :: c.rest) := fun d hd => hvalid d (List.mem_append_right _ hd)
  have hnumber : number s.digits
      = number c.kept * 10 ^ (c.rest.length + 1) + number (c.first :: c.rest) := by
    rw [hdigits, number_append, List.length_cons]
  have hlength : s.digits.length = n + (c.rest.length + 1) := by
    rw [hdigits, List.length_append, hkept, List.length_take, Nat.min_eq_left hn.le,
      List.length_cons]
  have hlast : number (c.first :: c.rest) % 10 ≠ 0 := by
    have hlast := hs.last
    have hten : number c.kept * 10 ^ (c.rest.length + 1)
        = 10 * (number c.kept * 10 ^ c.rest.length) := by
      ring
    rw [hnumber, hten] at hlast
    omega
  have hlt := number_lt hdropped
  obtain ⟨up, hanswer, hup⟩ := Reference.answer_half (q := ⟨l.load negative s, place, s.roundedUp,
    s.exact⟩) hmode hcut hkeptValid hdropped hlast
  rw [List.length_cons] at hlt
  have hunit : 0 < unit := by positivity
  have hpow : (0 : ℚ) < 10 ^ c.rest.length := by positivity
  -- Behind the place there is a fraction of the unit.
  obtain ⟨dropped, hdroppedEq⟩ : ∃ dropped : ℚ,
      dropped * (10 * 10 ^ c.rest.length) = number (c.first :: c.rest) :=
    ⟨number (c.first :: c.rest) / (10 * 10 ^ c.rest.length), by field_simp⟩
  have htoRat : s.toRat = (number c.kept + dropped) * unit := by
    have hplace : (10 : ℚ) ^ (c.rest.length + 1 : ℕ) * 10 ^ (s.decimalAt.toInt - s.digits.length)
        = unit := by
      rw [← zpow_natCast, ← zpow_add₀ (by norm_num), hlength]
      congr 1
      push_cast
      ring
    rw [ShortestDigits.toRat, hnumber, ← hplace, Nat.cast_add, ← hdroppedEq]
    push_cast
    ring
  have hpos : 0 < dropped := by
    have hpos : (0 : ℚ) < number (c.first :: c.rest) := by
      exact_mod_cast Nat.pos_of_ne_zero fun hzero => hlast (by rw [hzero])
    rw [← hdroppedEq] at hpos
    exact (mul_pos_iff_of_pos_right (by positivity)).mp hpos
  have hlt : dropped < 1 := by
    have hlt : (number (c.first :: c.rest) : ℚ) < 10 ^ (c.rest.length + 1) := by exact_mod_cast hlt
    rw [← hdroppedEq, pow_succ] at hlt
    by_contra hle
    nlinarith
  rw [← hkept, htoRat]
  refine ⟨⟨mul_lt_mul_of_pos_right (by linarith) hunit,
    mul_lt_mul_of_pos_right (by linarith) hunit⟩, up, hanswer, ?_⟩
  refine @RoundingMode.rounds_of_between _ (x / unit) (number c.kept + dropped) _ hmode s.roundedUp
    s.exact up (by linarith) (by linarith) ?_ ?_ (fun j hj => ?_) ?_
  · rw [hs.roundedUp, htoRat, div_lt_iff₀ hunit]
  · rw [hs.exact, htoRat, eq_div_iff hunit.ne']
  · have htenth : ((5 * j : ℕ) : ℚ) * 10 ^ (s.decimalAt.toInt - n - 1) = j / 2 * unit := by
      rw [zpow_sub_one₀ (by norm_num)]
      push_cast
      ring
    have heq := hs.eq_of_between (5 * j) (s.decimalAt.toInt - n - 1) (by omega)
    rw [htenth, htoRat, mul_le_mul_iff_left₀ hunit, ← le_div_iff₀ hunit, ← div_le_iff₀ hunit,
      mul_le_mul_iff_left₀ hunit] at heq
    exact mul_right_cancel₀ hunit.ne' (heq hj)
  · rw [hup, half_lt_iff hdroppedEq, eq_half_iff hdroppedEq]
    exact or_congr (by constructor <;> intro h <;> linarith)
      (and_congr_left fun _ => by constructor <;> intro h <;> linarith)

/-- **What rounding comes to**: a list with digits, of the value of the shortest decimal if that has
no digits behind place `m`, and else of the number itself rounded to that place. -/
structure IsNearest (mode : RoundingMode) (s : ShortestDigits) (x : ℚ) (m : ℤ) (r : DigitList) :
    Prop where
  sound : r.Sound
  whole : (∃ n : ℤ, s.toRat = n * 10 ^ (-m)) → r.value = s.toRat
  nearest : (¬ ∃ n : ℤ, s.toRat = n * 10 ^ (-m)) →
    ∃ n : ℤ, r.value = n * 10 ^ (-m) ∧ mode.Rounds (x / 10 ^ (-m)) n

/-- A decimal between two neighbouring multiples of a unit is none. -/
theorem not_multiple {unit d : ℚ} {k : ℕ} (hunit : 0 < unit) (hlow : k * unit < d)
    (hhigh : d < (k + 1) * unit) : ¬ ∃ n : ℤ, d = n * unit := by
  rintro ⟨n, rfl⟩
  have hlow := lt_of_mul_lt_mul_right hlow hunit.le
  have hhigh := lt_of_mul_lt_mul_right hhigh hunit.le
  have hlow : (k : ℤ) < n := by exact_mod_cast hlow
  have hhigh : n < (k : ℤ) + 1 := by exact_mod_cast hhigh
  omega

/-- A list that is rounded to a multiple of the unit. -/
theorem isNearest_of_value {mode : RoundingMode} {m : ℤ} {k n : ℕ} {r : DigitList}
    (hsound : r.Sound) (hlow : k * 10 ^ (-m) < s.toRat) (hhigh : s.toRat < (k + 1) * 10 ^ (-m))
    (hvalue : r.value = n * 10 ^ (-m)) (hrounds : mode.Rounds (x / 10 ^ (-m)) n) :
    IsNearest mode s x m r :=
  ⟨hsound, fun h => absurd h (not_multiple (by positivity) hlow hhigh),
    fun _ => ⟨n, by rw [hvalue, Int.cast_natCast], hrounds⟩⟩

section Load

variable {m : Int32} (negative : Bool)

/-- Loading sets the point where the printed digits have it. -/
theorem decimalAt_load (h : s.digits ≠ []) : (l.load negative s).decimalAt = s.decimalAt := by
  have hempty : s.digits.isEmpty = false := List.isEmpty_eq_false_iff.mpr h
  rw [load, hempty]
  rfl

/-- A list without digits stands for zero. -/
theorem value_of_count (h : l.count = 0) : l.value = 0 := by
  rw [value, significant, h]
  simp

theorem sound_of_count (h : l.count = 0) : l.Sound :=
  ⟨fun d hd => by simp [significant, h] at hd, h ▸ Nat.zero_le _⟩

variable (hs : s.Sound x)
include hs

/-- A list loaded from sound digits is sound. -/
theorem sound_load : (l.load negative s).Sound :=
  ⟨by rw [significant_load]; exact hs.valid, le_rfl⟩

/-- A loaded list has the value of the digits loaded. -/
theorem value_load : (l.load negative s).value = s.toRat := by
  rw [value, significant_load, decimalAt_load negative hs.nonempty]
  rfl

/-- Shortest digits have no zeros at their end. -/
theorem trim_load : (l.load negative s).trim = l.load negative s := by
  -- Trimming only takes zeros, and the last printed digit is not one.
  refine trim_of_last fun hzero => hs.last ?_
  rcases List.eq_nil_or_concat s.digits with hnil | ⟨front, d, hdigits⟩
  · exact absurd hnil hs.nonempty
  · have hvalid := hs.valid
    rw [List.concat_eq_append] at hdigits
    have hlast : s.digits[s.digits.length - 1]? = some d := by
      rw [hdigits]
      simp
    have hd : d = zeroDigit := Option.some.inj (hlast.symm.trans hzero)
    rw [hdigits] at hvalid
    rw [hdigits, number_mod_ten hvalid, hd]
    rfl

/-- **Where nothing is dropped** the list keeps its value. -/
theorem isNearest_whole {mode : RoundingMode} {m : ℤ}
    (h : s.digits.length ≤ m + s.decimalAt.toInt) :
    IsNearest mode s x m (l.load negative s) :=
  ⟨sound_load negative hs, fun _ => value_load negative hs, fun hnot =>
    absurd (ShortestDigits.exists_toRat_eq_mul (by omega)) hnot⟩

/-- **Far below the last place** there is nothing. -/
theorem isNearest_below {mode : RoundingMode} {m : ℤ} (h : m + s.decimalAt.toInt < 0) :
    IsNearest mode s x m { l.load negative s with count := 0 } := by
  have hunit : (0 : ℚ) < 10 ^ (-m) := by positivity
  have hpos : 0 < s.toRat := by
    have hnumber : 0 < number s.digits := Nat.pos_of_ne_zero fun hzero => hs.last (by rw [hzero])
    unfold ShortestDigits.toRat
    positivity
  -- All digits stand behind the place of the tenths of the unit.
  have htenth : s.toRat < 10 ^ (-m - 1) :=
    (ShortestDigits.toRat_lt_zpow hs.valid).trans_le (zpow_le_zpow_right₀ (by norm_num) (by omega))
  have hten : (10 : ℚ) ^ (-m - 1) * 10 = 10 ^ (-m) := by
    rw [← zpow_add_one₀ (by norm_num)]
    congr 1
    omega
  have hplace : s.decimalAt.toInt - s.digits.length ≤ -m - 1 := by omega
  have hhalf : x < 10 ^ (-m) / 2 := by
    by_contra hle
    have hfive : ((5 : ℕ) : ℚ) * 10 ^ (-m - 1) = 10 ^ (-m) / 2 := by
      rw [← hten]
      push_cast
      ring
    have heq := hs.eq_of_between 5 (-m - 1) hplace
      (.inl (by rw [hfive]; constructor <;> linarith))
    push_cast at heq
    linarith
  have hzero : ({ l.load negative s with count := 0 } : DigitList).value = (0 : ℕ) * 10 ^ (-m) := by
    rw [value_of_count rfl, Nat.cast_zero, zero_mul]
  refine isNearest_of_value (k := 0) (sound_of_count rfl) (by simpa using hpos) ?_ hzero
    (RoundingMode.rounds_down ?_ ?_)
  · rw [Nat.cast_zero, zero_add, one_mul]
    linarith
  · rw [Nat.cast_zero]
    exact div_pos hs.pos hunit
  · rw [div_lt_iff₀ hunit]
    push_cast
    linarith

variable (hmode : l.roundingMode.IsHalf)
include hmode

/-- **Right below the last place** there is nothing, or one unit of that place. -/
theorem isNearest_first {m : ℤ} (h : m + s.decimalAt.toInt = 0) : ∃ up,
    Reference.answer ⟨l.load negative s, 0, s.roundedUp, s.exact⟩ = .ok up ∧
      IsNearest l.roundingMode s x m
        (if up then (l.load negative s).carryOut else { l.load negative s with count := 0 }) := by
  have hplace : s.decimalAt.toInt - (0 : ℕ) = -m := by omega
  have hlength : 0 < s.digits.length := List.length_pos_iff.mpr hs.nonempty
  obtain ⟨⟨hlow, hhigh⟩, up, hanswer, hrounds⟩ :=
    rounds_answer negative hs hmode Int32.toInt_zero hlength
  rw [hplace] at hlow hhigh hrounds
  -- The unit is above all digits, so what is kept is nothing or a single one carried out.
  refine ⟨up, hanswer, isNearest_of_value ?_ hlow hhigh ?_ hrounds⟩
  · cases up with
    | true => exact sound_carryOut
    | false => exact sound_of_count rfl
  · cases up with
    | true =>
      have hpoint := hs.point
      rw [if_pos rfl, value_carryOut (by rw [decimalAt_load negative hs.nonempty]; omega),
        decimalAt_load negative hs.nonempty, show s.decimalAt.toInt = -m by omega]
      simp
    | false =>
      rw [if_neg Bool.false_ne_true, value_of_count rfl]
      simp

/-- **Where digits are dropped**, the list is cut. -/
theorem isNearest_cut {m : ℤ} {place : Int32} (hplace : place.toInt = n)
    (hm : m + s.decimalAt.toInt = n) (hn : n < s.digits.length) : ∃ up,
    Reference.answer ⟨l.load negative s, place, s.roundedUp, s.exact⟩ = .ok up ∧
      IsNearest l.roundingMode s x m ((l.load negative s).cut n up) := by
  have hunit : s.decimalAt.toInt - n = -m := by omega
  obtain ⟨⟨hlow, hhigh⟩, up, hanswer, hrounds⟩ :=
    rounds_answer negative hs hmode hplace hn
  rw [hunit] at hlow hhigh hrounds
  have hpoint := hs.point
  -- The number lies between the cut and the next unit, and the answer says which is nearer.
  obtain ⟨hvalue, hsound⟩ := cut_spec (l := l.load negative s) (n := n)
    (by rw [decimalAt_load negative hs.nonempty]; omega)
    (fun d hd => hs.valid d (List.mem_of_mem_take hd)) hn.le up
  rw [decimalAt_load negative hs.nonempty, hunit] at hvalue
  refine ⟨up, hanswer, isNearest_of_value hsound hlow hhigh ?_ hrounds⟩
  rw [hvalue, Nat.cast_add]
  rfl

end Load

/-! ### Rounding to a place behind the point -/

section Set

variable {m : Int32} (negative : Bool) {v : Binary64}

/-- The point of a double is small enough to be negated as a word. -/
theorem toInt_neg_decimalAt {p : Int32} (hp : -400 < p.toInt ∧ p.toInt < 400) :
    (-p).toInt = -p.toInt := by
  rw [Int32.toInt_neg]
  exact Int.bmod_eq_of_le (by omega) (by omega)

/-- The point of a loaded list is a small word: neither its negation nor its sum with the places
wraps. -/
theorem toInt_decimalAt_load (hs : s.Sound x) (hlow : -2 ^ 31 ≤ m.toInt + s.decimalAt.toInt)
    (hhigh : m.toInt + s.decimalAt.toInt < 2 ^ 31) :
    (-(l.load negative s).decimalAt).toInt = -s.decimalAt.toInt ∧
      (m + (l.load negative s).decimalAt).toInt = m.toInt + s.decimalAt.toInt := by
  rw [decimalAt_load negative hs.nonempty]
  exact ⟨toInt_neg_decimalAt hs.point, (Int32.toInt_add ..).trans (Int.bmod_eq_of_le hlow hhigh)⟩

/-- The list that comes out of rounding to a place of the digits. -/
theorem exists_resolve_round (hs : s.Sound x) (hmode : l.roundingMode.IsHalf)
    {place : Int32} {m : ℤ} (hplace : place.toInt = n) (hm : m + s.decimalAt.toInt = n) :
    ∃ r, ((l.load negative s).round place s).resolve Reference.answer = .ok r ∧
      IsNearest l.roundingMode s x m r := by
  obtain ⟨hnat, hnonneg⟩ := toNatClampNeg_of_toInt hplace
  unfold round
  simp only [hnonneg, false_or, hnat]
  -- Either all digits stand before the place and nothing is cut, or the cut is one that the
  -- reference answers.
  split
  · next hwhole =>
    have hle : s.digits.length ≤ n := hwhole
    exact ⟨_, rfl, isNearest_whole negative hs (by omega)⟩
  · next hcut =>
    have hlt : n < s.digits.length := Nat.lt_of_not_le hcut
    obtain ⟨up, hanswer, hnearest⟩ := isNearest_cut negative hs hmode hplace hm hlt
    exact ⟨_, by rw [Rounding.resolve, hanswer]; rfl, hnearest⟩

/-- The list that comes out for a number with digits. -/
theorem exists_resolve_set (hs : (ShortestDigits.of v).Sound x) (hmode : l.roundingMode.IsHalf)
    (hlow : -2 ^ 31 ≤ m.toInt + (ShortestDigits.of v).decimalAt.toInt)
    (hhigh : m.toInt + (ShortestDigits.of v).decimalAt.toInt < 2 ^ 31) :
    ∃ r, (l.set negative v m true).resolve Reference.answer = .ok r ∧
      IsNearest l.roundingMode (ShortestDigits.of v) x m.toInt r := by
  unfold set
  dsimp only
  generalize ShortestDigits.of v = s at *
  obtain ⟨hneg, hsum⟩ := toInt_decimalAt_load (l := l) (m := m) negative hs hlow hhigh
  rw [trim_load negative hs]
  simp only [true_and, if_true]
  -- Far below the last place, right below it, or with digits in front of it.
  split
  · next hbelow =>
    rw [Int32.lt_iff_toInt_lt, hneg] at hbelow
    exact ⟨_, rfl, isNearest_below negative hs (by omega)⟩
  · next habove =>
    rw [Int32.lt_iff_toInt_lt, hneg] at habove
    split
    · next hfirst =>
      rw [← Int32.toInt_inj, hneg] at hfirst
      obtain ⟨up, hanswer, hnearest⟩ := isNearest_first negative hs hmode
        (show m.toInt + s.decimalAt.toInt = 0 by omega)
      exact ⟨_, by rw [Rounding.resolve, hanswer]; rfl, hnearest⟩
    · obtain ⟨n, hn⟩ := Int.eq_ofNat_of_zero_le (show 0 ≤ m.toInt + s.decimalAt.toInt by omega)
      exact exists_resolve_round negative hs hmode (hsum.trans hn) hn

/-- A list without digits is not asked to go up. -/
theorem answer_of_count {place : Int32} {roundedUp exact : Bool} (h : l.count = 0) :
    Reference.answer ⟨l, place, roundedUp, exact⟩ = .ok false := by
  have hcut : Reference.cut? ⟨l, place, roundedUp, exact⟩ = none := by
    unfold Reference.cut?
    simp [significant, h]
  rw [Reference.answer, hcut]

/-- A zero stays a zero. -/
theorem exists_resolve_zero (hzero : ShortestDigits.of v = .none 0 true) :
    ∃ r, (l.set negative v m true).resolve Reference.answer = .ok r ∧ r.count = 0 := by
  unfold set round
  rw [hzero]
  dsimp only
  have hcount : (l.load negative (.none 0 true)).count = 0 := rfl
  generalize l.load negative (.none 0 true) = loaded at hcount
  have htrim : loaded.trim.count = 0 := by
    rw [trim, hcount]
    rfl
  -- Zero has no digits, so wherever the place is nothing is cut and nothing is carried.
  split
  · exact ⟨_, rfl, rfl⟩
  · split
    · refine ⟨{ loaded with count := 0 }, ?_, rfl⟩
      rw [Rounding.resolve, answer_of_count hcount]
      rfl
    · rw [if_pos (.inr (htrim ▸ Nat.zero_le _))]
      exact ⟨_, rfl, htrim⟩

/-- **Rounding to the nearest rounds the number.** The digits of a positive number are its shortest
decimal. Rounding them to `m` places behind the point, with the reference to answer, leaves that
decimal if it has no more places, and else the number itself rounded to a multiple of `10 ^ -m`. -/
theorem set_nearest {sign : Bool} {mantissa : ℕ} {exponent : ℤ}
    (hv : v.unpack = .finite sign mantissa exponent) (hmode : l.roundingMode.IsHalf)
    (hlow : -2 ^ 31 ≤ m.toInt + (ShortestDigits.of v).decimalAt.toInt)
    (hhigh : m.toInt + (ShortestDigits.of v).decimalAt.toInt < 2 ^ 31) :
    (if mantissa = 0 then (ShortestDigits.of v).toRat = 0
      else ∃ d, (BinaryFormat.binary64.span mantissa exponent).Shortest d ∧
        (ShortestDigits.of v).toRat = d.toRat) ∧
    ∃ r, ((l.set negative v m true).resolve Oracle.ask).run.run .reference = (.ok r, .reference) ∧
      IsNearest l.roundingMode (ShortestDigits.of v) (Binary64.toRat mantissa exponent)
        m.toInt r := by
  -- Zero prints without digits and is apart: it has no span to be shortest in.
  by_cases hzero : mantissa = 0
  · subst hzero
    have hof : ShortestDigits.of v = .none 0 true := by
      unfold ShortestDigits.of
      rw [hv]
      rfl
    have htoRat : (ShortestDigits.of v).toRat = 0 := by
      rw [hof, ShortestDigits.toRat]
      simp [ShortestDigits.none]
    obtain ⟨r, hr, hcount⟩ := exists_resolve_zero (l := l) (m := m) negative hof
    refine ⟨by rw [if_pos rfl, htoRat], r, by rw [Rounding.resolve_reference, hr],
      sound_of_count hcount, fun _ => ?_, fun hnot => absurd ⟨0, ?_⟩ hnot⟩
    · rw [value_of_count hcount, htoRat]
    · rw [htoRat, Int.cast_zero, zero_mul]
  · obtain ⟨hs, hshortest⟩ := ShortestDigits.sound_of hv hzero
    obtain ⟨r, hr, hnearest⟩ := exists_resolve_set negative hs hmode hlow hhigh
    exact ⟨by rwa [if_neg hzero], r, by rw [Rounding.resolve_reference, hr], hnearest⟩

/-- An eighth, rounded to two places. -/
theorem set_nearest_eighth :
    let v : Binary64 := ⟨0x3FC0000000000000⟩
    let l : DigitList := { roundingMode := .halfEven }
    let r : DigitList := ⟨[49, 50, 53], 2, 0, false, .halfEven⟩
    v.unpack = .finite false (2 ^ 52) (-55) ∧
      ((l.set false v 2 true).resolve Oracle.ask).run.run .reference = (.ok r, .reference) ∧
      IsNearest .halfEven (ShortestDigits.of v) (Binary64.toRat (2 ^ 52) (-55)) 2 r ∧
      r.value = 12 / 100 := by
  intro v l r
  have hv : v.unpack = .finite false (2 ^ 52) (-55) := by decide
  obtain ⟨hs, -⟩ := ShortestDigits.sound_of hv (by omega)
  have hm : (2 : Int32).toInt = 2 := rfl
  have hpoint := hs.point
  have hset : ((l.set false v 2 true).resolve Oracle.ask).run.run .reference
      = (.ok r, .reference) := by
    dsimp only [l, v, r]
    rfl
  obtain ⟨-, r', hset', hnearest⟩ :=
    @set_nearest l 2 false v false (2 ^ 52) (-55) hv trivial (by omega) (by omega)
  obtain rfl : r = r' := Except.ok.inj (congrArg Prod.fst (hset.symm.trans hset'))
  have hvalue : r.value = ((12 : ℕ) : ℚ) * 10 ^ (-2 : ℤ) := rfl
  exact ⟨hv, hset, hnearest, hvalue.trans (by norm_num)⟩

end Set

end DigitList

end RoundingPatch
