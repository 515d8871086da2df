import Mathlib.Algebra.Order.Field.Power
import Mathlib.Data.Rat.Cast.Order
import Mathlib.Tactic.FieldSimp
import Mathlib.Tactic.Linarith
import Mathlib.Tactic.NormNum
import Mathlib.Tactic.Positivity
import Mathlib.Tactic.Ring
import RoundingPatch.Decimal.Shortest
/-!
# The shortest decimal of a number

`s.Mem x` says that a rational number lies in a span. `s.Shortest d` says that a decimal does, that
no coarser grid of decimals has a point there, and that no other point of its own grid is nearer to
the number. The search finds such a decimal in every span that is not too narrow (`shortest_spec`).
So between a number and its shortest decimal, no other decimal lies on the same grid or on a coarser
one (`Shortest.eq_of_between`).
-/

namespace RoundingPatch

/-- The natural part of an exponent. -/
theorem pow_toNat {b : ℚ} (hb : b ≠ 0) (e : ℤ) : b ^ e.toNat = b ^ e * b ^ (-e).toNat := by
  rw [← zpow_natCast, ← zpow_natCast, ← zpow_add₀ hb]
  congr 1
  omega

/-- The number that a decimal is. -/
def Decimal.toRat (d : Decimal) : ℚ :=
  d.coefficient * 10 ^ d.exponent

namespace Span

variable {s : Span} {p : ℤ} {n d : ℕ} {x y z : ℚ}

/-! ### Membership -/

/-- The place `n` of a span. -/
def place (s : Span) (n : ℕ) : ℚ :=
  n * 2 ^ s.exponent

/-- The number in the middle. -/
def number (s : Span) : ℚ :=
  s.place s.value

/-- The number lies in the span. -/
def Mem (s : Span) (x : ℚ) : Prop :=
  if s.closed then s.place s.low ≤ x ∧ x ≤ s.place s.high
  else s.place s.low < x ∧ x < s.place s.high

/-- The places of a span keep the order of the integers they stand for. -/
theorem place_lt {m n : ℕ} : s.place m < s.place n ↔ m < n := by
  unfold place
  rw [mul_lt_mul_iff_left₀ (by positivity), Nat.cast_lt]

/-- What lies strictly between the ends is in the span, closed or open. -/
theorem mem_of_lt (hlow : s.place s.low < x) (hhigh : x < s.place s.high) : s.Mem x := by
  unfold Mem
  split
  · exact ⟨hlow.le, hhigh.le⟩
  · exact ⟨hlow, hhigh⟩

/-- A member of a span lies between its ends. -/
theorem Mem.bounds (h : s.Mem x) : s.place s.low ≤ x ∧ x ≤ s.place s.high := by
  unfold Mem at h
  split at h
  · exact h
  · exact ⟨h.1.le, h.2.le⟩

/-- A span has no gaps. -/
theorem Mem.between (hx : s.Mem x) (hz : s.Mem z) (hxy : x ≤ y) (hyz : y ≤ z) : s.Mem y := by
  unfold Mem at hx hz ⊢
  split at hx
  · next hclosed =>
    rw [if_pos hclosed] at hz ⊢
    exact ⟨hx.1.trans hxy, hyz.trans hz.2⟩
  · next hopen =>
    rw [if_neg hopen] at hz ⊢
    exact ⟨hx.1.trans_le hxy, hyz.trans_lt hz.2⟩

/-! ### Grids -/

theorem step_pos : 0 < s.step p :=
  Nat.mul_pos (Nat.pow_pos (by omega)) (Nat.pow_pos (by omega))

/-- A place of a span on the grid `10 ^ p`. -/
theorem cast_places (s : Span) (p : ℤ) (n : ℕ) :
    (s.places p n : ℚ) * 10 ^ p = s.place n * s.step p := by
  have htwo : (2 : ℚ) ^ s.exponent.toNat = 2 ^ s.exponent * 2 ^ (-s.exponent).toNat :=
    pow_toNat (by norm_num) _
  have hten : (10 : ℚ) ^ p.toNat = 10 ^ p * 10 ^ (-p).toNat := pow_toNat (by norm_num) _
  have hplaces : (s.places p n : ℚ) = n * 2 ^ s.exponent.toNat * 10 ^ (-p).toNat := by
    rw [places]
    push_cast [Nat.pow_eq]
    rfl
  have hstep : (s.step p : ℚ) = 2 ^ (-s.exponent).toNat * 10 ^ p.toNat := by
    rw [step]
    push_cast [Nat.pow_eq]
    rfl
  rw [hplaces, hstep, htwo, hten, place]
  ring

/-- Comparing scaled integers from below decides the comparison of the numbers themselves. -/
theorem places_le : s.places p n ≤ d * s.step p ↔ s.place n ≤ d * 10 ^ p := by
  have hstep : (0 : ℚ) < s.step p := by exact_mod_cast step_pos
  have hten : (0 : ℚ) < 10 ^ p := by positivity
  rw [← Nat.cast_le (α := ℚ), ← mul_le_mul_iff_left₀ hten, cast_places, Nat.cast_mul,
    mul_right_comm, mul_le_mul_iff_left₀ hstep]

/-- Comparing scaled integers from above decides the comparison of the numbers themselves. -/
theorem le_places : d * s.step p ≤ s.places p n ↔ d * 10 ^ p ≤ s.place n := by
  have hstep : (0 : ℚ) < s.step p := by exact_mod_cast step_pos
  have hten : (0 : ℚ) < 10 ^ p := by positivity
  rw [← Nat.cast_le (α := ℚ), ← mul_le_mul_iff_left₀ hten, cast_places, Nat.cast_mul,
    mul_right_comm, mul_le_mul_iff_left₀ hstep]

/-- **The integer test of a span is exact**: it holds of a candidate just when the candidate is a
member. -/
theorem contains_iff : s.contains d p = true ↔ s.Mem (d * 10 ^ p) := by
  unfold contains Mem
  dsimp only
  split
  · rw [Bool.and_eq_true, decide_eq_true_iff, decide_eq_true_iff, places_le, le_places]
  · rw [Bool.and_eq_true, decide_eq_true_iff, decide_eq_true_iff, ← not_le, ← not_le, places_le,
      le_places, not_le, not_le]

/-- The neighbours of the number on a grid. -/
theorem floor_bounds (s : Span) (p : ℤ) :
    let d := s.places p s.value / s.step p
    d * 10 ^ p ≤ s.number ∧ s.number < (d + 1 : ℕ) * 10 ^ p := by
  intro d
  have hlow : d * s.step p ≤ s.places p s.value := Nat.div_mul_le_self ..
  have hhigh : s.places p s.value < (d + 1) * s.step p := by
    rw [Nat.mul_comm]
    exact Nat.lt_mul_div_succ _ step_pos
  exact ⟨le_places.mp hlow, not_le.mp fun hle =>
    absurd (le_places.mpr hle) (Nat.not_le_of_lt hhigh)⟩

/-- Which of the two neighbours is nearer. -/
theorem two_mul_places_lt :
    2 * s.places p s.value < (2 * d + 1) * s.step p ↔ 2 * s.number < (2 * d + 1) * 10 ^ p := by
  have hdouble : 2 * s.places p s.value = s.places p (2 * s.value) := by
    unfold places
    ring
  have hplace : s.place (2 * s.value) = 2 * s.number := by
    unfold number place
    push_cast
    ring
  rw [hdouble, ← not_le, le_places, hplace, not_le]
  push_cast
  rfl

/-- **The point of a grid** that is taken is the nearest in the span. -/
theorem nearest?_eq_some (hx : s.Mem s.number) (h : s.nearest? p = some n) :
    s.Mem (n * 10 ^ p) ∧
      ∀ c : ℕ, s.Mem (c * 10 ^ p) → |n * 10 ^ p - s.number| ≤ |c * 10 ^ p - s.number| := by
  obtain ⟨hlow, hhigh⟩ := floor_bounds s p
  have htie := two_mul_places_lt (s := s) (p := p) (d := s.places p s.value / s.step p)
  unfold nearest? at h
  dsimp only at h
  generalize s.places p s.value / s.step p = d at *
  have hten : (0 : ℚ) < 10 ^ p := by positivity
  push_cast at hhigh
  -- A point on either side of the number is at least as far away as the neighbour on that side.
  have hbelow {c : ℕ} (hc : c ≤ d) : |d * 10 ^ p - s.number| ≤ |c * 10 ^ p - s.number| := by
    have hcd : (c : ℚ) * 10 ^ p ≤ d * 10 ^ p :=
      mul_le_mul_of_nonneg_right (by exact_mod_cast hc) hten.le
    rw [abs_of_nonpos (by linarith), abs_of_nonpos (by linarith)]
    linarith
  have habove {c : ℕ} (hc : d + 1 ≤ c) :
      |((d + 1 : ℕ) : ℚ) * 10 ^ p - s.number| ≤ |c * 10 ^ p - s.number| := by
    have hcd : ((d + 1 : ℕ) : ℚ) * 10 ^ p ≤ c * 10 ^ p :=
      mul_le_mul_of_nonneg_right (by exact_mod_cast hc) hten.le
    push_cast at hcd ⊢
    rw [abs_of_nonneg (by linarith), abs_of_nonneg (by linarith)]
    linarith
  have hdistances : |d * 10 ^ p - s.number| = s.number - d * 10 ^ p ∧
      |((d + 1 : ℕ) : ℚ) * 10 ^ p - s.number| = (d + 1) * 10 ^ p - s.number := by
    push_cast
    rw [abs_of_nonpos (by linarith), abs_of_nonneg (by linarith)]
    exact ⟨by ring, rfl⟩
  split at h
  · next hd hd' =>
    rw [contains_iff] at hd hd'
    split at h
    · next hlt =>
      cases h
      refine ⟨hd, fun c hc => (le_or_gt c n).elim hbelow fun hgt => ?_⟩
      refine le_trans ?_ (habove hgt)
      have := htie.mp hlt
      rw [hdistances.1, hdistances.2]
      linarith
    · next hle =>
      cases h
      refine ⟨hd', fun c hc => (le_or_gt c d).elim (fun hle' => ?_) habove⟩
      refine le_trans ?_ (hbelow hle')
      have := not_lt.mp (mt htie.mpr hle)
      rw [hdistances.1, hdistances.2]
      linarith
  · next hd hd' =>
    rw [contains_iff] at hd
    rw [← Bool.not_eq_true, contains_iff] at hd'
    cases h
    refine ⟨hd, fun c hc => (le_or_gt c n).elim hbelow fun hgt => ?_⟩
    -- A point above would put the upper neighbour in the span too.
    refine absurd (hx.between hc ?_ ?_) hd'
    · push_cast
      linarith
    · exact mul_le_mul_of_nonneg_right (by exact_mod_cast hgt) hten.le
  · next hd hd' =>
    rw [contains_iff] at hd'
    rw [← Bool.not_eq_true, contains_iff] at hd
    cases h
    refine ⟨hd', fun c hc => (le_or_gt c d).elim (fun hle => ?_) habove⟩
    exact absurd (hc.between hx (mul_le_mul_of_nonneg_right (by exact_mod_cast hle) hten.le) hlow)
      hd
  · cases h

/-- **A grid has no point in the span** if neither neighbour of the number is one. -/
theorem nearest?_eq_none (hx : s.Mem s.number) (h : s.nearest? p = none) (c : ℕ) :
    ¬ s.Mem (c * 10 ^ p) := by
  obtain ⟨hlow, hhigh⟩ := floor_bounds s p
  unfold nearest? at h
  dsimp only at h
  generalize s.places p s.value / s.step p = d at *
  have hten : (0 : ℚ) < 10 ^ p := by positivity
  intro hc
  split at h
  · split at h <;> cases h
  · cases h
  · cases h
  · next hd hd' =>
    rw [← Bool.not_eq_true, contains_iff] at hd hd'
    -- A member on either side of the number would put the neighbour `d` or `d + 1` in the span too.
    rcases le_or_gt c d with hle | hgt
    · exact hd (hc.between hx (mul_le_mul_of_nonneg_right (by exact_mod_cast hle) hten.le) hlow)
    · exact hd' (hx.between hc hhigh.le
        (mul_le_mul_of_nonneg_right (by exact_mod_cast hgt) hten.le))

/-! ### The search -/

/-- A span around a positive number that the finest grid has a point in. -/
structure Proper (s : Span) : Prop where
  low_pos : 0 < s.low
  low_lt : s.low < s.value
  lt_high : s.value < s.high
  exponent_ge : -1076 ≤ s.exponent

/-- **A shortest decimal** of a span: it lies in the span, no coarser grid has a point there, and
of the points on its own grid it is the nearest to the number. -/
structure Shortest (s : Span) (d : Decimal) : Prop where
  mem : s.Mem d.toRat
  coarsest : ∀ (c : ℕ) (p : ℤ), s.Mem (c * 10 ^ p) → p ≤ d.exponent
  nearest : ∀ c : ℕ, s.Mem (c * 10 ^ d.exponent) →
    |d.toRat - s.number| ≤ |c * 10 ^ d.exponent - s.number|

theorem Proper.mem_number (h : s.Proper) : s.Mem s.number :=
  mem_of_lt (place_lt.mpr h.low_lt) (place_lt.mpr h.lt_high)

/-- The members of a proper span are positive. -/
theorem Proper.pos_of_mem (h : s.Proper) (hx : s.Mem x) : 0 < x := by
  have hlow : 0 < s.place s.low := by
    have := h.low_pos
    unfold place
    positivity
  exact hlow.trans_le hx.bounds.1

/-- A step of the finest grid is less than a quarter of the least place of all. -/
theorem ten_finest_le : (10 : ℚ) ^ finest ≤ 2 ^ (-1076 : ℤ) := by
  have hpow : (2 : ℚ) ^ 1076 ≤ 10 ^ 343 := by
    calc (2 : ℚ) ^ 1076 ≤ 2 ^ (22 * 49) := pow_le_pow_right₀ (by norm_num) (by norm_num)
      _ = (2 ^ 22) ^ 49 := pow_mul ..
      _ ≤ (10 ^ 7) ^ 49 := pow_le_pow_left₀ (by norm_num) (by norm_num) 49
      _ = 10 ^ 343 := (pow_mul ..).symm
  rw [finest, zpow_neg, zpow_neg]
  exact inv_anti₀ (by positivity) (by exact_mod_cast hpow)

/-- The finest grid has a point in the span. -/
theorem Proper.nearest?_finest (h : s.Proper) : s.nearest? finest ≠ none := by
  intro hnone
  obtain ⟨hlow, hhigh⟩ := floor_bounds s finest
  refine nearest?_eq_none h.mem_number hnone _
    (mem_of_lt ?_ (hlow.trans_lt (place_lt.mpr h.lt_high)))
  -- The finest grid is no coarser than the distance from the number to its lower neighbour.
  have hstep : (10 : ℚ) ^ finest ≤ 2 ^ s.exponent :=
    ten_finest_le.trans (zpow_le_zpow_right₀ (by norm_num) h.exponent_ge)
  have hplace : s.place s.low + 2 ^ s.exponent ≤ s.number := by
    have hle : s.place (s.low + 1) ≤ s.number := by
      unfold number place
      exact mul_le_mul_of_nonneg_right (by exact_mod_cast h.low_lt) (by positivity)
    refine le_trans (le_of_eq ?_) hle
    unfold place
    push_cast
    ring
  push_cast at hhigh
  linarith

/-- The grids from `coarsest` on are too coarse. -/
theorem Proper.lt_coarsest (h : s.Proper) {c : ℕ} (hc : s.Mem (c * 10 ^ p)) : p < s.coarsest := by
  by_contra hle
  have hpos := h.pos_of_mem hc
  have hten : (0 : ℚ) < 10 ^ p := by positivity
  have hone : (1 : ℚ) ≤ c := by
    have hne : c ≠ 0 := by
      rintro rfl
      simp at hpos
    exact_mod_cast Nat.one_le_iff_ne_zero.mpr hne
  have hlt : s.places 0 s.high / s.step 0 < 10 ^ s.coarsest :=
    (Nat.length_toDigits_le_iff (by omega) Nat.length_toDigits_pos).mp (Nat.le_refl _)
  have hhigh : s.places 0 s.high < 10 ^ s.coarsest * s.step 0 := by
    rwa [Nat.div_lt_iff_lt_mul step_pos] at hlt
  -- The high end has fewer than `s.coarsest` digits, so it lies below that power of ten.
  have hplace : s.place s.high < 10 ^ (s.coarsest : ℤ) := by
    have := mt le_places.mpr (Nat.not_le_of_lt hhigh)
    push_cast at this
    simpa using this
  have hgrid : (10 : ℚ) ^ (s.coarsest : ℤ) ≤ 10 ^ p := zpow_le_zpow_right₀ (by norm_num) (by omega)
  have hbound := hc.bounds.2
  nlinarith

/-- **What the search finds**, if no grid above those that it tries has a point. -/
theorem search_spec (h : s.Proper)
    (habove : ∀ (c : ℕ) (p : ℤ), s.Mem (c * 10 ^ p) → p ≤ finest + n) :
    s.Shortest (s.search n) := by
  -- On the grids left to search: the first that has a member wins, and one that has none drops out
  -- of the bound.
  induction n with
  | zero =>
    obtain ⟨c, hc⟩ := Option.ne_none_iff_exists'.mp h.nearest?_finest
    obtain ⟨hmem, hnearest⟩ := nearest?_eq_some h.mem_number hc
    rw [search, hc]
    exact ⟨hmem, fun c p hp => by simpa using habove c p hp, hnearest⟩
  | succ n ih =>
    rw [search]
    split
    · next c hc =>
      obtain ⟨hmem, hnearest⟩ := nearest?_eq_some h.mem_number hc
      exact ⟨hmem, fun c p hp => by simpa using habove c p hp, hnearest⟩
    · next hnone =>
      refine ih fun c p hp => ?_
      have hle := habove c p hp
      by_contra hgt
      have heq : p = finest + (n + 1) := by
        push_cast at hle
        omega
      subst heq
      exact nearest?_eq_none h.mem_number hnone c hp

/-- **The shortest decimal is one.** -/
theorem shortest_spec (h : s.Proper) : s.Shortest s.shortest := by
  refine search_spec h fun c p hp => ?_
  have hlt := h.lt_coarsest hp
  have hfinest : finest = -343 := rfl
  omega

/-- **Nothing lies between** a number and its shortest decimal, on the grid of the decimal or on a
coarser one. -/
theorem Shortest.eq_of_between {d : Decimal} (h : s.Shortest d) (hx : s.Mem s.number)
    (hp : d.exponent ≤ p) {c : ℕ}
    (hc : d.toRat ≤ c * 10 ^ p ∧ c * 10 ^ p ≤ s.number ∨
      s.number ≤ c * 10 ^ p ∧ c * 10 ^ p ≤ d.toRat) : (c : ℚ) * 10 ^ p = d.toRat := by
  have hmem : s.Mem (c * 10 ^ p) := by
    rcases hc with ⟨hleft, hright⟩ | ⟨hleft, hright⟩
    · exact h.mem.between hx hleft hright
    · exact hx.between h.mem hleft hright
  -- A candidate between two members is a member, so its grid cannot be coarser than the shortest
  -- one.
  obtain rfl : p = d.exponent := le_antisymm (h.coarsest c p hmem) hp
  have hnearest := h.nearest c hmem
  rcases hc with ⟨hleft, hright⟩ | ⟨hleft, hright⟩
  · rw [abs_of_nonpos (by linarith), abs_of_nonpos (by linarith)] at hnearest
    linarith
  · rw [abs_of_nonneg (by linarith), abs_of_nonneg (by linarith)] at hnearest
    linarith

/-- The coefficient of a shortest decimal does not end in a zero. -/
theorem Shortest.mod_ten_ne_zero {d : Decimal} (h : s.Shortest d) : d.coefficient % 10 ≠ 0 := by
  intro hzero
  obtain ⟨c, hc⟩ := Nat.dvd_of_mod_eq_zero hzero
  -- A last digit zero could be dropped, and the same number would lie on a coarser grid.
  have hle := h.coarsest c (d.exponent + 1) (by
    have hmem := h.mem
    rw [Decimal.toRat, hc] at hmem
    rw [zpow_add_one₀ (by norm_num)]
    push_cast at hmem
    convert hmem using 1
    ring)
  omega

/-- **No decimal in the span has fewer digits** than a shortest one. -/
theorem Shortest.length_digits_le {c d : Decimal} (h : s.Shortest d) (hc : s.Mem c.toRat) :
    d.digits.length ≤ c.digits.length := by
  by_contra hlt
  have hgrid : c.exponent ≤ d.exponent := h.coarsest c.coefficient c.exponent hc
  have hlength : 0 < c.digits.length := Nat.length_toDigits_pos
  have hfewer : c.coefficient < 10 ^ c.digits.length :=
    (Nat.length_toDigits_le_iff (by omega) hlength).mp (Nat.le_refl _)
  have hmore : 10 ^ c.digits.length ≤ d.coefficient :=
    Nat.le_of_not_lt fun hle => hlt ((Nat.length_toDigits_le_iff (by omega) hlength).mpr hle)
  -- So there is a power of ten in between, and that is on a coarser grid.
  have hpower : (10 : ℚ) ^ c.digits.length * 10 ^ d.exponent
      = (1 : ℕ) * 10 ^ (c.digits.length + d.exponent) := by
    rw [zpow_add₀ (by norm_num), zpow_natCast, Nat.cast_one, one_mul]
  have hmem : s.Mem ((1 : ℕ) * 10 ^ (c.digits.length + d.exponent)) := by
    refine hc.between h.mem ?_ ?_
    · rw [← hpower]
      exact mul_le_mul (by exact_mod_cast hfewer.le) (zpow_le_zpow_right₀ (by norm_num) hgrid)
        (by positivity) (by positivity)
    · rw [← hpower]
      exact mul_le_mul_of_nonneg_right (by exact_mod_cast hmore) (by positivity)
  have hle := h.coarsest 1 _ hmem
  omega

end Span

end RoundingPatch
