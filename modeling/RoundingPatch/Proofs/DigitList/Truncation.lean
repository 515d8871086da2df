import Mathlib.Data.Rat.Floor
import RoundingPatch.Proofs.DigitList.Nearest
import RoundingPatch.Proofs.Failing
/-!
# Cutting digits off

Rounding a digit list to some place leaves the greatest multiple of the unit of that place below the
number, or one unit more. `Truncates` says what the list asks on the way and what either answer
makes of it, whatever the mode and whoever answers (`set_truncates`). A list that comes out is in
normal form (`IsNormal`): trimming takes the zeros at its end, and a carry leaves no zero in front,
since the first digit of the number is none (`isNormal_cut`).
-/

namespace RoundingPatch

open Digits

namespace Digits

variable {digits : Bytes} {n : ℕ}

/-- Digits that denote a number with as many digits do not start with a zero. -/
theorem head?_ne_zero (hvalid : Valid digits) (h : 10 ^ (digits.length - 1) ≤ number digits) :
    digits.head? ≠ some DigitList.zeroDigit := by
  rintro hhead
  obtain ⟨rest, rfl⟩ := List.head?_eq_some_iff.mp hhead
  have hlt := number_lt fun d hd => hvalid d (List.mem_cons_of_mem _ hd)
  rw [number_cons, List.length_cons, Nat.add_sub_cancel,
    show DigitList.zeroDigit.toNat - 48 = 0 from rfl] at h
  omega

/-- **The first digits of a number** are the number without the others. -/
theorem number_div (h : Valid digits) (n : ℕ) :
    number digits / 10 ^ (digits.length - n) = number (digits.take n) := by
  have hsplit := @number_append (digits.take n) (digits.drop n)
  have hlt := number_lt (h.drop n)
  rw [List.take_append_drop, List.length_drop] at hsplit
  rw [List.length_drop] at hlt
  rw [hsplit, Nat.mul_comm, Nat.mul_add_div (Nat.pow_pos (by omega)), Nat.div_eq_of_lt hlt,
    Nat.add_zero]

end Digits

namespace ShortestDigits

variable {v : Binary64} {s : ShortestDigits} {x : ℚ} {n : ℕ}

/-- A zero has no digits. -/
theorem of_zero {negative : Bool} {exponent : ℤ} (hv : v.unpack = .finite negative 0 exponent) :
    of v = .none 0 true := by
  rw [of, hv]
  rfl

/-- The point of a number is not far from its first digit. -/
theorem point_of {negative : Bool} {mantissa : ℕ} {exponent : ℤ}
    (hv : v.unpack = .finite negative mantissa exponent) :
    -400 < (of v).decimalAt.toInt ∧ (of v).decimalAt.toInt < 400 := by
  by_cases hzero : mantissa = 0
  · subst hzero
    rw [of_zero hv]
    decide
  · exact (sound_of hv hzero).1.point

/-- Shortest digits have no zero in front. -/
theorem head?_of {negative : Bool} {mantissa : ℕ} {exponent : ℤ}
    (hv : v.unpack = .finite negative mantissa exponent) (hpos : mantissa ≠ 0) :
    (of v).digits.head? ≠ some DigitList.zeroDigit := by
  have hs := (sound_of hv hpos).1
  have hlast := hs.last
  refine Digits.head?_ne_zero hs.valid ?_
  rw [digits_of hv hpos, Digits.number_ofNat] at hlast ⊢
  exact Digits.pow_length_ofNat_le (by omega)

/-- **The number in units of a place** is the number that the digits in front of the place denote,
and a fraction. -/
theorem floor_toRat (h : Digits.Valid s.digits) (hn : n ≤ s.digits.length) :
    ⌊s.toRat / 10 ^ (s.decimalAt.toInt - n)⌋ = (Digits.number (s.digits.take n) : ℤ) := by
  have hunit : (10 : ℚ) ^ (s.decimalAt.toInt - n)
      = 10 ^ (s.decimalAt.toInt - s.digits.length) * ((10 ^ (s.digits.length - n) : ℕ) : ℚ) := by
    push_cast
    rw [← zpow_natCast, ← zpow_add₀ (by norm_num)]
    congr 1
    omega
  have hdiv : s.toRat / 10 ^ (s.decimalAt.toInt - n)
      = (Digits.number s.digits : ℚ) / ((10 ^ (s.digits.length - n) : ℕ) : ℚ) := by
    rw [toRat, hunit, mul_comm, mul_div_mul_left _ _ (by positivity)]
  rw [hdiv, Rat.floor_natCast_div_natCast, ← Digits.number_div h]
  rfl

end ShortestDigits

namespace Rounding

variable {rounding : Rounding}

/-- Rounding leads to a list, and nobody is asked. -/
def Settles (rounding : Rounding) (r : DigitList) : Prop :=
  ∀ (σ : Type) (ask : RoundingQuestion → ExceptT Fault (StateM σ) Bool) t,
    Yields (rounding.resolve ask) t r t

/-- Rounding puts one question, and each answer leads to a list with a property. Where there is no
answer there is no list. -/
def Puts (rounding : Rounding) (q : RoundingQuestion) (Leads : Bool → DigitList → Prop) : Prop :=
  ∀ (σ : Type) (ask : RoundingQuestion → ExceptT Fault (StateM σ) Bool) t t',
    (∀ up, Yields (ask q) t up t' → ∃ r, Yields (rounding.resolve ask) t r t' ∧ Leads up r) ∧
    ∀ fault, Fails (ask q) t fault t' → Fails (rounding.resolve ask) t fault t'

theorem settles_settled {r : DigitList} : (settled r).Settles r :=
  fun _ _ _ => yields_pure.mpr ⟨rfl, rfl⟩

/-- A rounding that asks puts its question, and an answer leads where it leads. -/
theorem puts_asks {q : RoundingQuestion} {answered : Bool → DigitList}
    {Leads : Bool → DigitList → Prop} (h : ∀ up, Leads up (answered up)) :
    (asks q answered).Puts q Leads :=
  fun _ _ _ _ => ⟨fun up hyields => ⟨answered up, yields_map.mpr ⟨up, hyields, rfl⟩, h up⟩,
    fun _ hfails => fails_map.mpr hfails⟩

theorem Puts.mono {q : RoundingQuestion} {Leads Leads' : Bool → DigitList → Prop}
    (h : rounding.Puts q Leads) (hleads : ∀ up r, Leads up r → Leads' up r) :
    rounding.Puts q Leads' := by
  intro σ ask t t'
  obtain ⟨hyields, hfails⟩ := h σ ask t t'
  refine ⟨fun up hup => ?_, hfails⟩
  obtain ⟨r, hr, hlead⟩ := hyields up hup
  exact ⟨r, hr, hleads up r hlead⟩

/-- Where a question is put, nothing is settled without an answer. -/
theorem not_settles_asks {q : RoundingQuestion} {answered : Bool → DigitList} {r : DigitList} :
    ¬ (asks q answered).Settles r := by
  intro h
  have hyields := h Unit (fun _ => throw (.execution (.uncaught "" none))) ()
  obtain ⟨_, hthrow, -⟩ := yields_map.mp hyields
  exact yields_throw hthrow

/-- Only one question is put. -/
theorem eq_of_puts {q q' : RoundingQuestion} {answered : Bool → DigitList}
    {Leads : Bool → DigitList → Prop} (h : (asks q answered).Puts q' Leads) : q' = q := by
  by_contra hne
  -- Who answers `q'` but not `q` would be enough for `q'`.
  let ask : RoundingQuestion → ExceptT Fault (StateM Unit) Bool := fun x =>
    if x = q then throw (.execution (.uncaught "" none)) else pure true
  have hask : Yields (ask q') () true () := by
    show Yields (if q' = q then _ else _) _ _ _
    rw [if_neg hne]
    exact yields_pure.mpr ⟨rfl, rfl⟩
  obtain ⟨r, hr, -⟩ := (h Unit ask () ()).1 true hask
  obtain ⟨up, hup, -⟩ := yields_map.mp hr
  replace hup : Yields (if q = q then _ else _) () up () := hup
  rw [if_pos rfl] at hup
  exact yields_throw hup

end Rounding

/-- A question about the digits `s` of a number of the given sign, at one of them. Where there are
none, the place is the first. -/
structure RoundingQuestion.IsAbout (q : RoundingQuestion) (s : ShortestDigits) (mode : RoundingMode)
    (isNegative : Bool) : Prop where
  digits : q.list.significant = s.digits
  decimalAt : q.list.decimalAt = s.decimalAt
  mode : q.list.roundingMode = mode
  sign : q.list.isNegative = isNegative
  alreadyRounded : q.alreadyRounded = s.roundedUp
  exact : q.exact = s.exact
  place : 0 ≤ q.place.toInt ∧ (q.place.toInt < s.digits.length ∨ s.digits = [] ∧ q.place = 0)

namespace DigitList

variable {l : DigitList} {n : ℕ}

/-! ### Normal form -/

/-- A list whose first and last digits in use are not zero. -/
structure IsNormal (l : DigitList) : Prop where
  sound : l.Sound
  first : l.significant.head? ≠ some zeroDigit
  last : l.significant.getLast? ≠ some zeroDigit

/-- A list without digits is normal. -/
theorem isNormal_of_count (h : l.count = 0) : l.IsNormal := by
  have hnone : l.significant = [] := by rw [significant, h, List.take_zero]
  exact ⟨sound_of_count h, by simp [hnone], by simp [hnone]⟩

/-- The last digit of digits without zeros at their end. -/
theorem getLast?_take_trimmedCount {digits : Bytes} (hn : n ≤ digits.length)
    (hfirst : digits.head? ≠ some zeroDigit) :
    (digits.take (trimmedCount digits n)).getLast? ≠ some zeroDigit := by
  -- Along the zeros taken: a digit that is no zero stops it, and so does the first digit.
  fun_induction trimmedCount digits n with
  | case1 n hzero ih => exact ih (by omega)
  | case2 n hother =>
    rw [List.getLast?_take]
    simpa [List.getElem?_eq_getElem hn] using hother
  | case3 n hsmall =>
    obtain rfl | rfl : n = 0 ∨ n = 1 := by
      rcases n with _ | _ | n
      · exact .inl rfl
      · exact .inr rfl
      · exact absurd rfl (hsmall n)
    · simp
    · cases digits with
      | nil => simp
      | cons d rest => exact hfirst

/-- Trimming leaves a digit in front. -/
theorem head?_take_trimmedCount {digits : Bytes} (hfirst : digits.head? ≠ some zeroDigit) :
    (digits.take n).head? ≠ some zeroDigit := by
  rw [List.head?_take]
  split
  · nofun
  · exact hfirst

/-- Trimming leaves a normal list, if the first digit was none to take. -/
theorem isNormal_trim (hsound : l.Sound) (hfirst : l.digits.head? ≠ some zeroDigit) :
    l.trim.IsNormal where
  sound := hsound.trim
  first := head?_take_trimmedCount hfirst
  last := getLast?_take_trimmedCount hsound.count_le hfirst

/-- A carry out leaves a normal list. -/
theorem isNormal_carryOut : l.carryOut.IsNormal := by
  refine ⟨sound_carryOut, ?_, ?_⟩ <;> rw [significant_carryOut] <;> decide

/-- One more has no zero in front if there was none. -/
theorem head?_addOne (hvalid : Valid (l.digits.take n)) (hn : n ≤ l.digits.length)
    (hfirst : l.digits.head? ≠ some zeroDigit) :
    (l.addOne n).digits.head? ≠ some zeroDigit := by
  induction n generalizing l with
  | zero =>
    have hone : oneDigit ≠ zeroDigit := by decide
    unfold addOne carryOut
    cases l.digits <;> simpa using hone
  | succ n ih =>
    have hlt : n < l.digits.length := hn
    obtain ⟨d, hd⟩ : ∃ d, l.digits[n]? = some d := ⟨_, List.getElem?_eq_getElem hlt⟩
    obtain ⟨hlow, hhigh⟩ := hvalid d (by rw [List.take_add_one, hd]; simp)
    have hsucc : (d + 1).toNat = d.toNat + 1 := by
      rw [UInt8.toNat_add]
      exact Nat.mod_eq_of_lt (by simp; omega)
    -- A digit that goes up is not a zero.
    have hup : d + 1 ≠ zeroDigit := by
      intro h
      rw [h, show zeroDigit.toNat = 48 from rfl] at hsucc
      omega
    have hset : (l.digits.set n (d + 1)).head? ≠ some zeroDigit := by
      cases hdigits : l.digits with
      | nil => simp
      | cons first rest =>
        rw [hdigits] at hfirst
        cases n with
        | zero => simpa using hup
        | succ n => simpa using hfirst
    rw [addOne, hd, Option.getD_some]
    dsimp only
    split
    · exact hset
    · refine ih ?_ (by simpa using hlt.le) hset
      rw [List.take_set_of_le (Nat.le_refl n)]
      exact fun c hc => hvalid c (List.take_subset_take_left _ (Nat.le_succ n) hc)

/-- **A cut is in normal form**, whether it goes up or not. -/
theorem isNormal_cut (hvalid : Valid (l.digits.take n)) (hn : n ≤ l.digits.length)
    (hfirst : l.digits.head? ≠ some zeroDigit) (hroom : l.decimalAt.toInt < 2 ^ 31 - 1)
    (up : Bool) : (l.cut n up).IsNormal := by
  unfold cut
  cases up with
  | true => exact isNormal_trim (addOne_spec hroom hvalid hn).2 (head?_addOne hvalid hn hfirst)
  | false => exact isNormal_trim ⟨hvalid, hn⟩ hfirst

/-! ### The point -/

/-- A cut moves the point by a place at most, and only if it goes up. -/
theorem decimalAt_cut (h : l.decimalAt.toInt < 2 ^ 31 - 1) (up : Bool) :
    (l.cut n up).decimalAt.toInt = l.decimalAt.toInt ∨
      up = true ∧ (l.cut n up).decimalAt.toInt = l.decimalAt.toInt + 1 := by
  cases up with
  | false => exact .inl rfl
  | true =>
    show (l.addOne n).decimalAt.toInt = _ ∨ _ ∧ (l.addOne n).decimalAt.toInt = _
    -- The carry goes on through nines; only one past the first digit moves the point.
    induction n generalizing l with
    | zero => exact .inr ⟨rfl, decimalAt_carryOut h⟩
    | succ n ih =>
      rw [addOne]
      dsimp only
      split
      · exact .inl rfl
      · exact ih h

/-! ### Cutting at a place -/

/-- The place of the last digit that is kept, as a power of ten: behind the point, or among the
digits. -/
def lastPlace (s : ShortestDigits) (m : Int32) (fixedPoint : Bool) : ℤ :=
  if fixedPoint then -m.toInt else s.decimalAt.toInt - m.toInt

/-- The greatest multiple of a unit that is not above a number. -/
def floorTo (unit x : ℚ) : ℚ :=
  ⌊x / unit⌋ * unit

/-- A list in normal form for the number `x`, which the digits `s` became. Only if they went up, the
point may have moved. -/
structure IsRounded (s : ShortestDigits) (up : Bool) (x : ℚ) (r : DigitList) : Prop where
  normal : r.IsNormal
  value : r.value = x
  point : r.decimalAt.toInt = s.decimalAt.toInt ∨
    up = true ∧ r.decimalAt.toInt = s.decimalAt.toInt + 1

/-- What rounding the digits `s` comes to. Without a question the list keeps its value, or is
nothing if all of it lies below the last place; the answer to a question decides whether the last
digit goes up. -/
inductive Truncates (l : DigitList) (s : ShortestDigits) (isNegative : Bool) (m : Int32)
    (fixedPoint : Bool) : Rounding → Prop
  | settled {r : DigitList}
    (whole : fixedPoint = true → r.value = floorTo (10 ^ (-m.toInt)) s.toRat)
    (h : r.IsRounded s false (if fixedPoint ∧ s.decimalAt.toInt < -m.toInt then 0 else s.toRat)) :
    l.Truncates s isNegative m fixedPoint (.settled r)
  | asks {q : RoundingQuestion} {answered : Bool → DigitList}
    (about : q.IsAbout s l.roundingMode isNegative)
    (h : ∀ up : Bool, (answered up).IsRounded s up
      (floorTo (10 ^ lastPlace s m fixedPoint) s.toRat +
        if up then 10 ^ lastPlace s m fixedPoint else 0)) :
    l.Truncates s isNegative m fixedPoint (.asks q answered)

section Set

variable {s : ShortestDigits} {x : ℚ} {m : Int32} {fixedPoint : Bool} (isNegative : Bool)

/-- **Keeping the first digits** is rounding down to a multiple of their last place. -/
theorem floorTo_toRat (h : Digits.Valid s.digits) (hn : n ≤ s.digits.length) :
    floorTo (10 ^ (s.decimalAt.toInt - n)) s.toRat
      = number (s.digits.take n) * 10 ^ (s.decimalAt.toInt - n) := by
  rw [floorTo, ShortestDigits.floor_toRat h hn, Int.cast_natCast]

/-- A number below the unit. -/
theorem floorTo_of_lt (h : Digits.Valid s.digits) {p : ℤ} (hp : s.decimalAt.toInt ≤ p) :
    floorTo (10 ^ p) s.toRat = 0 := by
  have hunit : (0 : ℚ) < 10 ^ p := by positivity
  have hlt : s.toRat < 10 ^ p :=
    (ShortestDigits.toRat_lt_zpow h).trans_le (zpow_le_zpow_right₀ (by norm_num) hp)
  have hfloor : ⌊s.toRat / 10 ^ p⌋ = 0 :=
    Int.floor_eq_zero_iff.mpr ⟨div_nonneg s.toRat_nonneg hunit.le, (div_lt_one hunit).mpr hlt⟩
  rw [floorTo, hfloor, Int.cast_zero, zero_mul]

/-- A number that is a multiple of the unit. -/
theorem floorTo_of_le {p : ℤ} (hp : p ≤ s.decimalAt.toInt - s.digits.length) :
    floorTo (10 ^ p) s.toRat = s.toRat := by
  have hunit : (10 : ℚ) ^ p ≠ 0 := by positivity
  obtain ⟨k, hk⟩ := ShortestDigits.exists_toRat_eq_mul hp
  rw [floorTo, hk, mul_div_cancel_right₀ _ hunit, Int.floor_intCast]

/-- The loaded digits of a number. -/
theorem isRounded_load (hs : s.Sound x) (hfirst : s.digits.head? ≠ some zeroDigit) :
    (l.load isNegative s).IsRounded s false s.toRat where
  normal := by
    have hnormal := isNormal_trim (sound_load (l := l) isNegative hs) hfirst
    rwa [trim_load isNegative hs] at hnormal
  value := value_load isNegative hs
  point := .inl (by rw [decimalAt_load isNegative hs.nonempty])

/-- Nothing is left of a number. -/
theorem isRounded_nothing (hdecimalAt : (l.load isNegative s).decimalAt = s.decimalAt) :
    ({ l.load isNegative s with count := 0 } : DigitList).IsRounded s false 0 where
  normal := isNormal_of_count rfl
  value := value_of_count rfl
  point := .inl (congrArg Int32.toInt hdecimalAt)

/-- **Right below the last place**, the answer says whether there is one unit of that place. -/
theorem isRounded_first (hdecimalAt : (l.load isNegative s).decimalAt = s.decimalAt)
    (hpoint : s.decimalAt.toInt < 400) (up : Bool) :
    (if up then (l.load isNegative s).carryOut
      else { l.load isNegative s with count := 0 }).IsRounded
      s up (if up then 10 ^ s.decimalAt.toInt else 0) := by
  have hroom : (l.load isNegative s).decimalAt.toInt < 2 ^ 31 - 1 := by
    rw [hdecimalAt]
    omega
  cases up with
  | false => exact isRounded_nothing isNegative hdecimalAt
  | true =>
    refine ⟨isNormal_carryOut, ?_, .inr ⟨rfl, ?_⟩⟩
    · exact (value_carryOut hroom).trans (by rw [hdecimalAt]; rfl)
    · exact (decimalAt_carryOut hroom).trans (by rw [hdecimalAt])

/-- **Where digits are dropped**, the answer says whether the digits before them go up. -/
theorem isRounded_cut (hs : s.Sound x) (hfirst : s.digits.head? ≠ some zeroDigit)
    (hn : n ≤ s.digits.length) (up : Bool) :
    ((l.load isNegative s).cut n up).IsRounded s up
      (floorTo (10 ^ (s.decimalAt.toInt - n)) s.toRat
        + if up then 10 ^ (s.decimalAt.toInt - n) else 0) := by
  have hpoint := hs.point
  have hdecimalAt := decimalAt_load (l := l) isNegative hs.nonempty
  have hroom : (l.load isNegative s).decimalAt.toInt < 2 ^ 31 - 1 := by
    rw [hdecimalAt]
    omega
  have hvalid : Valid ((l.load isNegative s).digits.take n) := hs.valid.take n
  refine ⟨isNormal_cut hvalid hn hfirst hroom up, ?_, ?_⟩
  · rw [(cut_spec hroom hvalid hn up).1, floorTo_toRat hs.valid hn, hdecimalAt]
    cases up
    · simp [load]
    · simp [load, add_mul]
  · rw [← hdecimalAt]
    exact decimalAt_cut hroom up

/-- The question about the loaded digits. -/
theorem isAbout_load {place : Int32} (hdecimalAt : (l.load isNegative s).decimalAt = s.decimalAt)
    (hplace : 0 ≤ place.toInt ∧ (place.toInt < s.digits.length ∨ s.digits = [] ∧ place = 0)) :
    RoundingQuestion.IsAbout ⟨l.load isNegative s, place, s.roundedUp, s.exact⟩ s l.roundingMode
      isNegative where
  digits := significant_load isNegative
  decimalAt := hdecimalAt
  mode := rfl
  sign := rfl
  alreadyRounded := rfl
  exact := rfl
  place := hplace

/-- Rounding a number with digits to a place among them or behind them. -/
theorem round_truncates (hs : s.Sound x) (hfirst : s.digits.head? ≠ some zeroDigit) {place : Int32}
    (hplace : place.toInt = s.decimalAt.toInt - lastPlace s m fixedPoint)
    (habove : fixedPoint = true → 0 < place.toInt) :
    l.Truncates s isNegative m fixedPoint ((l.load isNegative s).round place s) := by
  have hkept : ¬ (fixedPoint ∧ s.decimalAt.toInt < -m.toInt) := by
    rintro ⟨hfixed, hlt⟩
    have hpos := habove hfixed
    rw [hplace, lastPlace, if_pos hfixed] at hpos
    omega
  have hload := isRounded_load (l := l) isNegative hs hfirst
  unfold round
  -- Nothing to cut, or a question about the digit at the place.
  split
  · next hwhole =>
    refine .settled (fun hfixed => ?_) (by rw [if_neg hkept]; exact hload)
    have hpos := habove hfixed
    have hle : (l.load isNegative s).count ≤ place.toNatClampNeg := by
      refine hwhole.resolve_left fun hneg => ?_
      rw [Int32.lt_iff_toInt_lt, Int32.toInt_zero] at hneg
      omega
    have hle : s.digits.length ≤ place.toInt := by
      have hle : s.digits.length ≤ place.toNatClampNeg := hle
      rw [← Int32.toNat_toInt] at hle
      omega
    rw [hplace, lastPlace, if_pos hfixed] at hle
    rw [hload.value, floorTo_of_le (by omega)]
  · next hcut =>
    obtain ⟨hneg, hlt⟩ := not_or.mp hcut
    rw [Int32.lt_iff_toInt_lt, Int32.toInt_zero, not_lt] at hneg
    have hlt : place.toNatClampNeg < s.digits.length := Nat.lt_of_not_le hlt
    have hnat : (place.toNatClampNeg : ℤ) = place.toInt := by
      rw [← Int32.toNat_toInt]
      omega
    have hunit : s.decimalAt.toInt - place.toNatClampNeg = lastPlace s m fixedPoint := by omega
    refine .asks (isAbout_load isNegative (decimalAt_load isNegative hs.nonempty)
      ⟨hneg, .inl (by omega)⟩) fun up => ?_
    rw [← hunit]
    exact isRounded_cut isNegative hs hfirst hlt.le up

variable {v : Binary64}

/-- What `set` does with the loaded digits of a number. -/
theorem set_truncates_load (hs : ShortestDigits.of v = s)
    (hdecimalAt : (l.load isNegative s).decimalAt = s.decimalAt)
    (hvalid : Valid s.digits) (hpoint : -400 < s.decimalAt.toInt ∧ s.decimalAt.toInt < 400)
    (hround : ∀ place : Int32, (fixedPoint = true → -s.decimalAt.toInt < m.toInt) →
      place = (if fixedPoint then m + s.decimalAt else m) →
      l.Truncates s isNegative m fixedPoint ((l.load isNegative s).trim.round place s)) :
    l.Truncates s isNegative m fixedPoint (l.set isNegative v m fixedPoint) := by
  have hneg : (-(l.load isNegative s).decimalAt).toInt = -s.decimalAt.toInt := by
    rw [hdecimalAt]
    exact toInt_neg_decimalAt hpoint
  unfold set
  dsimp only
  rw [hs]
  -- The place is far in front of the digits, right in front of them, or among them.
  split
  · next hbelow =>
    obtain ⟨hfixed, hlt⟩ := hbelow
    rw [Int32.lt_iff_toInt_lt, hneg] at hlt
    have hnothing := isRounded_nothing (l := l) isNegative hdecimalAt
    refine .settled (fun _ => ?_) (by rw [if_pos ⟨hfixed, by omega⟩]; exact hnothing)
    rw [hnothing.value, floorTo_of_lt hvalid (by omega)]
  · next hbelow =>
    split
    · next hfirst =>
      obtain ⟨hfixed, hfirst⟩ := hfirst
      rw [← Int32.toInt_inj, hneg] at hfirst
      have hunit : lastPlace s m fixedPoint = s.decimalAt.toInt := by
        rw [lastPlace, if_pos hfixed]
        omega
      refine .asks (isAbout_load isNegative hdecimalAt ⟨le_rfl, ?_⟩) fun up => ?_
      · rcases hdigits : s.digits with _ | ⟨d, rest⟩
        · exact .inr ⟨rfl, rfl⟩
        · exact .inl (by rw [Int32.toInt_zero, List.length_cons]; omega)
      · rw [hunit, floorTo_of_lt hvalid le_rfl, zero_add]
        exact isRounded_first isNegative hdecimalAt hpoint.2 up
    · next hfirst =>
      refine hround _ (fun hfixed => ?_) (by rw [hdecimalAt])
      have hle : ¬ m < -(l.load isNegative s).decimalAt := fun hlt => hbelow ⟨hfixed, hlt⟩
      have hne : ¬ -(l.load isNegative s).decimalAt = m := fun heq => hfirst ⟨hfixed, heq⟩
      rw [Int32.lt_iff_toInt_lt, hneg] at hle
      rw [← Int32.toInt_inj, hneg] at hne
      omega

/-- **Rounding a number cuts its digits off.** -/
theorem set_truncates {sign : Bool} {mantissa : ℕ} {exponent : ℤ}
    (hv : v.unpack = .finite sign mantissa exponent)
    (hfits : fixedPoint = true → -2 ^ 31 ≤ m.toInt + (ShortestDigits.of v).decimalAt.toInt ∧
      m.toInt + (ShortestDigits.of v).decimalAt.toInt < 2 ^ 31) :
    l.Truncates (ShortestDigits.of v) isNegative m fixedPoint
      (l.set isNegative v m fixedPoint) := by
  -- A zero has no digits, so nothing is ever asked about it.
  by_cases hzero : mantissa = 0
  · subst hzero
    have hof := ShortestDigits.of_zero hv
    rw [hof]
    refine set_truncates_load isNegative hof rfl (by nofun) (by decide) fun place _ _ => ?_
    have hcount : (l.load isNegative (.none 0 true)).trim.count = 0 := rfl
    have htoRat : (ShortestDigits.none 0 true).toRat = 0 := by
      rw [ShortestDigits.toRat]
      simp [ShortestDigits.none]
    rw [round, if_pos (.inr (hcount ▸ Nat.zero_le _))]
    refine .settled (fun _ => ?_) ⟨isNormal_of_count hcount, ?_, .inl rfl⟩
    · rw [value_of_count hcount, floorTo, htoRat]
      simp
    · rw [value_of_count hcount, htoRat, ite_self]
  · have hs := (ShortestDigits.sound_of hv hzero).1
    have hfirst := ShortestDigits.head?_of hv hzero
    generalize hof : ShortestDigits.of v = s at *
    refine set_truncates_load isNegative hof (decimalAt_load isNegative hs.nonempty)
      hs.valid hs.point fun place habove hplace => ?_
    rw [trim_load isNegative hs]
    have hplace : place.toInt = s.decimalAt.toInt - lastPlace s m fixedPoint := by
      unfold lastPlace
      rw [hplace]
      split
      · next hfixed =>
        obtain ⟨hlow, hhigh⟩ := hfits hfixed
        rw [Int32.toInt_add, Int.bmod_eq_of_le hlow hhigh]
        omega
      · omega
    refine round_truncates isNegative hs hfirst hplace fun hfixed => ?_
    have habove := habove hfixed
    rw [hplace, lastPlace, if_pos hfixed]
    omega

/-- **Rounding truncates, and adds one unit exactly when the answer says so.** Either nothing is
asked, and the list keeps the value of its shortest digits, or loses all of it far below the last
place. Or one question is asked about those digits, at one of them, and the answer decides between
the greatest multiple of the unit of the last place below that value and one unit more. Whoever
fails to answer makes rounding fail. -/
theorem set_cuts {sign : Bool} {mantissa : ℕ} {exponent : ℤ}
    (hv : v.unpack = .finite sign mantissa exponent)
    (hfits : -2 ^ 31 ≤ m.toInt + (ShortestDigits.of v).decimalAt.toInt ∧
      m.toInt + (ShortestDigits.of v).decimalAt.toInt < 2 ^ 31) :
    let s := ShortestDigits.of v
    let unit : ℚ := 10 ^ (if fixedPoint then -m.toInt else s.decimalAt.toInt - m.toInt)
    (∃ r, (l.set isNegative v m fixedPoint).Settles r ∧ r.IsNormal ∧
      r.value = if fixedPoint ∧ s.decimalAt.toInt < -m.toInt then 0 else s.toRat) ∨
    ∃ q, q.IsAbout s l.roundingMode isNegative ∧
      (l.set isNegative v m fixedPoint).Puts q fun up r =>
        r.IsNormal ∧ r.value = ⌊s.toRat / unit⌋ * unit + if up then unit else 0 := by
  intro s unit
  have htruncates : l.Truncates s isNegative m fixedPoint (l.set isNegative v m fixedPoint) :=
    set_truncates isNegative hv fun _ => hfits
  generalize l.set isNegative v m fixedPoint = rounding at htruncates ⊢
  -- No digit was cut, or the question is put with what either answer leads to.
  cases htruncates with
  | settled whole h => exact .inl ⟨_, Rounding.settles_settled, h.normal, h.value⟩
  | asks about h =>
    exact .inr ⟨_, about, Rounding.puts_asks fun up => ⟨(h up).normal, (h up).value⟩⟩

/-- An eighth, cut to two places: the question is about its third digit, and the answer decides
between twelve and thirteen hundredths. -/
theorem set_cuts_eighth :
    let v : Binary64 := ⟨0x3FC0000000000000⟩
    let l : DigitList := { roundingMode := .halfEven }
    v.unpack = .finite false (2 ^ 52) (-55) ∧
    ∃ q, q.list.significant = [49, 50, 53] ∧ q.place = 2 ∧ q.alreadyRounded = false ∧
      q.exact = true ∧
      (l.set false v 2 true).Puts q fun up r => r.value = if up then 13 / 100 else 12 / 100 := by
  intro v l
  have hv : v.unpack = .finite false (2 ^ 52) (-55) := by decide
  have hs : ShortestDigits.of v = ⟨[49, 50, 53], 0, false, true⟩ := by decide +kernel
  have hfits : -2 ^ 31 ≤ (2 : Int32).toInt + (ShortestDigits.of v).decimalAt.toInt ∧
      (2 : Int32).toInt + (ShortestDigits.of v).decimalAt.toInt < 2 ^ 31 := by
    rw [hs]
    decide
  obtain ⟨q, answered, hasks, hplace⟩ :
      ∃ q answered, l.set false v 2 true = .asks q answered ∧ q.place = 2 := by
    have hplace : (match l.set false v 2 true with
      | .asks q _ => q.place
      | .settled _ => 0) = 2 := by decide +kernel
    rcases hset : l.set false v 2 true with settled | ⟨q, answered⟩
    · rw [hset] at hplace
      exact absurd (show (0 : Int32) = 2 from hplace) (by decide)
    · rw [hset] at hplace
      exact ⟨q, answered, rfl, hplace⟩
  rcases @set_cuts l 2 true false v false (2 ^ 52) (-55) hv hfits with
    ⟨r, hr, -⟩ | ⟨q', habout, hputs⟩
  · rw [hasks] at hr
    exact absurd hr Rounding.not_settles_asks
  · obtain rfl : q' = q := Rounding.eq_of_puts (hasks ▸ hputs)
    rw [hs] at habout hputs
    refine ⟨hv, q', habout.digits, hplace, habout.alreadyRounded, habout.exact, hputs.mono ?_⟩
    rintro up r ⟨-, hvalue⟩
    have hfloor : ⌊(125 / 1000 : ℚ) / 10 ^ (-2 : ℤ)⌋ = 12 := by
      rw [Int.floor_eq_iff]
      norm_num
    have hvalue : r.value = ⌊(125 / 1000 : ℚ) / 10 ^ (-2 : ℤ)⌋ * 10 ^ (-2 : ℤ)
        + if up then 10 ^ (-2 : ℤ) else 0 := by
      have hrat : ShortestDigits.toRat ⟨[49, 50, 53], 0, false, true⟩ = 125 / 1000 := by
        show ((125 : ℕ) : ℚ) * 10 ^ (-3 : ℤ) = 125 / 1000
        norm_num
      rwa [hrat] at hvalue
    rw [hvalue, hfloor]
    cases up <;> norm_num

end Set

end DigitList

end RoundingPatch
