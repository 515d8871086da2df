import RoundingPatch.DigitList.NumberFormat
import RoundingPatch.Proofs.DigitList.Nearest
import RoundingPatch.Proofs.DigitList.Oracle
/-!
# The fixed build agrees with the reference

The compiled decision reads the digits of its receiver one by one, the reference looks at the digits
in front of a place and behind it. `Outcome.Settles` says what an outcome comes to and how many
instructions it takes at most; with it every piece of the decision is compared with its counterpart
in the reference (`settles_scanFrom`, `settles_unlessFive`, `settles_fixedFive`,
`settles_evenFive`), and so are the two decisions (`settles_fixedOutcome`).
-/

namespace RoundingPatch

open ClassFile Machine DigitList

/-! ### Outcomes -/

/-- An outcome is that of a decision with the given answer, after at most `n` instructions. -/
structure Machine.Outcome.Settles (o : Outcome) (answer : Except Fault Bool) (n : ℕ) : Prop where
  result : o.result = answer.map fun b => some (.int (Value.word b))
  steps : o.steps ≤ n

namespace Machine.Outcome.Settles

variable {o : Outcome} {answer : Except Fault Bool} {m n : ℕ}

theorem after (h : o.Settles answer n) (m : ℕ) : (o.after m).Settles answer (m + n) :=
  ⟨h.result, Nat.add_le_add_left h.steps m⟩

theorem mono (h : o.Settles answer n) (hmn : n ≤ m) : o.Settles answer m :=
  ⟨h.result, h.steps.trans hmn⟩

end Machine.Outcome.Settles

/-- The digits that a cut was made in. -/
def Reference.Cut.digits (c : Reference.Cut) : Bytes :=
  c.kept ++ c.first :: c.rest

namespace DigitList

theorem settles_answered (b : Bool) : (Receiver.answered (Value.word b)).Settles (.ok b) 2 :=
  ⟨rfl, Nat.le_refl 2⟩

/-! ### Digits as words -/

/-- A digit as the machine sees it. -/
def wordOf (d : UInt8) : Int32 :=
  d.toUInt16.toUInt32.toInt32

theorem toInt_wordOf (d : UInt8) : (wordOf d).toInt = d.toNat := by
  have hlt := d.toNat_lt
  rw [wordOf, toInt_toInt32, UInt16.toNat_toUInt32, UInt8.toNat_toUInt16,
    Int.bmod_eq_of_le] <;> omega

/-- The widened digits are equal just when the digits are. -/
theorem wordOf_eq_iff {d e : UInt8} : wordOf d = wordOf e ↔ d = e := by
  rw [← Int32.toInt_inj, toInt_wordOf, toInt_wordOf, Int.natCast_inj, UInt8.toNat_inj]

/-- Widening a digit keeps the order, although words are compared with a sign. -/
theorem wordOf_lt_iff {d e : UInt8} : wordOf d < wordOf e ↔ d < e := by
  rw [Int32.lt_iff_toInt_lt, toInt_wordOf, toInt_wordOf, Int.ofNat_lt, UInt8.lt_iff_toNat_lt]

/-- Whether a digit is odd can be seen at its word. -/
theorem wordOf_mod_two {d : UInt8} (hd : zeroDigit ≤ d) :
    wordOf d % 2 = 0 ↔ (d - zeroDigit) % 2 = 0 := by
  have hsub : (d - zeroDigit).toNat = d.toNat - 48 := UInt8.toNat_sub_of_le _ _ hd
  rw [← Int32.toInt_inj, Int32.toInt_mod, toInt_wordOf, ← UInt8.toNat_inj, UInt8.toNat_mod, hsub]
  rw [UInt8.le_iff_toNat_le, show zeroDigit.toNat = 48 from rfl] at hd
  show (d.toNat : ℤ).tmod 2 = 0 ↔ (d.toNat - 48) % 2 = 0
  rw [Int.tmod_eq_emod_of_nonneg (by omega)]
  omega

/-- The digits that a receiver shows are these. -/
structure Receiver.Shows (x : Receiver) (digits : Bytes) : Prop where
  count : x.count.toInt = digits.length
  digitAt : ∀ (index : Int32) (i : ℕ) (hi : i < digits.length), index.toInt = i →
    x.digitAt index = .ok (wordOf digits[i])

namespace Receiver.Shows

variable {x : Receiver} {digits : Bytes} {found five : Outcome} {answer : Except Fault Bool}
  {i k : ℕ} {index : Int32}

/-! ### Loops over the digits -/

/-- **A scan costs twelve steps a digit**: it answers as `found` does at the first digit that is not
zero. -/
theorem settles_scan (hx : x.Shows digits) (hfound : found.Settles answer k) {n : ℕ}
    (hindex : index.toInt = i) (hn : i + n = digits.length) :
    (x.scan found n index).Settles
      (if (digits.drop i).any (· != zeroDigit) then answer else .ok false) (12 * n + k + 10) := by
  -- On the digits still to read; each turn is four reads, a test and a jump back.
  induction n generalizing i index with
  | zero =>
    rw [List.drop_eq_nil_of_le (by omega)]
    exact ((settles_answered false).after 4).mono (by omega)
  | succ n ih =>
    have hi : i < digits.length := by omega
    have hlt : index.toInt < x.count.toInt := by
      rw [hindex, hx.count]
      omega
    rw [List.drop_eq_getElem_cons hi, List.any_cons]
    unfold Receiver.scan Receiver.reading
    rw [hx.digitAt index i hi hindex]
    have hword : wordOf digits[i] = 48 ↔ digits[i] = zeroDigit := wordOf_eq_iff (e := zeroDigit)
    by_cases hzero : digits[i] = zeroDigit
    · have hsucc : (index + 1).toInt = ((i + 1 : ℕ) : ℤ) := by
        rw [toInt_add_one hlt, hindex]
        rfl
      have hrest := ih hsucc (by omega)
      rw [hzero, bne_self_eq_false, Bool.false_or]
      exact (((hrest.after 4).after 4).after 4).mono (by omega)
    · dsimp only
      rw [if_neg (hword.not.mpr hzero), bne_iff_ne.mpr hzero, Bool.true_or]
      exact (((hfound.after 2).after 4).after 4).mono (by omega)

/-- A scan started at an index reads the digits from there on. -/
theorem settles_scanFrom (hx : x.Shows digits) (hfound : found.Settles answer k)
    (hindex : index.toInt = i) (hi : i ≤ digits.length) :
    (x.scanFrom found index).Settles
      (if (digits.drop i).any (· != zeroDigit) then answer else .ok false)
      (12 * digits.length + k + 11) := by
  have hn : (x.count.toInt - index.toInt).toNat = digits.length - i := by
    rw [hx.count, hindex]
    omega
  unfold Receiver.scanFrom
  rw [hn]
  exact ((hx.settles_scan hfound hindex (by omega)).after 1).mono (by omega)

/-! ### Cuts -/

variable {c : Reference.Cut} {place : Int32} {b : Bool}

section Cut

variable (hx : x.Shows c.digits) (hplace : place.toInt = c.kept.length)
include hx hplace

theorem digitAt_place : x.digitAt place = .ok (wordOf c.first) := by
  rw [hx.digitAt place c.kept.length (by simp [Reference.Cut.digits]) hplace]
  simp [Reference.Cut.digits]

theorem lt_count : place.toInt < x.count.toInt := by
  rw [hx.count, hplace, Reference.Cut.digits, List.length_append, List.length_cons]
  omega

/-- A scan from the place on sees whether the cut drops a value. -/
theorem settles_scanPlace (hfound : found.Settles answer k) :
    (x.scanFrom found place).Settles (if c.dropsValue then answer else .ok false)
      (12 * c.digits.length + k + 11) := by
  have hscan := hx.settles_scanFrom hfound hplace (by simp [Reference.Cut.digits])
  rwa [Reference.Cut.digits, List.drop_left] at hscan

/-- A scan behind the place sees whether anything but a tie is dropped. -/
theorem settles_scanBehind (hfound : found.Settles answer k) :
    (x.scanFrom found (place + 1)).Settles
      (if c.rest.any (· != zeroDigit) then answer else .ok false)
      (12 * c.digits.length + k + 11) := by
  have hnext : (place + 1).toInt = ((c.kept.length + 1 : ℕ) : ℤ) := by
    rw [toInt_add_one (hx.lt_count hplace), hplace]
    rfl
  have hscan := hx.settles_scanFrom hfound hnext (by simp [Reference.Cut.digits])
  rwa [Reference.Cut.digits, List.drop_append, List.drop_eq_nil_of_le (by omega), List.nil_append,
    Nat.add_sub_cancel_left, List.drop_one, List.tail_cons] at hscan

/-- The place is the last one if nothing stands behind it. -/
theorem eq_last_iff : place = x.count - 1 ↔ c.rest = [] := by
  have hlt := hx.lt_count hplace
  have hmax := x.count.toInt_lt
  have hone : (x.count - 1).toInt = x.count.toInt - 1 := by
    rw [Int32.toInt_sub, Int32.toInt_one, Int.bmod_eq_of_le] <;> omega
  rw [← Int32.toInt_inj, hone, hx.count, hplace, Reference.Cut.digits, List.length_append,
    List.length_cons, ← List.length_eq_zero_iff]
  omega

/-- **The test of the decisive digit.** -/
theorem settles_unlessFive (hfive : five.Settles (.ok b) k) :
    (x.unlessFive place five).Settles (.ok (c.nearest b)) (k + 14) := by
  have habove : 53 < wordOf c.first ↔ fiveDigit < c.first := wordOf_lt_iff (d := fiveDigit)
  have hequal : wordOf c.first = 53 ↔ c.first = fiveDigit := wordOf_eq_iff (e := fiveDigit)
  unfold Receiver.unlessFive Receiver.reading Reference.Cut.nearest
  rw [hx.digitAt_place hplace]
  simp only [habove, hequal]
  -- Above five, five, below five: only the middle branch asks further.
  split
  · exact (((settles_answered true).after 2).after 4).mono (by omega)
  split
  · exact ((hfive.after 8).after 4).mono (by omega)
  · exact (((settles_answered false).after 8).after 4).mono (by omega)

/-- A five in the case of `HALF_UP` and `HALF_DOWN`. -/
theorem settles_fixedFive (rounded exact : Bool) :
    (x.fixedFive place (Value.word rounded) (Value.word exact)).Settles
      (.ok (!c.rest.isEmpty || if exact then x.roundingMode == .halfUp else !rounded)) 15 := by
  unfold Receiver.fixedFive
  simp only [ne_eq, hx.eq_last_iff hplace]
  -- Digits behind the five decide alone; otherwise the two flags do.
  by_cases hlast : c.rest = []
  · simp only [hlast, not_true_eq_false, if_false, List.isEmpty_nil, Bool.not_true, Bool.false_or]
    cases exact with
    | false => cases rounded <;> exact ⟨rfl, show 10 + 2 ≤ 15 by omega⟩
    | true =>
      by_cases hmode : x.roundingMode = .halfUp
      · rw [hmode]
        exact ⟨rfl, le_refl 15⟩
      · have hword : Value.word true ≠ 0 := by decide
        rw [if_neg hword, if_neg hmode, if_pos rfl, beq_eq_false_iff_ne.mpr hmode]
        exact ⟨rfl, show 14 ≤ 15 by omega⟩
  · rw [if_pos hlast, List.isEmpty_eq_false_iff.mpr hlast]
    exact ((settles_answered true).after 6).mono (by omega)

/-- The parity of the digit in front of the place. -/
theorem settles_parity (hvalid : Digits.Valid c.kept) :
    (x.parity place).Settles (.ok c.keepsOdd) 13 := by
  unfold Receiver.parity Reference.Cut.keepsOdd
  -- The digit in front of the place is the last of those kept, if there is one.
  rcases List.eq_nil_or_concat c.kept with hkept | ⟨front, d, hkept⟩
  · have hzero : place ≤ 0 := by
      rw [Int32.le_iff_toInt_le, hplace, hkept]
      exact le_refl 0
    rw [if_pos hzero, hkept]
    exact ((settles_answered false).after 2).mono (by omega)
  · rw [List.concat_eq_append] at hkept
    have hlength : c.kept.length = front.length + 1 := by simp [hkept]
    have hpos : ¬ place ≤ 0 := by
      rw [Int32.le_iff_toInt_le, hplace, Int32.toInt_zero]
      omega
    have hbefore : (place - 1).toInt = (front.length : ℕ) := by
      have hmax := place.toInt_lt
      rw [Int32.toInt_sub, Int32.toInt_one, Int.bmod_eq_of_le] <;> omega
    have hdigit : x.digitAt (place - 1) = .ok (wordOf d) := by
      rw [hx.digitAt _ front.length (by simp [Reference.Cut.digits, hkept]) hbefore]
      simp [Reference.Cut.digits, hkept]
    have hd : zeroDigit ≤ d := UInt8.le_iff_toNat_le.mpr (hvalid d (by simp [hkept])).1
    unfold Receiver.reading
    rw [if_neg hpos, hdigit, hkept, List.getLast?_concat]
    simp only [wordOf_mod_two hd]
    split
    · next heven =>
      rw [heven]
      exact ((((settles_answered false).after 3).after 6).after 2).mono (by omega)
    · next hodd =>
      rw [bne_iff_ne.mpr hodd]
      exact ((((settles_answered true).after 3).after 6).after 2).mono (by omega)

/-- A five in the case of `HALF_EVEN`. -/
theorem settles_evenFive (hvalid : Digits.Valid c.kept) (rounded exact : Bool) :
    (x.evenFive place (Value.word rounded) (Value.word exact)).Settles
      (.ok (if c.rest.isEmpty then !rounded && (!exact || c.keepsOdd)
        else c.rest.any (· != zeroDigit))) (12 * c.digits.length + 23) := by
  unfold Receiver.evenFive
  simp only [ne_eq, hx.eq_last_iff hplace]
  -- With the five last the flags decide, and then the parity; otherwise the digits behind it are
  -- read.
  by_cases hlast : c.rest = []
  · simp only [hlast, not_true_eq_false, if_false, List.isEmpty_nil, if_true]
    cases rounded with
    | true => exact ((settles_answered false).after 8).mono (by omega)
    | false =>
      cases exact with
      | false => exact ((settles_answered true).after 10).mono (by omega)
      | true => exact ((hx.settles_parity hplace hvalid).after 10).mono (by omega)
  · have hscan := (hx.settles_scanBehind hplace (settles_answered true)).after 9
    rw [if_pos hlast, List.isEmpty_eq_false_iff.mpr hlast]
    refine Outcome.Settles.mono ⟨hscan.result.trans ?_, hscan.steps⟩ (by omega)
    -- The scan's answer is the code's answer in either case.
    cases c.rest.any (· != zeroDigit) <;> rfl

end Cut

end Receiver.Shows

/-! ### Lists with their counts in words -/

/-- A list as its receiver holds it, with the count in a word. -/
def inWord (l : DigitList) : DigitList :=
  { l with count := (Int32.ofNat l.count).toNatClampNeg }

variable {l : DigitList}

/-- A count taken as a machine word never grows. -/
theorem count_inWord_le (l : DigitList) : l.inWord.count ≤ l.count := by
  show (Int32.ofNat l.count).toNatClampNeg ≤ l.count
  have hsize : Int32.size = 4294967296 := rfl
  rw [← Int32.toNat_toInt, Int32.toInt_ofNat', Int.bmod_def, hsize]
  split <;> omega

/-- A list that is not too long is held as it is. -/
theorem inWord_of_lt (h : l.count < 2 ^ 31) : l.inWord = l := by
  have hcount : (Int32.ofNat l.count).toNatClampNeg = l.count := by
    rw [← Int32.toNat_toInt, Int32.toInt_ofNat_of_lt h, Int.toNat_natCast]
  rw [inWord, hcount]

end DigitList

/-- A question about the list that the receiver holds. -/
def RoundingQuestion.inWord (q : RoundingQuestion) : RoundingQuestion :=
  { q with list := q.list.inWord }

namespace Reference

variable {q : RoundingQuestion}

/-- The cut that a question is about. -/
theorem cut?_eq_some {c : Cut} (h : cut? q = some c) :
    c.digits = q.list.significant ∧ q.place.toInt = c.kept.length := by
  unfold cut? at h
  split at h
  · cases h
  · next hplace =>
    dsimp only at h
    split at h
    · cases h
    · next first rest hdrop =>
      -- The place is inside the digits, for something stands behind it.
      have hlt : q.place.toNatClampNeg < q.list.significant.length := by
        by_contra hle
        rw [List.drop_eq_nil_of_le (Nat.le_of_not_lt hle)] at hdrop
        cases hdrop
      cases h
      rw [Int32.lt_iff_toInt_lt, Int32.toInt_zero] at hplace
      refine ⟨by rw [Cut.digits, ← hdrop, List.take_append_drop], ?_⟩
      dsimp only
      rw [List.length_take, Nat.min_eq_left hlt.le, ← Int32.toNat_toInt]
      omega

/-- A place behind all digits cuts nothing. -/
theorem cut?_eq_none (h : q.list.count ≤ q.place.toNatClampNeg) : cut? q = none := by
  have hdrop : q.list.significant.drop q.place.toNatClampNeg = [] :=
    List.drop_eq_nil_of_le ((List.length_take_le _ _).trans h)
  unfold cut?
  dsimp only
  rw [hdrop]
  exact ite_self none

/-- A place in front of the end of the digits cuts them. -/
theorem exists_cut (hplace : 0 ≤ q.place) (h : q.place.toNatClampNeg < q.list.significant.length) :
    ∃ c, cut? q = some c := by
  unfold cut?
  dsimp only
  rw [if_neg (Int32.not_lt.mpr hplace), List.drop_eq_getElem_cons h]
  exact ⟨_, rfl⟩

end Reference

namespace DigitList

variable {l : DigitList} {q : RoundingQuestion}

/-- The receiver shows the digits that it holds. -/
theorem shows_receiver (hcount : l.count ≤ l.digits.length)
    (hpos : 0 ≤ l.receiver.count.toInt) : l.receiver.Shows l.inWord.significant := by
  have hle := count_inWord_le l
  have hlength : l.inWord.significant.length = l.inWord.count :=
    List.length_take_of_le (hle.trans hcount)
  refine ⟨?_, fun index i hi hindex => ?_⟩
  · have htoNat : (l.inWord.count : ℤ) = (Int32.ofNat l.count).toInt :=
      (congrArg Nat.cast (Int32.toNat_toInt _).symm).trans (Int.toNat_of_nonneg hpos)
    rw [hlength, htoNat]
    rfl
  · rw [hlength] at hi
    obtain ⟨-, hnonneg⟩ := toNatClampNeg_of_toInt hindex
    have hdigit : l.digits[i]? = some (l.inWord.significant[i]) := by
      rw [List.getElem?_eq_getElem (by omega)]
      exact congrArg some List.getElem_take.symm
    -- The array in the heap holds the digits as characters, in the same order.
    have hunit : (l.digits.map fun d => d.toUInt16).toArray[i]?
        = some l.inWord.significant[i].toUInt16 := by
      rw [List.getElem?_toArray, List.getElem?_map, hdigit]
      rfl
    unfold Receiver.digitAt Heap.elementIndex receiver
    rw [if_neg hnonneg, hindex, Int.toNat_natCast]
    simp only [bind, Except.bind, hunit]
    rfl

theorem if_ok (b b' : Bool) :
    (if b then (.ok b' : Except Fault Bool) else .ok false) = .ok (b && b') := by
  cases b <;> rfl

/-- **The decision of the fixed build** is that of the reference. -/
theorem settles_fixedOutcome (hvalid : Digits.Valid q.list.significant)
    (hcount : q.list.count ≤ q.list.digits.length) (hplace : 0 ≤ q.place) :
    (BytecodeOracle.fixedOutcome q).Settles (Reference.answer q.inWord)
    (12 * q.list.count + 64) := by
  have hle := count_inWord_le q.list
  have hnonneg := Int32.le_iff_toInt_le.mp hplace
  rw [Int32.toInt_zero] at hnonneg
  unfold BytecodeOracle.fixedOutcome Receiver.fixed Receiver.decision Reference.answer
  -- A cut past the digits drops nothing: the build answers in its first lines.
  by_cases hpast : q.list.receiver.count ≤ q.place
  · have hnone : Reference.cut? q.inWord = none := by
      refine Reference.cut?_eq_none ?_
      show (Int32.ofNat q.list.count).toNatClampNeg ≤ q.place.toNatClampNeg
      have hpast := Int32.le_iff_toInt_le.mp hpast
      rw [← Int32.toNat_toInt, ← Int32.toNat_toInt]
      exact Int.toNat_le_toNat hpast
    dsimp only
    rw [if_pos hpast, hnone]
    exact ((settles_answered false).after 4).mono (by omega)
  -- The digits shown to the build are those the reference cuts, and the place is where it cuts.
  have hlt := Int32.lt_iff_toInt_lt.mp (Int32.not_le.mp hpast)
  have hx := shows_receiver hcount (by omega)
  obtain ⟨c, hcut⟩ := Reference.exists_cut (q := q.inWord) hplace (by
    have hcount := hx.count
    show q.place.toNatClampNeg < q.list.inWord.significant.length
    rw [← Int32.toNat_toInt]
    omega)
  obtain ⟨hdigits, hkept⟩ := Reference.cut?_eq_some hcut
  have hkept : q.place.toInt = c.kept.length := hkept
  have hdigits : c.digits = q.list.inWord.significant := hdigits
  have hx : q.list.receiver.Shows c.digits := hdigits ▸ hx
  have hlength : c.digits.length ≤ q.list.count := by
    rw [hdigits]
    exact (List.length_take_le _ _).trans hle
  have hvalid : Digits.Valid c.kept := fun d hd => by
    have hmem : d ∈ q.list.inWord.significant := hdigits ▸ List.mem_append_left _ hd
    exact hvalid d ((List.take_subset_take_left _ hle) hmem)
  dsimp only
  rw [if_neg hpast, hcut]
  -- What is left is the switch over the mode, with the eight steps before it paid for.
  refine ((?_ : Outcome.Settles _ _ (12 * q.list.count + 56)).after 8).mono (by omega)
  have hreceiver : q.list.receiver.roundingMode = q.list.roundingMode := rfl
  have hasked : q.inWord.list.roundingMode = q.list.roundingMode := rfl
  have hnegative : q.list.receiver.isNegative = Value.word q.list.isNegative := rfl
  unfold Reference.decide
  rw [hreceiver, hasked]
  cases hmode : q.list.roundingMode with
  | up =>
    have hscan := (hx.settles_scanPlace hkept (settles_answered true)).after 1
    rw [if_ok, Bool.and_true] at hscan
    exact hscan.mono (by omega)
  | down => exact ((settles_answered false).after 1).mono (by omega)
  | ceiling =>
    have hfound : Outcome.Settles (if q.list.receiver.isNegative = 0 then ⟨6, .ok (some (.int 1))⟩
        else ⟨5, .ok (some (.int 0))⟩) (.ok !q.list.isNegative) 6 := by
      rw [hnegative]
      cases q.list.isNegative
      · exact ⟨rfl, le_refl 6⟩
      · exact ⟨rfl, show 5 ≤ 6 by omega⟩
    have hscan := (hx.settles_scanPlace hkept hfound).after 1
    rw [if_ok] at hscan
    exact hscan.mono (by omega)
  | floor =>
    have hfound : Outcome.Settles ⟨3, .ok (some (.int q.list.receiver.isNegative))⟩
        (.ok q.list.isNegative) 3 := ⟨rfl, le_refl 3⟩
    have hscan := (hx.settles_scanPlace hkept hfound).after 1
    rw [if_ok] at hscan
    exact hscan.mono (by omega)
  | halfUp =>
    have hfive := hx.settles_unlessFive hkept
      (hx.settles_fixedFive hkept q.alreadyRounded q.exact)
    -- On a tie the build compares the mode with half-up; the reference has the answer written out.
    have hanswer : (!c.rest.isEmpty || if q.exact then RoundingMode.halfUp == .halfUp
        else !q.alreadyRounded) = (!c.rest.isEmpty || q.exact || !q.alreadyRounded) := by
      cases q.exact <;> simp
    rw [hreceiver, hmode, hanswer] at hfive
    exact hfive.mono (by omega)
  | halfDown =>
    have hfive := hx.settles_unlessFive hkept
      (hx.settles_fixedFive hkept q.alreadyRounded q.exact)
    have hanswer : (!c.rest.isEmpty || if q.exact then RoundingMode.halfDown == .halfUp
        else !q.alreadyRounded) = (!c.rest.isEmpty || (!q.exact && !q.alreadyRounded)) := by
      cases q.exact <;> simp
    rw [hreceiver, hmode, hanswer] at hfive
    exact hfive.mono (by omega)
  | halfEven =>
    exact (hx.settles_unlessFive hkept
      (hx.settles_evenFive hkept hvalid q.alreadyRounded q.exact)).mono (by omega)
  | unnecessary =>
    have hfound : Outcome.Settles ⟨5, .error (.execution (.uncaught "java.lang.ArithmeticException"
        (some RoundingMode.roundingNeeded)))⟩ (.error (.execution
          (.uncaught Reference.arithmeticException (some RoundingMode.roundingNeeded)))) 5 :=
      ⟨rfl, le_refl 5⟩
    exact ((hx.settles_scanPlace hkept hfound).after 1).mono (by omega)

end DigitList

/-! ### Questions -/

namespace BytecodeOracle

variable {o : BytecodeOracle} {q : RoundingQuestion} {bytes : Bytes} {limits : Limits}

/-- What an outcome comes to under a budget that suffices, as the answer to a question. -/
theorem verdict_within {outcome : Outcome} {answer : Except Fault Bool} {n : ℕ}
    (h : outcome.Settles answer n) (hbudget : n ≤ limits.stepBudget) :
    (outcome.within limits).bind o.verdict = answer := by
  rw [Outcome.within, if_pos (h.steps.trans hbudget), h.result]
  cases answer with
  | error f => rfl
  | ok b => cases b <;> rfl

/-- A question to an oracle over the fixed build. -/
theorem ask_eq_answer (hbytes : Specimen.fixed.bytes = .ok bytes)
    (ho : ofBytes bytes limits = .ok o) (qs : List RoundingQuestion)
    (hvalid : Digits.Valid q.list.significant) (hcount : q.list.count ≤ q.list.digits.length)
    (hplace : 0 ≤ q.place) (hbudget : 12 * q.list.count + 64 ≤ limits.stepBudget) :
    ((o.asked qs).ask q).1 = Reference.answer q.inWord := by
  obtain ⟨c, hc, hread⟩ := Specimen.parse_of_bytes hbytes
  obtain ⟨o', ho', hready⟩ := isReady_ofBytes hc limits
  obtain rfl : o' = o := Except.ok.inj (ho'.symm.trans ho)
  rw [(history_irrelevant ho qs).2.1 q, (ask_fixed hready hread q).1]
  exact verdict_within (settles_fixedOutcome hvalid hcount hplace) hbudget

end BytecodeOracle

variable {l : DigitList} {q : RoundingQuestion}

theorem RoundingQuestion.inWord_of_lt (h : q.list.count < 2 ^ 31) :
    q.inWord = q := by
  rw [inWord, DigitList.inWord_of_lt h]

/-! ### Texts -/

namespace DigitList

variable {s : ShortestDigits} {answered : Bool → DigitList}

/-- A question from rounding is about the list itself, at a place that is no negative one. -/
theorem asks_of_round {place : Int32} (h : l.round place s = .asks q answered) :
    q.list = l ∧ 0 ≤ q.place := by
  unfold round at h
  split at h
  · cases h
  · next hplace =>
    cases h
    exact ⟨rfl, Int32.not_lt.mp fun hlt => hplace (.inl hlt)⟩

/-- A list that is rounded asks about digits that it has. -/
theorem asks_of_set {negative : Bool} {v : Binary64} {m : Int32}
    (h : l.set negative v m true = .asks q answered) :
    q.list.Sound ∧ q.list.count < 743 ∧ 0 ≤ q.place := by
  obtain ⟨hvalid, hlength⟩ := ShortestDigits.valid_of v
  unfold set at h
  simp only [true_and, if_true] at h
  generalize ShortestDigits.of v = s at h hvalid hlength
  have hsound : (l.load negative s).Sound := ⟨by rwa [significant_load], Nat.le_refl _⟩
  have htrimmed : (l.load negative s).trim.count < 743 :=
    (trimmedCount_le _ _).trans_lt hlength
  -- Far below the last place nothing is asked; one place below, the question is about all digits.
  split at h
  · cases h
  · split at h
    · cases h
      exact ⟨hsound, hlength, Int32.le_refl 0⟩
    · obtain ⟨hlist, hplace⟩ := asks_of_round h
      rw [hlist]
      exact ⟨hsound.trim, htrimmed, hplace⟩

end DigitList

/-- What a computation that asks comes to, if something is made of its answer. -/
theorem Asking.run_bind_pure {α β : Type} (x : Asking α) (g : α → β) (o : Oracle) :
    ((x >>= fun a => pure (g a)).run.run o).1 = (x.run.run o).1.map g := by
  let next : Except Fault α → StateM Oracle (Except Fault β) :=
    ExceptT.bindCont fun a => (pure (g a) : Asking β)
  show ((next (x.run.run o).1).run (x.run.run o).2).1 = _
  cases (x.run.run o).1 <;> rfl

/-- A rounding is settled alike by two oracles that give the same answer to its question. -/
theorem Rounding.resolve_congr {o o' : Oracle} {r : Rounding}
    (h : ∀ q answered, r = .asks q answered → (o.answer q).1 = (o'.answer q).1) :
    ((r.resolve Oracle.ask).run.run o).1 = ((r.resolve Oracle.ask).run.run o').1 := by
  cases r with
  | settled l => rfl
  | asks q answered =>
    have hmap : ∀ o, (((asks q answered).resolve Oracle.ask).run.run o).1
        = (o.answer q).1.map answered := fun o => by
      rw [resolve, ← bind_pure_comp]
      exact Asking.run_bind_pure _ _ _
    rw [hmap, hmap, h q answered rfl]

/-- A number has the same text with two oracles that give the same answers. -/
theorem NumberFormat.format_congr {o o' : Oracle} (f : NumberFormat) (v : Binary64)
    (h : ∀ q : RoundingQuestion, q.list.Sound → q.list.count < 743 → 0 ≤ q.place →
      (o.answer q).1 = (o'.answer q).1) :
    ((f.format Oracle.ask v).run.run o).1 = ((f.format Oracle.ask v).run.run o').1 := by
  unfold format
  dsimp only
  split
  · rfl
  · rfl
  · rw [Asking.run_bind_pure, Asking.run_bind_pure,
      Rounding.resolve_congr fun q answered hasks => ?_]
    -- The only question a format asks is the one `set` raises.
    obtain ⟨hsound, hcount, hplace⟩ := DigitList.asks_of_set hasks
    exact h q hsound hcount hplace

/-! ### The fixed build and the reference -/

/-- **The fixed build decides like the reference.** An oracle over the fixed build that was asked
anything before answers like the reference if it may execute twelve instructions for each digit and
some more. The receiver keeps the number of digits in a word, which only matters for lists of more
digits than that can count. Under the limits that a machine has unless others are given, every
number therefore has the same text in every format. -/
theorem BytecodeOracle.agrees_fixed : ∃ bytes, Specimen.fixed.bytes = .ok bytes ∧
    (∀ limits, ∃ o, ofBytes bytes limits = .ok o ∧
      ∀ (qs : List RoundingQuestion) (q : RoundingQuestion), Digits.Valid q.list.significant →
        q.list.count ≤ q.list.digits.length → 0 ≤ q.place →
        12 * q.list.count + 64 ≤ limits.stepBudget →
        ((o.asked qs).ask q).1 = Reference.answer q.inWord ∧
          (q.list.count < 2 ^ 31 → ((o.asked qs).ask q).1 = Reference.answer q)) ∧
    ∃ o, ofBytes bytes {} = .ok o ∧
      ∀ (qs : List RoundingQuestion) (f : NumberFormat) (v : Binary64),
        ((f.format Oracle.ask v).run.run (.bytecode (o.asked qs))).1
          = ((f.format Oracle.ask v).run.run .reference).1 := by
  obtain ⟨bytes, hbytes⟩ := Specimen.exists_bytes_fixed
  obtain ⟨c, hc, -⟩ := Specimen.parse_of_bytes hbytes
  refine ⟨bytes, hbytes, fun limits => ?_, ?_⟩
  · obtain ⟨o, ho, -⟩ := isReady_ofBytes hc limits
    refine ⟨o, ho, fun qs q hvalid hcount hplace hbudget => ?_⟩
    have hanswer := ask_eq_answer hbytes ho qs hvalid hcount hplace hbudget
    refine ⟨hanswer, fun hlt => ?_⟩
    rw [hanswer, RoundingQuestion.inWord_of_lt hlt]
  · obtain ⟨o, ho, -⟩ := isReady_ofBytes hc {}
    refine ⟨o, ho, fun qs f v => NumberFormat.format_congr f v fun q hsound hcount hplace => ?_⟩
    -- A double has less than 743 digits, so the default budget is never met.
    have hbudget : 12 * q.list.count + 64 ≤ ({} : Limits).stepBudget :=
      show 12 * q.list.count + 64 ≤ 10000 by omega
    have hanswer := ask_eq_answer hbytes ho qs hsound.valid hsound.count_le hplace hbudget
    rw [RoundingQuestion.inWord_of_lt (by omega)] at hanswer
    exact hanswer

/-- The tie of an eighth in two places. -/
theorem BytecodeOracle.agrees_fixed_eighth :
    let q : RoundingQuestion :=
      ⟨{ digits := [49, 50, 53], count := 3, roundingMode := .halfEven }, 2, false, true⟩
    ∃ bytes o, Specimen.fixed.bytes = .ok bytes ∧ ofBytes bytes {} = .ok o ∧
      (o.ask q).1 = .ok false := by
  intro q
  obtain ⟨bytes, hbytes, hanswers, -⟩ := agrees_fixed
  obtain ⟨o, ho, hanswer⟩ := hanswers {}
  have hvalid : Digits.Valid q.list.significant := by
    show ∀ d ∈ ([49, 50, 53] : Bytes), 48 ≤ d.toNat ∧ d.toNat ≤ 57
    simp
  refine ⟨bytes, o, hbytes, ho, ?_⟩
  rw [show o = o.asked [] from rfl,
    (hanswer [] q hvalid (by decide) (by decide) (by decide)).2 (by decide)]
  decide

/-- Whether to round `n` ones up, all of which are dropped. -/
def RoundingQuestion.ones (n : ℕ) : RoundingQuestion :=
  ⟨{ digits := List.replicate n 49, count := n, roundingMode := .up }, 0, false, true⟩

/-- All the digits of a list of ones count. -/
theorem RoundingQuestion.significant_ones (n : ℕ) :
    (ones n).list.significant = List.replicate n 49 :=
  List.take_of_length_le (List.length_replicate ..).le

/-- The reference counts any number of ones. -/
theorem Reference.answer_ones (n : ℕ) : answer (.ones (n + 1)) = .ok true := by
  have hcut : cut? (.ones (n + 1)) = some ⟨[], 49, List.replicate n 49⟩ := by
    unfold cut?
    dsimp only
    rw [RoundingQuestion.significant_ones]
    rfl
  rw [answer, hcut]
  rfl

/-- **A list that no word can count.** Of this many ones the receiver shows none: their number is a
negative word. The fixed build therefore drops them without rounding up, within any budget, where
the reference rounds up. -/
theorem BytecodeOracle.disagrees_uncounted :
    let q := RoundingQuestion.ones (2 ^ 31)
    ∃ bytes o, Specimen.fixed.bytes = .ok bytes ∧
      ofBytes bytes { stepBudget := 12 * 2 ^ 31 + 64 } = .ok o ∧
      Digits.Valid q.list.significant ∧ q.list.count = 2 ^ 31 ∧ q.list.digits.length = 2 ^ 31 ∧
      q.place = 0 ∧ (o.ask q).1 = .ok false ∧ Reference.answer q = .ok true := by
  intro q
  obtain ⟨bytes, hbytes⟩ := Specimen.exists_bytes_fixed
  obtain ⟨c, hc, -⟩ := Specimen.parse_of_bytes hbytes
  obtain ⟨o, ho, -⟩ := isReady_ofBytes hc { stepBudget := 12 * 2 ^ 31 + 64 }
  have hlength : q.list.digits.length = 2 ^ 31 := List.length_replicate ..
  have hvalid : Digits.Valid q.list.significant := by
    rw [RoundingQuestion.significant_ones]
    intro d hd
    rw [List.eq_of_mem_replicate hd]
    decide
  have hask : ((o.asked []).ask q).1 = Reference.answer q.inWord :=
    ask_eq_answer hbytes ho [] hvalid hlength.ge (Int32.le_refl 0) (Nat.le_refl _)
  -- The count as a word is the least one there is, and the list in use is empty.
  have hcut : Reference.cut? q.inWord = none :=
    Reference.cut?_eq_none (show (Int32.ofNat (2 ^ 31)).toNatClampNeg ≤ 0 by decide)
  have hfalse : Reference.answer q.inWord = .ok false := by
    rw [Reference.answer, hcut]
  exact ⟨bytes, o, hbytes, ho, hvalid, rfl, hlength, rfl, hask.trans hfalse,
    Reference.answer_ones (2 ^ 31 - 1)⟩

end RoundingPatch
