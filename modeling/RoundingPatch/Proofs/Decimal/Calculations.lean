import RoundingPatch.Proofs.Decimal.LimbDigits
/-!
# Calculations in limbs

A calculation is a sequence of operations on one number. In limbs it `Represents` the same
calculation in natural numbers: the limbs are the canonical ones of the number, and the divisions
give back the same remainders. One operation keeps this (`Represents.perform`), so every sequence
has it (`represents_calculate`). What is read off the limbs at the end, their order and their
decimal digits, is then right for the number (`calculations_exact`).

That no word overflows is said by the operations once more, worked out in natural numbers. What is
computed on the way has to fit its place: a word of 64 bits (`word?`), or a limb where nothing above
the limb is kept (`limb?`). Otherwise the operation is refused. A multiplication and a shift by less
than a limb are the same loop here (`productCarry?`). Nothing is refused, whatever the limbs and the
arguments are, and the operations in machine words compute the same (`perform?_eq`,
`calculate?_eq`).
-/

namespace RoundingPatch.Limbs

/-! ### Places of limited size -/

/-- A number in a word of 64 bits, if it fits. -/
def word? (x : ℕ) : Option UInt64 :=
  if x < 2 ^ 64 then some (UInt64.ofNat x) else none

/-- A number in a limb, if it fits. -/
def limb? (x : ℕ) : Option UInt32 :=
  if x < 2 ^ 32 then some (UInt32.ofNat x) else none

/-! ### Operations that may be refused -/

/-- The two halves of a word. -/
def ofUInt64? (v : UInt64) : Option Limbs := do
  let low ← limb? (v.toNat % 2 ^ 32)
  let high ← limb? (v.toNat / 2 ^ 32)
  return trim [low, high]

/-- The limbs of `n * m + carry`, perhaps with leading zeros. The product of a limb and what is
carried into it are one word: its lower half stays, and the upper half is the next carry. -/
def productCarry? (m : ℕ) : UInt32 → Limbs → Option Limbs
  | carry, [] => some (ofCarry carry)
  | carry, limb :: rest => do
    let v ← word? (limb.toNat * m + carry.toNat)
    let high ← limb? (v.toNat / 2 ^ 32)
    let upper ← productCarry? m high rest
    return v.toUInt32 :: upper

/-- The number `n * m + add`. -/
def mulAdd? (n : Limbs) (m add : UInt32) : Option Limbs :=
  (productCarry? m.toNat add n).map trim

/-- The number `n * 5 ^ k` by a power that is a limb. -/
def mulFives? (n : Limbs) (k : ℕ) : Option Limbs := do
  let m ← limb? (5 ^ k)
  n.mulAdd? m 0

/-- The number `n * 5 ^ k`, one limb's worth of fives at a time. -/
def mulPow5? (n : Limbs) (k : ℕ) : Option Limbs := do
  let whole ← (List.replicate (k / limbFives) limbFives).foldlM mulFives? n
  if k % limbFives = 0 then some whole else whole.mulFives? (k % limbFives)

/-- The number `n * 2 ^ k`: whole limbs of zeros below, and the rest of the bits as a product. -/
def mulPow2? (n : Limbs) (k : ℕ) : Option Limbs :=
  if n.isEmpty then some []
  else do
    let shifted ← if k % 32 = 0 then some n else productCarry? (2 ^ (k % 32)) 0 n
    return List.replicate (k / 32) 0 ++ shifted

/-- The number `n * 10 ^ k`. -/
def mulPow10? (n : Limbs) (k : ℕ) : Option Limbs := do
  let fives ← n.mulPow5? k
  fives.mulPow2? k

/-- The quotient, perhaps with leading zeros, and the remainder of a division from the top. The
remainder from above and a limb are one word, the next dividend, and its quotient is a limb. -/
def divCarry? (d : UInt32) : Limbs → Option (Limbs × UInt64)
  | [] => some ([], 0)
  | limb :: rest => do
    let (quotient, remainder) ← divCarry? d rest
    let v ← word? (2 ^ 32 * remainder.toNat + limb.toNat)
    let digit ← limb? (v.toNat / d.toNat)
    return (digit :: quotient, v % d.toUInt64)

/-- The quotient `n / d` and the remainder. -/
def divMod? (n : Limbs) (d : UInt32) : Option (Limbs × UInt32) := do
  let (quotient, remainder) ← divCarry? d n
  let rest ← limb? remainder.toNat
  return (trim quotient, rest)

/-! ### Nothing is refused -/

section Words

variable {n : Limbs} {a c d : UInt32} {k : ℕ}

theorem word?_eq {v : UInt64} {x : ℕ} (h : v.toNat = x) : word? x = some v := by
  rw [← h, word?, if_pos v.toNat_lt, UInt64.ofNat_toNat]

theorem limb?_eq {x : ℕ} (h : a.toNat = x) : limb? x = some a := by
  rw [← h, limb?, if_pos a.toNat_lt, UInt32.ofNat_toNat]

theorem ofUInt64?_eq (v : UInt64) : ofUInt64? v = some (ofUInt64 v) := by
  rw [ofUInt64?, limb?_eq (UInt64.toNat_toUInt32 v), limb?_eq (toNat_upperHalf v)]
  rfl

/-- **One limb of a product**: two limbs of the right value are the halves of its word. -/
theorem productCarry?_cons {m : ℕ} {low high : UInt32}
    (h : low.toNat + 2 ^ 32 * high.toNat = a.toNat * m + c.toNat) :
    productCarry? m c (a :: n) = (productCarry? m high n).map (low :: ·) := by
  have hlow := low.toNat_lt
  have hhigh := high.toNat_lt
  -- The two limbs are all of the value, so it has no more bits than they have.
  have hv : (UInt64.ofNat (a.toNat * m + c.toNat)).toNat = a.toNat * m + c.toNat := by
    refine UInt64.toNat_ofNat_of_lt' ?_
    show a.toNat * m + c.toNat < 2 ^ 64
    omega
  have hhalf : (UInt64.ofNat (a.toNat * m + c.toNat)).toUInt32 = low := by
    rw [← UInt32.toNat_inj, UInt64.toNat_toUInt32, hv]
    omega
  rw [productCarry?, word?_eq hv, Option.bind_eq_bind, Option.bind_some, hhalf, hv,
    limb?_eq (a := high) (by omega), Option.bind_eq_bind, Option.bind_some]
  cases productCarry? m high n <;> rfl

/-- A product and its carry fit in 64 bits, limb by limb. -/
theorem productCarry?_eq_mulAddCarry (m c : UInt32) (n : Limbs) :
    productCarry? m.toNat c n = some (mulAddCarry m c n) := by
  induction n generalizing c with
  | nil => rfl
  | cons a n ih =>
    rw [productCarry?_cons (toNat_product a m c), ih]
    rfl

theorem mulAdd?_eq (n : Limbs) (m add : UInt32) : n.mulAdd? m add = some (n.mulAdd m add) := by
  rw [mulAdd?, productCarry?_eq_mulAddCarry]
  rfl

theorem mulFives?_eq (n : Limbs) (h : k ≤ limbFives) :
    n.mulFives? k = some (n.mulAdd (UInt32.ofNat (Nat.pow 5 k)) 0) := by
  rw [mulFives?, limb?_eq (toNat_ofNat_pow h), Option.bind_eq_bind, Option.bind_some, mulAdd?_eq]

theorem mulPow5?_eq (n : Limbs) (k : ℕ) : n.mulPow5? k = some (n.mulPow5 k) := by
  have hwhole (j : ℕ) : (List.replicate j limbFives).foldlM mulFives? n
      = some (Nat.repeat (mulAdd · (UInt32.ofNat (Nat.pow 5 limbFives)) 0) j n) := by
    induction j with
    | zero => rfl
    | succ j ih =>
      rw [List.replicate_succ', List.foldlM_append, ih, Option.bind_eq_bind, Option.bind_some,
        List.foldlM_cons, mulFives?_eq _ (Nat.le_refl _)]
      rfl
  have hrest : k % limbFives ≤ limbFives := Nat.le_of_lt (Nat.mod_lt _ (by decide))
  rw [mulPow5?, hwhole, Option.bind_eq_bind, Option.bind_some, mulFives?_eq _ hrest, mulPow5]
  split <;> rfl

/-- A shift by less than a limb is the product with a power of two. -/
theorem productCarry?_eq_shiftCarry {bits : UInt32} (hbits : 0 < bits.toNat ∧ bits.toNat < 32)
    (hc : c.toNat < 2 ^ bits.toNat) (n : Limbs) :
    productCarry? (2 ^ bits.toNat) c n = some (shiftCarry bits c n) := by
  induction n generalizing c with
  | nil => rfl
  | cons a n ih =>
    rw [productCarry?_cons (toNat_shifted hbits hc), ih (toNat_carry_lt hbits)]
    rfl

theorem mulPow2?_eq (n : Limbs) (k : ℕ) : n.mulPow2? k = some (n.mulPow2 k) := by
  unfold mulPow2? mulPow2
  split
  · rfl
  · dsimp only
    split
    · -- Whole limbs of zeros are put below, and nothing is computed.
      rfl
    · next hne =>
      obtain ⟨heq, hbits⟩ := toNat_ofNat_mod hne
      have hshift := productCarry?_eq_shiftCarry (c := 0) hbits (Nat.two_pow_pos _) n
      rw [heq] at hshift
      rw [hshift]
      rfl

theorem mulPow10?_eq (n : Limbs) (k : ℕ) : n.mulPow10? k = some (n.mulPow10 k) := by
  rw [mulPow10?, mulPow5?_eq, Option.bind_eq_bind, Option.bind_some, mulPow2?_eq, mulPow10]

section Division

variable (hd : d ≠ 0)
include hd

/-- The remainder of the limbs above is less than the divisor, so the next dividend is a word and
the next quotient a limb. -/
theorem divCarry?_eq (n : Limbs) : divCarry? d n = some (divCarry d n) := by
  induction n with
  | nil => rfl
  | cons a n ih =>
    have hr := divCarry_lt hd n
    rw [divCarry?, ih, Option.bind_eq_bind, Option.bind_some]
    dsimp only
    rw [word?_eq (toNat_dividend (Nat.lt_trans hr d.toNat_lt) a), Option.bind_eq_bind,
      Option.bind_some, limb?_eq (toNat_quotient hr a)]
    rfl

/-- No step of a division overflows. -/
theorem divMod?_eq (n : Limbs) : n.divMod? d = some (n.divMod d) := by
  have hrest : (divCarry d n).2.toUInt32.toNat = (divCarry d n).2.toNat := by
    rw [UInt64.toNat_toUInt32, Nat.mod_eq_of_lt (Nat.lt_trans (divCarry_lt hd n) d.toNat_lt)]
  rw [divMod?, divCarry?_eq hd, Option.bind_eq_bind, Option.bind_some]
  dsimp only
  rw [limb?_eq hrest]
  rfl

end Division

end Words

/-! ### Operations -/

/-- One operation of a calculation. -/
inductive Operation
  /-- Starts anew with a word. -/
  | ofUInt64 (v : UInt64)
  | mulAdd (m add : UInt32)
  | mulPow5 (k : ℕ)
  | mulPow10 (k : ℕ)
  | mulPow2 (k : ℕ)
  /-- Leaves the quotient and gives back the remainder. -/
  | divMod (d : UInt32) (hd : d ≠ 0)

/-- How far a calculation has come: its number, and the remainders of its divisions in their order.
-/
structure Calculation (α β : Type) where
  number : α
  remainders : List β

namespace Calculation

/-- An operation on limbs. -/
def perform (c : Calculation Limbs UInt32) : Operation → Calculation Limbs UInt32
  | .ofUInt64 v => { c with number := Limbs.ofUInt64 v }
  | .mulAdd m add => { c with number := c.number.mulAdd m add }
  | .mulPow5 k => { c with number := c.number.mulPow5 k }
  | .mulPow10 k => { c with number := c.number.mulPow10 k }
  | .mulPow2 k => { c with number := c.number.mulPow2 k }
  | .divMod d _ =>
    let (quotient, remainder) := c.number.divMod d
    ⟨quotient, c.remainders ++ [remainder]⟩

/-- An operation on limbs that is refused if one of its words overflows. -/
def perform? (c : Calculation Limbs UInt32) : Operation → Option (Calculation Limbs UInt32)
  | .ofUInt64 v => (Limbs.ofUInt64? v).map fun n => { c with number := n }
  | .mulAdd m add => (c.number.mulAdd? m add).map fun n => { c with number := n }
  | .mulPow5 k => (c.number.mulPow5? k).map fun n => { c with number := n }
  | .mulPow10 k => (c.number.mulPow10? k).map fun n => { c with number := n }
  | .mulPow2 k => (c.number.mulPow2? k).map fun n => { c with number := n }
  | .divMod d _ => (c.number.divMod? d).map fun (quotient, remainder) =>
    ⟨quotient, c.remainders ++ [remainder]⟩

/-- An operation on natural numbers. -/
def compute (x : Calculation ℕ ℕ) : Operation → Calculation ℕ ℕ
  | .ofUInt64 v => { x with number := v.toNat }
  | .mulAdd m add => { x with number := x.number * m.toNat + add.toNat }
  | .mulPow5 k => { x with number := x.number * 5 ^ k }
  | .mulPow10 k => { x with number := x.number * 10 ^ k }
  | .mulPow2 k => { x with number := x.number * 2 ^ k }
  | .divMod d _ => ⟨x.number / d.toNat, x.remainders ++ [x.number % d.toNat]⟩

end Calculation

/-! ### Sequences of operations -/

/-- A calculation in limbs, from zero on. -/
def calculate (ops : List Operation) : Calculation Limbs UInt32 :=
  ops.foldl Calculation.perform ⟨[], []⟩

/-- A calculation in limbs that is refused if a word overflows. -/
def calculate? (ops : List Operation) : Option (Calculation Limbs UInt32) :=
  ops.foldlM Calculation.perform? ⟨[], []⟩

/-- A calculation in natural numbers, from zero on. -/
def compute (ops : List Operation) : Calculation ℕ ℕ :=
  ops.foldl Calculation.compute ⟨0, []⟩

variable {c e : Calculation Limbs UInt32} {x y : Calculation ℕ ℕ}

/-- No operation overflows a word. -/
theorem perform?_eq (c : Calculation Limbs UInt32) (op : Operation) :
    c.perform? op = some (c.perform op) := by
  cases op with
  | ofUInt64 v => rw [Calculation.perform?, ofUInt64?_eq]; rfl
  | mulAdd m add => rw [Calculation.perform?, mulAdd?_eq]; rfl
  | mulPow5 k => rw [Calculation.perform?, mulPow5?_eq]; rfl
  | mulPow10 k => rw [Calculation.perform?, mulPow10?_eq]; rfl
  | mulPow2 k => rw [Calculation.perform?, mulPow2?_eq]; rfl
  | divMod d hd => rw [Calculation.perform?, divMod?_eq hd]; rfl

/-- **No word overflows** in a sequence of operations. -/
theorem calculate?_eq (ops : List Operation) : calculate? ops = some (calculate ops) := by
  have hstep : Calculation.perform? = fun c op => pure (c.perform op) := by
    funext c op
    exact perform?_eq c op
  rw [calculate?, hstep, List.foldlM_pure]
  rfl

/-- The limbs are the canonical ones of the number, and the remainders are the same. -/
structure Represents (c : Calculation Limbs UInt32) (x : Calculation ℕ ℕ) : Prop where
  number : c.number.toNat = x.number
  remainders : c.remainders.map UInt32.toNat = x.remainders
  canonical : c.number.IsCanonical

/-- **One operation** does to the limbs what it does to the number. -/
theorem Represents.perform (h : Represents c x) (op : Operation) :
    Represents (c.perform op) (x.compute op) := by
  obtain ⟨hnumber, hremainders, hcanonical⟩ := h
  cases op with
  | ofUInt64 v => exact ⟨toNat_ofUInt64 v, hremainders, isCanonical_ofUInt64 v⟩
  | mulAdd m add =>
    refine ⟨?_, hremainders, isCanonical_mulAdd _ m add⟩
    show toNat (c.number.mulAdd m add) = x.number * m.toNat + add.toNat
    rw [toNat_mulAdd, hnumber]
  | mulPow5 k =>
    refine ⟨?_, hremainders, hcanonical.mulPow5 k⟩
    show toNat (c.number.mulPow5 k) = x.number * 5 ^ k
    rw [toNat_mulPow5, hnumber]
  | mulPow10 k =>
    refine ⟨?_, hremainders, hcanonical.mulPow10 k⟩
    show toNat (c.number.mulPow10 k) = x.number * 10 ^ k
    rw [toNat_mulPow10, hnumber]
  | mulPow2 k =>
    refine ⟨?_, hremainders, hcanonical.mulPow2 k⟩
    show toNat (c.number.mulPow2 k) = x.number * 2 ^ k
    rw [toNat_mulPow2, hnumber]
  | divMod d hd =>
    obtain ⟨hquotient, hremainder⟩ := toNat_divMod hd c.number
    refine ⟨?_, ?_, isCanonical_divMod c.number d⟩
    · show toNat (c.number.divMod d).1 = x.number / d.toNat
      rw [hquotient, hnumber]
    · show (c.remainders ++ [(c.number.divMod d).2]).map UInt32.toNat
        = x.remainders ++ [x.number % d.toNat]
      rw [List.map_append, hremainders, List.map_singleton, hremainder, hnumber]

/-- **A sequence of operations** does so too. -/
theorem represents_calculate (ops : List Operation) : Represents (calculate ops) (compute ops) := by
  -- What is represented changes with every operation, so the induction is on those to come.
  have hall (c : Calculation Limbs UInt32) (x : Calculation ℕ ℕ) (h : Represents c x) :
      Represents (ops.foldl Calculation.perform c) (ops.foldl Calculation.compute x) := by
    induction ops generalizing c x with
    | nil => exact h
    | cons op ops ih => exact ih _ _ (h.perform op)
  exact hall _ _ ⟨rfl, rfl, isCanonical_nil⟩

/-! ### What is read off the limbs -/

/-- Comparing limbs compares the numbers. -/
theorem Represents.compare (hc : Represents c x) (he : Represents e y) :
    c.number.compare e.number = Ord.compare x.number y.number := by
  rw [compare_eq hc.canonical he.canonical, hc.number, he.number]

/-- Equal numbers have equal limbs. -/
theorem Represents.number_inj (hc : Represents c x) (he : Represents e y) :
    c.number = e.number ↔ x.number = y.number := by
  rw [← hc.canonical.toNat_inj he.canonical, hc.number, he.number]

theorem Represents.isNumeral (h : Represents c x) :
    Digits.IsNumeral c.number.decimalDigits x.number := by
  rw [decimalDigits_eq h.canonical, h.number]
  exact Digits.isNumeral_toDigits x.number

/-- **Calculations in limbs are exact.** After any operations the limbs denote the number that the
operations compute, the divisions have given back its remainders, and no word on the way has
overflowed. The topmost limb is not zero; so limbs are ordered as their numbers are, are equal only
for equal numbers, and are written in decimal without zeros in front. -/
theorem calculations_exact (ops others : List Operation) :
    let c := calculate ops
    let x := compute ops
    let e := calculate others
    let y := compute others
    calculate? ops = some c ∧
      c.number.toNat = x.number ∧ c.remainders.map UInt32.toNat = x.remainders ∧
      c.number.getLast? ≠ some 0 ∧
      c.number.compare e.number = Ord.compare x.number y.number ∧
      (c.number = e.number ↔ x.number = y.number) ∧
      Digits.IsNumeral c.number.decimalDigits x.number := by
  intro c x e y
  have hc := represents_calculate ops
  have he := represents_calculate others
  exact ⟨calculate?_eq ops, hc.number, hc.remainders, hc.canonical, hc.compare he, hc.number_inj he,
    hc.isNumeral⟩

/-- A number of three limbs and its remainder by a billion. -/
example :
    let c := calculate [.ofUInt64 0xFFFFFFFFFFFFFFFF, .mulAdd 10 5, .divMod billion (by decide)]
    c.number.decimalDigits = "184467440737".toList ∧ c.remainders = [95516155] := by
  decide +kernel

end RoundingPatch.Limbs
