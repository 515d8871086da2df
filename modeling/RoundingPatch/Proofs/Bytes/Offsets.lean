import RoundingPatch.Proofs.Bytes.Reading
/-!
# Reading at an offset

`Read.At bytes r p q` says what `r` reads from byte `p` of `bytes` on: a value `a` and the offset
`p'` of what follows it with `q a p'`. A number is the one that stands at its offset (`at_i2`,
`at_i4`), and numbers in a row stand a fixed number of bytes apart (`at_many`).
-/

namespace RoundingPatch

namespace Bytes

/-- The number in the two bytes at an offset. -/
def u2At (bytes : Bytes) (p : Nat) : UInt16 :=
  UInt16.ofNat (toNat ((bytes.drop p).take 2))

/-- The number in the four bytes at an offset. -/
def u4At (bytes : Bytes) (p : Nat) : UInt32 :=
  UInt32.ofNat (toNat ((bytes.drop p).take 4))

/-- The signed number in the two bytes at an offset. -/
def i2At (bytes : Bytes) (p : Nat) : Int16 :=
  (u2At bytes p).toInt16

/-- The signed number in the four bytes at an offset. -/
def i4At (bytes : Bytes) (p : Nat) : Int32 :=
  (u4At bytes p).toInt32

end Bytes

namespace Read

variable {α β : Type} {bytes : Bytes} {r x : Read α} {f : α → Read β} {p n : Nat}
  {q : α → Nat → Prop} {s : β → Nat → Prop}

/-- Whatever `r` reads from an offset on, the value and the offset behind it satisfy `q`. -/
def At (bytes : Bytes) (r : Read α) (p : Nat) (q : α → Nat → Prop) : Prop :=
  ∀ a c', r ⟨p, bytes.drop p, 0⟩ = .ok (a, c') → ∃ p', c' = ⟨p', bytes.drop p', 0⟩ ∧ q a p'

/-- Nothing is read for a value that is there. -/
theorem at_pure {a : α} (h : q a p) : At bytes (pure a) p q := by
  intro b c' hr
  obtain ⟨rfl, rfl⟩ := pure_eq_ok.mp hr
  exact ⟨p, rfl, h⟩

/-- The second reader starts where the first one stops. -/
theorem At.bind (hx : At bytes x p q) (hf : ∀ a p', q a p' → At bytes (f a) p' s) :
    At bytes (x >>= f) p s := by
  intro b c'' hr
  obtain ⟨a, c', h1, h2⟩ := bind_eq_ok.mp hr
  obtain ⟨p', rfl, hq⟩ := hx a c' h1
  exact hf a p' hq b c'' h2

/-- The cursor at an offset has all bytes from there on in front of it. -/
theorem at_cursor_bind {f : Cursor → Read β} (h : At bytes (f ⟨p, bytes.drop p, 0⟩) p s) :
    At bytes (cursor >>= f) p s :=
  h

/-- An answer that does not come from the bytes leaves the offset alone. -/
theorem at_lift (answer : Except Fault α) :
    At bytes (lift answer) p fun a p' => answer = .ok a ∧ p' = p := by
  intro a c' hr
  obtain ⟨ha, rfl⟩ := lift_eq_ok.mp hr
  exact ⟨p, rfl, ha, rfl⟩

theorem at_malformed (cause : Malformation) : At bytes (malformed cause : Read α) p q :=
  fun _ _ hr => absurd hr malformed_ne_ok

/-- A check in front of a reader. -/
theorem At.check {fails : Prop} [Decidable fails] {cause : Malformation} {rest : Read α}
    (h : ¬ fails → At bytes rest p q) : At bytes (do
      if fails then malformed cause
      rest) p q := by
  by_cases hf : fails
  · simp only [hf, ↓reduceIte]
    exact (at_malformed (q := fun _ _ => False) cause).bind fun _ _ h => h.elim
  · simp only [hf, ↓reduceIte]
    exact h hf

/-- The bytes taken are those from the offset on. -/
theorem at_take (n : Nat) (field : String) :
    At bytes (take n field) p fun a p' =>
      a = (bytes.drop p).take n ∧ a.length = n ∧ p' = p + n := by
  intro a c' hr
  obtain ⟨-, hlength, rfl, rfl⟩ := take_eq_ok.mp hr
  exact ⟨p + n, by rw [List.drop_drop], rfl, hlength, rfl⟩

theorem at_skip (n : Nat) (field : String) :
    At bytes (skip n field) p fun _ p' => p' = p + n :=
  (at_take n field).bind fun _ _ h => at_pure h.2.2

theorem at_u1 (field : String) :
    At bytes (u1 field) p fun v p' => bytes[p]? = some v ∧ p' = p + 1 := by
  refine (at_take 1 field).bind fun taken p' ⟨htaken, hlength, hp'⟩ => at_pure ⟨?_, hp'⟩
  obtain ⟨b, hb⟩ := List.length_eq_one_iff.mp hlength
  have hget : bytes[p]? = some b := by
    have hfirst : ((bytes.drop p).take 1)[0]? = some b := by
      rw [← htaken, hb]
      rfl
    rwa [List.getElem?_take_of_lt Nat.one_pos, List.getElem?_drop] at hfirst
  rw [hget, hb, Bytes.toNat_singleton, UInt8.ofNat_toNat]

/-- A short is read off the two bytes at the offset, wherever they stand. -/
theorem at_u2 (field : String) :
    At bytes (u2 field) p fun v p' => v = bytes.u2At p ∧ p' = p + 2 :=
  (at_take 2 field).bind fun _ _ ⟨htaken, _, hp'⟩ => at_pure ⟨by rw [htaken, Bytes.u2At], hp'⟩

theorem at_u4 (field : String) :
    At bytes (u4 field) p fun v p' => v = bytes.u4At p ∧ p' = p + 4 :=
  (at_take 4 field).bind fun _ _ ⟨htaken, _, hp'⟩ => at_pure ⟨by rw [htaken, Bytes.u4At], hp'⟩

theorem at_i1 (field : String) : At bytes (i1 field) p fun _ p' => p' = p + 1 :=
  (at_u1 field).bind fun _ _ h => at_pure h.2

theorem at_i2 (field : String) :
    At bytes (i2 field) p fun v p' => v = bytes.i2At p ∧ p' = p + 2 :=
  (at_u2 field).bind fun _ _ ⟨hv, hp'⟩ => at_pure ⟨by rw [hv, Bytes.i2At], hp'⟩

theorem at_i4 (field : String) :
    At bytes (i4 field) p fun v p' => v = bytes.i4At p ∧ p' = p + 4 :=
  (at_u4 field).bind fun _ _ ⟨hv, hp'⟩ => at_pure ⟨by rw [hv, Bytes.i4At], hp'⟩

/-- Where a reader stops that only consumes bytes. -/
theorem Gives.at {good : α → Prop} (h : Gives r good) :
    At bytes r p fun a _ => good a := by
  intro a c' hr
  obtain ⟨ha, front, hrest, hc'⟩ := h _ a c' rfl hr
  have hdrop : bytes.drop (p + front.length) = c'.rest := by
    rw [← List.drop_drop, show bytes.drop p = front ++ c'.rest from hrest, List.drop_left]
  exact ⟨p + front.length, by rw [hdrop]; exact hc', ha⟩

/-- **Values in a row** stand `k` bytes apart if each of them takes up `k` bytes. -/
theorem at_many {k : Nat} {g : Nat → α} {good : Nat → Prop}
    (h : ∀ p, At bytes r p fun a p' => a = g p ∧ p' = p + k ∧ good p) (n p : Nat) :
    At bytes (many n r) p fun values p' =>
      values = (List.range n).map (fun j => g (p + k * j)) ∧ p' = p + k * n ∧
        ∀ j < n, good (p + k * j) := by
  induction n generalizing p with
  | zero => exact at_pure ⟨rfl, rfl, by simp⟩
  | succ n ih =>
    refine (h p).bind fun a _ ⟨ha, hp1, hgood⟩ => (ih _).bind fun values p' hvalues => at_pure ?_
    subst hp1
    obtain ⟨rfl, rfl, hrest⟩ := hvalues
    -- The value after the first one stands one step further.
    have hstep (j : Nat) : p + k + k * j = p + k * (j + 1) := by
      rw [Nat.mul_succ]
      omega
    refine ⟨?_, hstep n, fun j hj => ?_⟩
    · rw [List.range_succ_eq_map, List.map_cons, List.map_map, ha]
      exact congrArg _ (List.map_congr_left fun j _ => by rw [hstep]; rfl)
    · cases j with
      | zero => exact hgood
      | succ j =>
        rw [← hstep]
        exact hrest j (by omega)

end Read

end RoundingPatch
