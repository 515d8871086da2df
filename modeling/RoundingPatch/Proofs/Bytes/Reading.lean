import Mathlib.Data.List.Forall2
import RoundingPatch.Bytes.Cursor
/-!
# What readers consume

`Read.Reads r bytes a` says that `r` reads exactly `bytes` as `a`, wherever they stand and whatever
follows them. The readers of numbers read what the writers of numbers wrote (`reads_u1`, `reads_u2`,
`reads_u4`, `reads_u8`), and reading in sequence reads the bytes one after the other (`Reads.bind`,
`reads_many`).

`Read.Carries r s` goes the other way: whatever `r` reads off some bytes, `s` reads as the same
value off the same bytes, wherever they stand. With `r = s` it says that a reader does not look at
what lies behind the bytes it consumes; with two pools in `r` and `s` it says that bytes keep their
meaning when the pool grows.

`Read.Gives r p` says that whatever `r` reads satisfies `p` and is read off the front of the bytes.
-/

namespace RoundingPatch

/-! ### Numbers and their bytes -/

namespace Bytes

theorem toNat_nil : toNat [] = 0 := rfl

/-- The last byte is the lowest digit in base 256. -/
theorem toNat_append_singleton (bytes : Bytes) (b : UInt8) :
    toNat (bytes ++ [b]) = toNat bytes * 256 + b.toNat := by
  rw [toNat, List.foldl_append]
  rfl

theorem toNat_singleton (b : UInt8) : toNat [b] = b.toNat := by
  rw [← List.nil_append [b], toNat_append_singleton, toNat_nil, Nat.zero_mul, Nat.zero_add]

theorem length_ofU2 (v : UInt16) : (ofU2 v).length = 2 := rfl

theorem length_ofU4 (v : UInt32) : (ofU4 v).length = 4 := rfl

theorem length_ofU8 (v : UInt64) : (ofU8 v).length = 8 := rfl

/-- A short is read off the bytes that spell it. -/
theorem toNat_ofU2 (v : UInt16) : toNat (ofU2 v) = v.toNat := by
  have hv : v.toNat < 65536 := v.toNat_lt
  simp only [toNat, ofU2, List.foldl_cons, List.foldl_nil, UInt16.toNat_toUInt8,
    UInt16.toNat_shiftRight, UInt16.reduceToNat, Nat.shiftRight_eq_div_pow, Nat.reduceMod,
    Nat.reducePow]
  omega

theorem toNat_ofU4 (v : UInt32) : toNat (ofU4 v) = v.toNat := by
  have hv : v.toNat < 4294967296 := v.toNat_lt
  simp only [toNat, ofU4, List.foldl_cons, List.foldl_nil, UInt32.toNat_toUInt8,
    UInt32.toNat_shiftRight, UInt32.reduceToNat, Nat.shiftRight_eq_div_pow, Nat.reduceMod,
    Nat.reducePow]
  omega

theorem toNat_ofU8 (v : UInt64) : toNat (ofU8 v) = v.toNat := by
  have hv : v.toNat < 18446744073709551616 := v.toNat_lt
  simp only [toNat, ofU8, List.foldl_cons, List.foldl_nil, UInt64.toNat_toUInt8,
    UInt64.toNat_shiftRight, UInt64.reduceToNat, Nat.shiftRight_eq_div_pow, Nat.reduceMod,
    Nat.reducePow]
  omega

end Bytes

/-- Between two cursors stand the bytes that were read in between. -/
theorem Cursor.upTo_append (pos : Nat) (bytes tail rest : Bytes) (gap gap' : Nat) :
    Cursor.upTo ⟨pos, bytes ++ tail, gap⟩ ⟨pos + bytes.length, rest, gap'⟩ = bytes := by
  rw [Cursor.upTo, Nat.add_sub_cancel_left, List.take_left]

namespace Read

/-! ### Running readers -/

theorem cursor_bind (f : Cursor → Read β) (c : Cursor) : (cursor >>= f) c = f c c := rfl

/-- A sequence reads exactly if its first part does and the second part goes on from there. -/
theorem bind_eq_ok {x : Read α} {f : α → Read β} {c c'' : Cursor} {b : β} :
    (x >>= f) c = .ok (b, c'') ↔ ∃ a c', x c = .ok (a, c') ∧ f a c' = .ok (b, c'') := by
  show Except.bind (x c) (fun p => f p.1 p.2) = _ ↔ _
  rcases x c with fault | ⟨a, c'⟩
  · simp [Except.bind]
  · constructor
    · exact fun h => ⟨a, c', rfl, h⟩
    · rintro ⟨_, _, h, hf⟩
      cases h
      exact hf

theorem bind_of_ok {x : Read α} {f : α → Read β} {c c' : Cursor} {a : α}
    (h : x c = .ok (a, c')) : (x >>= f) c = f a c' := by
  show Except.bind (x c) (fun p => f p.1 p.2) = _
  rw [h]
  rfl

theorem pure_eq_ok {a b : α} {c c' : Cursor} :
    (pure a : Read α) c = .ok (b, c') ↔ a = b ∧ c = c' := by
  show Except.ok (a, c) = .ok (b, c') ↔ _
  simp

/-- An answer that does not come from the bytes moves no cursor. -/
theorem lift_eq_ok {answer : Except Fault α} {a : α} {c c' : Cursor} :
    lift answer c = .ok (a, c') ↔ answer = .ok a ∧ c = c' := by
  show Except.bind answer (fun a => .ok (a, c)) = _ ↔ _
  rcases answer with fault | b <;> simp [Except.bind]

theorem lift_of_ok {answer : Except Fault α} {a : α} (h : answer = .ok a) (c : Cursor) :
    lift answer c = .ok (a, c) :=
  lift_eq_ok.mpr ⟨h, rfl⟩

theorem malformed_ne_ok {cause : Malformation} {c : Cursor} {p : α × Cursor} :
    malformed cause c ≠ .ok p := by
  intro h
  exact absurd h (by simp [malformed, throw, throwThe, MonadExceptOf.throw, StateT.lift, bind,
    Except.bind])

/-- **Bytes are taken** exactly if there are enough of them in front of the cursor. -/
theorem take_eq_ok {n : Nat} {field : String} {c c' : Cursor} {bytes : Bytes} :
    take n field c = .ok (bytes, c') ↔
      c.gap = 0 ∧ (c.rest.take n).length = n ∧ bytes = c.rest.take n ∧
        c' = { c with pos := c.pos + n, rest := c.rest.drop n } := by
  unfold take
  simp only
  split
  · -- There are too few bytes, or the cursor is off the bytes.
    next h =>
    simp only [Except.ok.injEq, Prod.mk.injEq]
    exact ⟨fun ⟨h1, h2⟩ => ⟨h.1, h.2, h1.symm, h2.symm⟩,
      fun ⟨_, _, h1, h2⟩ => ⟨h1.symm, h2.symm⟩⟩
  · next h =>
    simp only [reduceCtorEq, false_iff]
    exact fun ⟨h1, h2, _⟩ => h ⟨h1, h2⟩

/-! ### Exact readings -/

/-- `r` reads exactly `bytes` as `a`, wherever they stand and whatever follows them. -/
def Reads (r : Read α) (bytes : Bytes) (a : α) : Prop :=
  ∀ pos tail, r ⟨pos, bytes ++ tail, 0⟩ = .ok (a, ⟨pos + bytes.length, tail, 0⟩)

theorem reads_pure (a : α) : Reads (pure a) [] a :=
  fun _ _ => rfl

/-- One reading behind another reads the bytes of both. -/
theorem Reads.bind {x : Read α} {f : α → Read β} {p q : Bytes} {a : α} {b : β}
    (hx : Reads x p a) (hf : Reads (f a) q b) : Reads (x >>= f) (p ++ q) b := by
  intro pos tail
  rw [List.append_assoc, bind_of_ok (hx pos (q ++ tail)), hf (pos + p.length) tail,
    List.length_append, Nat.add_assoc]

/-- A reader in front of one that consumes nothing. -/
theorem Reads.bind_nil {x : Read α} {f : α → Read β} {bytes : Bytes} {a : α} {b : β}
    (hx : Reads x bytes a) (hf : Reads (f a) [] b) : Reads (x >>= f) bytes b := by
  rw [← List.append_nil bytes]
  exact hx.bind hf

theorem Reads.map {x : Read α} {bytes : Bytes} {a : α} (hx : Reads x bytes a) (g : α → β) :
    Reads (do let v ← x; pure (g v)) bytes (g a) :=
  hx.bind_nil (reads_pure (g a))

theorem reads_lift {answer : Except Fault α} {a : α} (h : answer = .ok a) :
    Reads (lift answer) [] a :=
  fun _ _ => lift_of_ok h _

/-- As many bytes as are asked for are read as they are. -/
theorem reads_take {bytes : Bytes} {n : Nat} (h : bytes.length = n) (field : String) :
    Reads (take n field) bytes bytes := by
  intro pos tail
  rw [take_eq_ok]
  simp [← h]

theorem reads_skip {bytes : Bytes} {n : Nat} (h : bytes.length = n) (field : String) :
    Reads (skip n field) bytes () := by
  intro pos tail
  have h := reads_take h field pos tail
  show (do let _ ← take n field; pure ()) _ = _
  rw [bind_of_ok h]
  rfl

theorem reads_u1 (v : UInt8) (field : String) : Reads (u1 field) [v] v := by
  have h := (reads_take (rfl : [v].length = 1) field).map fun bytes =>
    UInt8.ofNat (Bytes.toNat bytes)
  rwa [Bytes.toNat_singleton, UInt8.ofNat_toNat] at h

theorem reads_u2 (v : UInt16) (field : String) : Reads (u2 field) (Bytes.ofU2 v) v := by
  have h := (reads_take (Bytes.length_ofU2 v) field).map fun bytes =>
    UInt16.ofNat (Bytes.toNat bytes)
  rwa [Bytes.toNat_ofU2, UInt16.ofNat_toNat] at h

theorem reads_u4 (v : UInt32) (field : String) : Reads (u4 field) (Bytes.ofU4 v) v := by
  have h := (reads_take (Bytes.length_ofU4 v) field).map fun bytes =>
    UInt32.ofNat (Bytes.toNat bytes)
  rwa [Bytes.toNat_ofU4, UInt32.ofNat_toNat] at h

theorem reads_u8 (v : UInt64) (field : String) : Reads (u8 field) (Bytes.ofU8 v) v := by
  have h := (reads_take (Bytes.length_ofU8 v) field).map fun bytes =>
    UInt64.ofNat (Bytes.toNat bytes)
  rwa [Bytes.toNat_ofU8, UInt64.ofNat_toNat] at h

theorem reads_i1 (v : UInt8) (field : String) : Reads (i1 field) [v] v.toInt8 :=
  (reads_u1 v field).map UInt8.toInt8

/-- A signed short is read off the bytes of the unsigned one. -/
theorem reads_i2 (v : UInt16) (field : String) : Reads (i2 field) (Bytes.ofU2 v) v.toInt16 :=
  (reads_u2 v field).map UInt16.toInt16

theorem reads_i4 (v : UInt32) (field : String) : Reads (i4 field) (Bytes.ofU4 v) v.toInt32 :=
  (reads_u4 v field).map UInt32.toInt32

/-- Values one after the other: each piece of the bytes reads as its value. -/
theorem reads_many {r : Read α} {pieces : List Bytes} {values : List α}
    (h : List.Forall₂ (fun bytes a => Reads r bytes a) pieces values) :
    Reads (many pieces.length r) pieces.flatten values := by
  induction h with
  | nil => exact reads_pure []
  | cons hb _ ih => exact hb.bind (ih.map _)

/-- An exact reading of two pieces that stand in front of others. -/
theorem Reads.run_append {r : Read α} {b1 b2 : Bytes} {a : α} (h : Reads r (b1 ++ b2) a) (pos : Nat)
    (tail : Bytes) :
    r ⟨pos, b1 ++ (b2 ++ tail), 0⟩ = .ok (a, ⟨pos + (b1 ++ b2).length, tail, 0⟩) := by
  rw [← List.append_assoc]
  exact h pos tail

/-- A reader that runs on a file may leave bytes unread. -/
theorem runOn_eq_ok {r : Read α} {bytes : Bytes} {a : α} :
    runOn r bytes = .ok a ↔ ∃ c', r (Cursor.start bytes) = .ok (a, c') := by
  show (r (Cursor.start bytes)).map (·.1) = .ok a ↔ _
  rcases r (Cursor.start bytes) with fault | ⟨b, c'⟩
  · simp [Except.map]
  · simp [Except.map]

/-- What a reader reads off some bytes it reads off a file of them. -/
theorem runOn_of_reads {r : Read α} {bytes : Bytes} {a : α} (h : Reads r bytes a) :
    runOn r bytes = .ok a := by
  have h := h 0 []
  rw [List.append_nil] at h
  unfold runOn Cursor.start
  show Except.map _ (r _) = _
  rw [h]
  rfl

/-! ### Carrying readings over -/

/-- Whatever `r` reads off some bytes, `s` reads as the same value off the same bytes. -/
def Carries (r s : Read α) : Prop :=
  ∀ c a c', c.gap = 0 → r c = .ok (a, c') →
    ∃ bytes, c.rest = bytes ++ c'.rest ∧ c' = ⟨c.pos + bytes.length, c'.rest, 0⟩ ∧ Reads s bytes a

theorem carries_pure (a : α) : Carries (pure a) (pure a) := by
  intro c b c' hgap h
  obtain ⟨rfl, rfl⟩ := pure_eq_ok.mp h
  refine ⟨[], rfl, ?_, reads_pure a⟩
  cases c
  simp_all

/-- A sequence carries over if its parts do, each on every value. -/
theorem Carries.bind {x x' : Read α} {f f' : α → Read β} (hx : Carries x x')
    (hf : ∀ a, Carries (f a) (f' a)) : Carries (x >>= f) (x' >>= f') := by
  intro c b c'' hgap h
  obtain ⟨a, c', h1, h2⟩ := bind_eq_ok.mp h
  obtain ⟨b1, hr1, hc1, hread1⟩ := hx c a c' hgap h1
  have hgap' : c'.gap = 0 := by rw [hc1]
  obtain ⟨b2, hr2, hc2, hread2⟩ := hf a c' b c'' hgap' h2
  have hpos : c'.pos = c.pos + b1.length := by rw [hc1]
  refine ⟨b1 ++ b2, ?_, ?_, hread1.bind hread2⟩
  · rw [hr1, hr2, List.append_assoc]
  · rw [hc2, hpos, List.length_append, Nat.add_assoc]

/-- An answer carries over to another one that has the value if it has one. -/
theorem carries_lift {x y : Except Fault α} (h : ∀ a, x = .ok a → y = .ok a) :
    Carries (lift x) (lift y) := by
  intro c a c' hgap hr
  obtain ⟨ha, rfl⟩ := lift_eq_ok.mp hr
  refine ⟨[], rfl, ?_, reads_lift (h a ha)⟩
  cases c
  simp_all

/-- A refusal carries over to anything, as it reads nothing. -/
theorem carries_malformed (cause : Malformation) (s : Read α) : Carries (malformed cause) s :=
  fun _ _ _ _ h => absurd h malformed_ne_ok

/-- Taking bytes does not look at what lies behind them. -/
theorem carries_take (n : Nat) (field : String) : Carries (take n field) (take n field) := by
  intro c bytes c' hgap h
  obtain ⟨_, hlen, rfl, rfl⟩ := take_eq_ok.mp h
  refine ⟨c.rest.take n, (List.take_append_drop n c.rest).symm, ?_, reads_take hlen field⟩
  rw [hlen, hgap]

theorem carries_skip (n : Nat) (field : String) : Carries (skip n field) (skip n field) := by
  show Carries (do let _ ← take n field; pure ()) (do let _ ← take n field; pure ())
  exact (carries_take n field).bind fun _ => carries_pure ()

theorem carries_u1 (field : String) : Carries (u1 field) (u1 field) :=
  (carries_take 1 field).bind fun _ => carries_pure _

theorem carries_u2 (field : String) : Carries (u2 field) (u2 field) :=
  (carries_take 2 field).bind fun _ => carries_pure _

theorem carries_u4 (field : String) : Carries (u4 field) (u4 field) :=
  (carries_take 4 field).bind fun _ => carries_pure _

theorem carries_u8 (field : String) : Carries (u8 field) (u8 field) :=
  (carries_take 8 field).bind fun _ => carries_pure _

/-- A row of values carries over if one of them does. -/
theorem carries_many {r s : Read α} (h : Carries r s) (n : Nat) :
    Carries (many n r) (many n s) := by
  induction n with
  | zero => exact carries_pure []
  | succ n ih => exact h.bind fun x => ih.bind fun xs => carries_pure (x :: xs)

/-! ### What readers give -/

/-- Whatever `r` reads satisfies `p` and is read off the front of the bytes. -/
def Gives (r : Read α) (p : α → Prop) : Prop :=
  ∀ c a c', c.gap = 0 → r c = .ok (a, c') →
    p a ∧ ∃ bytes, c.rest = bytes ++ c'.rest ∧ c' = ⟨c.pos + bytes.length, c'.rest, 0⟩

/-- A reader that carries over stays within the bytes it consumes. -/
theorem Carries.gives {r s : Read α} (h : Carries r s) : Gives r fun _ => True := by
  intro c a c' hgap hr
  obtain ⟨bytes, hrest, hc, _⟩ := h c a c' hgap hr
  exact ⟨trivial, bytes, hrest, hc⟩

theorem gives_pure {p : α → Prop} {a : α} (h : p a) : Gives (pure a) p := by
  intro c b c' hgap hr
  obtain ⟨rfl, rfl⟩ := pure_eq_ok.mp hr
  refine ⟨h, [], rfl, ?_⟩
  cases c
  simp_all

/-- A sequence gives what its second part gives on every value that the first one gives. -/
theorem Gives.bind {x : Read α} {f : α → Read β} {p : α → Prop} {q : β → Prop} (hx : Gives x p)
    (hf : ∀ a, p a → Gives (f a) q) : Gives (x >>= f) q := by
  intro c b c'' hgap h
  obtain ⟨a, c', h1, h2⟩ := bind_eq_ok.mp h
  obtain ⟨ha, b1, hr1, hc1⟩ := hx c a c' hgap h1
  have hgap' : c'.gap = 0 := by rw [hc1]
  have hpos : c'.pos = c.pos + b1.length := by rw [hc1]
  obtain ⟨hb, b2, hr2, hc2⟩ := hf a ha c' b c'' hgap' h2
  refine ⟨hb, b1 ++ b2, ?_, ?_⟩
  · rw [hr1, hr2, List.append_assoc]
  · rw [hc2, hpos, List.length_append, Nat.add_assoc]

/-- A reader that gives values of one kind gives values of every wider kind. -/
theorem Gives.weaken {r : Read α} {p q : α → Prop} (h : Gives r p) (hpq : ∀ a, p a → q a) :
    Gives r q := fun c a c' hgap hr =>
  ⟨hpq a (h c a c' hgap hr).1, (h c a c' hgap hr).2⟩

theorem gives_lift {answer : Except Fault α} {p : α → Prop} (h : ∀ a, answer = .ok a → p a) :
    Gives (lift answer) p := by
  intro c a c' hgap hr
  obtain ⟨ha, rfl⟩ := lift_eq_ok.mp hr
  refine ⟨h a ha, [], rfl, ?_⟩
  cases c
  simp_all

/-- A refusal gives no value, and so only those of any kind. -/
theorem gives_malformed (cause : Malformation) (p : α → Prop) : Gives (malformed cause) p :=
  fun _ _ _ _ h => absurd h malformed_ne_ok

theorem gives_cursor_bind {f : Cursor → Read β} {q : β → Prop} (h : ∀ c, Gives (f c) q) :
    Gives (cursor >>= f) q :=
  fun c b c' hgap hr => h c c b c' hgap hr

theorem gives_take (n : Nat) (field : String) :
    Gives (take n field) fun bytes => bytes.length = n := by
  intro c bytes c' hgap h
  obtain ⟨_, hlen, rfl, rfl⟩ := take_eq_ok.mp h
  refine ⟨hlen, c.rest.take n, (List.take_append_drop n c.rest).symm, ?_⟩
  rw [hlen, hgap]

theorem gives_u1 (field : String) : Gives (u1 field) fun _ => True := (carries_u1 field).gives

theorem gives_u2 (field : String) : Gives (u2 field) fun _ => True := (carries_u2 field).gives

theorem gives_u4 (field : String) : Gives (u4 field) fun _ => True := (carries_u4 field).gives

theorem gives_i1 (field : String) : Gives (i1 field) fun _ => True :=
  (gives_u1 field).bind fun _ _ => gives_pure trivial

theorem gives_i2 (field : String) : Gives (i2 field) fun _ => True :=
  (gives_u2 field).bind fun _ _ => gives_pure trivial

theorem gives_i4 (field : String) : Gives (i4 field) fun _ => True :=
  (gives_u4 field).bind fun _ _ => gives_pure trivial

theorem gives_skip (n : Nat) (field : String) : Gives (skip n field) fun _ => True :=
  (carries_skip n field).gives

/-- A row has as many values as asked for, each of the kind that is read. -/
theorem gives_many {r : Read α} {p : α → Prop} (h : Gives r p) (n : Nat) :
    Gives (many n r) fun values => values.length = n ∧ ∀ a ∈ values, p a := by
  induction n with
  | zero => exact gives_pure ⟨rfl, by simp⟩
  | succ n ih =>
    refine h.bind fun a ha => ih.bind fun rest hrest => gives_pure ⟨?_, ?_⟩
    · rw [List.length_cons, hrest.1]
    · rw [List.forall_mem_cons]
      exact ⟨ha, hrest.2⟩

/-- A check in front of a reader. -/
theorem Gives.check {fails : Prop} [Decidable fails] {cause : Malformation} {rest : Read α}
    {p : α → Prop} (h : ¬ fails → Gives rest p) :
    Gives (do
      if fails then malformed cause
      rest) p := by
  by_cases hf : fails
  · simp only [hf, ↓reduceIte]
    exact (gives_malformed cause fun _ => False).bind fun _ h => h.elim
  · simp only [hf, ↓reduceIte]
    exact h hf

/-- A reader that starts with a byte consumes something. -/
theorem Gives.after_u1 {field : String} {f : UInt8 → Read α} {p : α → Prop}
    (hf : ∀ v, Gives (f v) p) {c c' : Cursor} {a : α} (hgap : c.gap = 0)
    (h : (u1 field >>= f) c = .ok (a, c')) :
    p a ∧ c.pos < c'.pos ∧ c'.pos + c'.rest.length = c.pos + c.rest.length ∧ c'.gap = 0 := by
  obtain ⟨v, c1, h1, h2⟩ := bind_eq_ok.mp h
  obtain ⟨taken, c2, htake, hp⟩ := bind_eq_ok.mp h1
  obtain ⟨_, rfl⟩ := pure_eq_ok.mp hp
  obtain ⟨_, hlen, _, rfl⟩ := take_eq_ok.mp htake
  -- The rest is read from the next byte on.
  obtain ⟨ha, bytes, hrest, hc'⟩ :=
    hf v { c with pos := c.pos + 1, rest := c.rest.drop 1 } a c' hgap h2
  have hlength := congrArg List.length hrest
  have hpos : c'.pos = c.pos + 1 + bytes.length := by rw [hc']
  rw [List.length_take] at hlen
  rw [List.length_drop, List.length_append] at hlength
  exact ⟨ha, by omega, by omega, by rw [hc']⟩

/-- What holds of every value that a reader gives holds of the one read off a file. -/
theorem runOn_gives {r : Read α} {p : α → Prop} (h : Gives r p) {bytes : Bytes} {a : α}
    (hr : runOn r bytes = .ok a) : p a := by
  unfold runOn at hr
  rcases hrun : r.run (Cursor.start bytes) with fault | ⟨b, c⟩
  · rw [hrun] at hr
    cases hr
  · rw [hrun] at hr
    cases hr
    exact (h _ _ _ rfl hrun).1

end Read

end RoundingPatch
