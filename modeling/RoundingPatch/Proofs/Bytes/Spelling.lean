import Mathlib.Data.List.Induction
import Mathlib.Algebra.Group.Nat.Defs
import RoundingPatch.Proofs.Bytes.Reading
/-!
# What bytes a value was read from

`Read.Spells r q` says that whatever `r` reads off the front of some bytes, the value and the
bytes it was read from are in the relation `q`. Where `Read.Reads` says how bytes are read, this
says how a value that was read had been written: a number of two bytes is read from its two bytes
and from no others (`spells_u2`), and so on along a sequence (`Spells.bind`, `spells_many`).
-/

namespace RoundingPatch

namespace Bytes

/-- So many bytes count to less than the next power of 256. -/
theorem toNat_lt (bytes : Bytes) : toNat bytes < 256 ^ bytes.length := by
  induction bytes using List.reverseRecOn with
  | nil => exact Nat.one_pos
  | append_singleton bytes b ih =>
    have hb := b.toNat_lt
    rw [toNat_append_singleton, List.length_append, List.length_singleton, Nat.pow_succ]
    omega

/-- Bytes are the digits of one number. -/
theorem eq_of_toNat_eq {bytes bytes' : Bytes} (hlength : bytes.length = bytes'.length)
    (h : toNat bytes = toNat bytes') : bytes = bytes' := by
  induction bytes using List.reverseRecOn generalizing bytes' with
  | nil => exact (List.eq_nil_of_length_eq_zero hlength.symm).symm
  | append_singleton bytes b ih =>
    rcases List.eq_nil_or_concat' bytes' with rfl | ⟨front, b', rfl⟩
    · simp at hlength
    · have hb := b.toNat_lt
      have hb' := b'.toNat_lt
      rw [toNat_append_singleton, toNat_append_singleton] at h
      -- The last byte is the remainder by 256 and the others are the quotient.
      have hfront : bytes = front := by
        refine ih (by simpa using hlength) ?_
        omega
      have hlast : b = b' := UInt8.toNat_inj.mp (by omega)
      rw [hfront, hlast]

/-- Two bytes are the spelling of the short that they count to. -/
theorem ofU2_toNat {bytes : Bytes} (h : bytes.length = 2) :
    ofU2 (UInt16.ofNat (toNat bytes)) = bytes := by
  refine eq_of_toNat_eq (by rw [h, length_ofU2]) ?_
  have hlt := toNat_lt bytes
  rw [h] at hlt
  rw [toNat_ofU2]
  exact UInt16.toNat_ofNat_of_lt' hlt

theorem ofU4_toNat {bytes : Bytes} (h : bytes.length = 4) :
    ofU4 (UInt32.ofNat (toNat bytes)) = bytes := by
  refine eq_of_toNat_eq (by rw [h, length_ofU4]) ?_
  have hlt := toNat_lt bytes
  rw [h] at hlt
  rw [toNat_ofU4]
  exact UInt32.toNat_ofNat_of_lt' hlt

variable {α : Type}

/-- Values one after the other, each in some bytes that `p` relates it to. -/
def Row (p : α → Bytes → Prop) (values : List α) (bytes : Bytes) : Prop :=
  ∃ pieces : List Bytes, bytes = pieces.flatten ∧ List.Forall₂ p values pieces

/-- Values one after the other, behind their number. -/
def Counted (p : α → Bytes → Prop) (values : List α) (bytes : Bytes) : Prop :=
  ∃ (count : UInt16) (row : Bytes), values.length = count.toNat ∧ Row p values row ∧
    bytes = ofU2 count ++ row

end Bytes

namespace Read

variable {α β : Type} {r x : Read α} {f : α → Read β} {p : α → Bytes → Prop} {q : β → Bytes → Prop}

/-- Whatever `r` reads is related to the bytes it is read from. -/
def Spells (r : Read α) (q : α → Bytes → Prop) : Prop :=
  ∀ c a c', c.gap = 0 → r c = .ok (a, c') →
    ∃ bytes, c.rest = bytes ++ c'.rest ∧ c' = ⟨c.pos + bytes.length, c'.rest, 0⟩ ∧ q a bytes

/-- What is said of a value and its bytes can be said of the value alone. -/
theorem Spells.gives {s : α → Prop} (h : Spells r p) (hs : ∀ a bytes, p a bytes → s a) :
    Gives r s := by
  intro c a c' hgap hr
  obtain ⟨bytes, hrest, hc, hp⟩ := h c a c' hgap hr
  exact ⟨hs a bytes hp, bytes, hrest, hc⟩

theorem spells_pure {a : α} (h : p a []) : Spells (pure a) p := by
  intro c b c' hgap hr
  obtain ⟨rfl, rfl⟩ := pure_eq_ok.mp hr
  refine ⟨[], rfl, ?_, h⟩
  cases c
  simp_all

/-- What is read in a sequence is related to the bytes in a row. -/
theorem Spells.bind (hx : Spells x p)
    (hf : ∀ a front, p a front → Spells (f a) fun b bytes => q b (front ++ bytes)) :
    Spells (x >>= f) q := by
  intro c b c'' hgap h
  obtain ⟨a, c', h1, h2⟩ := bind_eq_ok.mp h
  obtain ⟨b1, hr1, hc1, hp⟩ := hx c a c' hgap h1
  have hgap' : c'.gap = 0 := by rw [hc1]
  have hpos : c'.pos = c.pos + b1.length := by rw [hc1]
  obtain ⟨b2, hr2, hc2, hq⟩ := hf a b1 hp c' b c'' hgap' h2
  refine ⟨b1 ++ b2, ?_, ?_, hq⟩
  · rw [hr1, hr2, List.append_assoc]
  · rw [hc2, hpos, List.length_append, Nat.add_assoc]

/-- A reader that goes by one spelling goes by every wider one. -/
theorem Spells.weaken {p' : α → Bytes → Prop} (h : Spells r p)
    (hp : ∀ a bytes, p a bytes → p' a bytes) : Spells r p' := by
  intro c a c' hgap hr
  obtain ⟨bytes, hrest, hc, hq⟩ := h c a c' hgap hr
  exact ⟨bytes, hrest, hc, hp a bytes hq⟩

theorem spells_lift (answer : Except Fault α) :
    Spells (lift answer) fun a bytes => answer = .ok a ∧ bytes = [] := by
  intro c a c' hgap hr
  obtain ⟨ha, rfl⟩ := lift_eq_ok.mp hr
  refine ⟨[], rfl, ?_, ha, rfl⟩
  cases c
  simp_all

theorem spells_malformed (cause : Malformation) : Spells (malformed cause : Read α) p :=
  fun _ _ _ _ h => absurd h malformed_ne_ok

theorem spells_throw (fault : Fault) : Spells (throw fault : Read α) p := by
  intro c a c' _ hr
  cases hr

theorem spells_cursor_bind {f : Cursor → Read β} (h : ∀ c, Spells (f c) q) :
    Spells (cursor >>= f) q :=
  fun c b c' hgap hr => h c c b c' hgap hr

/-- A check in front of a reader. -/
theorem Spells.check {fails : Prop} [Decidable fails] {stop : Read PUnit} {rest : Read α}
    (hstop : Spells stop fun _ _ => False) (h : ¬ fails → Spells rest p) :
    Spells (do
      if fails then stop
      rest) p := by
  by_cases hf : fails
  · simp only [hf, ↓reduceIte]
    exact hstop.bind fun _ _ h => h.elim
  · simp only [hf, ↓reduceIte]
    exact h hf

/-- Bytes that are taken spell themselves. -/
theorem spells_take (n : Nat) (field : String) :
    Spells (take n field) fun a bytes => a.length = n ∧ bytes = a := by
  intro c bytes c' hgap h
  obtain ⟨_, hlen, rfl, rfl⟩ := take_eq_ok.mp h
  refine ⟨c.rest.take n, (List.take_append_drop n c.rest).symm, ?_, hlen, rfl⟩
  rw [hlen, hgap]

theorem spells_u1 (field : String) : Spells (u1 field) fun v bytes => bytes = [v] := by
  refine (spells_take 1 field).bind fun taken front h => spells_pure ?_
  obtain ⟨hlen, rfl⟩ := h
  obtain ⟨b, rfl⟩ := List.length_eq_one_iff.mp hlen
  rw [List.append_nil, Bytes.toNat_singleton, UInt8.ofNat_toNat]

/-- **A number of two bytes** is read from these two bytes. -/
theorem spells_u2 (field : String) : Spells (u2 field) fun v bytes => bytes = Bytes.ofU2 v := by
  refine (spells_take 2 field).bind fun taken front h => spells_pure ?_
  obtain ⟨hlen, rfl⟩ := h
  rw [List.append_nil, Bytes.ofU2_toNat hlen]

theorem spells_u4 (field : String) : Spells (u4 field) fun v bytes => bytes = Bytes.ofU4 v := by
  refine (spells_take 4 field).bind fun taken front h => spells_pure ?_
  obtain ⟨hlen, rfl⟩ := h
  rw [List.append_nil, Bytes.ofU4_toNat hlen]

/-- **Values in a row** are read from as many pieces in a row. -/
theorem spells_many (h : Spells r p) (n : Nat) : Spells (many n r) fun values bytes =>
    values.length = n ∧ ∃ pieces : List Bytes, bytes = pieces.flatten ∧
      List.Forall₂ p values pieces := by
  induction n with
  | zero => exact spells_pure ⟨rfl, [], rfl, .nil⟩
  | succ n ih =>
    refine h.bind fun a front ha => ih.bind fun values bytes hvalues => spells_pure ?_
    obtain ⟨hlen, pieces, rfl, hpieces⟩ := hvalues
    refine ⟨congrArg (· + 1) hlen, front :: pieces, ?_, .cons ha hpieces⟩
    rw [List.append_nil, List.flatten_cons]

/-! ### Counted values -/

/-- Values in a row behind their number. -/
theorem spells_counted (h : Spells r p) (field : String) :
    Spells (do many (← u2 field).toNat r) (Bytes.Counted p) := by
  refine (spells_u2 field).bind fun count front hfront => ?_
  refine (spells_many h _).weaken fun values row hrow => ?_
  rw [hfront]
  exact ⟨count, row, hrow.1, hrow.2, rfl⟩

/-- Values in a row behind their number, in front of others. -/
theorem Spells.counted_bind {f : List α → Read β} {field : String} (h : Spells r p)
    (hf : ∀ values front, Bytes.Counted p values front →
      Spells (f values) fun b bytes => q b (front ++ bytes)) :
    Spells (do
      let count ← u2 field
      let values ← many count.toNat r
      f values) q := by
  simpa only [bind_assoc] using (spells_counted h field).bind hf

variable {values : List α} {bytes back : Bytes}

/-- A row of spellings is read as the row of what they spell. -/
theorem reads_row (h : ∀ a bytes, p a bytes → Reads r bytes a) (hrow : Bytes.Row p values bytes) :
    Reads (many values.length r) bytes values := by
  obtain ⟨pieces, rfl, hpieces⟩ := hrow
  rw [hpieces.length_eq]
  exact reads_many (hpieces.flip.imp fun bytes a ha => h a bytes ha)

/-- **Values in a row behind their number** are read as they are spelled. -/
theorem reads_counted (h : ∀ a bytes, p a bytes → Reads r bytes a)
    (hcounted : Bytes.Counted p values bytes) (field : String) :
    Reads (do many (← u2 field).toNat r) bytes values := by
  obtain ⟨count, row, hlength, hrow, rfl⟩ := hcounted
  refine (reads_u2 count field).bind ?_
  rw [← hlength]
  exact reads_row h hrow

/-- A row behind its count is read as the row, before whatever comes next. -/
theorem Reads.counted_bind {f : List α → Read β} {field : String} {b : β}
    (h : ∀ a bytes, p a bytes → Reads r bytes a) (hcounted : Bytes.Counted p values bytes)
    (hf : Reads (f values) back b) :
    Reads (do
      let count ← u2 field
      let values ← many count.toNat r
      f values) (bytes ++ back) b := by
  simpa only [bind_assoc] using (reads_counted h hcounted field).bind hf

/-! ### Readers that leave nothing -/

/-- Whatever `r` reads, no bytes are left behind it. -/
def Finishes (r : Read α) : Prop :=
  ∀ c a c', r c = .ok (a, c') → c'.rest = []

/-- A sequence reads to the end if its last part does. -/
theorem finishes_bind (hf : ∀ a, Finishes (f a)) : Finishes (x >>= f) := by
  intro c b c'' h
  obtain ⟨a, c', -, h⟩ := bind_eq_ok.mp h
  exact hf a c' b c'' h

/-- A check in front does not keep the rest from reading to the end. -/
theorem finishes_check {fails : Prop} [Decidable fails] {stop : Read PUnit} {rest : Read α}
    (h : Finishes rest) : Finishes (do
      if fails then stop
      rest) := by
  split
  · exact finishes_bind fun _ => h
  · exact h

/-- A check that no bytes are left, in front of what consumes nothing. -/
theorem finishes_of_remaining {cause : ℕ → Malformation} {rest : Read α}
    (h : ∀ c a c', rest c = .ok (a, c') → c' = c) : Finishes (do
      let left := (← cursor).remaining
      if left ≠ 0 then malformed (cause left)
      rest) := by
  intro c a c' hr
  rw [cursor_bind] at hr
  -- Bytes that are left are refused, so there are none behind an answer.
  by_cases hleft : c.remaining = 0
  · simp only [hleft, ne_eq, not_true_eq_false, ↓reduceIte] at hr
    rw [h c a c' hr]
    exact List.eq_nil_of_length_eq_zero hleft
  · simp only [hleft, ne_eq, not_false_eq_true, ↓reduceIte] at hr
    obtain ⟨_, _, h, -⟩ := bind_eq_ok.mp hr
    exact absurd h malformed_ne_ok

/-- A file that is read to its end is the spelling of what is read. -/
theorem Spells.of_runOn {bytes : Bytes} {a : α} (h : Spells r p) (hfinishes : Finishes r)
    (hr : runOn r bytes = .ok a) : p a bytes := by
  obtain ⟨c, hc⟩ := runOn_eq_ok.mp hr
  obtain ⟨front, hrest, -, hp⟩ := h _ _ _ rfl hc
  rw [hfinishes _ _ _ hc, List.append_nil] at hrest
  have hrest : bytes = front := hrest
  rw [hrest]
  exact hp

end Read

end RoundingPatch
