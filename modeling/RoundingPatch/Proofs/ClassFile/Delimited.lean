import RoundingPatch.Proofs.Bytes.Spelling
import RoundingPatch.Proofs.ClassFile.Copy
/-!
# Class files find their own end

A reader that looks at nothing behind the bytes it consumes, and then fails if anything is left,
reads at most one front of any bytes. `Read.RefusesMore r cause` says that `r` fails if there is
more behind the bytes that it reads to their end. It is shown from the end of a reader backwards
(`RefusesMore.bind`), and then neither a longer nor a shorter piece of bytes is read
(`runOn_append_of_refusesMore`, `exists_fault_of_prefix`).

Every part of a class file says how long it is: the pool and the lists by their counts, and
attributes by their lengths. So none is read differently for what stands behind it
(`carries_poolRead`, `carries_readMember`), and the end of a class file is known from its front. It
is checked that nothing comes behind, so no class file is the front of another (`parse_delimited`).
-/

/-! ### Readers that refuse more -/

namespace RoundingPatch

namespace Read

variable {α β : Type} {r s x : Read α} {f : α → Read β} {cause : ℕ → Malformation}
  {bytes front tail : Bytes} {a : α}

/-- What is read again from the bytes it was read from is carried over. -/
theorem Spells.carries {p : α → Bytes → Prop} (h : Spells r p)
    (hreads : ∀ a bytes, p a bytes → Reads s bytes a) : Carries r s := by
  intro c a c' hgap hr
  obtain ⟨bytes, hrest, hc, hp⟩ := h c a c' hgap hr
  exact ⟨bytes, hrest, hc, hreads a bytes hp⟩

/-- Where `r` reads bytes, it fails if there are more of them. -/
def RefusesMore (r : Read α) (cause : ℕ → Malformation) : Prop :=
  ∀ c a c', c.gap = 0 → r c = .ok (a, c') → ∀ tail, tail ≠ [] →
    r ⟨c.pos, c.rest ++ tail, 0⟩ = .error (.malformed (cause tail.length))

/-- What stands in front of the end is read again, and the failure comes from behind it. -/
theorem RefusesMore.bind (hx : Carries x x) (hf : ∀ a, RefusesMore (f a) cause) :
    RefusesMore (x >>= f) cause := by
  intro c b c'' hgap h tail htail
  obtain ⟨a, c', h1, h2⟩ := bind_eq_ok.mp h
  obtain ⟨bytes, hrest, hc, hread⟩ := hx c a c' hgap h1
  have hgap' : c'.gap = 0 := by rw [hc]
  have hpos : c'.pos = c.pos + bytes.length := by rw [hc]
  rw [hrest, List.append_assoc, bind_of_ok (hread c.pos (c'.rest ++ tail)), ← hpos]
  exact hf a c' b c'' hgap' h2 tail htail

/-- A check in front of a reader. -/
theorem RefusesMore.check {fails : Prop} [Decidable fails] {stop : Read PUnit}
    (hstop : Spells stop fun _ _ => False) (h : RefusesMore r cause) : RefusesMore (do
      if fails then stop
      r) cause := by
  by_cases hf : fails
  · simp only [hf, ↓reduceIte]
    intro c a c' hgap hr
    obtain ⟨_, c1, hfails, -⟩ := bind_eq_ok.mp hr
    obtain ⟨_, -, -, hfalse⟩ := hstop c _ c1 hgap hfails
    exact hfalse.elim
  · simp only [hf, ↓reduceIte]
    exact h

/-- The check that nothing is left. -/
theorem refusesMore_of_remaining : RefusesMore (do
      let left := (← cursor).remaining
      if left ≠ 0 then malformed (cause left)
      r) cause := by
  intro c a c' _ hr tail htail
  rw [cursor_bind] at hr ⊢
  have hrest : c.rest = [] := by
    by_contra hne
    have hleft : c.remaining ≠ 0 := fun h => hne (List.eq_nil_of_length_eq_zero h)
    simp only [hleft, ne_eq, not_false_eq_true, ↓reduceIte] at hr
    obtain ⟨_, _, h, -⟩ := bind_eq_ok.mp hr
    exact absurd h malformed_ne_ok
  rw [hrest, List.nil_append]
  have hmore : Cursor.remaining ⟨c.pos, tail, 0⟩ ≠ 0 := fun h =>
    htail (List.eq_nil_of_length_eq_zero h)
  simp only [hmore, ne_eq, not_false_eq_true, ↓reduceIte]
  rfl

/-- **More bytes are refused.** -/
theorem runOn_append_of_refusesMore (h : RefusesMore r cause) (hr : runOn r bytes = .ok a)
    (htail : tail ≠ []) : runOn r (bytes ++ tail) = .error (.malformed (cause tail.length)) := by
  obtain ⟨c', hc⟩ := runOn_eq_ok.mp hr
  have hmore : r (Cursor.start (bytes ++ tail)) = .error (.malformed (cause tail.length)) :=
    h _ _ _ rfl hc tail htail
  show Except.map _ (r (Cursor.start (bytes ++ tail))) = _
  rw [hmore]
  rfl

/-- **Fewer bytes are refused**, because all bytes are more than they are. -/
theorem exists_fault_of_prefix (h : RefusesMore r cause) (hr : runOn r bytes = .ok a)
    (hfront : front <+: bytes) (hne : front ≠ bytes) : ∃ fault, runOn r front = .error fault := by
  obtain ⟨tail, rfl⟩ := hfront
  have htail : tail ≠ [] := by
    rintro rfl
    exact hne (List.append_nil front).symm
  cases hread : runOn r front with
  | error fault => exact ⟨fault, rfl⟩
  | ok b =>
    rw [runOn_append_of_refusesMore h hread htail] at hr
    cases hr

end Read

end RoundingPatch

/-! ### Class files -/

namespace RoundingPatch.ClassFile

open Read

variable {pool : ConstantPool} {what : String}

/-- A pool is read without a look at what lies behind it. -/
theorem carries_poolRead : Carries ConstantPool.read ConstantPool.read := by
  refine ConstantPool.spells_read.carries fun pool bytes h => ?_
  obtain ⟨⟨hfills, hcount, hfingerprint⟩, rfl⟩ := h
  -- A pool that was read is a pool to which nothing was added.
  have hreads := @ConstantPool.reads_pool pool.raw pool.slots hfills [] nofun hcount
  have hpool : ConstantPool.ofSlots pool.slots pool.raw = pool := by
    rw [ConstantPool.ofSlots, ← hfingerprint]
  show Reads _ (Bytes.ofU2 (UInt16.ofNat pool.slots.size) ++ pool.raw) pool
  simpa [hpool] using hreads

theorem carries_readMember : Carries (readMember pool what) (readMember pool what) := by
  intro c m c' hgap hr
  obtain ⟨bytes, hrest, hc, hbytes⟩ := spells_readMember c m c' hgap hr
  refine ⟨bytes, hrest, hc, ?_⟩
  rw [hbytes]
  exact (gives_reread (ConstantPool.Extends.refl pool) c m c' hgap hr).1

/-- So are the members of a class. -/
theorem carries_readMembers : Carries (readMembers pool what) (readMembers pool what) :=
  (carries_u2 _).bind fun _ => carries_many carries_readMember _

/-- Reading a class file goes over its parts, each of which finds its own end, and then looks for
more. -/
theorem refusesMore_read : RefusesMore read .trailingBytes := by
  have hlift {α : Type} (answer : Except Fault α) : Carries (lift answer) (lift answer) :=
    carries_lift fun _ h => h
  unfold read
  refine .bind (carries_u4 _) fun found => .check (spells_malformed _) <|
    .bind (carries_u2 _) fun minor => .bind (carries_u2 _) fun major => .check (spells_throw _) <|
    .bind carries_poolRead fun pool => .bind (carries_u2 _) fun access =>
    .bind (carries_u2 _) fun thisClass => .bind (hlift _) fun name =>
    .bind (carries_u2 _) fun superClass => .bind (hlift _) fun superName =>
    .bind (carries_u2 _) fun count =>
    .bind (carries_many ((carries_u2 _).bind fun _ => hlift _) _) fun interfaces =>
    .bind carries_readMembers fun fields => .bind carries_readMembers fun methods =>
    .bind (carries_readAttributes (ConstantPool.Extends.refl pool)) fun attributes =>
    refusesMore_of_remaining

/-- **No class file is the front of another.** If some bytes are read as a class file, then every
proper front of them is refused, and so are they with any more bytes behind them. -/
theorem parse_delimited {x : Bytes} {c : ClassFile} (h : parse x = .ok c) :
    (∀ y, y <+: x → y ≠ x → ∃ fault, parse y = .error fault) ∧
      ∀ z, z ≠ [] → parse (x ++ z) = .error (.malformed (.trailingBytes z.length)) :=
  ⟨fun _ hfront hne => exists_fault_of_prefix refusesMore_read h hfront hne,
    fun _ hne => runOn_append_of_refusesMore refusesMore_read h hne⟩

/-- An abstract class `T` with a constant of two indices and a method `f()V` with an attribute of
one byte. -/
def sketch : Bytes := [
  0xca, 0xfe, 0xba, 0xbe, 0, 0, 0, 52, 0, 7, 1, 0, 1, 102, 1, 0, 3, 40, 41, 86, 1, 0, 1, 84, 7, 0,
  3, 5, 0, 0, 0, 0, 0, 0, 0, 1, 4, 33, 0, 4, 0, 0, 0, 0, 0, 0, 0, 1, 4, 1, 0, 1, 0, 2, 0, 1, 0, 3,
  0, 0, 0, 1, 42, 0, 0]

/-- It is refused without its last byte, and with a byte or a copy of itself behind it. -/
theorem parse_delimited_sketch :
    ∃ c, parse sketch = .ok c ∧ (∃ fault, parse sketch.dropLast = .error fault) ∧
      parse (sketch ++ [0]) = .error (.malformed (.trailingBytes 1)) ∧
      parse (sketch ++ sketch) = .error (.malformed (.trailingBytes 65)) := by
  have hread : (parse sketch).isOk = true := by decide +kernel
  cases h : parse sketch with
  | error fault =>
    rw [h] at hread
    cases hread
  | ok c =>
    obtain ⟨hfront, hmore⟩ := parse_delimited h
    exact ⟨c, rfl, hfront _ (List.dropLast_prefix _) (by decide), hmore _ (by decide),
      hmore _ (by decide)⟩

end RoundingPatch.ClassFile
