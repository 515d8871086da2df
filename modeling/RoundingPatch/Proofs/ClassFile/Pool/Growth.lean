import RoundingPatch.ClassFile.Pool.Builder
import RoundingPatch.Proofs.Failing
/-!
# How a pool grows

A step that adds to a pool adds entries for symbols that were not known before, each built from the
indices of symbols that are known by then. `PoolBuilder.Grows R b c` says that `c` comes about from
`b` in this way and that every symbol added satisfies `R`. What was known stays known
(`Grows.known`), so a symbol keeps its index.

`Pooling.Uses R step` collects what holds of every step that looks up or adds symbols in `R` and
depends on the pool in no other way: it makes the pool grow by symbols in `R`, whether it succeeds
or not, and on a pool that already covers what it leaves behind it gives the same answer and adds
nothing.
-/

namespace RoundingPatch.ClassFile

namespace Symbol

/-- The symbols that adding a symbol may add: those its entry refers to, and itself. -/
def parts : Symbol → List Symbol
  | classRef name => [utf8 name, classRef name]
  | string text => [utf8 text, string text]
  | nameAndType name descriptor => [utf8 name, utf8 descriptor, nameAndType name descriptor]
  | member ref =>
    [utf8 ref.owner, classRef ref.owner, utf8 ref.name, utf8 ref.descriptor,
      nameAndType ref.name ref.descriptor, member ref]
  | s => [s]

theorem mem_parts (s : Symbol) : s ∈ s.parts := by
  cases s <;> simp [parts]

theorem parts_owner_subset (ref : MemberRef) :
    (classRef ref.owner).parts ⊆ (member ref).parts := by
  simp [parts, List.subset_def]

theorem parts_named_subset (ref : MemberRef) :
    (nameAndType ref.name ref.descriptor).parts ⊆ (member ref).parts := by
  simp [parts, List.subset_def]

end Symbol

namespace PoolBuilder

/-! ### Adding an entry -/

/-- `b.Stands s e`: with the indices that `b` knows, entry `e` stands for symbol `s`. -/
inductive Stands (b : PoolBuilder) : Symbol → PoolEntry → Prop
  | utf8 {text} (h : (ModifiedUtf8.encode text).length ≤ 65535) : Stands b (.utf8 text) (.utf8 text)
  | integer (value) : Stands b (.integer value) (.integer value)
  | float (bits) : Stands b (.float bits) (.float bits)
  | long (value) : Stands b (.long value) (.long value)
  | double (bits) : Stands b (.double bits) (.double bits)
  | classRef {name i} (h : b.known[Symbol.utf8 name]? = some i) :
    Stands b (.classRef name) (.classRef i)
  | string {text i} (h : b.known[Symbol.utf8 text]? = some i) : Stands b (.string text) (.string i)
  | nameAndType {name descriptor i j} (hn : b.known[Symbol.utf8 name]? = some i)
      (hd : b.known[Symbol.utf8 descriptor]? = some j) :
    Stands b (.nameAndType name descriptor) (.nameAndType i j)
  | member {ref : MemberRef} {i j} (ho : b.known[Symbol.classRef ref.owner]? = some i)
      (hn : b.known[Symbol.nameAndType ref.name ref.descriptor]? = some j) :
    Stands b (.member ref) (.member ref.kind i j)

/-- `b` with entry `e` added for symbol `s`. -/
def pushed (b : PoolBuilder) (s : Symbol) (e : PoolEntry) : PoolBuilder :=
  { b with
    added := b.added.push e
    next := b.next + e.slots
    known := b.known.insert s (UInt16.ofNat b.next) }

/-- A new entry is known by its own symbol, and the others as before. -/
theorem known_pushed (b : PoolBuilder) (s t : Symbol) (e : PoolEntry) :
    (b.pushed s e).known[t]? = if s = t then some (UInt16.ofNat b.next) else b.known[t]? := by
  show (b.known.insert s (UInt16.ofNat b.next))[t]? = _
  rw [Std.TreeMap.getElem?_insert]
  simp only [Std.LawfulEqCmp.compare_eq_iff_eq]

theorem known_pushed_self (b : PoolBuilder) (s : Symbol) (e : PoolEntry) :
    (b.pushed s e).known[s]? = some (UInt16.ofNat b.next) := by
  rw [known_pushed]
  simp

theorem known_pushed_of_ne {b : PoolBuilder} {s t : Symbol} {e : PoolEntry} (h : s ≠ t) :
    (b.pushed s e).known[t]? = b.known[t]? := by
  rw [known_pushed]
  simp [h]

/-! ### Adding entries -/

/-- `b.Grows R c`: `c` is `b` with entries added for symbols in `R` that were unknown. -/
inductive Grows (R : Symbol → Prop) (b : PoolBuilder) : PoolBuilder → Prop
  | refl : Grows R b b
  | push {c s e} (h : Grows R b c) (hs : R s) (hnew : c.known[s]? = none) (he : c.Stands s e)
      (hroom : c.next + e.slots ≤ 65535) : Grows R b (c.pushed s e)

variable {R S : Symbol → Prop} {a b c : PoolBuilder}

/-- Growth adds up. -/
theorem Grows.trans (h1 : Grows R a b) (h2 : Grows R b c) : Grows R a c := by
  induction h2 with
  | refl => exact h1
  | push _ hs hnew he hroom ih => exact ih.push hs hnew he hroom

/-- What was added is of every wider kind. -/
theorem Grows.weaken (h : Grows R b c) (hRS : ∀ s, R s → S s) : Grows S b c := by
  induction h with
  | refl => exact .refl
  | push _ hs hnew he hroom ih => exact ih.push (hRS _ hs) hnew he hroom

/-- An index that is known stays known. -/
theorem Grows.known {s : Symbol} {i : UInt16} (h : Grows R b c) (hk : b.known[s]? = some i) :
    c.known[s]? = some i := by
  induction h with
  | refl => exact hk
  | @push c t e _ _ hnew _ _ ih =>
    have hne : t ≠ s := by
      rintro rfl
      rw [ih] at hnew
      cases hnew
    rw [known_pushed_of_ne hne, ih]

/-- A symbol that is not in `R` stays unknown. -/
theorem Grows.unknown {s : Symbol} (h : Grows R b c) (hs : ¬ R s) (hk : b.known[s]? = none) :
    c.known[s]? = none := by
  induction h with
  | refl => exact hk
  | @push c t e _ ht _ _ _ ih =>
    have hne : t ≠ s := by
      rintro rfl
      exact hs ht
    rw [known_pushed_of_ne hne, ih]

/-- Indices are never given back. -/
theorem Grows.next_le (h : Grows R b c) : b.next ≤ c.next := by
  induction h with
  | refl => exact Nat.le_refl _
  | push _ _ _ _ _ ih => exact Nat.le_trans ih (Nat.le_add_right ..)

theorem Grows.origin (h : Grows R b c) : c.origin = b.origin := by
  induction h with
  | refl => rfl
  | push _ _ _ _ _ ih => exact ih

theorem Grows.seed (h : Grows R b c) : c.seed = b.seed := by
  induction h with
  | refl => rfl
  | push _ _ _ _ _ ih => exact ih

/-! ### Covering -/

/-- `q.Covers b`: whatever `b` knows, `q` knows by the same index. -/
structure Covers (q b : PoolBuilder) : Prop where
  known : ∀ (s : Symbol) (i : UInt16), b.known[s]? = some i → q.known[s]? = some i
  next_le : b.next ≤ q.next
  origin : b.origin.isSome → q.origin.isSome

/-- A builder that covers another covers everything it grew from. -/
theorem Covers.of_grows {q : PoolBuilder} (hq : q.Covers c) (h : Grows R b c) : q.Covers b where
  known s i hk := hq.known s i (h.known hk)
  next_le := Nat.le_trans h.next_le hq.next_le
  origin ho := hq.origin (h.origin ▸ ho)

end PoolBuilder

namespace Pooling

open PoolBuilder

variable {R : Symbol → Prop} {α β : Type}

/-! ### Interning -/

theorem yields_fail {fault : Fault} {b c : PoolBuilder} {a : α} :
    ¬ Yields (fail fault : Pooling α) b a c :=
  yields_throw

theorem yields_fail_bind {fault : Fault} {f : α → Pooling β} {b c : PoolBuilder} {a : β} :
    ¬ Yields (fail fault >>= f) b a c :=
  yields_throw_bind

theorem yields_lift {answer : Except Fault α} {b c : PoolBuilder} {a : α} :
    Yields (lift answer) b a c ↔ answer = .ok a ∧ b = c :=
  yields_of_answer

theorem yields_lift_bind {answer : Except Fault α} {f : α → Pooling β} {b c : PoolBuilder} {a : β} :
    Yields (lift answer >>= f) b a c ↔ ∃ v, answer = .ok v ∧ Yields (f v) b a c := by
  rw [yields_bind]
  constructor
  · rintro ⟨v, m, hlift, h⟩
    obtain ⟨hv, rfl⟩ := yields_lift.mp hlift
    exact ⟨v, hv, h⟩
  · rintro ⟨v, hv, h⟩
    exact ⟨v, b, yields_lift.mpr ⟨hv, rfl⟩, h⟩

/-- **An entry is added** exactly if there is room, and gets the next index. -/
theorem yields_push {s : Symbol} {e : PoolEntry} {b c : PoolBuilder} {i : UInt16} :
    Yields (push s e) b i c ↔
      b.next + e.slots ≤ 65535 ∧ i = UInt16.ofNat b.next ∧ c = b.pushed s e := by
  unfold push
  rw [yields_get_bind]
  by_cases h : b.next + e.slots ≤ 65535
  · simp only [h, ↓reduceIte, true_and]
    constructor
    · intro hy
      obtain ⟨_, t, hset, hp⟩ := yields_bind.mp hy
      obtain ⟨rfl, rfl⟩ := yields_pure.mp hp
      exact ⟨rfl, yields_set.mp hset⟩
    · rintro ⟨rfl, rfl⟩
      exact Yields.bind (a := ⟨⟩) (yields_set.mpr rfl) (yields_pure.mpr ⟨rfl, rfl⟩)
  · simp only [h, ↓reduceIte, false_and, iff_false]
    exact yields_fail

/-- **An entry is asked for**: it is known already, or it is made and added. -/
theorem yields_intern {s : Symbol} {make : Pooling PoolEntry} {b c : PoolBuilder} {i : UInt16} :
    Yields (intern s make) b i c ↔
      b.known[s]? = some i ∧ c = b ∨
      b.known[s]? = none ∧ ∃ e m, Yields make b e m ∧ m.next + e.slots ≤ 65535 ∧
        i = UInt16.ofNat m.next ∧ c = m.pushed s e := by
  unfold intern
  rw [yields_get_bind]
  rcases hk : b.known[s]? with _ | j
  · simp only [reduceCtorEq, false_and, true_and, false_or, yields_bind, yields_push]
  · simp only [reduceCtorEq, false_and, or_false, yields_pure, Option.some.injEq]
    exact ⟨fun ⟨h1, h2⟩ => ⟨h1, h2.symm⟩, fun ⟨h1, h2⟩ => ⟨h1, h2.symm⟩⟩

/-- The index of a symbol. -/
def index : Symbol → Pooling UInt16
  | .utf8 text => utf8 text
  | .integer value => integer value
  | .float bits => float bits
  | .long value => long value
  | .double bits => double bits
  | .classRef name => classRef name
  | .string text => string text
  | .nameAndType name descriptor => nameAndType name descriptor
  | .member ref => member ref

/-- Interning looks for a known index first. -/
theorem exists_index_eq_intern (s : Symbol) : ∃ make, index s = intern s make := by
  cases s <;> exact ⟨_, rfl⟩

/-- A known symbol is found without a change. -/
theorem index_of_known {s : Symbol} {b : PoolBuilder} {i : UInt16} (h : b.known[s]? = some i) :
    Yields (index s) b i b := by
  obtain ⟨make, hmake⟩ := exists_index_eq_intern s
  rw [hmake]
  exact yields_intern.mpr (.inl ⟨h, rfl⟩)

/-- Interning a symbol whose entry is made of parts that are added just before. -/
theorem grows_intern {s : Symbol} {make : Pooling PoolEntry} {Q : Symbol → Prop}
    {b c : PoolBuilder} {i : UInt16} (hQ : ∀ t, Q t → t ∈ s.parts ∧ t ≠ s)
    (hmake : ∀ e m, Yields make b e m → Grows Q b m ∧ m.Stands s e)
    (h : Yields (intern s make) b i c) : Grows (· ∈ s.parts) b c ∧ c.known[s]? = some i := by
  rcases yields_intern.mp h with ⟨hk, rfl⟩ | ⟨hnew, e, m, he, hroom, rfl, rfl⟩
  · exact ⟨.refl, hk⟩
  · obtain ⟨hparts, hstands⟩ := hmake e m he
    -- The symbol is none of its parts, so it is still unknown when the entry is added.
    have hunknown := hparts.unknown (fun hs => (hQ s hs).2 rfl) hnew
    exact ⟨(hparts.weaken fun t ht => (hQ t ht).1).push s.mem_parts hunknown hstands hroom,
      known_pushed_self ..⟩

/-- Interning a symbol whose entry does not refer to others. -/
theorem grows_plain {s : Symbol} {e : PoolEntry} {b c : PoolBuilder} {i : UInt16}
    (hs : ∀ m : PoolBuilder, m.Stands s e) (h : Yields (intern s (pure e)) b i c) :
    Grows (· ∈ s.parts) b c ∧ c.known[s]? = some i := by
  refine grows_intern (Q := fun _ => False) (fun _ ht => ht.elim) (fun e' m he => ?_) h
  obtain ⟨rfl, rfl⟩ := yields_pure.mp he
  exact ⟨.refl, hs _⟩

theorem grows_utf8 {text : String} {b c : PoolBuilder} {i : UInt16} (h : Yields (utf8 text) b i c) :
    Grows (· = .utf8 text) b c ∧ c.known[Symbol.utf8 text]? = some i := by
  rcases yields_intern.mp h with ⟨hk, rfl⟩ | ⟨hnew, e, m, he, hroom, rfl, rfl⟩
  · exact ⟨.refl, hk⟩
  · by_cases hlen : (ModifiedUtf8.encode text).length ≤ 65535
    · simp only [hlen, ↓reduceIte] at he
      obtain ⟨rfl, rfl⟩ := yields_pure.mp he
      exact ⟨.push .refl rfl hnew (.utf8 hlen) hroom, known_pushed_self ..⟩
    · simp only [hlen, ↓reduceIte] at he
      exact absurd he yields_fail

/-- A symbol with a text as its only part adds at most the text and itself. -/
theorem grows_named {s : Symbol} {text : String} {entry : UInt16 → PoolEntry}
    {b c : PoolBuilder} {i : UInt16} (hpart : .utf8 text ∈ s.parts ∧ .utf8 text ≠ s)
    (hs : ∀ {m : PoolBuilder} {j}, m.known[Symbol.utf8 text]? = some j → m.Stands s (entry j))
    (h : Yields (intern s do return entry (← utf8 text)) b i c) :
    Grows (· ∈ s.parts) b c ∧ c.known[s]? = some i := by
  refine grows_intern (Q := (· = .utf8 text)) (by rintro _ rfl; exact hpart) (fun e m he => ?_) h
  obtain ⟨j, m', hutf8, he⟩ := yields_bind.mp he
  obtain ⟨rfl, rfl⟩ := yields_pure.mp he
  obtain ⟨hgrow, hj⟩ := grows_utf8 hutf8
  exact ⟨hgrow, hs hj⟩

/-- A class adds at most its name and itself, and is known behind it. -/
theorem grows_classRef {name : String} {b c : PoolBuilder} {i : UInt16}
    (h : Yields (classRef name) b i c) :
    Grows (· ∈ (Symbol.classRef name).parts) b c ∧ c.known[Symbol.classRef name]? = some i :=
  grows_named (by simp [Symbol.parts]) .classRef h

/-- A name and type adds at most its two texts and itself. -/
theorem grows_nameAndType {name descriptor : String} {b c : PoolBuilder} {i : UInt16}
    (h : Yields (nameAndType name descriptor) b i c) :
    Grows (· ∈ (Symbol.nameAndType name descriptor).parts) b c ∧
      c.known[Symbol.nameAndType name descriptor]? = some i := by
  refine grows_intern (Q := fun t => t = .utf8 name ∨ t = .utf8 descriptor)
    (by rintro t (rfl | rfl) <;> simp [Symbol.parts]) (fun e m he => ?_) h
  obtain ⟨j, m', hname, he⟩ := yields_bind.mp he
  obtain ⟨k, m'', hdescriptor, he⟩ := yields_bind.mp he
  obtain ⟨rfl, rfl⟩ := yields_pure.mp he
  obtain ⟨hgrow, hj⟩ := grows_utf8 hname
  obtain ⟨hgrow', hk⟩ := grows_utf8 hdescriptor
  exact ⟨(hgrow.weaken fun _ h => .inl h).trans (hgrow'.weaken fun _ h => .inr h),
    .nameAndType (hgrow'.known hj) hk⟩

/-- A reference adds at most its owner, its name and type, and itself. -/
theorem grows_member {ref : MemberRef} {b c : PoolBuilder} {i : UInt16}
    (h : Yields (member ref) b i c) :
    Grows (· ∈ (Symbol.member ref).parts) b c ∧ c.known[Symbol.member ref]? = some i := by
  refine grows_intern (Q := fun t => t ∈ (Symbol.classRef ref.owner).parts ∨
    t ∈ (Symbol.nameAndType ref.name ref.descriptor).parts) ?_ (fun e m he => ?_) h
  · simp only [Symbol.parts, List.mem_cons, List.not_mem_nil, or_false]
    rintro t ((rfl | rfl) | rfl | rfl | rfl) <;> simp
  · obtain ⟨j, m', howner, he⟩ := yields_bind.mp he
    obtain ⟨k, m'', hnamed, he⟩ := yields_bind.mp he
    obtain ⟨rfl, rfl⟩ := yields_pure.mp he
    obtain ⟨hgrow, hj⟩ := grows_classRef howner
    obtain ⟨hgrow', hk⟩ := grows_nameAndType hnamed
    exact ⟨(hgrow.weaken fun _ h => .inl h).trans (hgrow'.weaken fun _ h => .inr h),
      .member (hgrow'.known hj) hk⟩

/-- **Interning a symbol** adds at most the symbol and its parts, and the symbol is known then. -/
theorem grows_index {s : Symbol} {b c : PoolBuilder} {i : UInt16} (h : Yields (index s) b i c) :
    Grows (· ∈ s.parts) b c ∧ c.known[s]? = some i := by
  cases s with
  | utf8 text =>
    obtain ⟨hgrow, hk⟩ := grows_utf8 h
    refine ⟨hgrow.weaken ?_, hk⟩
    rintro t rfl
    exact Symbol.mem_parts _
  | integer value => exact grows_plain (fun _ => .integer value) h
  | float bits => exact grows_plain (fun _ => .float bits) h
  | long value => exact grows_plain (fun _ => .long value) h
  | double bits => exact grows_plain (fun _ => .double bits) h
  | classRef name => exact grows_classRef h
  | string text => exact grows_named (by simp [Symbol.parts]) .string h
  | nameAndType name descriptor => exact grows_nameAndType h
  | member ref => exact grows_member h

/-! ### Steps that use a pool -/

/-- `Uses R step`: `step` depends on the pool only through the indices of symbols in `R`. -/
structure Uses (R : Symbol → Prop) (step : Pooling α) : Prop where
  grows : ∀ {b a c}, Yields step b a c → b.Grows R c
  replays : ∀ {b a c q}, Yields step b a c → q.Covers c → Yields step q a q
  leaves : ∀ {b fault c}, Fails step b fault c → b.Grows R c

theorem uses_pure (a : α) : Uses R (pure a : Pooling α) where
  grows h := by
    obtain ⟨rfl, rfl⟩ := yields_pure.mp h
    exact .refl
  replays h _ := yields_pure.mpr ⟨(yields_pure.mp h).1, rfl⟩
  leaves h := absurd h fails_pure

theorem uses_lift (answer : Except Fault α) : Uses R (lift answer) where
  grows h := by
    obtain ⟨_, rfl⟩ := yields_lift.mp h
    exact .refl
  replays h _ := yields_lift.mpr ⟨(yields_lift.mp h).1, rfl⟩
  leaves h := by
    obtain ⟨-, rfl⟩ := fails_of_answer.mp h
    exact .refl

theorem uses_fail (fault : Fault) : Uses R (fail fault : Pooling α) where
  grows h := absurd h yields_fail
  replays h := absurd h yields_fail
  leaves h := by
    obtain ⟨-, rfl⟩ := fails_throw.mp h
    exact .refl

/-- A sequence uses what its parts use. -/
theorem Uses.bind {x : Pooling α} {f : α → Pooling β} (hx : Uses R x) (hf : ∀ a, Uses R (f a)) :
    Uses R (x >>= f) where
  grows h := by
    obtain ⟨a, m, h1, h2⟩ := yields_bind.mp h
    exact (hx.grows h1).trans ((hf a).grows h2)
  replays h hq := by
    obtain ⟨a, m, h1, h2⟩ := yields_bind.mp h
    exact (hx.replays h1 (hq.of_grows ((hf a).grows h2))).bind ((hf a).replays h2 hq)
  leaves h := by
    rcases fails_bind.mp h with h | ⟨a, m, h1, h2⟩
    · exact hx.leaves h
    · exact (hx.grows h1).trans ((hf a).leaves h2)

theorem Uses.map {x : Pooling α} (hx : Uses R x) (g : α → β) :
    Uses R (do let a ← x; pure (g a)) :=
  hx.bind fun a => uses_pure (g a)

theorem fails_push {s : Symbol} {e : PoolEntry} {b c : PoolBuilder} {fault : Fault}
    (h : Fails (push s e) b fault c) : c = b := by
  unfold push at h
  rw [fails_get_bind] at h
  split at h
  · rcases fails_bind.mp h with h | ⟨_, _, _, h⟩
    · exact absurd h fails_set
    · exact absurd h fails_pure
  · exact (fails_throw.mp h).2.symm

/-- Asking for an entry fails while it is made, or for lack of room. -/
theorem fails_intern {s : Symbol} {make : Pooling PoolEntry} {b c : PoolBuilder} {fault : Fault}
    (h : Fails (intern s make) b fault c) : Fails make b fault c ∨ ∃ e, Yields make b e c := by
  unfold intern at h
  rw [fails_get_bind] at h
  rcases hk : b.known[s]? with _ | i
  · simp only [hk] at h
    rcases fails_bind.mp h with h | ⟨e, m, hmake, h⟩
    · exact .inl h
    · obtain rfl := fails_push h
      exact .inr ⟨e, hmake⟩
  · simp only [hk] at h
    exact absurd h fails_pure

/-- A symbol uses its parts if making its entry does. -/
theorem uses_intern {s : Symbol} {make : Pooling PoolEntry} (hindex : index s = intern s make)
    (hparts : ∀ t ∈ s.parts, R t) (hmake : Uses R make) : Uses R (index s) where
  grows h := (grows_index h).1.weaken hparts
  replays h hq := index_of_known (hq.known _ _ (grows_index h).2)
  leaves h := by
    rw [hindex] at h
    -- What was added for the entry stays, also where the entry itself finds no room.
    rcases fails_intern h with h | ⟨_, h⟩
    · exact hmake.leaves h
    · exact hmake.grows h

theorem uses_utf8 {text : String} (h : R (.utf8 text)) : Uses R (utf8 text) := by
  refine uses_intern (s := .utf8 text) rfl (by simpa [Symbol.parts] using h) ?_
  split
  · exact uses_pure _
  · exact uses_fail _

theorem uses_classRef {name : String} (h : ∀ t ∈ (Symbol.classRef name).parts, R t) :
    Uses R (classRef name) :=
  uses_intern (s := .classRef name) rfl h ((uses_utf8 (h _ (by simp [Symbol.parts]))).map _)

theorem uses_nameAndType {name descriptor : String}
    (h : ∀ t ∈ (Symbol.nameAndType name descriptor).parts, R t) :
    Uses R (nameAndType name descriptor) :=
  uses_intern (s := .nameAndType name descriptor) rfl h
    ((uses_utf8 (h _ (by simp [Symbol.parts]))).bind fun _ =>
      (uses_utf8 (h _ (by simp [Symbol.parts]))).map _)

/-- **A symbol uses its parts.** -/
theorem uses_index {s : Symbol} (h : ∀ t ∈ s.parts, R t) : Uses R (index s) := by
  cases s with
  | utf8 text => exact uses_utf8 (h _ (Symbol.mem_parts _))
  | integer | float | long | double => exact uses_intern rfl h (uses_pure _)
  | classRef name => exact uses_classRef h
  | string text => exact uses_intern rfl h ((uses_utf8 (h _ (by simp [Symbol.parts]))).map _)
  | nameAndType name descriptor => exact uses_nameAndType h
  | member ref =>
    have howner := uses_classRef fun t ht => h t (Symbol.parts_owner_subset ref ht)
    have hnamed := uses_nameAndType fun t ht => h t (Symbol.parts_named_subset ref ht)
    exact uses_intern rfl h (howner.bind fun _ => hnamed.map _)

/-- A check of something else than the pool. -/
theorem Uses.unless {fails : Prop} [Decidable fails] {fault : Fault} {rest : Pooling β}
    (hrest : Uses R rest) :
    Uses R (do
      if fails then fail fault
      rest) := by
  by_cases h : fails
  · simp only [h, ↓reduceIte]
    exact (uses_fail fault).bind fun _ => hrest
  · simp only [h, ↓reduceIte]
    exact hrest

/-- A step behind a check runs if the check does not fail. -/
theorem yields_unless {fails : Prop} [Decidable fails] {fault : Fault} {rest : Pooling β}
    {b c : PoolBuilder} {a : β} :
    Yields (do
      if fails then fail fault
      rest) b a c ↔ ¬ fails ∧ Yields rest b a c := by
  by_cases h : fails
  · simp only [h, ↓reduceIte, not_true_eq_false, false_and, iff_false]
    exact yields_fail_bind
  · simp only [h, ↓reduceIte, not_false_eq_true, true_and]

/-- A check of the pool that a pool which covers more passes as well. -/
theorem Uses.guard {fails : PoolBuilder → Bool} {fault : Fault} {rest : Pooling β}
    (hstable : ∀ b q, q.Covers b → fails b = false → fails q = false) (hrest : Uses R rest) :
    Uses R (do
      let pool ← get
      if fails pool then fail fault
      rest) where
  grows {b a c} h := hrest.grows (yields_unless.mp (yields_get_bind.mp h)).2
  replays {b a c q} h hq := by
    obtain ⟨hb, h⟩ := yields_unless.mp (yields_get_bind.mp h)
    -- The larger pool passes the check since the smaller one did.
    have hfq := hstable b q (hq.of_grows (hrest.grows h)) (Bool.eq_false_iff.mpr hb)
    exact yields_get_bind.mpr (yields_unless.mpr ⟨Bool.eq_false_iff.mp hfq, hrest.replays h hq⟩)
  leaves {b fault c} h := (Uses.unless hrest).leaves (fails_get_bind.mp h)

/-- A list uses what its items use. -/
theorem uses_mapM {f : α → Pooling β} {items : List α} (h : ∀ a ∈ items, Uses R (f a)) :
    Uses R (items.mapM f) := by
  induction items with
  | nil => exact uses_pure []
  | cons a items ih =>
    rw [List.mapM_cons]
    have ih := ih fun x hx => h x (List.mem_cons_of_mem a hx)
    exact (h a (List.mem_cons_self ..)).bind fun _ => ih.bind fun _ => uses_pure _

theorem uses_foldlM {f : β → α → Pooling β} {items : List α} (h : ∀ b, ∀ a ∈ items, Uses R (f b a))
    (start : β) : Uses R (items.foldlM f start) := by
  induction items generalizing start with
  | nil => exact uses_pure start
  | cons a items ih =>
    rw [List.foldlM_cons]
    exact (h start a (List.mem_cons_self ..)).bind fun b =>
      ih (fun b x hx => h b x (List.mem_cons_of_mem a hx)) b

end Pooling

end RoundingPatch.ClassFile
