import RoundingPatch.Proofs.ClassFile.Pool.Growth
import RoundingPatch.Proofs.ClassFile.Pool.Reading
/-!
# What the indices of a pool mean

`pool.Denotes i s` says that the entry at index `i` stands for symbol `s`. A pool that extends
another one denotes at least as much (`Denotes.mono`), so all that is read with it is read the same.

`b.Sound slots` says that the bytes of builder `b` read as `slots` and that every index `b` knows
denotes its symbol there. A builder made from the pool of a class file is sound (`sound_ofPool`),
and growing keeps it so (`Sound.grows`).
-/

namespace RoundingPatch.ClassFile

namespace ConstantPool

/-! ### Look-ups that succeed -/

variable {pool larger : ConstantPool} {i : UInt16}

/-- An index has an entry if its slot is filled. -/
theorem get_eq_ok {e : PoolEntry} : pool.get i = .ok e ↔ pool.slots[i.toNat]? = some (some e) := by
  unfold get
  split
  · next h => simp [h]
  · next h =>
    simp only [reduceCtorEq, false_iff]
    exact fun h' => h e h'

theorem utf8_eq_ok {text : String} : pool.utf8 i = .ok text ↔ pool.get i = .ok (.utf8 text) := by
  unfold utf8
  rw [except_bind_eq_ok]
  constructor
  · rintro ⟨e, he, h⟩
    cases e <;> cases h
    exact he
  · exact fun h => ⟨_, h, rfl⟩

/-- A class is an entry with the index of its name. -/
theorem className_eq_ok {name : String} :
    pool.className i = .ok name ↔ ∃ j, pool.get i = .ok (.classRef j) ∧ pool.utf8 j = .ok name := by
  unfold className
  rw [except_bind_eq_ok]
  constructor
  · rintro ⟨e, he, h⟩
    cases e <;> first | exact ⟨_, he, h⟩ | cases h
  · exact fun ⟨j, he, h⟩ => ⟨_, he, h⟩

theorem nameAndType_eq_ok {name descriptor : String} :
    pool.nameAndType i = .ok (name, descriptor) ↔
      ∃ j k, pool.get i = .ok (.nameAndType j k) ∧ pool.utf8 j = .ok name ∧
        pool.utf8 k = .ok descriptor := by
  unfold nameAndType
  rw [except_bind_eq_ok]
  constructor
  · rintro ⟨e, he, h⟩
    cases e with
    | nameAndType j k =>
      obtain ⟨n, hn, h⟩ := except_bind_eq_ok.1 h
      obtain ⟨d, hd, h⟩ := except_bind_eq_ok.1 h
      cases h
      exact ⟨j, k, he, hn, hd⟩
    | _ => cases h
  · rintro ⟨j, k, he, hn, hd⟩
    exact ⟨_, he, except_bind_eq_ok.2 ⟨name, hn, except_bind_eq_ok.2 ⟨descriptor, hd, rfl⟩⟩⟩

/-- A reference is an entry with the indices of its owner and of its name and type. -/
theorem member_eq_ok {ref : MemberRef} :
    pool.member i = .ok ref ↔
      ∃ j k, pool.get i = .ok (.member ref.kind j k) ∧
        pool.nameAndType k = .ok (ref.name, ref.descriptor) ∧ pool.className j = .ok ref.owner := by
  unfold member
  rw [except_bind_eq_ok]
  constructor
  · rintro ⟨e, he, h⟩
    cases e with
    | member kind j k =>
      obtain ⟨⟨n, d⟩, hnd, h⟩ := except_bind_eq_ok.1 h
      obtain ⟨o, ho, h⟩ := except_bind_eq_ok.1 h
      cases h
      exact ⟨j, k, he, hnd, ho⟩
    | _ => cases h
  · rintro ⟨j, k, he, hnd, ho⟩
    exact ⟨_, he, except_bind_eq_ok.2 ⟨_, hnd, except_bind_eq_ok.2 ⟨_, ho, rfl⟩⟩⟩

theorem toOption_map_eq_some {α β : Type} {x : Except Fault α} {f : α → β} {b : β} :
    x.toOption.map f = some b ↔ ∃ a, x = .ok a ∧ f a = b := by
  rcases x with _ | a <;> simp [Except.toOption]

/-! ### Denoting -/

/-- The entry at index `i` stands for symbol `s`. -/
def Denotes (pool : ConstantPool) (i : UInt16) (s : Symbol) : Prop :=
  ∃ e, pool.get i = .ok e ∧ pool.symbol? i e = some s

/-- The entry that stands for a symbol is of the symbol's kind. -/
theorem symbol?_eq_some {e : PoolEntry} {s : Symbol} (h : pool.symbol? i e = some s) :
    match s with
    | .utf8 text => e = .utf8 text
    | .integer value => e = .integer value
    | .float bits => e = .float bits
    | .long value => e = .long value
    | .double bits => e = .double bits
    | .classRef name => ∃ j, e = .classRef j ∧ pool.utf8 j = .ok name
    | .string text => ∃ j, e = .string j ∧ pool.utf8 j = .ok text
    | .nameAndType name descriptor =>
      (∃ j k, e = .nameAndType j k) ∧ pool.nameAndType i = .ok (name, descriptor)
    | .member ref => (∃ kind j k, e = .member kind j k) ∧ pool.member i = .ok ref := by
  cases e with
  | classRef j =>
    obtain ⟨_, hj, rfl⟩ := toOption_map_eq_some.1 h
    exact ⟨j, rfl, hj⟩
  | string j =>
    obtain ⟨_, hj, rfl⟩ := toOption_map_eq_some.1 h
    exact ⟨j, rfl, hj⟩
  | nameAndType j k =>
    obtain ⟨_, hnd, rfl⟩ := toOption_map_eq_some.1 h
    exact ⟨⟨j, k, rfl⟩, hnd⟩
  | member kind j k =>
    obtain ⟨_, href, rfl⟩ := toOption_map_eq_some.1 h
    exact ⟨⟨kind, j, k, rfl⟩, href⟩
  | utf8 | integer | float | long | double =>
    cases h
    rfl
  | _ => cases h

theorem denotes_utf8 {text : String} : pool.Denotes i (.utf8 text) ↔ pool.utf8 i = .ok text := by
  rw [utf8_eq_ok]
  constructor
  · rintro ⟨e, he, h⟩
    obtain rfl : e = .utf8 text := symbol?_eq_some h
    exact he
  · exact fun h => ⟨_, h, rfl⟩

theorem denotes_integer {value : Int32} :
    pool.Denotes i (.integer value) ↔ pool.get i = .ok (.integer value) := by
  constructor
  · rintro ⟨e, he, h⟩
    obtain rfl : e = .integer value := symbol?_eq_some h
    exact he
  · exact fun h => ⟨_, h, rfl⟩

theorem denotes_float {bits : UInt32} :
    pool.Denotes i (.float bits) ↔ pool.get i = .ok (.float bits) := by
  constructor
  · rintro ⟨e, he, h⟩
    obtain rfl : e = .float bits := symbol?_eq_some h
    exact he
  · exact fun h => ⟨_, h, rfl⟩

theorem denotes_long {value : Int64} :
    pool.Denotes i (.long value) ↔ pool.get i = .ok (.long value) := by
  constructor
  · rintro ⟨e, he, h⟩
    obtain rfl : e = .long value := symbol?_eq_some h
    exact he
  · exact fun h => ⟨_, h, rfl⟩

theorem denotes_double {bits : UInt64} :
    pool.Denotes i (.double bits) ↔ pool.get i = .ok (.double bits) := by
  constructor
  · rintro ⟨e, he, h⟩
    obtain rfl : e = .double bits := symbol?_eq_some h
    exact he
  · exact fun h => ⟨_, h, rfl⟩

/-- An index denotes a class exactly if the pool has the class name there. -/
theorem denotes_classRef {name : String} :
    pool.Denotes i (.classRef name) ↔ pool.className i = .ok name := by
  rw [className_eq_ok]
  constructor
  · rintro ⟨e, he, h⟩
    obtain ⟨j, rfl, hj⟩ := symbol?_eq_some h
    exact ⟨j, he, hj⟩
  · rintro ⟨j, he, hj⟩
    exact ⟨_, he, toOption_map_eq_some.2 ⟨_, hj, rfl⟩⟩

theorem denotes_string {text : String} :
    pool.Denotes i (.string text) ↔ ∃ j, pool.get i = .ok (.string j) ∧ pool.utf8 j = .ok text := by
  constructor
  · rintro ⟨e, he, h⟩
    obtain ⟨j, rfl, hj⟩ := symbol?_eq_some h
    exact ⟨j, he, hj⟩
  · rintro ⟨j, he, hj⟩
    exact ⟨_, he, toOption_map_eq_some.2 ⟨_, hj, rfl⟩⟩

theorem denotes_nameAndType {name descriptor : String} :
    pool.Denotes i (.nameAndType name descriptor) ↔
      pool.nameAndType i = .ok (name, descriptor) := by
  constructor
  · rintro ⟨e, _, h⟩
    exact (symbol?_eq_some h).2
  · intro h
    obtain ⟨j, k, he, _⟩ := nameAndType_eq_ok.1 h
    exact ⟨_, he, toOption_map_eq_some.2 ⟨_, h, rfl⟩⟩

/-- An index denotes a reference exactly if the pool has the reference there. -/
theorem denotes_member {ref : MemberRef} :
    pool.Denotes i (.member ref) ↔ pool.member i = .ok ref := by
  constructor
  · rintro ⟨e, _, h⟩
    exact (symbol?_eq_some h).2
  · intro h
    obtain ⟨j, k, he, _⟩ := member_eq_ok.1 h
    exact ⟨_, he, toOption_map_eq_some.2 ⟨_, h, rfl⟩⟩

/-- Whatever a symbol is made of is denoted as well. -/
theorem Denotes.parts {s : Symbol} (h : pool.Denotes i s) :
    ∀ t ∈ s.parts, ∃ j, pool.Denotes j t := by
  have ofClass {j : UInt16} {name : String} (h : pool.Denotes j (.classRef name)) :
      ∃ k, pool.Denotes k (.utf8 name) := by
    obtain ⟨k, _, hk⟩ := className_eq_ok.1 (denotes_classRef.1 h)
    exact ⟨k, denotes_utf8.2 hk⟩
  have ofNamed {j : UInt16} {name descriptor : String}
      (h : pool.Denotes j (.nameAndType name descriptor)) :
      (∃ k, pool.Denotes k (.utf8 name)) ∧ ∃ k, pool.Denotes k (.utf8 descriptor) := by
    obtain ⟨k, l, _, hk, hl⟩ := nameAndType_eq_ok.1 (denotes_nameAndType.1 h)
    exact ⟨⟨k, denotes_utf8.2 hk⟩, ⟨l, denotes_utf8.2 hl⟩⟩
  intro t ht
  -- Each kind of entry is followed through the indices in it.
  cases s with
  | classRef name =>
    simp only [Symbol.parts, List.mem_cons, List.not_mem_nil, or_false] at ht
    rcases ht with rfl | rfl
    · exact ofClass h
    · exact ⟨i, h⟩
  | string text =>
    simp only [Symbol.parts, List.mem_cons, List.not_mem_nil, or_false] at ht
    rcases ht with rfl | rfl
    · obtain ⟨k, _, hk⟩ := denotes_string.1 h
      exact ⟨k, denotes_utf8.2 hk⟩
    · exact ⟨i, h⟩
  | nameAndType name descriptor =>
    simp only [Symbol.parts, List.mem_cons, List.not_mem_nil, or_false] at ht
    rcases ht with rfl | rfl | rfl
    · exact (ofNamed h).1
    · exact (ofNamed h).2
    · exact ⟨i, h⟩
  | member ref =>
    obtain ⟨j, k, _, hnd, ho⟩ := member_eq_ok.1 (denotes_member.1 h)
    have ho := denotes_classRef.2 ho
    have hnd := denotes_nameAndType.2 hnd
    simp only [Symbol.parts, List.mem_cons, List.not_mem_nil, or_false] at ht
    rcases ht with rfl | rfl | rfl | rfl | rfl | rfl
    · exact ofClass ho
    · exact ⟨j, ho⟩
    · exact (ofNamed hnd).1
    · exact (ofNamed hnd).2
    · exact ⟨k, hnd⟩
    · exact ⟨i, h⟩
  | _ =>
    rw [Symbol.parts, List.mem_singleton] at ht
    · subst ht
      exact ⟨i, h⟩
    all_goals simp

/-! ### Larger pools -/

/-- `larger.Extends pool`: `larger` has every entry of `pool` at its index. -/
def Extends (larger pool : ConstantPool) : Prop :=
  ∀ i e, pool.get i = .ok e → larger.get i = .ok e

theorem Extends.refl (pool : ConstantPool) : pool.Extends pool :=
  fun _ _ h => h

/-- Indices added behind those of a pool. -/
theorem extends_of_append {more : Array (Option PoolEntry)}
    (h : larger.slots = pool.slots ++ more) : larger.Extends pool := by
  intro i e he
  rw [get_eq_ok] at he ⊢
  have hi : i.toNat < pool.slots.size := by
    by_contra hlt
    rw [Array.getElem?_eq_none (by omega)] at he
    cases he
  rw [h, Array.getElem?_append_left hi, he]

variable (hp : larger.Extends pool)
include hp

/-- A text stays where it is in a larger pool. -/
theorem Extends.utf8 {text : String} (h : pool.utf8 i = .ok text) : larger.utf8 i = .ok text :=
  utf8_eq_ok.2 (hp _ _ (utf8_eq_ok.1 h))

theorem Extends.className {name : String} (h : pool.className i = .ok name) :
    larger.className i = .ok name := by
  obtain ⟨j, he, hj⟩ := className_eq_ok.1 h
  exact className_eq_ok.2 ⟨j, hp _ _ he, hp.utf8 hj⟩

theorem Extends.nameAndType {pair : String × String} (h : pool.nameAndType i = .ok pair) :
    larger.nameAndType i = .ok pair := by
  obtain ⟨j, k, he, hj, hk⟩ := nameAndType_eq_ok.1 h
  exact nameAndType_eq_ok.2 ⟨j, k, hp _ _ he, hp.utf8 hj, hp.utf8 hk⟩

theorem Extends.member {ref : MemberRef} (h : pool.member i = .ok ref) :
    larger.member i = .ok ref := by
  obtain ⟨j, k, he, hnd, ho⟩ := member_eq_ok.1 h
  exact member_eq_ok.2 ⟨j, k, hp _ _ he, hp.nameAndType hnd, hp.className ho⟩

theorem Extends.className? {name : Option String} (h : pool.className? i = .ok name) :
    larger.className? i = .ok name := by
  unfold ConstantPool.className? at h ⊢
  by_cases h0 : i = 0
  · simpa only [h0, ↓reduceIte] using h
  · simp only [h0, ↓reduceIte] at h ⊢
    rcases hn : pool.className i with _ | n
    · rw [hn] at h
      cases h
    · rw [hn] at h
      rw [hp.className hn]
      exact h

/-- So does a constant that can be loaded. -/
theorem Extends.loadable {constant : Constant} (h : pool.loadable i = .ok constant) :
    larger.loadable i = .ok constant := by
  obtain ⟨e, he, h⟩ := except_bind_eq_ok.1 h
  refine except_bind_eq_ok.2 ⟨e, hp _ _ he, ?_⟩
  cases e with
  | string text =>
    obtain ⟨t, ht, h⟩ := except_bind_eq_ok.1 h
    exact except_bind_eq_ok.2 ⟨t, hp.utf8 ht, h⟩
  | classRef name =>
    obtain ⟨t, ht, h⟩ := except_bind_eq_ok.1 h
    exact except_bind_eq_ok.2 ⟨t, hp.utf8 ht, h⟩
  | _ => exact h

/-- What an index denotes, it denotes in every larger pool. -/
theorem Denotes.mono {s : Symbol} (h : pool.Denotes i s) : larger.Denotes i s := by
  cases s with
  | utf8 text => exact denotes_utf8.2 (hp.utf8 (denotes_utf8.1 h))
  | integer value => exact denotes_integer.2 (hp _ _ (denotes_integer.1 h))
  | float bits => exact denotes_float.2 (hp _ _ (denotes_float.1 h))
  | long value => exact denotes_long.2 (hp _ _ (denotes_long.1 h))
  | double bits => exact denotes_double.2 (hp _ _ (denotes_double.1 h))
  | classRef name => exact denotes_classRef.2 (hp.className (denotes_classRef.1 h))
  | string text =>
    obtain ⟨j, he, hj⟩ := denotes_string.1 h
    exact denotes_string.2 ⟨j, hp _ _ he, hp.utf8 hj⟩
  | nameAndType name descriptor =>
    exact denotes_nameAndType.2 (hp.nameAndType (denotes_nameAndType.1 h))
  | member ref => exact denotes_member.2 (hp.member (denotes_member.1 h))

end ConstantPool

namespace PoolBuilder

open ConstantPool Read

/-! ### Sound builders -/

/-- The indices that `slots` fills, read from the bytes of builder `b`. -/
def poolOf (b : PoolBuilder) (slots : Array (Option PoolEntry)) : ConstantPool :=
  ofSlots slots b.bytes

/-- `pool` denotes every symbol that `b` knows by the index that `b` knows it by. -/
def Means (b : PoolBuilder) (pool : ConstantPool) : Prop :=
  ∀ (s : Symbol) (i : UInt16), b.known[s]? = some i → pool.Denotes i s

/-- The bytes of `b` read as `slots`, and what `b` knows holds there. -/
structure Sound (b : PoolBuilder) (slots : Array (Option PoolEntry)) : Prop where
  fills : ∃ old, Fills b.seed old ∧
    slots = old ++ (b.added.toList.flatMap PoolEntry.slotList).toArray
  encodable : ∀ e ∈ b.added.toList, e.Encodable
  next_eq : b.next = slots.size
  room : slots.size ≤ 65535
  means : b.Means (b.poolOf slots)

variable {b c : PoolBuilder} {slots : Array (Option PoolEntry)}

/-- **A sound builder reads back** as its indices. -/
theorem Sound.reads (h : b.Sound slots) :
    Reads ConstantPool.read (Bytes.ofU2 (UInt16.ofNat b.count) ++ b.bytes) (b.poolOf slots) := by
  obtain ⟨old, hfills, rfl⟩ := h.fills
  have hsize (l : List (Option PoolEntry)) : (old ++ l.toArray).size = old.size + l.length := by
    simp
  have hroom := h.room
  have hnext := h.next_eq
  rw [hsize] at hroom hnext
  have hread := reads_pool hfills h.encodable hroom
  rwa [← hnext] at hread

/-- A builder that means a pool means every larger one. -/
theorem Means.mono {pool larger : ConstantPool} (h : b.Means pool) (hp : larger.Extends pool) :
    b.Means larger :=
  fun s i hk => (h s i hk).mono hp

/-- A pool that is meant by a builder is meant by every earlier one. -/
theorem Means.of_grows {R : Symbol → Prop} {pool : ConstantPool} (h : c.Means pool)
    (hg : b.Grows R c) : b.Means pool :=
  fun s i hk => h s i (hg.known hk)

theorem Stands.encodable {s : Symbol} {e : PoolEntry} (h : b.Stands s e) : e.Encodable := by
  cases h with
  | utf8 h => exact h
  | _ => trivial

/-- In a pool that means what `b` knows, an entry that stands for `s` denotes it. -/
theorem Stands.denotes {s : Symbol} {e : PoolEntry} (h : b.Stands s e) {pool : ConstantPool}
    {i : UInt16} (hm : b.Means pool) (hi : pool.get i = .ok e) : pool.Denotes i s := by
  cases h with
  | utf8 _ => exact denotes_utf8.2 (utf8_eq_ok.2 hi)
  | integer value => exact denotes_integer.2 hi
  | float bits => exact denotes_float.2 hi
  | long value => exact denotes_long.2 hi
  | double bits => exact denotes_double.2 hi
  | classRef hk =>
    exact denotes_classRef.2 (className_eq_ok.2 ⟨_, hi, denotes_utf8.1 (hm _ _ hk)⟩)
  | string hk => exact denotes_string.2 ⟨_, hi, denotes_utf8.1 (hm _ _ hk)⟩
  | nameAndType hn hd =>
    exact denotes_nameAndType.2 (nameAndType_eq_ok.2
      ⟨_, _, hi, denotes_utf8.1 (hm _ _ hn), denotes_utf8.1 (hm _ _ hd)⟩)
  | member ho hn =>
    exact denotes_member.2 (member_eq_ok.2
      ⟨_, _, hi, denotes_nameAndType.1 (hm _ _ hn), denotes_classRef.1 (hm _ _ ho)⟩)

/-- The index that a new entry gets. -/
theorem Sound.get_pushed (h : b.Sound slots) {s : Symbol} {e : PoolEntry}
    (hroom : b.next + e.slots ≤ 65535) :
    ((b.pushed s e).poolOf (slots ++ e.slotList.toArray)).get (UInt16.ofNat b.next) = .ok e := by
  have hpos : 0 < e.slots := by
    rw [PoolEntry.slots]
    split <;> omega
  rw [get_eq_ok, UInt16.toNat_ofNat_of_lt' (show b.next < 65536 by omega), h.next_eq]
  show (slots ++ e.slotList.toArray)[slots.size]? = _
  rw [Array.getElem?_append_right (Nat.le_refl _), Nat.sub_self, List.getElem?_toArray]
  unfold PoolEntry.slotList
  split <;> rfl

/-- **Adding an entry keeps the builder sound.** -/
theorem Sound.push (h : b.Sound slots) {s : Symbol} {e : PoolEntry} (he : b.Stands s e)
    (hroom : b.next + e.slots ≤ 65535) :
    (b.pushed s e).Sound (slots ++ e.slotList.toArray) := by
  have hsize : (slots ++ e.slotList.toArray).size = slots.size + e.slots := by
    simp [PoolEntry.length_slotList]
  have hext : ((b.pushed s e).poolOf (slots ++ e.slotList.toArray)).Extends (b.poolOf slots) :=
    extends_of_append rfl
  have hnext := h.next_eq
  refine ⟨?_, ?_, ?_, ?_, ?_⟩
  · obtain ⟨old, hfills, hslots⟩ := h.fills
    refine ⟨old, hfills, ?_⟩
    show _ = old ++ ((b.added.push e).toList.flatMap PoolEntry.slotList).toArray
    rw [hslots, Array.toList_push, List.flatMap_append, List.flatMap_singleton]
    simp
  · intro x hx
    have hx : x ∈ (b.added.push e).toList := hx
    rw [Array.toList_push, List.mem_append, List.mem_singleton] at hx
    rcases hx with hx | rfl
    · exact h.encodable x hx
    · exact he.encodable
  · show b.next + e.slots = _
    rw [hsize, hnext]
  · rw [hsize]
    omega
  · intro t i hk
    rw [known_pushed] at hk
    -- The symbol that was pushed is denoted by the new entry, any other as before.
    split at hk
    · next hst =>
      cases hk
      subst hst
      exact he.denotes (h.means.mono hext) (h.get_pushed hroom)
    · exact (h.means t i hk).mono hext

/-- **Growing keeps a builder sound**, and the old indices stay. -/
theorem Sound.grows {R : Symbol → Prop} (h : b.Sound slots) (hg : b.Grows R c) :
    ∃ more, c.Sound (slots ++ more) := by
  induction hg with
  | refl => exact ⟨#[], by simpa using h⟩
  | @push c s e _ _ _ he hroom ih =>
    obtain ⟨more, hc⟩ := ih
    exact ⟨more ++ e.slotList.toArray, by simpa [Array.append_assoc] using hc.push he hroom⟩

/-- Nothing stands at index 0. -/
theorem Sound.get_zero (h : b.Sound slots) (e : PoolEntry) :
    (b.poolOf slots).get 0 ≠ .ok e := by
  obtain ⟨old, hfills, hslots⟩ := h.fills
  have hpos := hfills.size_pos
  rw [Ne, get_eq_ok]
  show ¬ slots[0]? = _
  rw [hslots, Array.getElem?_append_left hpos, hfills.1]
  simp

/-! ### Where builders start -/

/-- The empty builder is sound. -/
theorem sound_empty : empty.Sound #[none] where
  fills := ⟨#[none], fills_nil, rfl⟩
  encodable _ h := by cases h
  next_eq := rfl
  room := by simp
  means s i h := by
    have h : (∅ : Std.TreeMap Symbol UInt16)[s]? = some i := h
    simp at h

end PoolBuilder

end RoundingPatch.ClassFile
