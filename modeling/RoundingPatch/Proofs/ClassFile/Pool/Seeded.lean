import RoundingPatch.Proofs.ClassFile.Pool.Meaning
/-!
# Builders that start from a pool

A builder made from a pool knows the least index of every symbol the pool denotes (`known_ofPool`),
and it is sound if the pool was read from its bytes (`sound_ofPool`).

If all that is added to a pool are member references, nothing that dangled before comes to mean
something: the pool that is written in the end is known to a builder made from it by the same
indices as to the builder that wrote it (`known_reopened`).
-/

namespace RoundingPatch.ClassFile

namespace ConstantPool

variable {pool larger : ConstantPool}

/-! ### Entries and indices -/

/-- The entries of a pool are those that its indices have. -/
theorem mem_entries {i : UInt16} {e : PoolEntry} (hsize : pool.slots.size ≤ 65535) :
    (i, e) ∈ pool.entries ↔ pool.get i = .ok e := by
  unfold entries
  rw [List.mem_filterMap, get_eq_ok]
  constructor
  · rintro ⟨⟨slot, n⟩, hmem, h⟩
    rw [List.mem_zipIdx_iff_getElem?, Array.getElem?_toList] at hmem
    obtain ⟨x, rfl, h⟩ := Option.map_eq_some_iff.mp h
    cases h
    have hn : n < pool.slots.size := by
      by_contra hle
      rw [Array.getElem?_eq_none (by omega)] at hmem
      cases hmem
    rw [UInt16.toNat_ofNat_of_lt' (show n < 65536 by omega)]
    exact hmem
  · intro h
    refine ⟨(some e, i.toNat), ?_, ?_⟩
    · rw [List.mem_zipIdx_iff_getElem?, Array.getElem?_toList]
      exact h
    · simp

/-- The first of some entries that stands for `s`. -/
def firstIndex (pool : ConstantPool) (entries : List (UInt16 × PoolEntry)) (s : Symbol) :
    Option UInt16 :=
  (entries.find? fun p => pool.symbol? p.1 p.2 = some s).map (·.1)

theorem firstIndex_nil (s : Symbol) : pool.firstIndex [] s = none := rfl

theorem firstIndex_cons (p : UInt16 × PoolEntry) (rest : List (UInt16 × PoolEntry)) (s : Symbol) :
    pool.firstIndex (p :: rest) s =
      if pool.symbol? p.1 p.2 = some s then some p.1 else pool.firstIndex rest s := by
  unfold firstIndex
  rw [List.find?_cons]
  by_cases h : pool.symbol? p.1 p.2 = some s <;> simp [h]

/-- The first index in two lists is that of the first list, if it is there. -/
theorem firstIndex_append (l1 l2 : List (UInt16 × PoolEntry)) (s : Symbol) :
    pool.firstIndex (l1 ++ l2) s = (pool.firstIndex l1 s).or (pool.firstIndex l2 s) := by
  induction l1 with
  | nil => rfl
  | cons p l1 ih =>
    rw [List.cons_append, firstIndex_cons, firstIndex_cons, ih]
    split <;> rfl

/-- Pools in which the entries mean the same symbols find the same indices. -/
theorem firstIndex_congr {entries : List (UInt16 × PoolEntry)}
    (h : ∀ p ∈ entries, larger.symbol? p.1 p.2 = pool.symbol? p.1 p.2) (s : Symbol) :
    larger.firstIndex entries s = pool.firstIndex entries s := by
  induction entries with
  | nil => rfl
  | cons p rest ih =>
    rw [firstIndex_cons, firstIndex_cons, h p (List.mem_cons_self ..),
      ih fun x hx => h x (List.mem_cons_of_mem p hx)]

end ConstantPool

namespace PoolBuilder

open ConstantPool Read

/-- What a builder made from a pool knows. -/
theorem known_ofPool (pool : ConstantPool) (s : Symbol) :
    (ofPool pool).known[s]? = pool.firstIndex pool.entries s := by
  have hfold (add : Std.TreeMap Symbol UInt16 → UInt16 × PoolEntry → Std.TreeMap Symbol UInt16)
      (hadd : ∀ known p, add known p
        = (pool.symbol? p.1 p.2).elim known fun symbol => known.insertIfNew symbol p.1)
      (entries : List (UInt16 × PoolEntry)) (start : Std.TreeMap Symbol UInt16) :
      (entries.foldl add start)[s]? = start[s]?.or (pool.firstIndex entries s) := by
    induction entries generalizing start with
    | nil => simp [firstIndex_nil]
    | cons p rest ih =>
      rw [List.foldl_cons, ih, hadd, firstIndex_cons]
      rcases hp : pool.symbol? p.1 p.2 with _ | t
      · simp
      · simp only [Option.elim_some, Option.some.injEq]
        rw [Std.TreeMap.getElem?_insertIfNew]
        simp only [Std.LawfulEqCmp.compare_eq_iff_eq]
        -- The first entry of a symbol counts, here as in the lookup.
        by_cases hts : t = s
        · subst hts
          rcases hk : start[t]? with _ | i
          · have hmem : t ∉ start := by
              rw [Std.TreeMap.mem_iff_isSome_getElem?, hk]
              simp
            simp [hmem]
          · have hmem : t ∈ start := by
              rw [Std.TreeMap.mem_iff_isSome_getElem?, hk]
              rfl
            simp [hmem]
        · simp [hts]
  unfold ofPool
  refine (hfold _ (fun known p => ?_) pool.entries {}).trans ?_
  · obtain ⟨index, entry⟩ := p
    cases h : pool.symbol? index entry <;> simp only [h] <;> rfl
  · rw [Std.TreeMap.getElem?_emptyc, Option.none_or]

/-- What a builder knows from a pool is what the pool has. -/
theorem denotes_of_known_ofPool {pool : ConstantPool} (hsize : pool.slots.size ≤ 65535) :
    (ofPool pool).Means pool := by
  intro s i h
  rw [known_ofPool, firstIndex, Option.map_eq_some_iff] at h
  obtain ⟨⟨j, e⟩, hfind, rfl⟩ := h
  have hsymbol := List.find?_some hfind
  have hmem := List.mem_of_find?_eq_some hfind
  exact ⟨e, (mem_entries hsize).mp hmem, by simpa using hsymbol⟩

/-- Whatever a pool denotes is known to a builder made from it. -/
theorem known_of_denotes {pool : ConstantPool} (hsize : pool.slots.size ≤ 65535) {s : Symbol}
    {i : UInt16} (h : pool.Denotes i s) : (ofPool pool).known[s]?.isSome := by
  obtain ⟨e, he, hs⟩ := h
  rw [known_ofPool, firstIndex, Option.isSome_map, List.find?_isSome]
  exact ⟨(i, e), (mem_entries hsize).mpr he, by simpa using hs⟩

/-- A pool as it is read from a class file. -/
def WasRead (pool : ConstantPool) : Prop :=
  Fills pool.raw pool.slots ∧ pool.count ≤ 65535 ∧ pool.fingerprint = xxh3 pool.raw

/-- A builder begun with a pool that was read is the pool. -/
theorem poolOf_ofPool {pool : ConstantPool} (h : WasRead pool) :
    (ofPool pool).poolOf pool.slots = pool := by
  obtain ⟨_, _, hprint⟩ := h
  rcases pool with ⟨slots, raw, fingerprint⟩
  have hprint : fingerprint = xxh3 raw := hprint
  subst hprint
  show ofSlots slots (raw ++ []) = _
  rw [List.append_nil]
  rfl

/-- **A builder made from a pool is sound.** -/
theorem sound_ofPool {pool : ConstantPool} (h : WasRead pool) :
    (ofPool pool).Sound pool.slots where
  fills := ⟨pool.slots, h.1, by simp [ofPool]⟩
  encodable _ hx := by cases hx
  next_eq := rfl
  room := h.2.1
  means := by
    rw [poolOf_ofPool h]
    exact denotes_of_known_ofPool h.2.1

/-! ### Opening a pool again -/

/-- Two pools with the same entries, member references apart, look up the same. -/
def Alike (larger pool : ConstantPool) : Prop :=
  ∀ j e, (∀ kind k l, e ≠ .member kind k l) → (larger.get j = .ok e ↔ pool.get j = .ok e)

variable {pool larger : ConstantPool}

theorem Alike.utf8 (h : Alike larger pool) (j : UInt16) (text : String) :
    larger.utf8 j = .ok text ↔ pool.utf8 j = .ok text := by
  rw [utf8_eq_ok, utf8_eq_ok]
  exact h j _ (by simp)

theorem Alike.className (h : Alike larger pool) (j : UInt16) (name : String) :
    larger.className j = .ok name ↔ pool.className j = .ok name := by
  rw [className_eq_ok, className_eq_ok]
  exact exists_congr fun k => and_congr (h j _ (by simp)) (h.utf8 k name)

theorem Alike.nameAndType (h : Alike larger pool) (j : UInt16) (pair : String × String) :
    larger.nameAndType j = .ok pair ↔ pool.nameAndType j = .ok pair := by
  rw [nameAndType_eq_ok, nameAndType_eq_ok]
  exact exists_congr fun k => exists_congr fun l =>
    and_congr (h j _ (by simp)) (and_congr (h.utf8 k _) (h.utf8 l _))

theorem toOption_congr {α : Type} {x y : Except Fault α} (h : ∀ a, x = .ok a ↔ y = .ok a) :
    x.toOption = y.toOption := by
  rcases x with _ | a
  · rcases y with _ | b
    · rfl
    · exact absurd ((h b).mpr rfl) (by simp)
  · rw [(h a).mp rfl]

/-- An entry stands for the same in two such pools. -/
theorem Alike.symbol?_eq (h : Alike larger pool) {i : UInt16} {e : PoolEntry}
    (hi : pool.get i = .ok e) (hi' : larger.get i = .ok e) :
    larger.symbol? i e = pool.symbol? i e := by
  cases e with
  | classRef name =>
    exact congrArg (Option.map _) (toOption_congr (h.utf8 name))
  | string text =>
    exact congrArg (Option.map _) (toOption_congr (h.utf8 text))
  | nameAndType name descriptor =>
    exact congrArg (Option.map _) (toOption_congr (h.nameAndType i))
  | member kind owner named =>
    refine congrArg (Option.map _) (toOption_congr fun ref => ?_)
    rw [member_eq_ok, member_eq_ok]
    refine exists_congr fun k => exists_congr fun l => and_congr ?_
      (and_congr (h.nameAndType l _) (h.className k _))
    rw [hi, hi']
  | _ => rfl

/-- The pool with a member reference behind its last entry. -/
theorem alike_append {ref : MemberRef} {k l : UInt16}
    (hslots : larger.slots = pool.slots ++ #[some (.member ref.kind k l)]) : Alike larger pool := by
  intro j e hne
  rw [get_eq_ok, get_eq_ok, hslots]
  by_cases hj : j.toNat < pool.slots.size
  · rw [Array.getElem?_append_left hj]
  · rw [Array.getElem?_append_right (by omega), @Array.getElem?_eq_none _ _ pool.slots (by omega)]
    simp only [reduceCtorEq, iff_false]
    intro h
    rcases hd : j.toNat - pool.slots.size with _ | d
    · rw [hd] at h
      cases h
      exact hne _ _ _ rfl
    · rw [hd] at h
      simp at h

/-- One more slot is one more entry. -/
theorem entries_append {e : PoolEntry} (hslots : larger.slots = pool.slots ++ #[some e]) :
    larger.entries = pool.entries ++ [(UInt16.ofNat pool.slots.size, e)] := by
  unfold entries
  rw [hslots, Array.toList_append, List.zipIdx_append, List.filterMap_append]
  simp

/-- A builder made from the pool that `b` writes knows what `b` knows. -/
def Reopens (b : PoolBuilder) (slots : Array (Option PoolEntry)) : Prop :=
  ∀ s : Symbol, (ofPool (b.poolOf slots)).known[s]? = b.known[s]?

/-- Adding a reference keeps the builder as if it had been opened anew. -/
theorem Reopens.push {b : PoolBuilder} {slots : Array (Option PoolEntry)} (hb : b.Sound slots)
    (h : b.Reopens slots) {ref : MemberRef} {e : PoolEntry}
    (hnew : b.known[Symbol.member ref]? = none) (he : b.Stands (.member ref) e)
    (hroom : b.next + e.slots ≤ 65535) :
    (b.pushed (.member ref) e).Reopens (slots ++ e.slotList.toArray) := by
  have hdenotes := he.denotes
    (hb.means.mono (@extends_of_append (b.poolOf slots)
      ((b.pushed _ e).poolOf (slots ++ e.slotList.toArray)) e.slotList.toArray rfl))
        (hb.get_pushed (s := .member ref) hroom)
  have hget := hb.get_pushed (s := .member ref) hroom
  have hsound := hb.push he hroom
  cases he with
  | @member _ k l ho hn =>
  have hslots : ((b.pushed (.member ref) (.member ref.kind k l)).poolOf
      (slots ++ (PoolEntry.member ref.kind k l).slotList.toArray)).slots
        = (b.poolOf slots).slots ++ #[some (.member ref.kind k l)] := rfl
  have halike := alike_append hslots
  -- The new entry is the last one, so it is found only by a symbol that was not known before.
  intro s
  rw [known_ofPool, entries_append hslots, firstIndex_append, known_pushed, ← h s, known_ofPool]
  rw [@firstIndex_congr (b.poolOf slots) (PoolBuilder.poolOf _ _) _ (by
    rintro ⟨i, x⟩ hx
    have hx := (mem_entries hb.room).mp hx
    exact halike.symbol?_eq hx (extends_of_append hslots i x hx))]
  have hsize : UInt16.ofNat (b.poolOf slots).slots.size = UInt16.ofNat b.next := by
    rw [hb.next_eq]
    rfl
  have hlast : ((b.pushed (.member ref) (.member ref.kind k l)).poolOf
      (slots ++ (PoolEntry.member ref.kind k l).slotList.toArray)).symbol?
        (UInt16.ofNat b.next) (.member ref.kind k l) = some (.member ref) := by
    obtain ⟨x, hx, hs⟩ := hdenotes
    rw [hget] at hx
    cases hx
    exact hs
  rw [hsize, firstIndex_cons, firstIndex_nil]
  simp only [hlast, Option.some.injEq]
  by_cases hs : Symbol.member ref = s
  · subst hs
    have hnone := h (.member ref)
    rw [known_ofPool, hnew] at hnone
    simp [hnone]
  · simp [hs]

/-- **Member references do not change what a pool says otherwise.** If nothing but member
references is added to a pool, a builder made from the pool that is written in the end knows the
same symbols by the same indices. -/
theorem known_reopened {pool : ConstantPool} (hpool : WasRead pool) {c : PoolBuilder}
    (hg : (ofPool pool).Grows (fun s => ∃ ref, s = .member ref) c) :
    ∃ more, c.Sound (pool.slots ++ more) ∧ c.Reopens (pool.slots ++ more) := by
  induction hg with
  | refl =>
    refine ⟨#[], ?_, ?_⟩
    · simpa using sound_ofPool hpool
    · intro s
      rw [Array.append_empty, poolOf_ofPool hpool]
  | @push c s e _ hs hnew he hroom ih =>
    obtain ⟨more, hsound, hopen⟩ := ih
    obtain ⟨ref, rfl⟩ := hs
    refine ⟨more ++ e.slotList.toArray, ?_, ?_⟩
    · simpa [Array.append_assoc] using hsound.push he hroom
    · simpa [Array.append_assoc] using hopen.push hsound hnew he hroom

/-- If a step adds nothing but what the pool knows and member references, it adds member references
only. -/
theorem Grows.members {R : Symbol → Prop} {b c : PoolBuilder} (h : b.Grows R c)
    (hR : ∀ s, R s → b.known[s]?.isSome ∨ ∃ ref, s = .member ref) :
    b.Grows (fun s => ∃ ref, s = .member ref) c := by
  induction h with
  | refl => exact .refl
  | @push c s e hgrows hs hnew he hroom ih =>
    rcases hR s hs with hknown | hmember
    · obtain ⟨i, hi⟩ := Option.isSome_iff_exists.mp hknown
      rw [hgrows.known hi] at hnew
      cases hnew
    · exact ih.push hmember hnew he hroom

/-- A builder made from the pool that is written in the end covers the one that wrote it. -/
theorem covers_reopened {c : PoolBuilder} {slots : Array (Option PoolEntry)}
    (hsound : c.Sound slots) (hopen : c.Reopens slots) : (ofPool (c.poolOf slots)).Covers c where
  known s i h := by rw [hopen, h]
  next_le := Nat.le_of_eq hsound.next_eq
  origin _ := rfl

end PoolBuilder

end RoundingPatch.ClassFile
