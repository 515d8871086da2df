import RoundingPatch.ClassFile.Pool.Builder
import RoundingPatch.Proofs.Bytes.Spelling
import RoundingPatch.Proofs.Text.ModifiedUtf8
/-!
# Reading what a pool was written as

`reads_entry`: the bytes of an entry read back as the entry, as long as its text is not too long.
`reads_slots` is the same for entries in a row, which fill one or two indices each, and
`readSlots_split` says that reading the indices of a longer pool starts like reading those of a
shorter one. Together they read a pool to which entries were added at the end (`reads_pool`).
-/

namespace RoundingPatch.ClassFile

open Read

/-! ### Entries -/

namespace PoolEntry

/-- The text of an entry fits the two bytes of its length. -/
def Encodable : PoolEntry → Prop
  | utf8 text => (ModifiedUtf8.encode text).length ≤ 65535
  | _ => True

theorem reads_readMember (kind : MemberKind) (owner named : UInt16) :
    Reads (read.readMember kind) (Bytes.ofU2 owner ++ Bytes.ofU2 named) (member kind owner named) :=
  (reads_u2 owner _).bind ((reads_u2 named _).map _)

/-- **An entry reads back.** -/
theorem reads_entry (index : Nat) {e : PoolEntry} (h : e.Encodable) :
    Reads (read index) e.encode e := by
  -- The tag is read first and picks the branch.
  have tagged {tag : UInt8} {bytes : Bytes} {rest : UInt8 → Read PoolEntry}
      (hrest : Reads (rest tag) bytes e) : Reads (u1 "constant tag" >>= rest) (tag :: bytes) e :=
    (reads_u1 tag _).bind hrest
  unfold read
  cases e with
  | utf8 text =>
    refine tagged ?_
    have hlen : (UInt16.ofNat (ModifiedUtf8.encode text).length).toNat
        = (ModifiedUtf8.encode text).length := UInt16.toNat_ofNat_of_lt' (Nat.lt_succ_of_le h)
    refine (reads_u2 _ _).bind ((reads_take hlen.symm _).bind_nil (reads_lift ?_))
    simp only [ofText, ModifiedUtf8.decode_encode]
  | integer value =>
    refine tagged ?_
    have h := (reads_i4 value.toUInt32 "integer constant").map integer
    rwa [Int32.toInt32_toUInt32] at h
  | float bits => exact tagged ((reads_u4 bits _).map _)
  | long value =>
    refine tagged ?_
    have h := (reads_u8 value.toUInt64 "long constant").map fun v => long v.toInt64
    rwa [Int64.toInt64_toUInt64] at h
  | double bits => exact tagged ((reads_u8 bits _).map _)
  | classRef name => exact tagged ((reads_u2 name _).map _)
  | string text => exact tagged ((reads_u2 text _).map _)
  | member kind owner named =>
    cases kind with
    | field => exact tagged (reads_readMember .field owner named)
    | method => exact tagged (reads_readMember .method owner named)
    | interfaceMethod => exact tagged (reads_readMember .interfaceMethod owner named)
  | nameAndType name descriptor =>
    exact tagged ((reads_u2 name _).bind ((reads_u2 descriptor _).map _))
  | methodHandle kind reference =>
    exact tagged ((reads_u1 kind _).bind ((reads_u2 reference _).map _))
  | methodType descriptor => exact tagged ((reads_u2 descriptor _).map _)
  | dynamic bootstrap named =>
    exact tagged ((reads_u2 bootstrap _).bind ((reads_u2 named _).map _))
  | callSite bootstrap named =>
    exact tagged ((reads_u2 bootstrap _).bind ((reads_u2 named _).map _))
  | module name => exact tagged ((reads_u2 name _).map _)
  | package name => exact tagged ((reads_u2 name _).map _)

theorem carries_readMember (kind : MemberKind) :
    Carries (read.readMember kind) (read.readMember kind) :=
  (carries_u2 _).bind fun _ => (carries_u2 _).bind fun _ => carries_pure _

/-- Reading an entry does not look behind it. -/
theorem carries_read (index : Nat) : Carries (read index) (read index) := by
  have u2s (field : String) (f : UInt16 → PoolEntry) :
      Carries (do let v ← u2 field; pure (f v)) (do let v ← u2 field; pure (f v)) :=
    (carries_u2 field).bind fun _ => carries_pure _
  unfold read
  -- What follows the tag is a few numbers or the bytes of a text.
  refine (carries_u1 _).bind fun tag => ?_
  split
  case h_1 =>
    exact (carries_u2 _).bind fun _ => (carries_take _ _).bind fun _ => carries_lift fun _ h => h
  case h_2 =>
    exact ((carries_u4 _).bind fun _ => carries_pure _).bind fun _ => carries_pure _
  case h_3 => exact (carries_u4 _).bind fun _ => carries_pure _
  case h_4 => exact (carries_u8 _).bind fun _ => carries_pure _
  case h_5 => exact (carries_u8 _).bind fun _ => carries_pure _
  case h_6 => exact u2s _ _
  case h_7 => exact u2s _ _
  case h_8 => exact carries_readMember .field
  case h_9 => exact carries_readMember .method
  case h_10 => exact carries_readMember .interfaceMethod
  case h_11 => exact (carries_u2 _).bind fun _ => u2s _ _
  case h_12 => exact (carries_u1 _).bind fun _ => u2s _ _
  case h_13 => exact u2s _ _
  case h_14 => exact (carries_u2 _).bind fun _ => u2s _ _
  case h_15 => exact (carries_u2 _).bind fun _ => u2s _ _
  case h_16 => exact u2s _ _
  case h_17 => exact u2s _ _
  case h_18 => exact carries_malformed _ _

/-! ### Entries in a row -/

/-- What an entry puts at the indices it takes. -/
def slotList (e : PoolEntry) : List (Option PoolEntry) :=
  if e.isWide then [some e, none] else [some e]

/-- An entry takes as many indices as it counts. -/
theorem length_slotList (e : PoolEntry) : e.slotList.length = e.slots := by
  unfold slotList slots
  split <;> rfl

end PoolEntry

namespace ConstantPool

/-- Reading one more entry: a wide one takes the next index as well. -/
theorem readSlots_succ (missing : Nat) (slots : Array (Option PoolEntry)) :
    readSlots (missing + 1) slots = (do
      let entry ← PoolEntry.read slots.size
      if entry.isWide then
        match missing with
        | 0 => malformed (.wideConstantOverruns slots.size)
        | missing + 1 => readSlots missing ((slots.push (some entry)).push none)
      else readSlots missing (slots.push (some entry))) :=
  readSlots.eq_2 slots missing

/-- The bytes of entries in a row fill the indices that the entries take. -/
theorem reads_slots {entries : List PoolEntry} (h : ∀ e ∈ entries, e.Encodable)
    (slots : Array (Option PoolEntry)) :
    Reads (readSlots (entries.flatMap PoolEntry.slotList).length slots)
      (entries.flatMap PoolEntry.encode)
      (slots ++ (entries.flatMap PoolEntry.slotList).toArray) := by
  induction entries generalizing slots with
  | nil => simpa [readSlots] using reads_pure slots
  | cons e entries ih =>
    have he : e.Encodable := h e (List.mem_cons_self ..)
    have ih := ih fun x hx => h x (List.mem_cons_of_mem e hx)
    rw [List.flatMap_cons, List.flatMap_cons, List.length_append]
    -- A wide entry is read as one entry and counts as two indices.
    by_cases hw : e.isWide = true
    · have hs : e.slotList = [some e, none] := by rw [PoolEntry.slotList, if_pos hw]
      rw [hs, show [some e, none].length + (entries.flatMap PoolEntry.slotList).length
        = (entries.flatMap PoolEntry.slotList).length + 1 + 1 by simp; omega, readSlots_succ]
      refine (PoolEntry.reads_entry _ he).bind ?_
      simp only [hw, ↓reduceIte]
      have h := ih ((slots.push (some e)).push none)
      simpa using h
    · have hs : e.slotList = [some e] := by rw [PoolEntry.slotList, if_neg hw]
      rw [hs, show [some e].length + (entries.flatMap PoolEntry.slotList).length
        = (entries.flatMap PoolEntry.slotList).length + 1 by simp; omega, readSlots_succ]
      refine (PoolEntry.reads_entry _ he).bind ?_
      simp only [hw]
      have h := ih (slots.push (some e))
      simpa using h

/-- Filling `m` indices consumes the bytes with which filling `m + k` indices starts. -/
theorem readSlots_split (m : Nat) : ∀ (slots : Array (Option PoolEntry)) (c c' : Cursor)
    (filled : Array (Option PoolEntry)), c.gap = 0 → readSlots m slots c = .ok (filled, c') →
    ∃ bytes, c.rest = bytes ++ c'.rest ∧ c' = ⟨c.pos + bytes.length, c'.rest, 0⟩ ∧
      (∃ added, filled = slots ++ added ∧ added.size = m) ∧ ∀ k more all,
        Reads (readSlots k filled) more all →
        Reads (readSlots (m + k) slots) (bytes ++ more) all := by
  -- A wide entry takes two indices at once, which is why the induction is strong.
  induction m using Nat.strongRecOn with
  | _ m ih =>
  intro slots c c' filled hgap h
  cases m with
  | zero =>
    obtain ⟨rfl, rfl⟩ := pure_eq_ok.mp h
    refine ⟨[], rfl, ?_, ⟨#[], by simp, rfl⟩, ?_⟩
    · cases c
      simp_all
    · intro k more all hk
      simpa using hk
  | succ m =>
    rw [readSlots_succ] at h
    obtain ⟨e, c1, hr, h⟩ := Read.bind_eq_ok.mp h
    obtain ⟨b1, hb1, hc1, hreads⟩ := PoolEntry.carries_read _ c e c1 hgap hr
    have hgap1 : c1.gap = 0 := by rw [hc1]
    have hpos1 : c1.pos = c.pos + b1.length := by rw [hc1]
    by_cases hw : e.isWide = true
    · simp only [hw, ↓reduceIte] at h
      cases m with
      -- There must be room for the second index.
      | zero => exact absurd h malformed_ne_ok
      | succ m =>
        obtain ⟨b2, hb2, hc2, ⟨added, hadded, hsize⟩, hmore⟩ := ih m (by omega) _ _ _ _ hgap1 h
        refine ⟨b1 ++ b2, ?_, ?_, ?_, ?_⟩
        · rw [hb1, hb2, List.append_assoc]
        · rw [hc2, hpos1, List.length_append, Nat.add_assoc]
        · refine ⟨#[some e] ++ (#[none] ++ added), ?_, ?_⟩
          · rw [hadded, Array.push_eq_append, Array.push_eq_append, Array.append_assoc,
              Array.append_assoc]
          · rw [Array.size_append, Array.size_append, hsize]
            show 1 + (1 + m) = _
            omega
        · intro k more all hk
          rw [show m + 1 + 1 + k = (m + k) + 1 + 1 by omega, readSlots_succ, List.append_assoc]
          refine hreads.bind ?_
          simp only [hw, ↓reduceIte]
          exact hmore k more all hk
    · simp only [hw, Bool.false_eq_true, ↓reduceIte] at h
      obtain ⟨b2, hb2, hc2, ⟨added, hadded, hsize⟩, hmore⟩ := ih m (by omega) _ _ _ _ hgap1 h
      refine ⟨b1 ++ b2, ?_, ?_, ?_, ?_⟩
      · rw [hb1, hb2, List.append_assoc]
      · rw [hc2, hpos1, List.length_append, Nat.add_assoc]
      · refine ⟨#[some e] ++ added, ?_, ?_⟩
        · rw [hadded, Array.push_eq_append, Array.append_assoc]
        · rw [Array.size_append, hsize]
          show 1 + m = _
          omega
      · intro k more all hk
        rw [show m + 1 + k = (m + k) + 1 by omega, readSlots_succ, List.append_assoc]
        refine hreads.bind ?_
        simp only [hw, Bool.false_eq_true, ↓reduceIte]
        exact hmore k more all hk

/-! ### Whole pools -/

/-- The bytes that fill the indices of a pool from the first one on, and whatever follows. Nothing
stands at index 0. -/
def Fills (seed : Bytes) (slots : Array (Option PoolEntry)) : Prop :=
  slots[0]? = some none ∧ ∀ k more all,
    Reads (readSlots k slots) more all →
    Reads (readSlots (slots.size - 1 + k) #[none]) (seed ++ more) all

theorem fills_nil : Fills [] #[none] := by
  refine ⟨rfl, fun k more all h => ?_⟩
  simpa using h

/-- Index 0 is always taken. -/
theorem Fills.size_pos {seed : Bytes} {slots : Array (Option PoolEntry)} (h : Fills seed slots) :
    0 < slots.size := by
  by_contra hle
  have h0 := h.1
  rw [Array.getElem?_eq_none (by omega)] at h0
  cases h0

/-- The pool with the given bytes. -/
def ofSlots (slots : Array (Option PoolEntry)) (raw : Bytes) : ConstantPool :=
  { slots, raw, fingerprint := xxh3 raw }

/-- **A pool with entries added at the end** reads as its old indices with the new entries behind
them. -/
theorem reads_pool {seed : Bytes} {slots : Array (Option PoolEntry)} (hseed : Fills seed slots)
    {added : List PoolEntry} (hadded : ∀ e ∈ added, e.Encodable)
    (hsize : slots.size + (added.flatMap PoolEntry.slotList).length ≤ 65535) :
    Reads read
      (Bytes.ofU2 (UInt16.ofNat (slots.size + (added.flatMap PoolEntry.slotList).length))
        ++ (seed ++ added.flatMap PoolEntry.encode))
      (ofSlots (slots ++ (added.flatMap PoolEntry.slotList).toArray)
        (seed ++ added.flatMap PoolEntry.encode)) := by
  have hpos := hseed.size_pos
  obtain ⟨_, hfill⟩ := hseed
  have hreads := hfill _ _ _ (reads_slots hadded slots)
  rw [show slots.size - 1 + (added.flatMap PoolEntry.slotList).length
    = slots.size + (added.flatMap PoolEntry.slotList).length - 1 by omega] at hreads
  have hnpos : 0 < slots.size + (added.flatMap PoolEntry.slotList).length := by omega
  -- From here on only the numbers matter, not where they come from.
  generalize slots.size + (added.flatMap PoolEntry.slotList).length = n at *
  generalize slots ++ (added.flatMap PoolEntry.slotList).toArray = all at *
  generalize seed ++ added.flatMap PoolEntry.encode = raw at *
  have hn : (UInt16.ofNat n).toNat = n := UInt16.toNat_ofNat_of_lt' (show n < 65536 by omega)
  have hn0 : UInt16.ofNat n ≠ 0 := by
    intro h0
    rw [h0, UInt16.toNat_zero] at hn
    omega
  intro pos tail
  unfold read
  rw [List.append_assoc, bind_of_ok (reads_u2 _ _ pos (raw ++ tail))]
  simp only [hn0, ↓reduceIte, hn]
  have hraw := hreads (pos + (Bytes.ofU2 (UInt16.ofNat n)).length) tail
  rw [cursor_bind, bind_of_ok hraw, cursor_bind, Cursor.upTo_append, List.length_append,
    ← Nat.add_assoc]
  rfl

/-- **What a pool was read from** are its count and the bytes that fill its indices. -/
theorem spells_read : Spells read fun pool bytes =>
    (Fills pool.raw pool.slots ∧ pool.count ≤ 65535 ∧ pool.fingerprint = xxh3 pool.raw) ∧
      bytes = Bytes.ofU2 (UInt16.ofNat pool.count) ++ pool.raw := by
  intro c pool c' hgap h
  unfold read at h
  obtain ⟨count, c1, hc, h⟩ := Read.bind_eq_ok.mp h
  obtain ⟨first, hfirst, hc1, hspelled⟩ := spells_u2 _ _ _ _ hgap hc
  have hgap1 : c1.gap = 0 := by rw [hc1]
  by_cases h0 : count = 0
  · simp only [h0, ↓reduceIte] at h
    obtain ⟨_, _, h, _⟩ := Read.bind_eq_ok.mp h
    exact absurd h malformed_ne_ok
  simp only [h0, ↓reduceIte] at h
  rw [cursor_bind] at h
  obtain ⟨slots, c2, hs, h⟩ := Read.bind_eq_ok.mp h
  obtain ⟨raw, hraw, hc2, ⟨added, hadded, hadd⟩, hfill⟩ := readSlots_split _ _ _ _ _ hgap1 hs
  rw [cursor_bind] at h
  obtain ⟨rfl, rfl⟩ := pure_eq_ok.mp h
  have hup : c1.upTo c2 = raw := by
    rw [hc2, Cursor.upTo, Nat.add_sub_cancel_left, hraw, List.take_left]
  have hcount : count.toNat < 65536 := count.toNat_lt
  have hcount0 : count.toNat ≠ 0 := fun h => h0 (UInt16.toNat_inj.mp h)
  have hsize : slots.size = 1 + (count.toNat - 1) := by
    rw [hadded, ← hadd]
    simp
  -- The raw bytes are those between the two cursors.
  refine ⟨first ++ raw, ?_, ?_, ⟨⟨?_, ?_⟩, ?_, rfl⟩, ?_⟩
  · rw [hfirst, hraw, List.append_assoc]
  · have hpos : c1.pos = c.pos + first.length := by rw [hc1]
    rw [hc2, hpos, List.length_append, Nat.add_assoc]
  · show slots[0]? = some none
    rw [hadded, Array.getElem?_append_left (by simp)]
    rfl
  · show ∀ k more all, Reads (readSlots k slots) more all →
      Reads (readSlots (slots.size - 1 + k) #[none]) (c1.upTo c2 ++ more) all
    rw [hup, show slots.size - 1 = count.toNat - 1 by omega]
    exact hfill
  · show slots.size ≤ 65535
    omega
  · show first ++ raw = Bytes.ofU2 (UInt16.ofNat slots.size) ++ c1.upTo c2
    rw [hup, hspelled, show slots.size = count.toNat by omega, UInt16.ofNat_toNat]

/-- **A pool that is read** is filled from its own bytes and known by their digest. -/
theorem gives_read : Gives read fun pool =>
    Fills pool.raw pool.slots ∧ pool.count ≤ 65535 ∧ pool.fingerprint = xxh3 pool.raw :=
  spells_read.gives fun _ _ h => h.1

end ConstantPool

end RoundingPatch.ClassFile
