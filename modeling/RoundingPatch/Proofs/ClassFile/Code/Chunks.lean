import RoundingPatch.ClassFile.Code.Layout
import RoundingPatch.Proofs.Bytes.Reading
import RoundingPatch.Proofs.Yields
/-!
# Chunks with their distances filled in

`Resolves offsets offset chunks bytes` says that the chunks of the instruction at `offset` come out
as `bytes` once every label has its offset. A distance reads back as the label of the offset it
leads to (`reads_near`, `reads_far`), and so do the rows of a switch (`reads_targets`,
`reads_pairs`).
-/

namespace RoundingPatch.ClassFile

open Read

/-! ### Sizes and bytes -/

theorem chunksSize_cons (chunk : Chunk) (chunks : List Chunk) :
    chunksSize (chunk :: chunks) = chunk.size + chunksSize chunks := by
  have hfold (n : Nat) :
      chunks.foldl (fun n chunk => n + chunk.size) n = n + chunksSize chunks := by
    unfold chunksSize
    induction chunks generalizing n with
    | nil => rfl
    | cons c rest ih =>
      rw [List.foldl_cons, List.foldl_cons, ih, ih (0 + c.size)]
      omega
  rw [chunksSize, List.foldl_cons, hfold, Nat.zero_add]

/-- The chunks of the instruction at `offset` come out as `bytes`. -/
def Resolves (offsets : Offsets) (offset : Nat) (chunks : List Chunk) (bytes : Bytes) : Prop :=
  ∃ pieces, chunks.mapM (Layout.resolve offsets offset) = .ok pieces ∧ pieces.flatten = bytes

section Resolving

variable {offsets : Offsets} {offset : Nat} {bytes : Bytes}

theorem resolves_nil : Resolves offsets offset [] bytes ↔ bytes = [] := by
  constructor
  · rintro ⟨pieces, h, rfl⟩
    cases h
    rfl
  · rintro rfl
    exact ⟨[], rfl, rfl⟩

/-- Chunks resolve one after the other. -/
theorem resolves_cons {chunk : Chunk} {chunks : List Chunk} :
    Resolves offsets offset (chunk :: chunks) bytes ↔
      ∃ b1 b2, bytes = b1 ++ b2 ∧ Layout.resolve offsets offset chunk = .ok b1 ∧
        Resolves offsets offset chunks b2 := by
  unfold Resolves
  rw [List.mapM_cons]
  constructor
  · rintro ⟨pieces, h, rfl⟩
    obtain ⟨b1, h1, h⟩ := except_bind_eq_ok.mp h
    obtain ⟨rest, hrest, h⟩ := except_bind_eq_ok.mp h
    cases h
    exact ⟨b1, rest.flatten, rfl, h1, rest, hrest, rfl⟩
  · rintro ⟨b1, b2, rfl, h1, rest, hrest, rfl⟩
    exact ⟨b1 :: rest,
      except_bind_eq_ok.mpr ⟨b1, h1, except_bind_eq_ok.mpr ⟨rest, hrest, rfl⟩⟩, rfl⟩

theorem resolves_bytes {bs : Bytes} : Resolves offsets offset [.bytes bs] bytes ↔ bytes = bs := by
  rw [resolves_cons]
  constructor
  · rintro ⟨b1, b2, rfl, h1, h2⟩
    cases h1
    rw [resolves_nil.mp h2, List.append_nil]
  · rintro rfl
    exact ⟨bytes, [], (List.append_nil _).symm, rfl, resolves_nil.mpr rfl⟩

theorem resolves_bytes_cons {bs : Bytes} {chunks : List Chunk} :
    Resolves offsets offset (.bytes bs :: chunks) bytes ↔
      ∃ rest, bytes = bs ++ rest ∧ Resolves offsets offset chunks rest := by
  rw [resolves_cons]
  constructor
  · rintro ⟨b1, b2, rfl, h1, h2⟩
    cases h1
    exact ⟨b2, rfl, h2⟩
  · rintro ⟨rest, rfl, h⟩
    exact ⟨bs, rest, rfl, rfl, h⟩

/-- Two groups of chunks resolve one after the other. -/
theorem resolves_append {c1 c2 : List Chunk} :
    Resolves offsets offset (c1 ++ c2) bytes ↔
      ∃ b1 b2, bytes = b1 ++ b2 ∧ Resolves offsets offset c1 b1 ∧
      Resolves offsets offset c2 b2 := by
  induction c1 generalizing bytes with
  | nil =>
    simp only [List.nil_append, resolves_nil]
    constructor
    · exact fun h => ⟨[], bytes, rfl, rfl, h⟩
    · rintro ⟨_, b2, rfl, rfl, h⟩
      exact h
  | cons chunk c1 ih =>
    simp only [List.cons_append, resolves_cons, ih]
    constructor
    · rintro ⟨b1, _, rfl, h1, b2, b3, rfl, h2, h3⟩
      exact ⟨b1 ++ b2, b3, (List.append_assoc ..).symm, ⟨b1, b2, rfl, h1, h2⟩, h3⟩
    · rintro ⟨_, b3, rfl, ⟨b1, b2, rfl, h1, h2⟩, h3⟩
      exact ⟨b1, b2 ++ b3, List.append_assoc .., h1, b2, b3, rfl, h2, h3⟩

theorem offsetIn_eq_ok {label : Label} {t : Nat} :
    offsetIn offsets label = .ok t ↔ offsets[label]? = some t := by
  unfold offsetIn
  split <;> simp_all

/-- **A near distance resolves** exactly if its label has an offset within reach of a short. -/
theorem resolve_near {target : Label} :
    Layout.resolve offsets offset (.near target) = .ok bytes ↔
      ∃ t, offsets[target]? = some t ∧ -32768 ≤ (t : Int) - offset ∧ (t : Int) - offset ≤ 32767 ∧
        bytes = Bytes.ofU2 (Int16.ofInt ((t : Int) - offset)).toUInt16 := by
  rw [Layout.resolve, except_bind_eq_ok]
  refine exists_congr fun t => and_congr offsetIn_eq_ok ?_
  dsimp only
  split
  · -- The distance is in reach.
    next h =>
    constructor
    · intro hb
      cases hb
      exact ⟨h.1, h.2, rfl⟩
    · rintro ⟨_, _, rfl⟩
      rfl
  · next h =>
    simp only [reduceCtorEq, false_iff]
    exact fun ⟨h1, h2, _⟩ => h ⟨h1, h2⟩

/-- A far distance resolves if its label has an offset. -/
theorem resolve_far {target : Label} :
    Layout.resolve offsets offset (.far target) = .ok bytes ↔
      ∃ t, offsets[target]? = some t ∧
        bytes = Bytes.ofU4 (Int32.ofInt ((t : Int) - offset)).toUInt32 := by
  rw [Layout.resolve, except_bind_eq_ok]
  refine exists_congr fun t => and_congr offsetIn_eq_ok ?_
  constructor
  · intro hb
    cases hb
    rfl
  · rintro rfl
    rfl

theorem length_of_resolve {chunk : Chunk} (h : Layout.resolve offsets offset chunk = .ok bytes) :
    bytes.length = chunk.size := by
  cases chunk with
  | bytes bs =>
    cases h
    rfl
  | near target =>
    obtain ⟨_, _, _, _, rfl⟩ := resolve_near.mp h
    rfl
  | far target =>
    obtain ⟨_, _, rfl⟩ := resolve_far.mp h
    rfl

/-- Chunks resolve to as many bytes as they count. -/
theorem length_of_resolves {chunks : List Chunk} (h : Resolves offsets offset chunks bytes) :
    bytes.length = chunksSize chunks := by
  induction chunks generalizing bytes with
  | nil =>
    rw [resolves_nil.mp h]
    rfl
  | cons chunk chunks ih =>
    obtain ⟨b1, b2, rfl, h1, h2⟩ := resolves_cons.mp h
    rw [List.length_append, length_of_resolve h1, ih h2, chunksSize_cons]

end Resolving

/-! ### Distances -/

/-- The label of the offset of a label. -/
def labelIn (offsets : Offsets) (label : Label) : Label :=
  Body.labelAt (offsets.getD label 0)

/-- A label that has an offset becomes the label of the offset. -/
theorem labelIn_eq {offsets : Offsets} {label : Label} {t : Nat} (h : offsets[label]? = some t) :
    labelIn offsets label = Body.labelAt t := by
  rw [labelIn, Std.TreeMap.getD_eq_getD_getElem?, h]
  rfl

/-- A label lies inside code of `length` bytes. -/
def Inside (offsets : Offsets) (length : Nat) (label : Label) : Prop :=
  ∃ t, offsets[label]? = some t ∧ t < length

section Distances

variable {offsets : Offsets} {length offset : Nat} {target : Label} {bytes : Bytes}

/-- A distance that leads into the code reads as the label it leads to. -/
theorem reads_branchTarget {t : Nat} {distance : Int32} (ht : t < length)
    (hd : (offset : Int) + distance.toInt = t) :
    Reads (Body.branchTarget length offset distance) [] (Body.labelAt t) := by
  unfold Body.branchTarget
  simp only [hd, Int.toNat_natCast, Int.natCast_nonneg, Int.ofNat_lt, ht, and_self, ↓reduceIte]
  exact reads_pure _

theorem reads_near (h : Layout.resolve offsets offset (.near target) = .ok bytes)
    (hin : Inside offsets length target) (field : String) (make : Label → α) :
    Reads (do
      let distance ← i2 field
      return make (← Body.branchTarget length offset distance.toInt32)) bytes
      (make (labelIn offsets target)) := by
  obtain ⟨t, ht, h1, h2, rfl⟩ := resolve_near.mp h
  obtain ⟨_, ht', hlt⟩ := hin
  rw [ht] at ht'
  cases ht'
  rw [labelIn_eq ht]
  refine (reads_i2 _ _).bind_nil ((reads_branchTarget hlt ?_).map make)
  rw [Int16.toInt16_toUInt16, Int16.toInt_toInt32,
    Int16.toInt_ofInt_of_le (by omega) (by omega)]
  omega

theorem reads_far (h : Layout.resolve offsets offset (.far target) = .ok bytes)
    (hin : Inside offsets length target) (hlength : length ≤ 65535) (hoffset : offset ≤ 65535)
    (field : String) :
    Reads (do Body.branchTarget length offset (← i4 field)) bytes (labelIn offsets target) := by
  obtain ⟨t, ht, rfl⟩ := resolve_far.mp h
  obtain ⟨_, ht', hlt⟩ := hin
  rw [ht] at ht'
  cases ht'
  rw [labelIn_eq ht]
  refine (reads_i4 _ _).bind_nil (reads_branchTarget hlt ?_)
  rw [Int32.toInt32_toUInt32, Int32.toInt_ofInt_of_le (by omega) (by omega)]
  omega

/-- A distance of four bytes and what follows it. -/
theorem reads_far_bind {b1 b2 : Bytes} {rest : Label → Read α} {a : α}
    (h : Layout.resolve offsets offset (.far target) = .ok b1)
    (hin : Inside offsets length target) (hlength : length ≤ 65535) (hoffset : offset ≤ 65535)
    (field : String) (hrest : Reads (rest (labelIn offsets target)) b2 a) :
    Reads (do
      let distance ← i4 field
      let l ← Body.branchTarget length offset distance
      rest l) (b1 ++ b2) a := by
  have h := (reads_far h hin hlength hoffset field).bind hrest
  rwa [bind_assoc] at h

theorem chunksSize_far (targets : List Label) :
    chunksSize (targets.map .far) = targets.length * 4 := by
  induction targets with
  | nil => rfl
  | cons l rest ih =>
    rw [List.map_cons, chunksSize_cons, ih, List.length_cons, Chunk.size]
    omega

theorem chunksSize_append (c1 c2 : List Chunk) :
    chunksSize (c1 ++ c2) = chunksSize c1 + chunksSize c2 := by
  induction c1 with
  | nil => exact (Nat.zero_add _).symm
  | cons c rest ih => rw [List.cons_append, chunksSize_cons, chunksSize_cons, ih, Nat.add_assoc]

theorem chunksSize_pairs (pairs : List (Int32 × Label)) :
    chunksSize (pairs.flatMap fun p => [.bytes (Bytes.ofU4 p.1.toUInt32), .far p.2])
      = pairs.length * 8 := by
  induction pairs with
  | nil => rfl
  | cons p rest ih =>
    rw [List.flatMap_cons, chunksSize_append, ih, List.length_cons]
    show 4 + 4 + rest.length * 8 = _
    omega

/-- The targets of a switch in a row. -/
theorem reads_targets {targets : List Label} {each : Read Label}
    (heach : ∀ l ∈ targets, ∀ bs, Layout.resolve offsets offset (.far l) = .ok bs →
      Reads each bs (labelIn offsets l))
    (h : Resolves offsets offset (targets.map .far) bytes) :
    Reads (many targets.length each) bytes (targets.map (labelIn offsets)) := by
  induction targets generalizing bytes with
  | nil =>
    rw [List.map_nil, resolves_nil] at h
    subst h
    exact reads_pure []
  | cons l targets ih =>
    obtain ⟨b1, b2, rfl, h1, h2⟩ := resolves_cons.mp h
    have hl := heach l (List.mem_cons_self ..) b1 h1
    exact hl.bind ((ih (fun x hx => heach x (List.mem_cons_of_mem l hx)) h2).map _)

/-- The pairs of a switch in a row. -/
theorem reads_pairs {pairs : List (Int32 × Label)} {each : Read (Int32 × Label)}
    (heach : ∀ p ∈ pairs, ∀ bs, Layout.resolve offsets offset (.far p.2) = .ok bs →
      Reads each (Bytes.ofU4 p.1.toUInt32 ++ bs) (p.1, labelIn offsets p.2))
    (h : Resolves offsets offset
      (pairs.flatMap fun p => [.bytes (Bytes.ofU4 p.1.toUInt32), .far p.2]) bytes) :
    Reads (many pairs.length each) bytes (pairs.map fun p => (p.1, labelIn offsets p.2)) := by
  induction pairs generalizing bytes with
  | nil =>
    rw [List.flatMap_nil, resolves_nil] at h
    subst h
    exact reads_pure []
  | cons p pairs ih =>
    rw [List.flatMap_cons, resolves_append] at h
    obtain ⟨b1, b2, rfl, h1, h2⟩ := h
    obtain ⟨b3, rfl, h3⟩ := resolves_bytes_cons.mp h1
    obtain ⟨b4, b5, rfl, h4, h5⟩ := resolves_cons.mp h3
    rw [resolves_nil] at h5
    subst h5
    rw [List.append_nil]
    -- The first pair reads as itself, whatever the others are.
    have hp := heach p (List.mem_cons_self ..) b4 h4
    exact hp.bind ((ih (fun x hx => heach x (List.mem_cons_of_mem p hx)) h2).map _)

end Distances

end RoundingPatch.ClassFile
