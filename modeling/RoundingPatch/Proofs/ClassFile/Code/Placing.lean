import RoundingPatch.Proofs.ClassFile.Code.Insns
import RoundingPatch.Proofs.ClassFile.Positions
/-!
# Placing the events of a method

`encodeAll offset insns` encodes instructions one after the other. Placing the events of a method
does the same with their instructions and gives every label and every frame the offset of the
instruction behind it (`place_spec`). So the offset of a label depends on nothing but its position
among the instructions. Conversely, events are placed if their instructions can be encoded, no label
is bound twice and no two frames stand at one position (`place_of_encodeAll`).
-/

namespace RoundingPatch.ClassFile

open MethodEvent

/-! ### Instructions in a row -/

/-- Instructions with their offsets, in the form of chunks. -/
abbrev Placed := List (Nat × List Chunk)

/-- Encodes instructions one after the other, the first of them at `offset`. -/
def encodeAll (offset : Nat) : List Insn → Pooling Placed
  | [] => return []
  | i :: rest => do
    let chunks ← i.encode offset
    return (offset, chunks) :: (← encodeAll (offset + chunksSize chunks) rest)

namespace Placed

/-- The offset behind the last instruction, if the first one stands at `start`. -/
def stop (start : Nat) : Placed → Nat
  | [] => start
  | (_, chunks) :: rest => stop (start + chunksSize chunks) rest

/-- The offset of instruction `n`, or the offset behind the last one. -/
def offsetAt (start : Nat) : Placed → Nat → Nat
  | [], _ => start
  | (offset, _) :: _, 0 => offset
  | (_, chunks) :: rest, n + 1 => offsetAt (start + chunksSize chunks) rest n

/-- Each instruction stands where the one before it ends. -/
def Contiguous (start : Nat) : Placed → Prop
  | [] => True
  | (offset, chunks) :: rest =>
    offset = start ∧ 0 < chunksSize chunks ∧ Contiguous (start + chunksSize chunks) rest

variable {start : Nat} {placed : Placed}

theorem offsetAt_zero (h : placed.Contiguous start) : placed.offsetAt start 0 = start := by
  cases placed with
  | nil => rfl
  | cons p rest => exact h.1

/-- Code stops at its start or behind it. -/
theorem le_stop (start : Nat) (placed : Placed) : start ≤ placed.stop start := by
  induction placed generalizing start with
  | nil => exact Nat.le_refl _
  | cons p rest ih => exact Nat.le_trans (Nat.le_add_right ..) (ih _)

/-- Behind the last instruction is the end. -/
theorem offsetAt_of_length_le {n : Nat} (h : placed.length ≤ n) :
    placed.offsetAt start n = placed.stop start := by
  induction placed generalizing start n with
  | nil => cases n <;> rfl
  | cons p rest ih =>
    cases n with
    | zero => cases h
    | succ n => exact ih (Nat.le_of_succ_le_succ h)

theorem offsetAt_eq {n : Nat} (h : n < placed.length) : placed.offsetAt start n = placed[n].1 := by
  induction placed generalizing start n with
  | nil => cases h
  | cons p rest ih =>
    cases n with
    | zero => rfl
    | succ n => exact ih (Nat.lt_of_succ_lt_succ h)

theorem start_le_offsetAt (h : placed.Contiguous start) (n : Nat) :
    start ≤ placed.offsetAt start n := by
  induction placed generalizing start n with
  | nil => cases n <;> exact Nat.le_refl _
  | cons p rest ih =>
    cases n with
    | zero => exact Nat.le_of_eq h.1.symm
    | succ n => exact Nat.le_trans (Nat.le_add_right ..) (ih h.2.2 n)

/-- Offsets grow with the positions. -/
theorem offsetAt_lt (h : placed.Contiguous start) {m n : Nat} (hmn : m < n)
    (hm : m < placed.length) : placed.offsetAt start m < placed.offsetAt start n := by
  induction placed generalizing start m n with
  | nil => cases hm
  | cons p rest ih =>
    obtain ⟨n, rfl⟩ := Nat.exists_eq_succ_of_ne_zero (Nat.ne_of_gt (Nat.zero_lt_of_lt hmn))
    cases m with
    | zero =>
      rw [offsetAt_zero h]
      have hle := start_le_offsetAt h.2.2 n
      have hpos := h.2.1
      show start < offsetAt (start + chunksSize p.2) rest n
      omega
    | succ m => exact ih h.2.2 (Nat.lt_of_succ_lt_succ hmn) (Nat.lt_of_succ_lt_succ hm)

theorem offsetAt_le_stop (h : placed.Contiguous start) (n : Nat) :
    placed.offsetAt start n ≤ placed.stop start := by
  by_cases hn : n < placed.length
  · rw [← offsetAt_of_length_le (Nat.le_refl placed.length)]
    exact Nat.le_of_lt (offsetAt_lt h hn hn)
  · exact Nat.le_of_eq (offsetAt_of_length_le (Nat.le_of_not_lt hn))

/-- An instruction stands before the end. -/
theorem offsetAt_lt_stop (h : placed.Contiguous start) {n : Nat} (hn : n < placed.length) :
    placed.offsetAt start n < placed.stop start := by
  rw [← offsetAt_of_length_le (Nat.le_refl placed.length)]
  exact offsetAt_lt h hn hn

/-- Every instruction takes at least one byte. -/
theorem length_le_stop (h : placed.Contiguous start) :
    start + placed.length ≤ placed.stop start := by
  induction placed generalizing start with
  | nil => exact Nat.le_refl _
  | cons p placed ih =>
    have hpos : 0 < chunksSize p.2 := h.2.1
    have hrest := ih h.2.2
    rw [List.length_cons]
    show _ ≤ stop (start + chunksSize p.2) placed
    omega

/-- Positions up to the end are told apart by their offsets. -/
theorem offsetAt_inj (h : placed.Contiguous start) {m n : Nat} (hm : m ≤ placed.length)
    (hn : n ≤ placed.length) (heq : placed.offsetAt start m = placed.offsetAt start n) : m = n := by
  rcases Nat.lt_trichotomy m n with hlt | rfl | hlt
  · have := offsetAt_lt h hlt (by omega)
    omega
  · rfl
  · have := offsetAt_lt h hlt (by omega)
    omega

end Placed

theorem length_encodeInt_pos {op : Opcode} {operand : Int32} {bytes : Bytes}
    (h : Insn.encodeInt op operand = .ok bytes) : 0 < bytes.length := by
  unfold Insn.encodeInt at h
  dsimp only at h
  split at h
  · split at h <;> cases h
    exact Nat.succ_pos _
  split at h
  · split at h <;> cases h
    exact Nat.succ_pos _
  split at h
  · split at h <;> cases h
    exact Nat.succ_pos _
  · cases h

theorem length_encodeVar_pos {op : Opcode} {index : UInt16} {bytes : Bytes}
    (h : Insn.encodeVar op index = .ok bytes) : 0 < bytes.length := by
  have hunpacked : 0 < (Insn.encodeVar.unpacked op index).length := by
    unfold Insn.encodeVar.unpacked
    split <;> exact Nat.succ_pos _
  unfold Insn.encodeVar at h
  split at h
  · cases h
  split at h
  · split at h <;> cases h
    · exact Nat.succ_pos _
    · exact hunpacked
  · cases h
    exact hunpacked

theorem length_encodeIinc_pos (index : UInt16) (delta : Int16) :
    0 < (Insn.encodeIinc index delta).length := by
  unfold Insn.encodeIinc
  split <;> exact Nat.succ_pos _

theorem length_encodeLdc_pos (isWide : Bool) (index : UInt16) :
    0 < (Insn.encodeLdc isWide index).length := by
  unfold Insn.encodeLdc
  split
  · exact Nat.succ_pos _
  split <;> exact Nat.succ_pos _

/-- Every instruction takes at least one byte. -/
theorem chunksSize_pos_of_encode {i : Insn} {offset : Nat} {b c : PoolBuilder}
    {chunks : List Chunk} (h : Yields (i.encode offset) b chunks c) : 0 < chunksSize chunks := by
  have hfirst {bs : Bytes} {rest : List Chunk} (hbs : 0 < bs.length) :
      0 < chunksSize (.bytes bs :: rest) := by
    rw [chunksSize_cons, Chunk.size]
    omega
  -- Whatever the instruction, its first chunk holds at least the operation code.
  cases i with
  | simple op =>
    obtain ⟨rfl, -⟩ := yields_pure.mp h
    exact hfirst (Nat.succ_pos _)
  | int op operand =>
    obtain ⟨bs, _, hbs, hp⟩ := yields_bind.mp h
    obtain ⟨rfl, -⟩ := yields_pure.mp hp
    exact hfirst (length_encodeInt_pos (Pooling.yields_lift.mp hbs).1)
  | var op index =>
    obtain ⟨bs, _, hbs, hp⟩ := yields_bind.mp h
    obtain ⟨rfl, -⟩ := yields_pure.mp hp
    exact hfirst (length_encodeVar_pos (Pooling.yields_lift.mp hbs).1)
  | iinc index delta =>
    obtain ⟨rfl, -⟩ := yields_pure.mp h
    exact hfirst (length_encodeIinc_pos index delta)
  | type op name =>
    obtain ⟨_, _, _, hp⟩ := yields_bind.mp h
    obtain ⟨rfl, -⟩ := yields_pure.mp hp
    exact hfirst (Nat.succ_pos _)
  | field op owner name descriptor =>
    obtain ⟨_, _, _, hp⟩ := yields_bind.mp h
    obtain ⟨rfl, -⟩ := yields_pure.mp hp
    exact hfirst (Nat.succ_pos _)
  | method op owner name descriptor onInterface =>
    obtain ⟨_, _, _, hp⟩ := yields_bind.mp h
    split at hp
    · obtain ⟨_, _, _, hp⟩ := yields_bind.mp hp
      obtain ⟨rfl, -⟩ := yields_pure.mp hp
      exact hfirst (Nat.succ_pos _)
    · obtain ⟨rfl, -⟩ := yields_pure.mp hp
      exact hfirst (Nat.succ_pos _)
  | callSite index =>
    have h := yields_get_bind.mp h
    split at h
    · exact absurd h Pooling.yields_fail_bind
    · obtain ⟨rfl, -⟩ := yields_pure.mp h
      exact hfirst (Nat.succ_pos _)
  | ldc constant =>
    obtain ⟨_, _, _, hp⟩ := yields_bind.mp h
    obtain ⟨rfl, -⟩ := yields_pure.mp hp
    exact hfirst (length_encodeLdc_pos _ _)
  | jump op target =>
    by_cases hop : op = Opcode.gotoW ∨ op = Opcode.jsrW
    · simp only [Insn.encode, hop, ↓reduceIte] at h
      obtain ⟨rfl, -⟩ := yields_pure.mp h
      exact hfirst (Nat.succ_pos _)
    · simp only [Insn.encode, hop, ↓reduceIte] at h
      obtain ⟨rfl, -⟩ := yields_pure.mp h
      exact hfirst (Nat.succ_pos _)
  | tableSwitch low high default targets =>
    by_cases hcount : high.toInt - low.toInt + 1 = targets.length
    · simp only [Insn.encode, hcount, ne_eq, not_true_eq_false, ↓reduceIte] at h
      obtain ⟨rfl, -⟩ := yields_pure.mp h
      exact hfirst (Nat.succ_pos _)
    · simp only [Insn.encode, hcount, ne_eq, not_false_eq_true, ↓reduceIte] at h
      exact absurd h Pooling.yields_fail_bind
  | lookupSwitch default pairs =>
    obtain ⟨rfl, -⟩ := yields_pure.mp h
    exact hfirst (Nat.succ_pos _)
  | multiArray name dimensions =>
    obtain ⟨_, _, _, hp⟩ := yields_bind.mp h
    obtain ⟨rfl, -⟩ := yields_pure.mp hp
    exact hfirst (Nat.succ_pos _)

section EncodingAll

variable {start : Nat} {insns : List Insn} {placed : Placed} {b c : PoolBuilder}

/-- Instructions are encoded one after the other, each at the offset where the last one stops. -/
theorem yields_encodeAll_cons {i : Insn} :
    Yields (encodeAll start (i :: insns)) b placed c ↔
      ∃ chunks rest m, placed = (start, chunks) :: rest ∧ Yields (i.encode start) b chunks m ∧
        Yields (encodeAll (start + chunksSize chunks) insns) m rest c := by
  rw [encodeAll, yields_bind]
  constructor
  · rintro ⟨chunks, m, hi, h⟩
    obtain ⟨rest, c', hrest, hp⟩ := yields_bind.mp h
    obtain ⟨rfl, rfl⟩ := yields_pure.mp hp
    exact ⟨chunks, rest, m, rfl, hi, hrest⟩
  · rintro ⟨chunks, rest, m, rfl, hi, hrest⟩
    exact ⟨chunks, m, hi, hrest.bind (yields_pure.mpr ⟨rfl, rfl⟩)⟩

/-- Instructions that are encoded follow each other without a gap. -/
theorem contiguous_of_encodeAll (h : Yields (encodeAll start insns) b placed c) :
    placed.Contiguous start := by
  induction insns generalizing start placed b with
  | nil =>
    obtain ⟨rfl, -⟩ := yields_pure.mp h
    trivial
  | cons i insns ih =>
    obtain ⟨chunks, rest, m, rfl, hi, hrest⟩ := yields_encodeAll_cons.mp h
    exact ⟨rfl, chunksSize_pos_of_encode hi, ih hrest⟩

theorem length_of_encodeAll (h : Yields (encodeAll start insns) b placed c) :
    placed.length = insns.length := by
  induction insns generalizing start placed b with
  | nil =>
    obtain ⟨rfl, -⟩ := yields_pure.mp h
    rfl
  | cons i insns ih =>
    obtain ⟨chunks, rest, m, rfl, hi, hrest⟩ := yields_encodeAll_cons.mp h
    rw [List.length_cons, List.length_cons, ih hrest]

/-- Instructions use the entries of their own symbols. -/
theorem uses_encodeAll {R : Symbol → Prop} (h : ∀ i ∈ insns, ∀ s ∈ i.symbol?, ∀ t ∈ s.parts, R t) :
    Pooling.Uses R (encodeAll start insns) := by
  induction insns generalizing start with
  | nil => exact Pooling.uses_pure []
  | cons i insns ih =>
    refine (uses_encode start (h i (List.mem_cons_self ..))).bind fun chunks => ?_
    exact (ih fun x hx => h x (List.mem_cons_of_mem i hx)).map _

end EncodingAll

/-! ### Placing -/

namespace Layout

theorem next_eq_ok {layout : Layout} {offset : Nat} :
    layout.next = .ok offset ↔ layout.size ≤ 65535 ∧ offset = layout.size := by
  unfold next
  split
  · next h => simp [h, eq_comm]
  · next h => simp [h]

variable {name : String} {layout final : Layout} {b c : PoolBuilder}

/-- What comes behind the next offset is run with the size so far, if that is an offset. -/
theorem yields_next_bind {α : Type} {f : Nat → Pooling α} {v : α} :
    Yields (Pooling.lift layout.next >>= f) b v c ↔
      layout.size ≤ 65535 ∧ Yields (f layout.size) b v c := by
  rw [yields_bind]
  constructor
  · rintro ⟨offset, m, hnext, h⟩
    obtain ⟨hoffset, rfl⟩ := Pooling.yields_lift.mp hnext
    obtain ⟨hsize, rfl⟩ := next_eq_ok.mp hoffset
    exact ⟨hsize, h⟩
  · rintro ⟨hsize, h⟩
    exact ⟨_, _, Pooling.yields_lift.mpr ⟨next_eq_ok.mpr ⟨hsize, rfl⟩, rfl⟩, h⟩

/-- **A label is placed** exactly if it has no offset yet, and gets the one reached so far. -/
theorem yields_place_label {label : Label} :
    Yields (place name layout (.label label)) b final c ↔
      layout.size ≤ 65535 ∧ layout.offsets[label]? = none ∧ c = b ∧
        final = { layout with offsets := layout.offsets.insert label layout.size } := by
  unfold place
  rw [yields_next_bind]
  refine and_congr_right fun _ => ?_
  constructor
  · intro h
    split at h
    · exact absurd h Pooling.yields_fail_bind
    · next hfresh =>
      obtain ⟨rfl, rfl⟩ := yields_pure.mp h
      exact ⟨by simpa using hfresh, rfl, rfl⟩
  · rintro ⟨hfresh, rfl, rfl⟩
    have hfresh : layout.offsets.contains label = false := by
      rw [Std.TreeMap.contains_eq_isSome_getElem?, hfresh]
      rfl
    simp only [hfresh, Bool.false_eq_true, ↓reduceIte]
    exact yields_pure.mpr ⟨rfl, rfl⟩

/-- **A frame is placed** exactly if the last one does not stand at the same offset. -/
theorem yields_place_frame {frame : Frame} :
    Yields (place name layout (.frame frame)) b final c ↔
      layout.size ≤ 65535 ∧ (∀ p ∈ layout.frames.back?, p.1 ≠ layout.size) ∧ c = b ∧
        final = { layout with frames := layout.frames.push (layout.size, frame) } := by
  unfold place
  rw [yields_next_bind]
  refine and_congr_right fun _ => ?_
  constructor
  · intro h
    split at h
    · exact absurd h Pooling.yields_fail_bind
    · next hback =>
      obtain ⟨rfl, rfl⟩ := yields_pure.mp h
      refine ⟨fun p hp => ?_, rfl, rfl⟩
      rw [Option.mem_def] at hp
      simpa [hp] using hback
  · rintro ⟨hback, rfl, rfl⟩
    have hback : layout.frames.back?.any (·.1 == layout.size) = false := by
      rcases hb : layout.frames.back? with _ | p
      · rfl
      · simpa using hback p hb
    simp only [hback, Bool.false_eq_true, ↓reduceIte]
    exact yields_pure.mpr ⟨rfl, rfl⟩

/-- **An instruction is placed** if it can be encoded, and takes the bytes it counts. -/
theorem yields_place_insn {i : Insn} :
    Yields (place name layout (.insn i)) b final c ↔
      ∃ chunks, layout.size ≤ 65535 ∧ Yields (i.encode layout.size) b chunks c ∧
        final = { layout with
          size := layout.size + chunksSize chunks
          placed := layout.placed.push (layout.size, chunks) } := by
  unfold place
  rw [yields_next_bind]
  constructor
  · rintro ⟨hsize, h⟩
    obtain ⟨chunks, m, hi, hp⟩ := yields_bind.mp h
    obtain ⟨rfl, rfl⟩ := yields_pure.mp hp
    exact ⟨chunks, hsize, hi, rfl⟩
  · rintro ⟨chunks, hsize, hi, rfl⟩
    exact ⟨hsize, hi.bind (yields_pure.mpr ⟨rfl, rfl⟩)⟩

/-- Events of the tables leave the layout alone. -/
theorem yields_place_table {e : MethodEvent} (h : e.isTable = true) :
    Yields (place name layout e) b final c ↔ final = layout ∧ c = b := by
  have hplace : place name layout e = pure layout := by
    cases e <;> first | rfl | cases h
  rw [hplace, yields_pure]
  exact ⟨fun ⟨h1, h2⟩ => ⟨h1.symm, h2.symm⟩, fun ⟨h1, h2⟩ => ⟨h1.symm, h2.symm⟩⟩

/-- A label that is bound has its offset, and no other label changes. -/
theorem offsets_insert (offsets : Offsets) (label l : Label) (t : Nat) :
    (offsets.insert label t)[l]? = if label = l then some t else offsets[l]? := by
  rw [Std.TreeMap.getElem?_insert]
  simp only [Std.LawfulEqCmp.compare_eq_iff_eq]

/-- **What placing events comes to.** The instructions are encoded one after the other, and labels
and frames get the offsets of their positions. -/
theorem place_spec {events : List MethodEvent}
    (h : Yields (events.foldlM (place name) layout) b final c) :
    ∃ more : Placed, Yields (encodeAll layout.size (insns events)) b more c ∧
      final.placed.toList = layout.placed.toList ++ more ∧
      final.size = more.stop layout.size ∧
      (∀ l, final.offsets[l]? =
        layout.offsets[l]?.or ((position l events).map (more.offsetAt layout.size))) ∧
      final.frames.toList = layout.frames.toList ++
        (framesFrom 0 events).map fun p => (more.offsetAt layout.size p.1, p.2) := by
  -- Each event does one thing to the layout; what the rest does is stated for the layout it finds.
  induction events generalizing layout b with
  | nil =>
    obtain ⟨rfl, rfl⟩ := yields_pure.mp h
    exact ⟨[], yields_pure.mpr ⟨rfl, rfl⟩, by simp, rfl, by simp [position], by simp [framesFrom]⟩
  | cons e events ih =>
    obtain ⟨next, m, he, h⟩ := yields_foldlM_cons.mp h
    cases e with
    | label label =>
      obtain ⟨_, hfresh, rfl, rfl⟩ := yields_place_label.mp he
      obtain ⟨more, hall, hplaced, hsize, hoffsets, hframes⟩ := ih h
      refine ⟨more, hall, hplaced, hsize, fun l => ?_, hframes⟩
      -- A label that is bound here cannot have been bound before, so the two lookups do not
      -- compete.
      rw [hoffsets, offsets_insert, position]
      split
      · next hl =>
        subst hl
        rw [hfresh, Option.map_some, Placed.offsetAt_zero (contiguous_of_encodeAll hall)]
        rfl
      · rfl
    | frame frame =>
      obtain ⟨_, _, rfl, rfl⟩ := yields_place_frame.mp he
      obtain ⟨more, hall, hplaced, hsize, hoffsets, hframes⟩ := ih h
      refine ⟨more, hall, hplaced, hsize, hoffsets, ?_⟩
      rw [hframes]
      simp only [framesFrom, List.map_cons, Array.toList_push, List.append_assoc,
        List.singleton_append]
      rw [Placed.offsetAt_zero (contiguous_of_encodeAll hall)]
    | insn i =>
      obtain ⟨chunks, _, hi, rfl⟩ := yields_place_insn.mp he
      obtain ⟨more, hall, hplaced, hsize, hoffsets, hframes⟩ := ih h
      refine ⟨(layout.size, chunks) :: more,
        yields_encodeAll_cons.mpr ⟨chunks, more, m, rfl, hi, hall⟩, ?_, hsize, fun l => ?_, ?_⟩
      · rw [hplaced, Array.toList_push, List.append_assoc]
        rfl
      · rw [hoffsets, position, Option.map_map]
        rfl
      · rw [hframes, framesFrom, Nat.zero_add, ← Nat.zero_add 1, framesFrom_add, List.map_map]
        rfl
    | _ =>
      obtain ⟨rfl, rfl⟩ := (yields_place_table rfl).mp he
      exact ih h

/-- **When events are placed.** Their instructions can be encoded within 65535 bytes, no label is
bound twice, and no two frames stand at one position. -/
theorem place_of_encodeAll {events : List MethodEvent} {more : Placed}
    (h : Yields (encodeAll layout.size (insns events)) b more c)
    (hsize : more.stop layout.size ≤ 65535)
    (hfresh : ∀ l ∈ labels events, layout.offsets[l]? = none) (hlabels : (labels events).Nodup)
    (hback : ∀ p ∈ layout.frames.back?, ∀ q ∈ framesFrom 0 events,
      p.1 ≠ more.offsetAt layout.size q.1)
    (hframes : (framesFrom 0 events).Pairwise fun p q => p.1 < q.1) :
    ∃ final, Yields (events.foldlM (place name) layout) b final c := by
  -- The conditions are on the layout that is found and on the events that follow, so that each of
  -- them survives one event.
  induction events generalizing layout b more with
  | nil =>
    obtain ⟨rfl, rfl⟩ := yields_pure.mp h
    exact ⟨layout, yields_pure.mpr ⟨rfl, rfl⟩⟩
  | cons e events ih =>
    have hroom : layout.size ≤ 65535 := Nat.le_trans (Placed.le_stop _ _) hsize
    have hcont := contiguous_of_encodeAll h
    have hlength := length_of_encodeAll h
    cases e with
    | label label =>
      rw [labels_cons_label, List.nodup_cons] at hlabels
      rw [labels_cons_label] at hfresh
      obtain ⟨final, hfinal⟩ := @ih { layout with
        offsets := layout.offsets.insert label layout.size } _ _ h hsize (fun l hl => by
          show (layout.offsets.insert label layout.size)[l]? = none
          have hne : label ≠ l := by
            rintro rfl
            exact hlabels.1 hl
          rw [offsets_insert, hfresh l (List.mem_cons_of_mem label hl)]
          simp [hne]) hlabels.2 hback hframes
      exact ⟨final, yields_foldlM_cons.mpr ⟨_, b,
        yields_place_label.mpr ⟨hroom, hfresh label (List.mem_cons_self ..), rfl, rfl⟩, hfinal⟩⟩
    | frame frame =>
      simp only [framesFrom, List.pairwise_cons] at hframes
      have hzero : more.offsetAt layout.size 0 = layout.size := Placed.offsetAt_zero hcont
      obtain ⟨final, hfinal⟩ := @ih { layout with
        frames := layout.frames.push (layout.size, frame) } _ _ h hsize hfresh hlabels
        (fun p hp q hq => by
          have hp : (layout.frames.push (layout.size, frame)).back? = some p := hp
          rw [Array.back?_push] at hp
          cases hp
          -- A later frame stands behind at least one more instruction, and none of them is empty.
          have hq0 := hframes.1 q hq
          have hqle := (framesFrom_bounds hq).2
          rw [Nat.zero_add] at hqle
          have hlen : more.length = (insns events).length := hlength
          have hlt := Placed.offsetAt_lt hcont hq0 (by omega)
          rw [hzero] at hlt
          exact Nat.ne_of_lt hlt) hframes.2
      refine ⟨final, yields_foldlM_cons.mpr ⟨_, b,
        yields_place_frame.mpr ⟨hroom, fun p hp => ?_, rfl, rfl⟩, hfinal⟩⟩
      rw [← hzero]
      exact hback p hp (0, frame) (List.mem_cons_self ..)
    | insn i =>
      obtain ⟨chunks, rest, m, rfl, hi, hrest⟩ := yields_encodeAll_cons.mp h
      rw [framesFrom, Nat.zero_add, ← Nat.zero_add 1, framesFrom_add] at hback hframes
      rw [List.pairwise_map] at hframes
      obtain ⟨final, hfinal⟩ := @ih { layout with
          size := layout.size + chunksSize chunks
          placed := layout.placed.push (layout.size, chunks) } _ _ hrest hsize hfresh hlabels
        (fun p hp q hq => hback p hp (q.1 + 1, q.2) (List.mem_map_of_mem hq))
        (hframes.imp fun h => Nat.lt_of_succ_lt_succ h)
      exact ⟨final, yields_foldlM_cons.mpr ⟨_, m,
        yields_place_insn.mpr ⟨chunks, hroom, hi, rfl⟩, hfinal⟩⟩
    | _ =>
      obtain ⟨final, hfinal⟩ := ih h hsize hfresh hlabels hback hframes
      exact ⟨final, yields_foldlM_cons.mpr ⟨layout, b, (yields_place_table rfl).mpr ⟨rfl, rfl⟩,
        hfinal⟩⟩

end Layout

end RoundingPatch.ClassFile
