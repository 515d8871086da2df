import RoundingPatch.Proofs.ClassFile.Code.Normal
import RoundingPatch.Proofs.ClassFile.Code.Placing
/-!
# The code array read back

`ResolvesAll offsets placed code` says that `code` is made of the bytes of the placed instructions.
It is what `Layout.code` yields (`code_eq_ok`), and it reads back as the instructions in their
normal form, each with its offset and its labels turned into those of their offsets
(`decodeInsns_of_encodeAll`).
-/

namespace RoundingPatch.ClassFile

open Read

/-- The placed instructions come out as `code`. -/
def ResolvesAll (offsets : Offsets) : Placed → Bytes → Prop
  | [], code => code = []
  | (offset, chunks) :: rest, code =>
    ∃ b1 b2, code = b1 ++ b2 ∧ Resolves offsets offset chunks b1 ∧ ResolvesAll offsets rest b2

variable {offsets : Offsets} {placed : Placed} {code : Bytes}

/-- The code of a layout is what its chunks resolve to. -/
theorem code_eq_ok {layout : Layout} :
    layout.code = .ok code ↔ ResolvesAll layout.offsets layout.placed.toList code := by
  -- The chunks of all instructions are resolved in one pass; the pass is cut where the instructions
  -- are.
  have hpieces (placed : Placed) (code : Bytes) :
      (∃ resolved, (placed.flatMap fun p => p.2.map (p.1, ·)).mapM
        (fun p => Layout.resolve layout.offsets p.1 p.2) = .ok resolved ∧
          resolved.flatten = code) ↔ ResolvesAll layout.offsets placed code := by
    induction placed generalizing code with
    | nil =>
      constructor
      · rintro ⟨resolved, h, rfl⟩
        cases h
        rfl
      · rintro rfl
        exact ⟨[], rfl, rfl⟩
    | cons p rest ih =>
      simp only [List.flatMap_cons, List.mapM_append, List.mapM_map]
      constructor
      · rintro ⟨resolved, h, rfl⟩
        obtain ⟨r1, h1, h⟩ := except_bind_eq_ok.mp h
        obtain ⟨r2, h2, h⟩ := except_bind_eq_ok.mp h
        cases h
        exact ⟨r1.flatten, r2.flatten, List.flatten_append, ⟨r1, h1, rfl⟩,
          (ih _).mp ⟨r2, h2, rfl⟩⟩
      · rintro ⟨b1, b2, rfl, ⟨r1, h1, rfl⟩, h⟩
        obtain ⟨r2, h2, rfl⟩ := (ih _).mpr h
        exact ⟨r1 ++ r2, except_bind_eq_ok.mpr ⟨r1, h1, except_bind_eq_ok.mpr ⟨r2, h2, rfl⟩⟩,
          List.flatten_append⟩
  rw [← hpieces, Layout.code, except_bind_eq_ok]
  refine exists_congr fun resolved => and_congr Iff.rfl ?_
  constructor
  · intro h
    cases h
    rfl
  · rintro rfl
    rfl

/-- Code ends where its last instruction stops. -/
theorem length_of_resolvesAll (h : ResolvesAll offsets placed code) (start : Nat) :
    placed.stop start = start + code.length := by
  induction placed generalizing start code with
  | nil =>
    cases h
    rfl
  | cons p rest ih =>
    obtain ⟨b1, b2, rfl, h1, h2⟩ := h
    rw [Placed.stop, ih h2, List.length_append, length_of_resolves h1, Nat.add_assoc]

/-- The placed instructions as they are read. -/
def rows (offsets : Offsets) (placed : Placed) (insns : List Insn) : List (Nat × Insn) :=
  List.zipWith (fun p i => (p.1, i.mapLabels (labelIn offsets))) placed insns

variable {pool : ConstantPool} {length start : Nat} {insns : List Insn} {b c : PoolBuilder}

/-- **Instructions that are written are read back** in their normal form, with enough fuel for each
byte. -/
theorem readInsns_of_encodeAll (hlength : length ≤ 65535)
    (hencode : Yields (encodeAll start insns) b placed c) (hmeans : c.Means pool)
    (hlegible : ∀ i ∈ insns, i.Legible pool)
    (hin : ∀ i ∈ insns, ∀ l ∈ i.targets, Inside offsets length l)
    (hcode : ResolvesAll offsets placed code) (hroom : start + code.length ≤ 65535) (fuel : Nat)
    (hfuel : code.length ≤ fuel) (done : List (Nat × Insn)) :
    Body.readInsns pool length fuel done ⟨start, code, 0⟩
      = .ok (done.reverse ++ rows offsets placed (insns.map Insn.normal),
          ⟨start + code.length, [], 0⟩) := by
  induction insns generalizing start placed b code fuel done with
  | nil =>
    obtain ⟨rfl, rfl⟩ := yields_pure.mp hencode
    cases hcode
    cases fuel <;>
      simp only [Body.readInsns, rows, List.zipWith_nil_left, List.append_nil, List.map_nil] <;> rfl
  | cons i insns ih =>
    obtain ⟨chunks, rest, m, rfl, hi, hrest⟩ := yields_encodeAll_cons.mp hencode
    obtain ⟨b1, b2, rfl, h1, h2⟩ := hcode
    rw [List.length_append] at hroom hfuel
    have hgrows : m.Grows (fun _ => True) c :=
      (uses_encodeAll fun _ _ _ _ _ _ => trivial).grows hrest
    have hsize : b1.length = chunksSize chunks := length_of_resolves h1
    -- An instruction takes a byte at least, so the fuel lasts and the loop goes on.
    have hpos := chunksSize_pos_of_encode hi
    have hread := reads_normal (hlegible i (List.mem_cons_self ..)) hi (hmeans.of_grows hgrows) h1
      hlength (by omega) (by omega) (hin i (List.mem_cons_self ..)) start b2
    obtain ⟨fuel, rfl⟩ := Nat.exists_eq_succ_of_ne_zero (show fuel ≠ 0 by omega)
    have hne : (b1 ++ b2).isEmpty = false := by
      cases b1
      · simp only [List.length_nil] at hsize
        omega
      · rfl
    have hstep := ih hrest (fun x hx => hlegible x (List.mem_cons_of_mem i hx))
      (fun x hx => hin x (List.mem_cons_of_mem i hx)) h2 (by omega) fuel (by omega)
      ((start, i.normal.mapLabels (labelIn offsets)) :: done)
    rw [Body.readInsns, cursor_bind]
    simp only [hne, Bool.false_eq_true, ↓reduceIte]
    rw [bind_of_ok hread, hsize, hstep, List.length_append, hsize, Nat.add_assoc]
    simp [rows]

/-- **The code array reads back** in normal form. -/
theorem decodeInsns_of_encodeAll (hencode : Yields (encodeAll 0 insns) b placed c)
    (hmeans : c.Means pool) (hlegible : ∀ i ∈ insns, i.Legible pool)
    (hin : ∀ i ∈ insns, ∀ l ∈ i.targets, Inside offsets code.length l)
    (hcode : ResolvesAll offsets placed code) (hlength : code.length ≤ 65535) :
    Body.decodeInsns pool code = .ok (rows offsets placed (insns.map Insn.normal)) := by
  have h := readInsns_of_encodeAll hlength hencode hmeans hlegible hin hcode (by omega)
    code.length (Nat.le_refl _) []
  show Except.map _ (Body.readInsns pool code.length code.length [] ⟨0, code, 0⟩) = _
  rw [h]
  rfl

end RoundingPatch.ClassFile
