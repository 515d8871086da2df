import RoundingPatch.Proofs.ClassFile.Code.Branches
import RoundingPatch.Proofs.ClassFile.Code.CodeArray
import RoundingPatch.Proofs.ClassFile.Drafting
import RoundingPatch.Proofs.ClassFile.Method.Finish
/-!
# The code of written methods

A method with code is written with its `Code` attribute in front of its other attributes, so its
code array stands at a fixed place (`codeArrayOf`). It is made of one piece for each instruction of
the method, in order (`CodePieces`), and what the pieces are is known from the instructions alone
(`exists_codePieces_of_commit`).

A parameter takes one place among the local variables, or two (`FieldType.places`). Places are
counted in two bytes, and the number of a call's places is written in one. Nothing checks that a
count fits: what comes out is the number of places up to a multiple of 65536 (`toNat_paramSlots`),
or of 256 where a call through an interface is written (`exists_piece_of_interface`).
-/

namespace RoundingPatch.ClassFile

variable {offsets : Offsets} {placed : Placed} {insns : List Insn} {pieces : List Bytes}
  {start : Nat} {b c : PoolBuilder} {code bytes : Bytes} {m : MethodSource} {emitted : Emitted}

/-! ### Pieces of code -/

/-- The bytes of some instructions, one piece for each of them. They are encoded one after the
other, the first of them at offset 0, and the distances in them lead to the given offsets. -/
def CodePieces (offsets : Offsets) (insns : List Insn) (pieces : List Bytes) : Prop :=
  ∃ b c placed, Yields (encodeAll 0 insns) b placed c ∧
    List.Forall₂ (fun p piece => Resolves offsets p.1 p.2 piece) placed pieces

/-- Code falls into the pieces of its instructions. -/
theorem exists_pieces_of_resolvesAll (h : ResolvesAll offsets placed code) :
    ∃ pieces, code = List.flatten pieces ∧
      List.Forall₂ (fun p piece => Resolves offsets p.1 p.2 piece) placed pieces := by
  induction placed generalizing code with
  | nil => exact ⟨[], h, .nil⟩
  | cons p placed ih =>
    obtain ⟨piece, rest, rfl, hpiece, hrest⟩ := h
    obtain ⟨pieces, rfl, hpieces⟩ := ih hrest
    exact ⟨piece :: pieces, List.flatten_cons.symm, .cons hpiece hpieces⟩

/-- Each instruction is encoded at its offset. -/
theorem exists_encode_of_encodeAll {k : Nat} {i : Insn}
    (h : Yields (encodeAll start insns) b placed c) (hk : insns[k]? = some i) :
    ∃ offset chunks s t, placed[k]? = some (offset, chunks) ∧
      Yields (i.encode offset) s chunks t := by
  induction insns generalizing k start b placed with
  | nil => cases hk
  | cons j insns ih =>
    obtain ⟨chunks, more, s, rfl, hj, hrest⟩ := yields_encodeAll_cons.mp h
    cases k with
    | zero =>
      obtain rfl : j = i := Option.some.inj hk
      exact ⟨start, chunks, b, s, rfl, hj⟩
    | succ k =>
      rw [List.getElem?_cons_succ] at hk
      obtain ⟨offset, found, u, t, hplaced, hi⟩ := ih hrest hk
      exact ⟨offset, found, u, t, hplaced, hi⟩

/-- **The piece of an instruction** is its encoding with the distances filled in. -/
theorem CodePieces.exists_encode {k : Nat} {i : Insn} (h : CodePieces offsets insns pieces)
    (hk : insns[k]? = some i) :
    ∃ offset chunks s t piece, pieces[k]? = some piece ∧ Yields (i.encode offset) s chunks t ∧
      Resolves offsets offset chunks piece := by
  obtain ⟨b, c, placed, hencode, hresolve⟩ := h
  obtain ⟨offset, chunks, s, t, hplaced, hi⟩ := exists_encode_of_encodeAll hencode hk
  obtain ⟨hlt, hget⟩ := List.getElem?_eq_some_iff.mp hplaced
  have hlt' : k < pieces.length := hresolve.length_eq ▸ hlt
  have hpiece := hresolve.get hlt hlt'
  rw [List.get_eq_getElem, hget, List.get_eq_getElem] at hpiece
  exact ⟨offset, chunks, s, t, pieces[k], List.getElem?_eq_getElem hlt', hi, hpiece⟩

/-! ### Code arrays in written methods -/

/-- The code array in the bytes of a method whose first attribute is `Code`: the eight bytes of the
method's header and the six of the attribute's stand in front of the limits. -/
def codeArrayOf (method : Bytes) : Bytes :=
  Body.codeArray (method.drop 14)

/-- The code of a body stands behind its limits and its length. -/
theorem codeArray_append {limits rest : Bytes} {length : UInt32} (hlimits : limits.length = 4)
    (hlength : length.toNat = code.length) :
    Body.codeArray (limits ++ Bytes.ofU4 length ++ code ++ rest) = code := by
  have hcount : (limits ++ Bytes.ofU4 length ++ code ++ rest).u4At 4 = length := by
    rw [Bytes.u4At, List.append_assoc, List.append_assoc, List.drop_left' hlimits,
      List.take_left' (Bytes.length_ofU4 length), Bytes.toNat_ofU4, UInt32.ofNat_toNat]
  have hfront : (limits ++ Bytes.ofU4 length).length = 8 := by
    rw [List.length_append, hlimits, Bytes.length_ofU4]
  rw [Body.codeArray, hcount, List.append_assoc (limits ++ Bytes.ofU4 length),
    List.drop_left' hfront, List.take_left' hlength.symm]

/-- The content of an attribute stands behind six bytes. -/
theorem exists_of_namedAttribute {name : String} {info : Bytes}
    (h : Yields (Layout.namedAttribute name info) b bytes c) :
    ∃ front : Bytes, front.length = 6 ∧ bytes = front ++ info := by
  obtain ⟨index, _, _, h⟩ := yields_bind.mp h
  obtain ⟨length, _, hp⟩ := Pooling.yields_lift_bind.mp h
  obtain ⟨rfl, rfl⟩ := yields_pure.mp hp
  exact ⟨Bytes.ofU2 index ++ Bytes.ofU4 length, rfl, rfl⟩

/-- **The code array of a method that was finished** is that of its layout. -/
theorem code_of_finish (hlimits : m.limits.isSome) (h : Yields m.finish b (bytes, emitted) c) :
    ∃ (layout : Layout) (s t : PoolBuilder), layout.Lays m s t ∧
      layout.code = .ok (codeArrayOf bytes) ∧ emitted.offsets = layout.offsets := by
  obtain ⟨name, _, descriptor, s, parts, _, others, count, _, _, hpart, _, _, _, rfl⟩ :=
    MethodSource.yields_finish.mp h
  rcases MethodSource.yields_codePart.mp hpart with ⟨hnone, _⟩ | ⟨limits, first, _, rfl, hcode⟩
  · rw [hnone] at hlimits
    cases hlimits
  · obtain ⟨layout, t, code, hlayout, hlaid, _, _, hattribute, rfl⟩ :=
      MethodSource.yields_emitCode.mp hcode
    obtain ⟨length, handlers, _, attributes, _, tables, hlength, _, _, _, hnamed⟩ :=
      Layout.yields_codeAttribute.mp hattribute
    obtain ⟨front, hfront, rfl⟩ := exists_of_namedAttribute hnamed
    -- Fourteen bytes stand in front of what the attribute holds: four fields of the member and the
    -- head of the attribute.
    have hhead : (Bytes.ofU2 m.access ++ Bytes.ofU2 name ++ Bytes.ofU2 descriptor
        ++ Bytes.ofU2 count ++ front).length = 14 := by
      rw [List.length_append, hfront]
      rfl
    have harray : codeArrayOf (Bytes.ofU2 m.access ++ Bytes.ofU2 name ++ Bytes.ofU2 descriptor
        ++ Bytes.ofU2 count ++ ([front ++ (Bytes.ofU2 limits.1 ++ Bytes.ofU2 limits.2
        ++ Bytes.ofU4 length ++ code ++ handlers ++ Bytes.ofU2 tables ++ attributes.flatten)]
        ++ others).flatten) = code := by
      rw [codeArrayOf, List.singleton_append, List.flatten_cons, List.append_assoc front,
        ← List.append_assoc _ front, List.drop_left' hhead]
      have h := @codeArray_append code (Bytes.ofU2 limits.1 ++ Bytes.ofU2 limits.2)
        (handlers ++ Bytes.ofU2 tables ++ attributes.flatten ++ others.flatten) length rfl
        (Layout.toNat_lengthU4 hlength)
      simpa only [List.append_assoc] using h
    rw [harray]
    exact ⟨layout, s, t, Layout.lays_of_ofMethod hlayout, hlaid, rfl⟩

/-- **What a method is committed as** has a code array that is made of the pieces of its
instructions. -/
theorem exists_codePieces_of_commit {draft next : ClassDraft} (hlimits : m.limits.isSome)
    (h : Yields (ClassDraft.commit m) draft emitted next) :
    ∃ method pieces, next.methods = draft.methods.push method ∧
      codeArrayOf method = List.flatten pieces ∧
      CodePieces emitted.offsets (MethodEvent.insns m.events) pieces := by
  obtain ⟨-, method, b, hfinish, rfl⟩ := ClassDraft.yields_commit.mp h
  obtain ⟨layout, s, t, hlays, hcode, hoffsets⟩ := code_of_finish hlimits hfinish
  obtain ⟨pieces, hpieces, hresolve⟩ := exists_pieces_of_resolvesAll (code_eq_ok.mp hcode)
  rw [hoffsets]
  exact ⟨method, pieces, rfl, hpieces, s, t, layout.placedList, hlays.encodes, hresolve⟩

/-! ### Places of parameters -/

/-- The places a value takes, as a number that cannot overflow. -/
def FieldType.places : FieldType → Nat
  | double | long => 2
  | _ => 1

/-- The places that some parameters take. -/
def placesOf (params : List FieldType) : Nat :=
  (params.map FieldType.places).sum

@[simp]
theorem placesOf_nil : placesOf [] = 0 := rfl

@[simp]
theorem placesOf_cons (t : FieldType) (params : List FieldType) :
    placesOf (t :: params) = t.places + placesOf params := by
  rw [placesOf, List.map_cons, List.sum_cons, placesOf]

theorem toNat_slots (t : FieldType) : t.slots.toNat = t.places := by
  cases t <;> rfl

/-- Counting places wraps around at 65536. -/
theorem toNat_foldl_slots (params : List FieldType) (n : UInt16) :
    (params.foldl (fun n t => n + t.slots) n).toNat = (n.toNat + placesOf params) % 65536 := by
  induction params generalizing n with
  | nil => exact (Nat.mod_eq_of_lt n.toNat_lt).symm
  | cons t params ih =>
    rw [List.foldl_cons, ih, UInt16.toNat_add, toNat_slots, placesOf_cons, Nat.mod_add_mod,
      Nat.add_assoc]

/-- The slots of the parameters are counted modulo 65536. -/
theorem toNat_paramSlots (d : MethodDescriptor) :
    d.paramSlots.toNat = placesOf d.params % 65536 := by
  rw [MethodDescriptor.paramSlots, toNat_foldl_slots]
  exact congrArg (· % 65536) (Nat.zero_add _)

/-- The byte that is written for the places of a call wraps around at 256. -/
theorem toNat_countByte (d : MethodDescriptor) :
    (d.paramSlots + 1).toUInt8.toNat = (1 + placesOf d.params) % 256 := by
  rw [UInt16.toNat_toUInt8, UInt16.toNat_add, toNat_paramSlots]
  show (placesOf d.params % 65536 + 1) % 65536 % 256 = _
  omega

/-! ### Calls through an interface -/

section Calls

variable {owner name descriptor : String} {onInterface : Bool} {d : MethodDescriptor}

/-- The chunk of a call through an interface. -/
theorem exists_of_encode_interface {offset : Nat} {b c : PoolBuilder} {chunks : List Chunk}
    (hd : MethodDescriptor.parse descriptor = .ok d)
    (h : Yields (Insn.encode offset
      (.method Opcode.invokeinterface owner name descriptor onInterface)) b chunks c) :
    ∃ index : UInt16, chunks = [.bytes (Opcode.invokeinterface :: Bytes.ofU2 index
      ++ [(d.paramSlots + 1).toUInt8, 0])] := by
  obtain ⟨index, _, _, h⟩ := yields_bind.mp h
  rw [if_pos rfl] at h
  obtain ⟨d', hd', h⟩ := Pooling.yields_lift_bind.mp h
  obtain rfl : d = d' := Except.ok.inj (hd.symm.trans hd')
  obtain ⟨rfl, -⟩ := yields_pure.mp h
  exact ⟨index, rfl⟩

/-- **A call through an interface in code** is five bytes, the fourth of which is the number of
places of the call as far as it fits into a byte. -/
theorem exists_piece_of_interface {k : Nat} (h : CodePieces offsets insns pieces)
    (hd : MethodDescriptor.parse descriptor = .ok d)
    (hk : insns[k]? = some (.method Opcode.invokeinterface owner name descriptor onInterface)) :
    ∃ (index : UInt16) (count : UInt8),
      pieces[k]? = some (Opcode.invokeinterface :: Bytes.ofU2 index ++ [count, 0]) ∧
        count.toNat = (1 + placesOf d.params) % 256 := by
  obtain ⟨offset, chunks, s, t, piece, hpiece, hencode, hresolves⟩ := h.exists_encode hk
  obtain ⟨index, rfl⟩ := exists_of_encode_interface hd hencode
  rw [resolves_bytes.mp hresolves] at hpiece
  exact ⟨index, (d.paramSlots + 1).toUInt8, hpiece, toNat_countByte d⟩

end Calls

end RoundingPatch.ClassFile
