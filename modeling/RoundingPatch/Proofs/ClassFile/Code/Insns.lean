import RoundingPatch.Proofs.Bytes.Narrowing
import RoundingPatch.Proofs.ClassFile.Code.Chunks
import RoundingPatch.Proofs.ClassFile.Labels
import RoundingPatch.Proofs.ClassFile.Pool.Meaning
/-!
# Instructions read back

`Insn.Readable pool i` says that `i` is in the form in which instructions are read. The bytes that
such an instruction is encoded as, with every distance filled in, read back as the instruction with
each label turned into the label of its offset (`reads_insn`).
-/

namespace RoundingPatch.ClassFile

open Read ConstantPool

/-! ### Instructions one by one -/

namespace Insn

/-- An instruction in the form in which instructions are read with a pool. -/
inductive Readable (pool : ConstantPool) : Insn → Prop
  | simple {op} (h : Opcode.operands op = .none) : Readable pool (simple op)
  | int (op operand) : Readable pool (int op operand)
  | var (op index) : Readable pool (var op index)
  | iinc (index delta) : Readable pool (iinc index delta)
  | type {op} (h : Opcode.operands op = .classRef) (name) : Readable pool (type op name)
  | field {op} (h : Opcode.operands op = .field) (owner name descriptor) :
    Readable pool (field op owner name descriptor)
  | method {op} (h : Opcode.operands op = .method) (owner name descriptor onInterface) :
    Readable pool (method op owner name descriptor onInterface)
  | interfaceMethod (owner name descriptor) :
    Readable pool (method Opcode.invokeinterface owner name descriptor true)
  | callSite (index) : Readable pool (callSite index)
  | ldc {constant} (h : ∀ i, constant = .pooled i → pool.loadable i = .ok (.pooled i)) :
    Readable pool (ldc constant)
  | jump {op} (h : Opcode.operands op = .branch) (target) : Readable pool (jump op target)
  | tableSwitch (low high default) {targets} (h : targets ≠ []) :
    Readable pool (tableSwitch low high default targets)
  | lookupSwitch (default pairs) : Readable pool (lookupSwitch default pairs)
  | multiArray (name dimensions) : Readable pool (multiArray name dimensions)

/-- An instruction that reads from a pool reads from every larger one. -/
theorem Readable.mono {pool larger : ConstantPool} {i : Insn} (h : i.Readable pool)
    (hp : larger.Extends pool) : i.Readable larger := by
  cases h with
  | simple h => exact .simple h
  | int op operand => exact .int op operand
  | var op index => exact .var op index
  | iinc index delta => exact .iinc index delta
  | type h name => exact .type h name
  | field h owner name descriptor => exact .field h owner name descriptor
  | method h owner name descriptor onInterface => exact .method h owner name descriptor onInterface
  | interfaceMethod owner name descriptor => exact .interfaceMethod owner name descriptor
  | callSite index => exact .callSite index
  | ldc h => exact .ldc fun i hi => hp.loadable (h i hi)
  | jump h target => exact .jump h target
  | tableSwitch low high default h => exact .tableSwitch low high default h
  | lookupSwitch default pairs => exact .lookupSwitch default pairs
  | multiArray name dimensions => exact .multiArray name dimensions

end Insn

section Reading

variable {pool : ConstantPool} {length offset : Nat} {op : Opcode}

theorem reads_simple (h : Opcode.operands op = .none) :
    Reads (Body.readInsn pool length offset) [op] (.simple op) := by
  unfold Body.readInsn
  refine (reads_u1 op _).bind_nil ?_
  simp only [h]
  exact reads_pure _

/-- An operand that was written comes back, in the one or two bytes of its opcode. -/
theorem reads_int {operand : Int32} {bytes : Bytes} (h : Insn.encodeInt op operand = .ok bytes) :
    Reads (Body.readInsn pool length offset) bytes (.int op operand) := by
  have hbipush : Opcode.operands Opcode.bipush = .signedByte := rfl
  have hsipush : Opcode.operands Opcode.sipush = .signedShort := rfl
  have hnewarray : Opcode.operands Opcode.newarray = .elementType := rfl
  unfold Insn.encodeInt at h
  unfold Body.readInsn
  -- Three operation codes take such an operand, each with a width of its own; the bound checked by
  -- the encoder is what makes the low bits say it all.
  by_cases hb : op = Opcode.bipush
  · subst hb
    simp only [↓reduceIte] at h
    split at h
    · next hr =>
      cases h
      refine (reads_u1 Opcode.bipush _).bind (q := [_]) ?_
      simp only [hbipush]
      have h := (reads_i1 operand.toUInt32.toUInt8 "bipush operand").map fun v =>
        Insn.int Opcode.bipush v.toInt32
      rwa [int32_of_low8 hr.1 hr.2] at h
    · cases h
  by_cases hs : op = Opcode.sipush
  · subst hs
    simp only [hb, ↓reduceIte] at h
    split at h
    · next hr =>
      cases h
      refine (reads_u1 Opcode.sipush _).bind ?_
      simp only [hsipush]
      have h := (reads_i2 operand.toUInt32.toUInt16 "sipush operand").map fun v =>
        Insn.int Opcode.sipush v.toInt32
      rwa [int32_of_low16 hr.1 hr.2] at h
    · cases h
  by_cases hn : op = Opcode.newarray
  · subst hn
    simp only [hb, hs, ↓reduceIte] at h
    split at h
    · next hr =>
      cases h
      refine (reads_u1 Opcode.newarray _).bind (q := [_]) ?_
      simp only [hnewarray]
      have h := (reads_u1 operand.toUInt32.toUInt8 "newarray type").map fun v =>
        Insn.int Opcode.newarray v.toUInt32.toInt32
      rwa [int32_of_unsigned_low8 hr.1 hr.2] at h
    · cases h
  · simp only [hb, hs, hn, ↓reduceIte] at h
    cases h

/-- The short forms of an access to a local variable. -/
theorem operands_packed {base : Opcode} {index : UInt16} (hbase : Insn.packedBase op = some base)
    (hindex : index ≤ 3) :
    Opcode.operands (base + index.toUInt8) = .packedLocal op index := by
  have htable := forall_uint8 (p := fun op => (List.range 4).all fun k =>
    (Insn.packedBase op).all fun b =>
      Opcode.operands (b + (UInt16.ofNat k).toUInt8) == .packedLocal op (UInt16.ofNat k))
    (by decide +kernel) op
  have hk : index.toNat < 4 := Nat.lt_succ_of_le hindex
  have h := List.all_eq_true.mp htable index.toNat (List.mem_range.mpr hk)
  rw [UInt16.ofNat_toNat, hbase] at h
  exact eq_of_beq h

/-- What the operands of an opcode tell about it. -/
def Opcode.isConsistent (op : Opcode) : Bool :=
  (!Opcode.isVar op || Opcode.operands op == .localByte) && match Opcode.operands op with
    | .packedLocal access _ => Opcode.isVar access
    | .localByte => Opcode.isVar op && op != Opcode.iinc
    | .signedByte => op == Opcode.bipush
    | .signedShort => op == Opcode.sipush
    | .elementType => op == Opcode.newarray
    | .wideBranch short => Opcode.operands short == .branch
    | .interfaceMethod => op == Opcode.invokeinterface
    | _ => true

theorem isConsistent (op : Opcode) : Opcode.isConsistent op = true :=
  forall_uint8 (p := Opcode.isConsistent) (by decide +kernel) op

/-- The forms of an access to a local variable with an index of its own. -/
theorem operands_isVar (h : Opcode.isVar op = true) :
    Opcode.operands op = .localByte ∧ op ≠ Opcode.iinc := by
  have htable := isConsistent op
  rw [Opcode.isConsistent, h, Bool.and_eq_true] at htable
  have hlocal : Opcode.operands op = .localByte := eq_of_beq htable.1
  rw [hlocal] at htable
  exact ⟨hlocal, bne_iff_ne.mp (Bool.and_eq_true_iff.mp htable.2).2⟩

theorem reads_unpacked (hop : Opcode.isVar op = true) (index : UInt16) :
    Reads (Body.readInsn pool length offset) (Insn.encodeVar.unpacked op index)
      (.var op index) := by
  obtain ⟨hlocal, hiinc⟩ := operands_isVar hop
  have hwide : Opcode.operands Opcode.wide = .widened := rfl
  unfold Insn.encodeVar.unpacked Body.readInsn
  split
  · next hi =>
    refine (reads_u1 op _).bind (q := [_]) ?_
    simp only [hlocal]
    have h := (reads_u1 index.toUInt8 "local index").map fun v => Insn.var op v.toUInt16
    rwa [uint16_of_low8 hi] at h
  · refine (reads_u1 Opcode.wide _).bind (q := op :: Bytes.ofU2 index) ?_
    simp only [hwide, Body.readWidened]
    refine (reads_u1 op _).bind ?_
    simp only [hiinc, hop, ↓reduceIte]
    exact (reads_u2 index _).map _

/-- **An access to a local variable is read back** from any of its three forms. -/
theorem reads_var {index : UInt16} {bytes : Bytes} (h : Insn.encodeVar op index = .ok bytes) :
    Reads (Body.readInsn pool length offset) bytes (.var op index) := by
  unfold Insn.encodeVar at h
  split at h
  · cases h
  next hop =>
  have hop : Opcode.isVar op = true := by simpa using hop
  split at h
  · -- The opcode may hold the index, if it is small.
    next base hbase =>
    split at h
    · next hi =>
      cases h
      unfold Body.readInsn
      refine (reads_u1 _ _).bind_nil ?_
      simp only [operands_packed hbase hi]
      exact reads_pure _
    · cases h
      exact reads_unpacked hop index
  · cases h
    exact reads_unpacked hop index

/-- An increment is read back, wide or not. -/
theorem reads_iinc (index : UInt16) (delta : Int16) :
    Reads (Body.readInsn pool length offset) (Insn.encodeIinc index delta) (.iinc index delta) := by
  have hiinc : Opcode.operands Opcode.iinc = .increment := rfl
  have hwide : Opcode.operands Opcode.wide = .widened := rfl
  unfold Insn.encodeIinc Body.readInsn
  split
  · -- The index and the increment both fit in a byte.
    next h =>
    refine (reads_u1 Opcode.iinc _).bind (q := [_, _]) ?_
    simp only [hiinc]
    have hdelta := (reads_i1 delta.toUInt16.toUInt8 "iinc delta").map fun v =>
      Insn.iinc index v.toInt16
    rw [int16_of_low8 h.2.1 h.2.2] at hdelta
    refine (reads_u1 index.toUInt8 _).bind (q := [_]) ?_
    rw [uint16_of_low8 h.1]
    exact hdelta
  · refine (reads_u1 Opcode.wide _).bind
      (q := Opcode.iinc :: Bytes.ofU2 index ++ Bytes.ofU2 delta.toUInt16) ?_
    simp only [hwide, Body.readWidened]
    refine (reads_u1 Opcode.iinc _).bind (q := Bytes.ofU2 index ++ Bytes.ofU2 delta.toUInt16) ?_
    simp only [↓reduceIte]
    have h := (reads_i2 delta.toUInt16 "iinc delta").map fun v => Insn.iinc index v
    rw [Int16.toInt16_toUInt16] at h
    exact (reads_u2 index _).bind h

theorem reads_type {name : String} {i : UInt16} (hop : Opcode.operands op = .classRef)
    (hi : pool.className i = .ok name) :
    Reads (Body.readInsn pool length offset) (op :: Bytes.ofU2 i) (.type op name) := by
  unfold Body.readInsn
  refine (reads_u1 op _).bind ?_
  simp only [hop]
  exact (reads_u2 i _).bind_nil ((reads_lift hi).map _)

theorem reads_multiArray {name : String} {i : UInt16} (dimensions : UInt8)
    (hi : pool.className i = .ok name) :
    Reads (Body.readInsn pool length offset)
      (Opcode.multianewarray :: Bytes.ofU2 i ++ [dimensions]) (.multiArray name dimensions) := by
  have hop : Opcode.operands Opcode.multianewarray = .multiArray := rfl
  unfold Body.readInsn
  refine (reads_u1 Opcode.multianewarray _).bind (q := Bytes.ofU2 i ++ [dimensions]) ?_
  simp only [hop]
  exact (reads_u2 i _).bind ((reads_lift hi).bind (p := []) ((reads_u1 dimensions _).map _))

theorem reads_field {owner name descriptor : String} {i : UInt16}
    (hop : Opcode.operands op = .field)
    (hi : pool.member i = .ok ⟨.field, owner, name, descriptor⟩) :
    Reads (Body.readInsn pool length offset) (op :: Bytes.ofU2 i)
      (.field op owner name descriptor) := by
  unfold Body.readInsn
  refine (reads_u1 op _).bind ?_
  simp only [hop]
  refine (reads_u2 i _).bind_nil ((reads_lift hi).bind (p := []) ?_)
  simp only [ne_eq, not_true_eq_false, ↓reduceIte]
  exact reads_pure _

/-- The kind of a method reference says whether it is one of an interface. -/
def methodKind (onInterface : Bool) : MemberKind :=
  if onInterface then .interfaceMethod else .method

/-- A call is read back if its index is that of a member of the right kind. -/
theorem reads_method {owner name descriptor : String} {onInterface : Bool} {i : UInt16}
    (hop : Opcode.operands op = .method)
    (hi : pool.member i = .ok ⟨methodKind onInterface, owner, name, descriptor⟩) :
    Reads (Body.readInsn pool length offset) (op :: Bytes.ofU2 i)
      (.method op owner name descriptor onInterface) := by
  unfold Body.readInsn
  refine (reads_u1 op _).bind ?_
  simp only [hop]
  refine (reads_u2 i _).bind_nil ((reads_lift hi).bind (p := []) ?_)
  cases onInterface <;> exact reads_pure _

theorem reads_interfaceMethod {ref : MemberRef} {i : UInt16} (count : UInt8)
    (hi : pool.member i = .ok ref) :
    Reads (Body.readInsn pool length offset)
      (Opcode.invokeinterface :: Bytes.ofU2 i ++ [count, 0])
      (.method Opcode.invokeinterface ref.owner ref.name ref.descriptor true) := by
  have hop : Opcode.operands Opcode.invokeinterface = .interfaceMethod := rfl
  unfold Body.readInsn
  refine (reads_u1 Opcode.invokeinterface _).bind (q := Bytes.ofU2 i ++ [count, 0]) ?_
  simp only [hop]
  refine (reads_u2 i _).bind ((reads_lift hi).bind (p := []) ?_)
  exact (@reads_skip [count, 0] _ rfl _).map _

theorem reads_callSite (i : UInt16) :
    Reads (Body.readInsn pool length offset) (Opcode.invokedynamic :: Bytes.ofU2 i ++ [0, 0])
      (.callSite i) := by
  have hop : Opcode.operands Opcode.invokedynamic = .callSite := rfl
  unfold Body.readInsn
  refine (reads_u1 Opcode.invokedynamic _).bind (q := Bytes.ofU2 i ++ [0, 0]) ?_
  simp only [hop]
  exact (reads_u2 i _).bind ((@reads_skip [0, 0] _ rfl _).map _)

/-- A constant is loaded by whichever of the three opcodes was written. -/
theorem reads_ldc {constant : Constant} {i : UInt16} (isWide : Bool)
    (hi : pool.loadable i = .ok constant) :
    Reads (Body.readInsn pool length offset) (Insn.encodeLdc isWide i) (.ldc constant) := by
  have hldc : Opcode.operands Opcode.ldc = .constantByte := rfl
  have hldcW : Opcode.operands Opcode.ldcW = .constantShort := rfl
  have hldc2W : Opcode.operands Opcode.ldc2W = .constantShort := rfl
  have hshort : Reads (do
      let constant ← lift (pool.loadable (← u2 "ldc index"))
      pure (Insn.ldc constant)) (Bytes.ofU2 i) (.ldc constant) :=
    (reads_u2 i _).bind_nil ((reads_lift hi).map _)
  unfold Insn.encodeLdc Body.readInsn
  split
  · refine (reads_u1 Opcode.ldc2W _).bind ?_
    simp only [hldc2W]
    exact hshort
  split
  · -- An index below 256 survives being written as a byte.
    next hlow =>
    refine (reads_u1 Opcode.ldc _).bind (q := [_]) ?_
    simp only [hldc]
    refine (reads_u1 i.toUInt8 _).bind_nil ?_
    rw [uint16_of_low8 hlow]
    exact (reads_lift hi).map _
  · refine (reads_u1 Opcode.ldcW _).bind ?_
    simp only [hldcW]
    exact hshort

/-! ### Branches -/

variable {offsets : Offsets}

/-- A branch is read back with its target at the offset. -/
theorem reads_jump {target : Label} {bytes : Bytes} (hop : Opcode.operands op = .branch)
    (h : Layout.resolve offsets offset (.near target) = .ok bytes)
    (hin : Inside offsets length target) :
    Reads (Body.readInsn pool length offset) (op :: bytes) (.jump op (labelIn offsets target)) := by
  unfold Body.readInsn
  refine (reads_u1 op _).bind ?_
  simp only [hop]
  exact reads_near h hin _ _

/-- The padding of a switch is skipped. -/
theorem reads_padding (field : String) :
    Reads (skip (switchPadding offset) field) (List.replicate (switchPadding offset) 0) () :=
  reads_skip (List.length_replicate ..) field

theorem switchStart_append (op : Opcode) (offset : Nat) (rest : Bytes) :
    Insn.switchStart op offset ++ rest
      = [op] ++ (List.replicate (switchPadding offset) 0 ++ rest) := by
  rw [Insn.switchStart, List.cons_append, List.singleton_append]

/-- A reader that first makes sure that enough bytes are left. -/
theorem reads_remaining {bytes : Bytes} {a : α} {rest : Read α} {fails : Nat → Prop}
    [DecidablePred fails] {cause : Malformation}
    (hfails : ∀ tail : Bytes, ¬ fails (bytes ++ tail).length) (h : Reads rest bytes a) :
    Reads (do
      let c ← cursor
      if fails c.remaining then malformed cause
      rest) bytes a := by
  intro pos tail
  rw [cursor_bind]
  have hok : ¬ fails (Cursor.remaining ⟨pos, bytes ++ tail, 0⟩) := hfails tail
  simp only [hok, ↓reduceIte]
  exact h pos tail

variable (hlength : length ≤ 65535) (hoffset : offset ≤ 65535)
include hlength hoffset

/-- A switch over a range is read back with its targets at their offsets. -/
theorem reads_tableSwitch {low high : Int32} {default : Label} {targets : List Label}
    {bytes : Bytes} (hcount : high.toInt - low.toInt + 1 = targets.length) (hne : targets ≠ [])
    (h : Resolves offsets offset ([.bytes (Insn.switchStart Opcode.tableswitch offset),
      .far default, .bytes (Bytes.ofU4 low.toUInt32 ++ Bytes.ofU4 high.toUInt32)]
        ++ targets.map .far) bytes)
    (hin : ∀ l ∈ default :: targets, Inside offsets length l) :
    Reads (Body.readInsn pool length offset) bytes
      (.tableSwitch low high (labelIn offsets default) (targets.map (labelIn offsets))) := by
  have hop : Opcode.operands Opcode.tableswitch = .tableSwitch := rfl
  obtain ⟨b1, rfl, h1⟩ := resolves_bytes_cons.mp h
  obtain ⟨b2, b3, rfl, h2, h3⟩ := resolves_cons.mp h1
  obtain ⟨b4, rfl, h4⟩ := resolves_bytes_cons.mp h3
  have hpos : 0 < targets.length := List.length_pos_iff.mpr hne
  have hlow := reads_i4 low.toUInt32 "low"
  have hhigh := reads_i4 high.toUInt32 "high"
  rw [Int32.toInt32_toUInt32] at hlow hhigh
  -- The bounds and the number of targets agree, so the reader finds neither an empty range nor too
  -- few bytes.
  have hrange : ¬ high < low := by
    rw [Int32.lt_iff_toInt_lt]
    omega
  have hlen : b4.length = targets.length * 4 := by
    rw [← chunksSize_far]
    exact length_of_resolves h4
  have hcount' : (high.toInt - low.toInt + 1).toNat = targets.length := by omega
  unfold Body.readInsn
  rw [switchStart_append]
  refine (reads_u1 Opcode.tableswitch _).bind ?_
  simp only [hop, Body.readTableSwitch]
  refine (reads_padding _).bind ?_
  refine reads_far_bind h2 (hin default (List.mem_cons_self ..)) hlength hoffset _ ?_
  rw [List.append_assoc]
  refine hlow.bind (hhigh.bind ?_)
  simp only [hrange, ↓reduceIte, hcount']
  refine @reads_remaining _ _ _ _ (· < targets.length * 4) _ _ ?_ ?_
  · intro tail
    rw [List.length_append, hlen]
    omega
  · refine (reads_targets (fun l hl bs hbs => ?_) h4).map _
    exact reads_far hbs (hin l (List.mem_cons_of_mem _ hl)) hlength hoffset _

/-- A switch over keys is read back with its keys and their targets. -/
theorem reads_lookupSwitch {default : Label} {pairs : List (Int32 × Label)} {bytes : Bytes}
    (h : Resolves offsets offset ([.bytes (Insn.switchStart Opcode.lookupswitch offset),
      .far default, .bytes (Bytes.ofU4 (UInt32.ofNat pairs.length))]
        ++ pairs.flatMap fun p => [.bytes (Bytes.ofU4 p.1.toUInt32), .far p.2]) bytes)
    (hsize : bytes.length ≤ 65535)
    (hin : ∀ l ∈ default :: pairs.map (·.2), Inside offsets length l) :
    Reads (Body.readInsn pool length offset) bytes
      (.lookupSwitch (labelIn offsets default)
        (pairs.map fun p => (p.1, labelIn offsets p.2))) := by
  have hop : Opcode.operands Opcode.lookupswitch = .lookupSwitch := rfl
  obtain ⟨b1, rfl, h1⟩ := resolves_bytes_cons.mp h
  obtain ⟨b2, b3, rfl, h2, h3⟩ := resolves_cons.mp h1
  obtain ⟨b4, rfl, h4⟩ := resolves_bytes_cons.mp h3
  have hlen : b4.length = pairs.length * 8 := by
    rw [length_of_resolves h4]
    exact chunksSize_pairs pairs
  -- The count is written in a word; that it is read back unchanged is where the size of the code
  -- enters.
  have hpairs : pairs.length ≤ 8191 := by
    simp only [List.length_append] at hsize
    omega
  have hnat : (UInt32.ofNat pairs.length).toNat = pairs.length :=
    UInt32.toNat_ofNat_of_lt' (show pairs.length < 4294967296 by omega)
  have hcount : (UInt32.ofNat pairs.length).toInt32.toInt = pairs.length := by
    rw [toInt_toInt32, hnat, Int.bmod_def]
    omega
  unfold Body.readInsn
  rw [switchStart_append]
  refine (reads_u1 Opcode.lookupswitch _).bind ?_
  simp only [hop, Body.readLookupSwitch]
  refine (reads_padding _).bind ?_
  refine reads_far_bind h2 (hin default (List.mem_cons_self ..)) hlength hoffset _ ?_
  refine (reads_i4 _ _).bind ?_
  simp only [hcount, Int.toNat_natCast]
  have hneg : ¬ (UInt32.ofNat pairs.length).toInt32 < 0 := by
    rw [Int32.lt_iff_toInt_lt, hcount]
    simp
  refine @reads_remaining _ _ _ _
    (fun n => (UInt32.ofNat pairs.length).toInt32 < 0 ∨ n < pairs.length * 8) _ _ ?_ ?_
  · intro tail
    rw [List.length_append, hlen]
    rintro (hlt | hlt)
    · exact hneg hlt
    · omega
  · refine (reads_pairs (fun p hp bs hbs => ?_) h4).map _
    have hfar := reads_far hbs
      (hin p.2 (List.mem_cons_of_mem _ (List.mem_map_of_mem hp))) hlength hoffset "jump offset"
    have hkey := reads_i4 p.1.toUInt32 "match"
    rw [Int32.toInt32_toUInt32] at hkey
    refine hkey.bind ?_
    have h := hfar.map fun l => (p.1, l)
    rwa [bind_assoc] at h

end Reading

/-! ### Instructions and the pool -/

/-- The symbol whose index a constant is loaded by. -/
def Constant.symbol? : Constant → Option Symbol
  | integer value => some (.integer value)
  | float bits => some (.float bits)
  | long value => some (.long value)
  | double bits => some (.double bits)
  | string text => some (.string text)
  | classRef name => some (.classRef name)
  | pooled _ => none

/-- The symbol whose index stands in an instruction. -/
def Insn.symbol? : Insn → Option Symbol
  | type _ name | multiArray name _ => some (.classRef name)
  | field _ owner name descriptor => some (.member ⟨.field, owner, name, descriptor⟩)
  | method _ owner name descriptor onInterface =>
    some (.member ⟨methodKind onInterface, owner, name, descriptor⟩)
  | ldc constant => constant.symbol?
  | _ => none

section Pools

variable {pool : ConstantPool} {b c : PoolBuilder} {R : Symbol → Prop}

/-- An index that an earlier pool has is an index of a pool that covers it. -/
theorem covers_checks {index : UInt16} (b q : PoolBuilder) (hq : q.Covers b)
    (h : (b.origin.isNone || decide (b.next ≤ index.toNat)) = false) :
    (q.origin.isNone || decide (q.next ≤ index.toNat)) = false := by
  simp only [Bool.or_eq_false_iff, Option.isNone_eq_false_iff, decide_eq_false_iff_not,
    Nat.not_le] at h ⊢
  exact ⟨hq.origin h.1, Nat.lt_of_lt_of_le h.2 hq.next_le⟩

/-- A constant uses the entries it is made of. -/
theorem uses_constant {constant : Constant}
    (h : ∀ s ∈ constant.symbol?, ∀ t ∈ s.parts, R t) :
    Pooling.Uses R (Pooling.constant constant) := by
  cases constant with
  | pooled index => exact Pooling.Uses.guard covers_checks (Pooling.uses_pure index)
  | integer value => exact Pooling.uses_index (s := .integer value) (h _ rfl)
  | float bits => exact Pooling.uses_index (s := .float bits) (h _ rfl)
  | long value => exact Pooling.uses_index (s := .long value) (h _ rfl)
  | double bits => exact Pooling.uses_index (s := .double bits) (h _ rfl)
  | string text => exact Pooling.uses_index (s := .string text) (h _ rfl)
  | classRef name => exact Pooling.uses_index (s := .classRef name) (h _ rfl)

/-- **Encoding an instruction** uses the pool for the symbol in it. -/
theorem uses_encode {i : Insn} (offset : Nat) (h : ∀ s ∈ i.symbol?, ∀ t ∈ s.parts, R t) :
    Pooling.Uses R (i.encode offset) := by
  cases i with
  | simple op => exact Pooling.uses_pure _
  | int op operand => exact (Pooling.uses_lift _).map _
  | var op index => exact (Pooling.uses_lift _).map _
  | iinc index delta => exact Pooling.uses_pure _
  | type op name => exact (Pooling.uses_index (s := .classRef name) (h _ rfl)).map _
  | field op owner name descriptor =>
    exact (Pooling.uses_index (s := .member ⟨.field, owner, name, descriptor⟩) (h _ rfl)).map _
  | method op owner name descriptor onInterface =>
    refine (Pooling.uses_index (s := .member ⟨methodKind onInterface, owner, name, descriptor⟩)
      (h _ rfl)).bind fun index => ?_
    split
    · exact (Pooling.uses_lift _).map _
    · exact Pooling.uses_pure _
  -- An index is taken as it is, and nothing new is asked of the pool.
  | callSite index => exact Pooling.Uses.guard covers_checks (Pooling.uses_pure _)
  | ldc constant => exact (uses_constant h).map _
  | jump op target =>
    by_cases hop : op = Opcode.gotoW ∨ op = Opcode.jsrW
    · simp only [Insn.encode, hop, ↓reduceIte]
      exact Pooling.uses_pure _
    · simp only [Insn.encode, hop, ↓reduceIte]
      exact Pooling.uses_pure _
  | tableSwitch low high default targets =>
    by_cases hcount : high.toInt - low.toInt + 1 = targets.length
    · simp only [Insn.encode, hcount, ne_eq, not_true_eq_false, ↓reduceIte]
      exact Pooling.uses_pure _
    · simp only [Insn.encode, hcount, ne_eq, not_false_eq_true, ↓reduceIte]
      exact (Pooling.uses_fail _).bind fun _ => Pooling.uses_pure _
  | lookupSwitch default pairs => exact Pooling.uses_pure _
  | multiArray name dimensions =>
    exact (Pooling.uses_index (s := .classRef name) (h _ rfl)).map _

/-- The index of a symbol denotes it. -/
theorem denotes_of_index {s : Symbol} {i : UInt16} (h : Yields (Pooling.index s) b i c)
    (hmeans : c.Means pool) : pool.Denotes i s :=
  hmeans s i (Pooling.grows_index h).2

/-- A constant that was written is loaded as itself. -/
theorem loadable_of_constant {constant : Constant} {i : UInt16}
    (h : Yields (Pooling.constant constant) b i c) (hmeans : c.Means pool)
    (hpooled : ∀ i, constant = .pooled i → pool.loadable i = .ok (.pooled i)) :
    pool.loadable i = .ok constant := by
  cases constant with
  | pooled index =>
    have h := yields_get_bind.mp h
    split at h
    · exact absurd h Pooling.yields_fail_bind
    · obtain ⟨rfl, rfl⟩ := yields_pure.mp h
      exact hpooled _ rfl
  | integer value =>
    have h := denotes_integer.mp (denotes_of_index (s := .integer value) h hmeans)
    exact except_bind_eq_ok.mpr ⟨_, h, rfl⟩
  | float bits =>
    have h := denotes_float.mp (denotes_of_index (s := .float bits) h hmeans)
    exact except_bind_eq_ok.mpr ⟨_, h, rfl⟩
  | long value =>
    have h := denotes_long.mp (denotes_of_index (s := .long value) h hmeans)
    exact except_bind_eq_ok.mpr ⟨_, h, rfl⟩
  | double bits =>
    have h := denotes_double.mp (denotes_of_index (s := .double bits) h hmeans)
    exact except_bind_eq_ok.mpr ⟨_, h, rfl⟩
  | string text =>
    obtain ⟨j, h, hj⟩ := denotes_string.mp (denotes_of_index (s := .string text) h hmeans)
    exact except_bind_eq_ok.mpr ⟨_, h, except_bind_eq_ok.mpr ⟨_, hj, rfl⟩⟩
  | classRef name =>
    obtain ⟨j, h, hj⟩ :=
      className_eq_ok.mp (denotes_classRef.mp (denotes_of_index (s := .classRef name) h hmeans))
    exact except_bind_eq_ok.mpr ⟨_, h, except_bind_eq_ok.mpr ⟨_, hj, rfl⟩⟩

/-- **An instruction reads back** with its labels turned into those of their offsets. -/
theorem reads_insn {offsets : Offsets} {length offset : Nat} {i : Insn} {chunks : List Chunk}
    {bytes : Bytes} (hi : i.Readable pool) (hencode : Yields (i.encode offset) b chunks c)
    (hmeans : c.Means pool) (hbytes : Resolves offsets offset chunks bytes)
    (hlength : length ≤ 65535) (hoffset : offset ≤ 65535) (hsize : bytes.length ≤ 65535)
    (hin : ∀ l ∈ i.targets, Inside offsets length l) :
    Reads (Body.readInsn pool length offset) bytes (i.mapLabels (labelIn offsets)) := by
  -- One case for each kind of instruction: the encoder is opened, the symbol is looked up in the
  -- pool, and the lemma on the bytes of that kind closes it.
  cases hi with
  | simple h =>
    obtain ⟨rfl, rfl⟩ := yields_pure.mp hencode
    rw [resolves_bytes.mp hbytes]
    exact reads_simple h
  | int op operand =>
    obtain ⟨bs, _, hbs, hp⟩ := yields_bind.mp hencode
    obtain ⟨rfl, rfl⟩ := yields_pure.mp hp
    rw [resolves_bytes.mp hbytes]
    exact reads_int (Pooling.yields_lift.mp hbs).1
  | var op index =>
    obtain ⟨bs, _, hbs, hp⟩ := yields_bind.mp hencode
    obtain ⟨rfl, rfl⟩ := yields_pure.mp hp
    rw [resolves_bytes.mp hbytes]
    exact reads_var (Pooling.yields_lift.mp hbs).1
  | iinc index delta =>
    obtain ⟨rfl, rfl⟩ := yields_pure.mp hencode
    rw [resolves_bytes.mp hbytes]
    exact reads_iinc index delta
  | type h name =>
    obtain ⟨k, _, hk, hp⟩ := yields_bind.mp hencode
    obtain ⟨rfl, rfl⟩ := yields_pure.mp hp
    rw [resolves_bytes.mp hbytes]
    exact reads_type h (denotes_classRef.mp (denotes_of_index (s := .classRef name) hk hmeans))
  | field h owner name descriptor =>
    obtain ⟨k, _, hk, hp⟩ := yields_bind.mp hencode
    obtain ⟨rfl, rfl⟩ := yields_pure.mp hp
    rw [resolves_bytes.mp hbytes]
    exact reads_field h (denotes_member.mp
      (denotes_of_index (s := .member ⟨.field, owner, name, descriptor⟩) hk hmeans))
  | @method op h owner name descriptor onInterface =>
    obtain ⟨k, _, hk, hp⟩ := yields_bind.mp hencode
    -- The call on an interface is written with a count and is a case of its own.
    have hne : op ≠ Opcode.invokeinterface := by
      rintro rfl
      cases h
    simp only [hne, ↓reduceIte] at hp
    obtain ⟨rfl, rfl⟩ := yields_pure.mp hp
    rw [resolves_bytes.mp hbytes]
    exact reads_method h (denotes_member.mp (denotes_of_index
      (s := .member ⟨methodKind onInterface, owner, name, descriptor⟩) hk hmeans))
  | interfaceMethod owner name descriptor =>
    obtain ⟨k, m, hk, hp⟩ := yields_bind.mp hencode
    simp only [↓reduceIte] at hp
    obtain ⟨d, _, hd, hp⟩ := yields_bind.mp hp
    obtain ⟨_, rfl⟩ := Pooling.yields_lift.mp hd
    obtain ⟨rfl, rfl⟩ := yields_pure.mp hp
    rw [resolves_bytes.mp hbytes]
    exact @reads_interfaceMethod _ _ _ ⟨.interfaceMethod, owner, name, descriptor⟩ _ _
      (denotes_member.mp (denotes_of_index (s := .member _) hk hmeans))
  | callSite index =>
    have h := yields_get_bind.mp hencode
    split at h
    · exact absurd h Pooling.yields_fail_bind
    · obtain ⟨rfl, rfl⟩ := yields_pure.mp h
      rw [resolves_bytes.mp hbytes]
      exact reads_callSite index
  | ldc h =>
    obtain ⟨k, _, hk, hp⟩ := yields_bind.mp hencode
    obtain ⟨rfl, rfl⟩ := yields_pure.mp hp
    rw [resolves_bytes.mp hbytes]
    exact reads_ldc _ (loadable_of_constant hk hmeans h)
  | @jump op h target =>
    -- What is read is a short jump; the wide forms come from the encoder alone.
    have hne : ¬ (op = Opcode.gotoW ∨ op = Opcode.jsrW) := by
      rintro (rfl | rfl) <;> cases h
    simp only [Insn.encode, hne, ↓reduceIte] at hencode
    obtain ⟨rfl, rfl⟩ := yields_pure.mp hencode
    obtain ⟨rest, rfl, hrest⟩ := resolves_bytes_cons.mp hbytes
    obtain ⟨b1, b2, rfl, h1, h2⟩ := resolves_cons.mp hrest
    rw [resolves_nil.mp h2, List.append_nil]
    exact reads_jump h h1 (hin target (List.mem_singleton.mpr rfl))
  | @tableSwitch low high default targets h =>
    by_cases hcount : high.toInt - low.toInt + 1 = targets.length
    · simp only [Insn.encode, hcount, ne_eq, not_true_eq_false, ↓reduceIte] at hencode
      obtain ⟨rfl, rfl⟩ := yields_pure.mp hencode
      exact reads_tableSwitch hlength hoffset hcount h hbytes hin
    · simp only [Insn.encode, hcount, ne_eq, not_false_eq_true, ↓reduceIte] at hencode
      exact absurd hencode Pooling.yields_fail_bind
  | lookupSwitch default pairs =>
    obtain ⟨rfl, rfl⟩ := yields_pure.mp hencode
    exact reads_lookupSwitch hlength hoffset hbytes hsize hin
  | multiArray name dimensions =>
    obtain ⟨k, _, hk, hp⟩ := yields_bind.mp hencode
    obtain ⟨rfl, rfl⟩ := yields_pure.mp hp
    rw [resolves_bytes.mp hbytes]
    exact reads_multiArray dimensions
      (denotes_classRef.mp (denotes_of_index (s := .classRef name) hk hmeans))

end Pools

end RoundingPatch.ClassFile
