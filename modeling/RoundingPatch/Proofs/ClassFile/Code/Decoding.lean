import RoundingPatch.Proofs.ClassFile.Code.Insns
/-!
# What is read from a body

Instructions that are read from the bytes of a code array are in the form in which instructions are
read, their targets are offsets inside the code, and the pool has what they mention
(`gives_readInsn`). The offsets of the instructions ascend (`gives_readInsns`).
-/

namespace RoundingPatch.ClassFile

open Read ConstantPool

/-! ### Labels of offsets -/

namespace Body

theorem toNat_labelAt {t : Nat} (h : t < 2147483648) : (labelAt t).id.toNat = t := by
  have hmask : (~~~Label.madeBit).toNat = 2 ^ 31 - 1 := rfl
  show (UInt32.ofNat t &&& ~~~Label.madeBit).toNat = t
  rw [UInt32.toNat_and, hmask, UInt32.toNat_ofNat_of_lt' (show t < 4294967296 by omega),
    Nat.and_two_pow_sub_one_eq_mod]
  omega

/-- Different offsets have different labels. -/
theorem labelAt_inj {s t : Nat} (hs : s < 2147483648) (ht : t < 2147483648)
    (h : labelAt s = labelAt t) : s = t := by
  rw [← toNat_labelAt hs, h, toNat_labelAt ht]

end Body

/-! ### Symbols a pool has -/

namespace ConstantPool

/-- The pool has an entry for a symbol, unless it is a reference to a member. -/
def Has (pool : ConstantPool) (s : Symbol) : Prop :=
  (∃ i, pool.Denotes i s) ∨ ∃ ref, s = .member ref

/-- The pool has everything a symbol consists of, a reference to a member apart. -/
def Supplies (pool : ConstantPool) (s : Symbol) : Prop :=
  ∀ t ∈ s.parts, pool.Has t

variable {pool : ConstantPool} {i : UInt16}

theorem supplies_of_denotes {s : Symbol} (h : pool.Denotes i s) : pool.Supplies s :=
  fun t ht => .inl (h.parts t ht)

theorem supplies_utf8 {text : String} (h : pool.utf8 i = .ok text) : pool.Supplies (.utf8 text) :=
  supplies_of_denotes (denotes_utf8.mpr h)

theorem supplies_className {name : String} (h : pool.className i = .ok name) :
    pool.Supplies (.classRef name) :=
  supplies_of_denotes (denotes_classRef.mpr h)

theorem supplies_className? {name : Option String} (h : pool.className? i = .ok name) :
    ∀ n ∈ name, pool.Supplies (.classRef n) := by
  rintro n rfl
  unfold className? at h
  split at h
  · cases h
  · rcases hn : pool.className i with _ | m
    · rw [hn] at h
      cases h
    · rw [hn] at h
      cases h
      exact supplies_className hn

/-- A reference to a member supplies that of any kind. -/
theorem supplies_member {ref : MemberRef} (h : pool.member i = .ok ref) (kind : MemberKind) :
    pool.Supplies (.member { ref with kind }) := by
  intro t ht
  rcases List.mem_cons.mp ht with rfl | ht
  · exact .inl ((denotes_member.mpr h).parts _ (by simp [Symbol.parts]))
  by_cases hmember : t = .member { ref with kind }
  · exact .inr ⟨_, hmember⟩
  · refine .inl ((denotes_member.mpr h).parts t ?_)
    simp only [Symbol.parts, List.mem_cons, List.not_mem_nil, or_false, hmember] at ht ⊢
    tauto

/-- A constant that is loaded is one that the pool can supply. -/
theorem supplies_loadable {constant : Constant} (h : pool.loadable i = .ok constant) :
    ∀ s ∈ constant.symbol?, pool.Supplies s := by
  intro s hs
  refine supplies_of_denotes (i := i) ?_
  obtain ⟨e, he, h⟩ := except_bind_eq_ok.mp h
  -- The kinds of entry that can be loaded as a symbol come first; the others give no symbol.
  cases e with
  | integer value =>
    cases h
    cases hs
    exact denotes_integer.mpr he
  | float bits =>
    cases h
    cases hs
    exact denotes_float.mpr he
  | long value =>
    cases h
    cases hs
    exact denotes_long.mpr he
  | double bits =>
    cases h
    cases hs
    exact denotes_double.mpr he
  | string text =>
    obtain ⟨t, ht, h⟩ := except_bind_eq_ok.mp h
    cases h
    cases hs
    exact denotes_string.mpr ⟨text, he, ht⟩
  | classRef name =>
    obtain ⟨t, ht, h⟩ := except_bind_eq_ok.mp h
    cases h
    cases hs
    exact denotes_classRef.mpr (className_eq_ok.mpr ⟨name, he, ht⟩)
  | methodHandle kind reference =>
    cases h
    cases hs
  | methodType descriptor =>
    cases h
    cases hs
  | dynamic bootstrap named =>
    cases h
    cases hs
  | _ => cases h

/-- A constant that stays an index is loaded by this index. -/
theorem loadable_pooled {j : UInt16} (h : pool.loadable i = .ok (.pooled j)) : j = i := by
  obtain ⟨e, he, h⟩ := except_bind_eq_ok.mp h
  cases e with
  | string text =>
    obtain ⟨t, ht, h⟩ := except_bind_eq_ok.mp h
    cases h
  | classRef name =>
    obtain ⟨t, ht, h⟩ := except_bind_eq_ok.mp h
    cases h
  | _ => cases h <;> rfl

end ConstantPool

/-! ### Instructions -/

/-- The operands of an instruction go with its opcode and with each other. -/
def Insn.Encodable : Insn → Prop
  | .int op operand => ∃ bytes, Insn.encodeInt op operand = .ok bytes
  | .var op _ => Opcode.isVar op = true
  | .tableSwitch low high _ targets => high.toInt - low.toInt + 1 = targets.length
  | _ => True

/-- What holds of an instruction that is read from code of `length` bytes. -/
structure Insn.FromCode (pool : ConstantPool) (length : Nat) (i : Insn) : Prop where
  readable : i.Readable pool
  supplied : ∀ s ∈ i.symbol?, pool.Supplies s
  inside : ∀ l ∈ i.targets, ∃ t < length, l = Body.labelAt t
  encodable : i.Encodable

variable {pool : ConstantPool} {length offset : Nat}

/-- An instruction that refers neither to the pool nor to another position. -/
theorem Insn.Readable.fromCode {i : Insn} (h : i.Readable pool) (hsymbol : i.symbol? = none)
    (htargets : i.targets = []) (hencodable : i.Encodable) : i.FromCode pool length where
  readable := h
  supplied := by simp [hsymbol]
  inside := by simp [htargets]
  encodable := hencodable

/-- A distance that is read leads to an offset inside the code. -/
theorem gives_branchTarget (distance : Int32) :
    Gives (Body.branchTarget length offset distance) fun l => ∃ t < length, l = Body.labelAt t := by
  unfold Body.branchTarget
  dsimp only
  split
  · next h => exact gives_pure ⟨_, by omega, rfl⟩
  · exact gives_malformed _ _

/-- A switch over a range that is read has a target for each key, and at least one. -/
theorem gives_readTableSwitch :
    Gives (Body.readTableSwitch length offset) (Insn.FromCode pool length) := by
  refine (gives_skip _ _).bind fun _ _ => (gives_i4 _).bind fun distance _ =>
    (gives_branchTarget distance).bind fun default hdefault => (gives_i4 _).bind fun low _ =>
    (gives_i4 _).bind fun high _ => Gives.check fun hrange => gives_cursor_bind fun c =>
    Gives.check fun _ => (gives_many ((gives_i4 _).bind fun distance _ =>
      gives_branchTarget distance) _).bind fun targets htargets => gives_pure ?_
  have hle : low.toInt ≤ high.toInt := by
    rw [Int32.lt_iff_toInt_lt] at hrange
    omega
  -- A range that is in order has a key, and so a target.
  have hne : targets ≠ [] := by
    rintro rfl
    have := htargets.1
    rw [List.length_nil] at this
    omega
  refine ⟨.tableSwitch low high default hne, by simp [Insn.symbol?], fun l hl => ?_, ?_⟩
  · rcases List.mem_cons.mp hl with rfl | hl
    · exact hdefault
    · exact htargets.2 l hl
  · have hlength := htargets.1
    unfold Insn.Encodable
    omega

theorem gives_readLookupSwitch :
    Gives (Body.readLookupSwitch length offset) (Insn.FromCode pool length) := by
  refine (gives_skip _ _).bind fun _ _ => (gives_i4 _).bind fun distance _ =>
    (gives_branchTarget distance).bind fun default hdefault => (gives_i4 _).bind fun count _ =>
    gives_cursor_bind fun c => Gives.check fun _ => (gives_many
      (p := fun pair : Int32 × Label => ∃ t < length, pair.2 = Body.labelAt t)
      ((gives_i4 _).bind fun key _ => (gives_i4 _).bind fun distance _ =>
        (gives_branchTarget distance).bind fun l hl => gives_pure hl) _).bind
      fun pairs hpairs => gives_pure ?_
  refine ⟨.lookupSwitch default pairs, by simp [Insn.symbol?], fun l hl => ?_, trivial⟩
  rcases List.mem_cons.mp hl with rfl | hl
  · exact hdefault
  · obtain ⟨pair, hpair, rfl⟩ := List.mem_map.mp hl
    exact hpairs.2 pair hpair

theorem gives_readWidened :
    Gives (Body.readWidened offset) (Insn.FromCode pool length) := by
  refine (gives_u1 _).bind fun op _ => ?_
  split
  · exact (gives_u2 _).bind fun index _ => (gives_i2 _).bind fun delta _ =>
      gives_pure ((Insn.Readable.iinc index delta).fromCode rfl rfl trivial)
  split
  · next hop => exact (gives_u2 _).bind fun index _ =>
      gives_pure ((Insn.Readable.var op index).fromCode rfl rfl hop)
  · exact gives_malformed _ _

/-- A branch over four bytes reads as a branch over two. -/
theorem operands_short {op short : Opcode} (h : Opcode.operands op = .wideBranch short) :
    Opcode.operands short = .branch := by
  have htable := isConsistent op
  rw [Opcode.isConsistent, h] at htable
  exact eq_of_beq (Bool.and_eq_true_iff.mp htable).2

/-- Only one opcode has the operands of an interface method. -/
theorem operands_interfaceMethod {op : Opcode} (h : Opcode.operands op = .interfaceMethod) :
    op = Opcode.invokeinterface := by
  have htable := isConsistent op
  rw [Opcode.isConsistent, h] at htable
  exact eq_of_beq (Bool.and_eq_true_iff.mp htable).2

/-- If an opcode holds the index of a local variable, its long form is an access to one. -/
theorem isVar_of_packedLocal {op access : Opcode} {index : UInt16}
    (h : Opcode.operands op = .packedLocal access index) : Opcode.isVar access = true := by
  have htable := isConsistent op
  rw [Opcode.isConsistent, h] at htable
  exact (Bool.and_eq_true_iff.mp htable).2

/-- An opcode with a local variable as a byte is one with a local variable. -/
theorem isVar_of_localByte {op : Opcode} (h : Opcode.operands op = .localByte) :
    Opcode.isVar op = true := by
  have htable := isConsistent op
  rw [Opcode.isConsistent, h] at htable
  exact (Bool.and_eq_true_iff.mp (Bool.and_eq_true_iff.mp htable).2).1

theorem encodable_bipush (v : Int8) : (Insn.int Opcode.bipush v.toInt32).Encodable := by
  have hlow := v.le_toInt
  have hhigh := v.toInt_lt
  refine ⟨[Opcode.bipush, v.toInt32.toUInt32.toUInt8], ?_⟩
  unfold Insn.encodeInt
  rw [Int8.toInt_toInt32]
  exact (if_pos rfl).trans (if_pos ⟨by omega, by omega⟩)

theorem encodable_sipush (v : Int16) : (Insn.int Opcode.sipush v.toInt32).Encodable := by
  have hlow := v.le_toInt
  have hhigh := v.toInt_lt
  refine ⟨Opcode.sipush :: Bytes.ofU2 v.toInt32.toUInt32.toUInt16, ?_⟩
  unfold Insn.encodeInt
  rw [Int16.toInt_toInt32]
  exact (if_neg (by decide)).trans ((if_pos rfl).trans (if_pos ⟨by omega, by omega⟩))

theorem encodable_newarray (v : UInt8) :
    (Insn.int Opcode.newarray v.toUInt32.toInt32).Encodable := by
  have hlt := v.toNat_lt
  have hv : v.toUInt32.toInt32.toInt = v.toNat := by
    rw [toInt_toInt32, UInt8.toNat_toUInt32, Int.bmod_eq_of_le (by omega) (by omega)]
  refine ⟨[Opcode.newarray, v.toUInt32.toInt32.toUInt32.toUInt8], ?_⟩
  unfold Insn.encodeInt
  rw [hv]
  exact (if_neg (by decide)).trans ((if_neg (by decide)).trans
    ((if_pos rfl).trans (if_pos ⟨by omega, by omega⟩)))

/-- The opcodes whose operand is a small integer. -/
theorem eq_of_intOperand {op : Opcode} :
    (Opcode.operands op = .signedByte → op = Opcode.bipush) ∧
      (Opcode.operands op = .signedShort → op = Opcode.sipush) ∧
      (Opcode.operands op = .elementType → op = Opcode.newarray) := by
  have htable := isConsistent op
  unfold Opcode.isConsistent at htable
  refine ⟨fun h => ?_, fun h => ?_, fun h => ?_⟩ <;> rw [h] at htable <;>
    exact eq_of_beq (Bool.and_eq_true_iff.mp htable).2

/-- **An instruction that is read** is in the form in which instructions are read, and it takes up
some bytes. -/
theorem readInsn_spec {c c' : Cursor} {i : Insn} (hgap : c.gap = 0)
    (h : Body.readInsn pool length offset c = .ok (i, c')) :
    i.FromCode pool length ∧ c.pos < c'.pos ∧
      c'.pos + c'.rest.length = c.pos + c.rest.length ∧ c'.gap = 0 := by
  -- Constants and jumps come from two kinds of operand each.
  have hldc (i : UInt16) (constant : Constant) (h : pool.loadable i = .ok constant) :
      Gives (pure (.ldc constant)) (Insn.FromCode pool length) := by
    refine gives_pure ⟨.ldc fun j hj => ?_, supplies_loadable h, by simp [Insn.targets], trivial⟩
    subst hj
    obtain rfl := loadable_pooled h
    exact h
  have hjump {op : Opcode} (hop : Opcode.operands op = .branch) {l : Label}
      (hl : ∃ t < length, l = Body.labelAt t) : (Insn.jump op l).FromCode pool length :=
    ⟨.jump hop l, by simp [Insn.symbol?], by simpa [Insn.targets] using hl, trivial⟩
  -- The first byte moves the cursor; what follows is one case for each kind of operand.
  refine Gives.after_u1 (fun op => ?_) hgap h
  rcases hop : Opcode.operands op with _ | ⟨access, index⟩ | _ | _ | _ | _ | _ | _ | _ | _ | short |
    _ | _ | _ | _ | _ | _ | _ | _ | _ | _ <;> dsimp only
  case none => exact gives_pure ((Insn.Readable.simple hop).fromCode rfl rfl trivial)
  case packedLocal =>
    exact gives_pure ((Insn.Readable.var access index).fromCode rfl rfl (isVar_of_packedLocal hop))
  case signedByte =>
    obtain rfl := eq_of_intOperand.1 hop
    exact (gives_i1 _).bind fun v _ =>
      gives_pure ((Insn.Readable.int _ _).fromCode rfl rfl (encodable_bipush v))
  case signedShort =>
    obtain rfl := eq_of_intOperand.2.1 hop
    exact (gives_i2 _).bind fun v _ =>
      gives_pure ((Insn.Readable.int _ _).fromCode rfl rfl (encodable_sipush v))
  case elementType =>
    obtain rfl := eq_of_intOperand.2.2 hop
    exact (gives_u1 _).bind fun v _ =>
      gives_pure ((Insn.Readable.int _ _).fromCode rfl rfl (encodable_newarray v))
  case localByte =>
    exact (gives_u1 _).bind fun v _ =>
      gives_pure ((Insn.Readable.var op _).fromCode rfl rfl (isVar_of_localByte hop))
  case increment =>
    exact (gives_u1 _).bind fun index _ => (gives_i1 _).bind fun delta _ =>
      gives_pure ((Insn.Readable.iinc _ _).fromCode rfl rfl trivial)
  case constantByte =>
    refine (gives_u1 _).bind fun _ _ => (gives_lift fun _ h => h).bind fun constant h => ?_
    exact hldc _ _ h
  case constantShort =>
    refine (gives_u2 _).bind fun _ _ => (gives_lift fun _ h => h).bind fun constant h => ?_
    exact hldc _ _ h
  case branch =>
    refine (gives_i2 _).bind fun distance _ => (gives_branchTarget _).bind fun l hl => ?_
    exact gives_pure (hjump hop hl)
  case wideBranch =>
    refine (gives_i4 _).bind fun distance _ => (gives_branchTarget _).bind fun l hl => ?_
    exact gives_pure (hjump (operands_short hop) hl)
  case tableSwitch => exact gives_readTableSwitch
  case lookupSwitch => exact gives_readLookupSwitch
  case field =>
    refine (gives_u2 _).bind fun _ _ => (gives_lift fun _ h => h).bind fun ref href =>
      Gives.check fun _ => gives_pure ?_
    exact ⟨.field hop _ _ _, by simpa [Insn.symbol?] using supplies_member href .field,
      by simp [Insn.targets], trivial⟩
  case method =>
    refine (gives_u2 _).bind fun _ _ => (gives_lift fun _ h => h).bind fun ref href =>
      Gives.check fun _ => gives_pure ?_
    exact ⟨.method hop _ _ _ _, by simpa [Insn.symbol?] using supplies_member href _,
      by simp [Insn.targets], trivial⟩
  case interfaceMethod =>
    refine (gives_u2 _).bind fun _ _ => (gives_lift fun _ h => h).bind fun ref href =>
      (gives_skip _ _).bind fun _ _ =>
      gives_pure ?_
    rw [operands_interfaceMethod hop]
    exact ⟨.interfaceMethod _ _ _, by simpa [Insn.symbol?] using supplies_member href _,
      by simp [Insn.targets], trivial⟩
  case callSite =>
    exact (gives_u2 _).bind fun index _ => (gives_skip _ _).bind fun _ _ =>
      gives_pure ((Insn.Readable.callSite index).fromCode rfl rfl trivial)
  case classRef =>
    refine (gives_u2 _).bind fun _ _ => (gives_lift fun _ h => h).bind fun name hname =>
      gives_pure ?_
    exact ⟨.type hop _, by simpa [Insn.symbol?] using supplies_className hname,
      by simp [Insn.targets], trivial⟩
  case multiArray =>
    refine (gives_u2 _).bind fun _ _ => (gives_lift fun _ h => h).bind fun name hname =>
      (gives_u1 _).bind fun _ _ =>
      gives_pure ?_
    exact ⟨.multiArray _ _, by simpa [Insn.symbol?] using supplies_className hname,
      by simp [Insn.targets], trivial⟩
  case widened => exact gives_readWidened
  case unknown => exact gives_malformed _ _

/-! ### The code array -/

/-- What holds of the instructions that are read from code of `length` bytes between two offsets. -/
structure FromCode (pool : ConstantPool) (length start stop : Nat) (insns : List (Nat × Insn)) :
    Prop where
  ascending : insns.Pairwise fun p q => p.1 < q.1
  bounds : ∀ p ∈ insns, start ≤ p.1 ∧ p.1 < stop
  each : ∀ p ∈ insns, p.2.FromCode pool length

/-- **Instructions that are read come from the code**, one behind the other up to its end. -/
theorem readInsns_spec {fuel : Nat} {done insns : List (Nat × Insn)} {c c' : Cursor}
    (hgap : c.gap = 0) (h : Body.readInsns pool length fuel done c = .ok (insns, c')) :
    ∃ more, insns = done.reverse ++ more ∧
      FromCode pool length c.pos (c.pos + c.rest.length) more := by
  -- The instructions read so far are an accumulator: the claim is about those that follow.
  induction fuel generalizing done c with
  | zero =>
    obtain ⟨rfl, -⟩ := pure_eq_ok.mp h
    exact ⟨[], by simp, .nil, by simp, by simp⟩
  | succ fuel ih =>
    rw [Body.readInsns, cursor_bind] at h
    split at h
    · obtain ⟨rfl, -⟩ := pure_eq_ok.mp h
      exact ⟨[], by simp, .nil, by simp, by simp⟩
    · next hne =>
      obtain ⟨i, c1, hi, h⟩ := Read.bind_eq_ok.mp h
      obtain ⟨hcode, hlt, hstop, hgap1⟩ := readInsn_spec hgap hi
      obtain ⟨more, rfl, hmore⟩ := ih hgap1 h
      have hpos : c.rest.length ≠ 0 := by
        intro h0
        rw [List.length_eq_zero_iff.mp h0] at hne
        exact hne rfl
      refine ⟨(c.pos, i) :: more, by simp, ?_, ?_, ?_⟩
      · refine List.pairwise_cons.mpr ⟨fun p hp => ?_, hmore.ascending⟩
        have := (hmore.bounds p hp).1
        exact Nat.lt_of_lt_of_le hlt this
      · rw [List.forall_mem_cons]
        refine ⟨⟨Nat.le_refl _, Nat.lt_add_of_pos_right (Nat.pos_of_ne_zero hpos)⟩, fun p hp => ?_⟩
        have := hmore.bounds p hp
        exact ⟨by omega, by omega⟩
      · rw [List.forall_mem_cons]
        exact ⟨hcode, hmore.each⟩

/-- **The instructions of a code array** ascend inside it. -/
theorem decodeInsns_spec {code : Bytes} {insns : List (Nat × Insn)}
    (h : Body.decodeInsns pool code = .ok insns) :
    FromCode pool code.length 0 code.length insns := by
  unfold Body.decodeInsns runOn at h
  rcases hrun : (Body.readInsns pool code.length code.length []).run (Cursor.start code) with
    fault | ⟨answer, c⟩
  · rw [hrun] at h
    cases h
  · rw [hrun] at h
    cases h
    obtain ⟨more, rfl, hmore⟩ := readInsns_spec rfl hrun
    simpa [Cursor.start] using hmore

/-- Code of at least one byte has an instruction. -/
theorem decodeInsns_ne_nil {code : Bytes} {insns : List (Nat × Insn)}
    (h : Body.decodeInsns pool code = .ok insns) (hcode : code ≠ []) : insns ≠ [] := by
  obtain ⟨c', h⟩ := runOn_eq_ok.mp h
  obtain ⟨b, code, rfl⟩ := List.exists_cons_of_ne_nil hcode
  rw [List.length_cons, Body.readInsns, cursor_bind] at h
  simp only [Cursor.start, List.isEmpty_cons, Bool.false_eq_true, ↓reduceIte] at h
  obtain ⟨i, c1, hi, h⟩ := bind_eq_ok.mp h
  obtain ⟨more, rfl, -⟩ := readInsns_spec (readInsn_spec rfl hi).2.2.2 h
  simp

end RoundingPatch.ClassFile
