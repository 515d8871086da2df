import RoundingPatch.Proofs.Bytes.Offsets
import RoundingPatch.Proofs.ClassFile.Code.Bodies
/-!
# Where branches lead

The distances that an instruction branches over are read off the bytes of a code array
(`displacements`), and the instructions of a code array stand in it one behind the other (`Laid`).
The targets of an instruction are the labels of the offsets at these distances (`aims_of_laid`),
each of which is the offset of an instruction (`exists_insn_of_laid`).
-/

namespace RoundingPatch.ClassFile

open Read

namespace Body

variable {pool : ConstantPool} {code : Bytes} {length offset p pc : Nat}

/-! ### Distances -/

/-- The distances in the instruction at an offset of a code array, in the order of its targets. -/
def displacements (code : Bytes) (pc : Nat) : List Int32 :=
  let operands := pc + 1 + switchPadding pc
  match code[pc]?.map Opcode.operands with
  | some .branch => [(code.i2At (pc + 1)).toInt32]
  | some (.wideBranch _) => [code.i4At (pc + 1)]
  | some .tableSwitch =>
    let count := ((code.i4At (operands + 8)).toInt - (code.i4At (operands + 4)).toInt + 1).toNat
    code.i4At operands :: (List.range count).map fun j => code.i4At (operands + 12 + 4 * j)
  | some .lookupSwitch =>
    let count := (code.i4At (operands + 4)).toInt.toNat
    code.i4At operands :: (List.range count).map fun j => code.i4At (operands + 12 + 8 * j)
  | _ => []

/-- The offset at a distance lies inside the code. -/
def Inside (length pc : Nat) (distance : Int32) : Prop :=
  0 ≤ pc + distance.toInt ∧ pc + distance.toInt < length

/-- The label of the offset at a distance. -/
def labelOver (pc : Nat) (distance : Int32) : Label :=
  labelAt (pc + distance.toInt).toNat

/-- Targets are the labels of the offsets at some distances, all of them inside the code. -/
def Aims (length pc : Nat) (distances : List Int32) (targets : List Label) : Prop :=
  targets = distances.map (labelOver pc) ∧ ∀ r ∈ distances, Inside length pc r

theorem aims_nil : Aims length pc [] [] :=
  ⟨rfl, nofun⟩

/-- A distance leads to a label inside the code and reads nothing. -/
theorem at_branchTarget (distance : Int32) : At code (branchTarget length offset distance) p
    fun l p' => l = labelOver offset distance ∧ p' = p ∧ Inside length offset distance := by
  unfold branchTarget
  dsimp only
  split
  · next h => exact at_pure ⟨rfl, rfl, h⟩
  · exact at_malformed _

/-! ### Instructions -/

/-- What is read at the offset of an instruction aims where its distances say. -/
def ReadsAt (code : Bytes) (length pc : Nat) (r : Read Insn) (p : Nat) : Prop :=
  At code r p fun i p' => pc < p' ∧ Aims length pc (displacements code pc) i.targets

/-- A switch over a range reads the distances that stand in the code, from its own offset. -/
theorem readsAt_readTableSwitch
    (hop : code[pc]?.map Opcode.operands = some .tableSwitch) :
    ReadsAt code length pc (readTableSwitch length pc) (pc + 1) := by
  refine (at_skip _ _).bind fun _ p0 hp0 => (at_i4 _).bind fun distance p1 ⟨hdistance, hp1⟩ =>
    (at_branchTarget _).bind fun default p2 ⟨hdefault, hp2, hinside⟩ =>
    (at_i4 _).bind fun low p3 ⟨hlow, hp3⟩ => (at_i4 _).bind fun high p4 ⟨hhigh, hp4⟩ =>
    At.check fun _ => at_cursor_bind (At.check fun _ => ?_)
  -- The default and the two bounds stand in front of the distances.
  obtain rfl : p4 = p0 + 12 := by omega
  obtain rfl : p3 = p0 + 8 := by omega
  obtain rfl : p2 = p0 + 4 := by omega
  have htargets := @at_many _ code (do branchTarget length pc (← i4 "jump offset")) 4
    (fun p => labelOver pc (code.i4At p)) (fun p => Inside length pc (code.i4At p))
    (fun p => (at_i4 _).bind fun d p' ⟨hd, hp'⟩ => by
      rw [hd, hp']
      exact at_branchTarget _)
    (high.toInt - low.toInt + 1).toNat (p0 + 12)
  refine htargets.bind fun targets p5 ⟨hvalues, hp5, hinsides⟩ => at_pure ⟨by omega, ?_⟩
  subst hdistance hdefault hlow hhigh hvalues hp0
  simp only [displacements, hop]
  refine ⟨?_, List.forall_mem_cons.mpr ⟨hinside, List.forall_mem_map.mpr fun j hj => ?_⟩⟩
  · rw [List.map_cons, List.map_map]
    rfl
  · exact hinsides j (List.mem_range.mp hj)

theorem readsAt_readLookupSwitch
    (hop : code[pc]?.map Opcode.operands = some .lookupSwitch) :
    ReadsAt code length pc (readLookupSwitch length pc) (pc + 1) := by
  refine (at_skip _ _).bind fun _ p0 hp0 => (at_i4 _).bind fun distance p1 ⟨hdistance, hp1⟩ =>
    (at_branchTarget _).bind fun default p2 ⟨hdefault, hp2, hinside⟩ =>
    (at_i4 _).bind fun count p3 ⟨hcount, hp3⟩ => at_cursor_bind (At.check fun _ => ?_)
  obtain rfl : p3 = p0 + 8 := by omega
  obtain rfl : p2 = p0 + 4 := by omega
  -- The pairs are read by one loop, eight bytes for each.
  have hpairs := @at_many _ code
    (do
      let key ← i4 "match"
      return (key, ← branchTarget length pc (← i4 "jump offset"))) 8
    (fun p => (code.i4At p, labelOver pc (code.i4At (p + 4))))
    (fun p => Inside length pc (code.i4At (p + 4)))
    (fun p => (at_i4 _).bind fun key _ ⟨hkey, hp⟩ => (at_i4 _).bind fun d _ ⟨hd, hp'⟩ => by
      subst hkey hp hd hp'
      exact (at_branchTarget _).bind fun l p' ⟨hl, hp', hin⟩ => at_pure ⟨by rw [hl], hp', hin⟩)
    count.toInt.toNat (p0 + 8)
  refine hpairs.bind fun pairs p4 ⟨hvalues, hp4, hinsides⟩ => at_pure ⟨by omega, ?_⟩
  subst hdistance hdefault hcount hvalues hp0
  have hstep (j : Nat) : pc + 1 + switchPadding pc + 8 + 8 * j + 4
      = pc + 1 + switchPadding pc + 12 + 8 * j := by omega
  simp only [displacements, hop]
  refine ⟨?_, List.forall_mem_cons.mpr ⟨hinside, List.forall_mem_map.mpr fun j hj => ?_⟩⟩
  · simp only [Insn.targets, List.map_cons, List.map_map]
    exact congrArg _ (List.map_congr_left fun j _ => by simp only [Function.comp_apply, hstep])
  · rw [← hstep]
    exact hinsides j (List.mem_range.mp hj)

/-- **An instruction branches where its bytes say.** -/
theorem readsAt_readInsn : ReadsAt code length pc (readInsn pool length pc) pc := by
  refine (at_u1 _).bind fun op p1 ⟨hget, hp1⟩ => ?_
  have hoperands : code[pc]?.map Opcode.operands = some (Opcode.operands op) := by
    rw [hget, Option.map_some]
  have hplain {i : Insn} {p' : Nat} (hnone : displacements code pc = []) (htargets : i.targets = [])
      (hlt : pc < p') : pc < p' ∧ Aims length pc (displacements code pc) i.targets := by
    rw [hnone, htargets]
    exact ⟨hlt, aims_nil⟩
  have hjump {op : Opcode} {l : Label} {d : Int32} {p' : Nat} (hone : displacements code pc = [d])
      (hl : l = labelOver pc d) (hin : Inside length pc d) (hlt : pc < p') :
      pc < p' ∧ Aims length pc (displacements code pc) (Insn.jump op l).targets := by
    rw [hone]
    exact ⟨hlt, congrArg (fun l => [l]) hl, by simpa using hin⟩
  rcases hop : Opcode.operands op with _ | ⟨access, index⟩ | _ | _ | _ | _ | _ | _ | _ | _ | short |
    _ | _ | _ | _ | _ | _ | _ | _ | _ | _ <;> rw [hop] at hoperands <;> dsimp only
  case branch =>
    have hone : displacements code pc = [(code.i2At (pc + 1)).toInt32] := by
      simp only [displacements, hoperands]
    refine (at_i2 _).bind fun d p2 ⟨hd, hp2⟩ => (at_branchTarget _).bind
      fun l p3 ⟨hl, hp3, hin⟩ => at_pure ?_
    subst hp1 hd
    exact hjump hone hl hin (by omega)
  case wideBranch =>
    have hone : displacements code pc = [code.i4At (pc + 1)] := by
      simp only [displacements, hoperands]
    refine (at_i4 _).bind fun d p2 ⟨hd, hp2⟩ => (at_branchTarget _).bind
      fun l p3 ⟨hl, hp3, hin⟩ => at_pure ?_
    subst hp1 hd
    exact hjump hone hl hin (by omega)
  case tableSwitch => exact hp1 ▸ readsAt_readTableSwitch hoperands
  case lookupSwitch => exact hp1 ▸ readsAt_readLookupSwitch hoperands
  -- Every other instruction has no targets.
  all_goals have hnone : displacements code pc = [] := by simp only [displacements, hoperands]
  case none | packedLocal => exact at_pure (hplain hnone rfl (by omega))
  case signedByte =>
    exact (at_i1 _).bind fun _ p2 hp2 => at_pure (hplain hnone rfl (by omega))
  case signedShort =>
    exact (at_i2 _).bind fun _ p2 ⟨_, hp2⟩ => at_pure (hplain hnone rfl (by omega))
  case elementType | localByte =>
    exact (at_u1 _).bind fun _ p2 ⟨_, hp2⟩ => at_pure (hplain hnone rfl (by omega))
  case constantByte =>
    exact (at_u1 _).bind fun _ p2 ⟨_, hp2⟩ => (at_lift _).bind fun _ p3 ⟨_, hp3⟩ =>
      at_pure (hplain hnone rfl (by omega))
  case constantShort | classRef =>
    exact (at_u2 _).bind fun _ p2 ⟨_, hp2⟩ => (at_lift _).bind fun _ p3 ⟨_, hp3⟩ =>
      at_pure (hplain hnone rfl (by omega))
  case increment =>
    exact (at_u1 _).bind fun _ p2 ⟨_, hp2⟩ => (at_i1 _).bind fun _ p3 hp3 =>
      at_pure (hplain hnone rfl (by omega))
  case field | method =>
    exact (at_u2 _).bind fun _ p2 ⟨_, hp2⟩ => (at_lift _).bind fun _ p3 ⟨_, hp3⟩ =>
      At.check fun _ => at_pure (hplain hnone rfl (by omega))
  case interfaceMethod =>
    exact (at_u2 _).bind fun _ p2 ⟨_, hp2⟩ => (at_lift _).bind fun _ p3 ⟨_, hp3⟩ =>
      (at_skip _ _).bind fun _ p4 hp4 => at_pure (hplain hnone rfl (by omega))
  case callSite =>
    exact (at_u2 _).bind fun _ p2 ⟨_, hp2⟩ => (at_skip _ _).bind fun _ p3 hp3 =>
      at_pure (hplain hnone rfl (by omega))
  case multiArray =>
    exact (at_u2 _).bind fun _ p2 ⟨_, hp2⟩ => (at_lift _).bind fun _ p3 ⟨_, hp3⟩ =>
      (at_u1 _).bind fun _ p4 ⟨_, hp4⟩ => at_pure (hplain hnone rfl (by omega))
  case widened =>
    refine (at_u1 _).bind fun op p2 ⟨_, hp2⟩ => ?_
    split
    · exact (at_u2 _).bind fun _ p3 ⟨_, hp3⟩ => (at_i2 _).bind fun _ p4 ⟨_, hp4⟩ =>
        at_pure (hplain hnone rfl (by omega))
    split
    · exact (at_u2 _).bind fun _ p3 ⟨_, hp3⟩ => at_pure (hplain hnone rfl (by omega))
    · exact at_malformed _
  case unknown => exact at_malformed _

/-! ### The code array -/

/-- Instructions stand in a code array one behind the other, from an offset up to its end. -/
inductive Laid (pool : ConstantPool) (code : Bytes) : Nat → List (Nat × Insn) → Prop
  | done : Laid pool code code.length []
  | insn {pc next : Nat} {i : Insn} {insns : List (Nat × Insn)}
      (reads : readInsn pool code.length pc ⟨pc, code.drop pc, 0⟩
        = .ok (i, ⟨next, code.drop next, 0⟩))
      (rest : Laid pool code next insns) : Laid pool code pc ((pc, i) :: insns)

variable {insns : List (Nat × Insn)}

/-- Instructions are laid out from the cursor on, behind those that are done. -/
theorem laid_of_readInsns {fuel : Nat} {done : List (Nat × Insn)} {c' : Cursor}
    (hpc : pc ≤ code.length) (hfuel : code.length ≤ pc + fuel)
    (h : readInsns pool code.length fuel done ⟨pc, code.drop pc, 0⟩ = .ok (insns, c')) :
    ∃ more, insns = done.reverse ++ more ∧ Laid pool code pc more := by
  induction fuel generalizing pc done with
  | zero =>
    obtain ⟨rfl, -⟩ := pure_eq_ok.mp h
    obtain rfl : pc = code.length := by omega
    exact ⟨[], by simp, .done⟩
  | succ fuel ih =>
    rw [readInsns, cursor_bind] at h
    split at h
    · next hempty =>
      obtain ⟨rfl, -⟩ := pure_eq_ok.mp h
      have hle := List.drop_eq_nil_iff.mp (List.isEmpty_iff.mp hempty)
      obtain rfl : pc = code.length := by omega
      exact ⟨[], by simp, .done⟩
    · obtain ⟨i, c1, hi, h⟩ := Read.bind_eq_ok.mp h
      -- Every instruction takes a byte, so the fuel lasts.
      obtain ⟨next, rfl, hlt, -⟩ := readsAt_readInsn _ _ hi
      have hlt : pc < next := hlt
      have hle : next ≤ code.length := by
        have hsum := (readInsn_spec rfl hi).2.2.1
        simp only [List.length_drop] at hsum
        omega
      obtain ⟨more, rfl, hmore⟩ := ih hle (by omega) h
      exact ⟨(pc, i) :: more, by simp, .insn hi hmore⟩

/-- **The instructions of a code array** take up all of it. -/
theorem laid_of_decodeInsns (h : decodeInsns pool code = .ok insns) : Laid pool code 0 insns := by
  obtain ⟨c', h⟩ := runOn_eq_ok.mp h
  obtain ⟨more, rfl, hmore⟩ := laid_of_readInsns (Nat.zero_le _) (by omega) h
  exact hmore

/-- An instruction aims where the bytes at its offset say. -/
theorem Laid.aims {start : Nat} (h : Laid pool code start insns) {i : Insn} (hi : (pc, i) ∈ insns) :
    Aims code.length pc (displacements code pc) i.targets := by
  induction h with
  | done => cases hi
  | insn reads rest ih =>
    rcases List.mem_cons.mp hi with heq | hi
    · cases heq
      obtain ⟨_, -, -, haims⟩ := readsAt_readInsn _ _ reads
      exact haims
    · exact ih hi

/-! ### Bodies -/

/-- A table changes nothing about the code. -/
theorem code_of_addTable {body next : Body} {attr : RawAttribute}
    (h : addTable pool body attr = .ok next) :
    next.length = body.length ∧ next.insns = body.insns := by
  unfold addTable at h
  split at h
  · obtain ⟨_, -, h⟩ := except_bind_eq_ok.mp h
    cases h
    exact ⟨rfl, rfl⟩
  · obtain ⟨_, -, h⟩ := except_bind_eq_ok.mp h
    cases h
    exact ⟨rfl, rfl⟩
  · obtain ⟨_, -, h⟩ := except_bind_eq_ok.mp h
    cases h
    exact ⟨rfl, rfl⟩
  · obtain ⟨_, -, h⟩ := except_bind_eq_ok.mp h
    cases h
    exact ⟨rfl, rfl⟩
  · cases h

theorem code_of_foldlM {attrs : List RawAttribute} {body last : Body}
    (h : attrs.foldlM (addTable pool) body = .ok last) :
    last.length = body.length ∧ last.insns = body.insns := by
  induction attrs generalizing body with
  | nil =>
    cases h
    exact ⟨rfl, rfl⟩
  | cons a attrs ih =>
    rw [List.foldlM_cons] at h
    obtain ⟨next, hadd, h⟩ := except_bind_eq_ok.mp h
    obtain ⟨hlength, hinsns⟩ := code_of_addTable hadd
    obtain ⟨hlength', hinsns'⟩ := ih h
    exact ⟨hlength'.trans hlength, hinsns'.trans hinsns⟩

/-- The code array in the bytes of a `Code` attribute, behind the limits and its own length. -/
def codeArray (info : Bytes) : Bytes :=
  (info.drop 8).take (info.u4At 4).toNat

/-- **The instructions of a body** are those of its code array. -/
theorem laid_of_parse {info : Bytes} {body : Body} (h : parse pool info = .ok body) :
    body.length = (codeArray info).length ∧ Laid pool (codeArray info) 0 body.insns := by
  obtain ⟨c', h⟩ := runOn_eq_ok.mp h
  have hread : At info (read pool) 0 fun b _ =>
      b.length = (codeArray info).length ∧ decodeInsns pool (codeArray info) = .ok b.insns := by
    refine (at_u2 _).bind fun _ p1 ⟨_, hp1⟩ => (at_u2 _).bind fun _ p2 ⟨_, hp2⟩ =>
      (at_u4 _).bind fun length p3 ⟨hlength, hp3⟩ => At.check fun _ =>
      (at_take _ _).bind fun code p4 ⟨hcode, hsize, _⟩ =>
      (at_lift _).bind fun insns p5 ⟨hinsns, _⟩ =>
      (gives_u2 _).at.bind fun _ _ _ => (gives_many gives_readHandler _).at.bind fun _ _ _ =>
      gives_readAttributes.at.bind fun attrs p6 _ => (at_lift _).bind fun b p7 ⟨hb, _⟩ =>
      (at_lift _).bind fun _ _ _ => at_pure ?_
    -- The array stands behind two limits of two bytes each and a length of four.
    obtain rfl : p3 = 8 := by omega
    obtain rfl : p2 = 4 := by omega
    have hcode : code = codeArray info := by rw [hcode, hlength, codeArray]
    obtain ⟨hlast, hkept⟩ := code_of_foldlM hb
    rw [← hcode]
    exact ⟨hlast.trans hsize.symm, hkept ▸ hinsns⟩
  obtain ⟨_, -, hlength, hinsns⟩ := hread body c' h
  exact ⟨hlength, laid_of_decodeInsns hinsns⟩

end Body

end RoundingPatch.ClassFile
