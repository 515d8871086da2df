import RoundingPatch.ClassFile.Code.Body
import RoundingPatch.Proofs.ClassFile.Pool.Meaning
/-!
# Decoding with a larger pool

`Read.Covers s r` says that `s` answers like `r` wherever `r` answers. The readers of a method body
cover themselves when the pool grows, so a method that was decoded is decoded alike with every
larger pool (`Member.decode_of_extends`).
-/

namespace RoundingPatch

/-! ### Readers that answer more often -/

namespace Read

/-- Wherever `r` answers, `s` gives the same answer. -/
def Covers (s r : Read α) : Prop :=
  ∀ c p, r c = .ok p → s c = .ok p

variable {r s : Read α}

theorem covers_refl (r : Read α) : Covers r r :=
  fun _ _ h => h

/-- A sequence covers another if its second part covers that of the other on every value. -/
theorem Covers.bind {f g : α → Read β} (h : Covers s r) (hf : ∀ a, Covers (g a) (f a)) :
    Covers (s >>= g) (r >>= f) := by
  rintro c ⟨b, c''⟩ hr
  obtain ⟨a, c', ha, hb⟩ := bind_eq_ok.mp hr
  exact bind_eq_ok.mpr ⟨a, c', h c _ ha, hf a c' _ hb⟩

/-- An answer covers another one if it has its value. -/
theorem covers_lift {x y : Except Fault α} (h : ∀ a, x = .ok a → y = .ok a) :
    Covers (lift y) (lift x) := by
  rintro c ⟨a, c'⟩ hr
  obtain ⟨ha, rfl⟩ := lift_eq_ok.mp hr
  exact lift_of_ok (h a ha) c

theorem covers_ite {p : Prop} [Decidable p] {r' s' : Read α} (h : Covers s r) (h' : Covers s' r') :
    Covers (if p then s else s') (if p then r else r') := by
  split
  · exact h
  · exact h'

/-- A row covers a row if each value covers. -/
theorem covers_many (h : Covers s r) (n : Nat) : Covers (many n s) (many n r) := by
  induction n with
  | zero => exact covers_refl _
  | succ n ih => exact h.bind fun x => ih.bind fun xs => covers_refl _

/-- What is read off a file is read off it by every reader that covers. -/
theorem Covers.runOn {bytes : Bytes} {a : α} (h : Covers s r) (hr : runOn r bytes = .ok a) :
    runOn s bytes = .ok a := by
  unfold Read.runOn at hr ⊢
  rcases hread : r.run (Cursor.start bytes) with fault | p
  · rw [hread] at hr
    cases hr
  · rw [hread] at hr
    rw [show s.run (Cursor.start bytes) = .ok p from h _ p hread]
    exact hr

end Read

namespace ClassFile

open Read

variable {pool larger : ConstantPool} (hp : larger.Extends pool)
include hp

theorem covers_readAttributes : Covers (readAttributes larger) (readAttributes pool) :=
  (covers_refl _).bind fun _ => covers_many
    ((covers_refl _).bind fun _ => (covers_lift fun _ h => hp.utf8 h).bind fun _ => covers_refl _) _

namespace Body

/-! ### Instructions -/

/-- **An instruction is read alike with a larger pool.** -/
theorem covers_readInsn (length offset : Nat) :
    Covers (readInsn larger length offset) (readInsn pool length offset) := by
  have hloadable (field : UInt16) :
      Covers (lift (larger.loadable field)) (lift (pool.loadable field)) :=
    covers_lift fun _ h => hp.loadable h
  have hmember {f : MemberRef → Read Insn} (field : String) :
      Covers (u2 field >>= fun i => lift (larger.member i) >>= f)
        (u2 field >>= fun i => lift (pool.member i) >>= f) :=
    (covers_refl _).bind fun _ => (covers_lift fun _ h => hp.member h).bind fun _ => covers_refl _
  have hclass {f : String → Read Insn} (field : String) :
      Covers (u2 field >>= fun i => lift (larger.className i) >>= f)
        (u2 field >>= fun i => lift (pool.className i) >>= f) :=
    (covers_refl _).bind fun _ => (covers_lift fun _ h => hp.className h).bind fun _ =>
      covers_refl _
  unfold readInsn
  refine (covers_refl _).bind fun op => ?_
  -- Only the operands that are indices look at the pool.
  cases Opcode.operands op with
  | constantByte => exact (covers_refl _).bind fun _ => (hloadable _).bind fun _ => covers_refl _
  | constantShort => exact (covers_refl _).bind fun _ => (hloadable _).bind fun _ => covers_refl _
  | field => exact hmember _
  | method => exact hmember _
  | interfaceMethod => exact hmember _
  | classRef => exact hclass _
  | multiArray => exact hclass _
  | _ => exact covers_refl _

theorem covers_readInsns (length fuel : Nat) (done : List (Nat × Insn)) :
    Covers (readInsns larger length fuel done) (readInsns pool length fuel done) := by
  induction fuel generalizing done with
  | zero => exact covers_refl _
  | succ fuel ih =>
    unfold readInsns
    exact (covers_refl _).bind fun c => covers_ite (covers_refl _)
      ((covers_readInsn hp length c.pos).bind fun _ => ih _)

/-! ### Tables -/

theorem covers_readHandler : Covers (readHandler larger) (readHandler pool) :=
  (covers_refl _).bind fun _ => (covers_refl _).bind fun _ => (covers_refl _).bind fun _ =>
    (covers_refl _).bind fun _ => (covers_lift fun _ h => hp.className? h).bind fun _ =>
      covers_refl _

theorem covers_readLocals (table : LocalTable) :
    Covers (readLocals larger table) (readLocals pool table) :=
  (covers_refl _).bind fun _ => covers_many
    ((covers_refl _).bind fun _ => (covers_refl _).bind fun _ => (covers_refl _).bind fun _ =>
      (covers_lift fun _ h => hp.utf8 h).bind fun _ => (covers_refl _).bind fun _ =>
        (covers_lift fun _ h => hp.utf8 h).bind fun _ => covers_refl _) _

theorem covers_readVType : Covers (readVType larger) (readVType pool) := by
  unfold readVType
  refine (covers_refl _).bind fun tag => ?_
  split
  case h_8 =>
    exact (covers_refl _).bind fun _ => (covers_lift fun _ h => hp.className h).bind fun _ =>
      covers_refl _
  all_goals exact covers_refl _

theorem covers_readFrame : Covers (readFrame larger) (readFrame pool) := by
  have hvtype := covers_readVType hp
  unfold readFrame
  exact (covers_refl _).bind fun _ => covers_ite (covers_refl _) <|
    covers_ite (hvtype.bind fun _ => covers_refl _) <| covers_ite (covers_refl _) <|
    (covers_refl _).bind fun _ => covers_ite (hvtype.bind fun _ => covers_refl _) <|
    covers_ite (covers_refl _) <| covers_ite (covers_refl _) <|
    covers_ite ((covers_many hvtype _).bind fun _ => covers_refl _) <|
    (covers_refl _).bind fun _ => (covers_many hvtype _).bind fun _ => (covers_refl _).bind fun _ =>
    (covers_many hvtype _).bind fun _ => covers_refl _

theorem covers_readFrames (length count : Nat) (previous : Option Nat) :
    Covers (readFrames larger length count previous) (readFrames pool length count previous) := by
  induction count generalizing previous with
  | zero => exact covers_refl _
  | succ count ih =>
    unfold readFrames
    refine (covers_readFrame hp).bind fun p => ?_
    exact covers_ite ((covers_refl _).bind fun _ => (ih _).bind fun _ => covers_refl _)
      ((ih _).bind fun _ => covers_refl _)

theorem covers_readFrameTable (length : Nat) :
    Covers (readFrameTable larger length) (readFrameTable pool length) :=
  (covers_refl _).bind fun _ => covers_readFrames hp length _ none

/-- An attribute is added to a body alike with a larger pool. -/
theorem addTable_of_extends {body b : Body} {attr : RawAttribute}
    (h : addTable pool body attr = .ok b) : addTable larger body attr = .ok b := by
  unfold addTable at h ⊢
  split at h
  · exact h
  · obtain ⟨locals, hlocals, h⟩ := except_bind_eq_ok.mp h
    exact except_bind_eq_ok.mpr ⟨locals, (covers_readLocals hp _).runOn hlocals, h⟩
  · obtain ⟨locals, hlocals, h⟩ := except_bind_eq_ok.mp h
    exact except_bind_eq_ok.mpr ⟨locals, (covers_readLocals hp _).runOn hlocals, h⟩
  · obtain ⟨frames, hframes, h⟩ := except_bind_eq_ok.mp h
    exact except_bind_eq_ok.mpr ⟨frames, (covers_readFrameTable hp _).runOn hframes, h⟩
  · cases h

theorem addTables_of_extends {attributes : List RawAttribute} {body b : Body}
    (h : attributes.foldlM (addTable pool) body = .ok b) :
    attributes.foldlM (addTable larger) body = .ok b := by
  induction attributes generalizing body with
  | nil =>
    rw [List.foldlM_nil] at h ⊢
    exact h
  | cons attr attributes ih =>
    rw [List.foldlM_cons] at h ⊢
    obtain ⟨next, hnext, hrest⟩ := except_bind_eq_ok.mp h
    exact except_bind_eq_ok.mpr ⟨next, addTable_of_extends hp hnext, ih hrest⟩

/-! ### Bodies -/

theorem covers_read : Covers (read larger) (read pool) := by
  unfold read
  refine (covers_refl _).bind fun _ => (covers_refl _).bind fun _ =>
    (covers_refl _).bind fun length => ?_
  -- Behind the length, which is read in one of two widths, both branches are the same.
  have hbody (length : Nat) (maxStack maxLocals : UInt16) (code : Bytes) : Covers
      (do
        let insns ← lift (decodeInsns larger code)
        let handlerCount ← u2 "exception_table_length"
        let handlers ← many handlerCount.toNat (readHandler larger)
        let attributes ← readAttributes larger
        let body ← lift (attributes.foldlM (addTable larger)
          { maxStack, maxLocals, length, insns, handlers })
        lift body.checkReferences
        return body)
      (do
        let insns ← lift (decodeInsns pool code)
        let handlerCount ← u2 "exception_table_length"
        let handlers ← many handlerCount.toNat (readHandler pool)
        let attributes ← readAttributes pool
        let body ← lift (attributes.foldlM (addTable pool)
          { maxStack, maxLocals, length, insns, handlers })
        lift body.checkReferences
        return body) :=
    (covers_lift fun _ h => (covers_readInsns hp _ _ _).runOn h).bind fun _ =>
      (covers_refl _).bind fun _ => (covers_many (covers_readHandler hp) _).bind fun _ =>
      (covers_readAttributes hp).bind fun _ =>
      (covers_lift fun _ h => addTables_of_extends hp h).bind fun _ => covers_refl _
  exact covers_ite ((covers_refl _).bind fun _ => (covers_refl _).bind fun _ => hbody _ _ _ _)
    ((covers_refl _).bind fun _ => hbody _ _ _ _)

/-- **A body is parsed alike with a larger pool.** -/
theorem parse_of_extends {info : Bytes} {body : Body} (h : parse pool info = .ok body) :
    parse larger info = .ok body :=
  (covers_read hp).runOn h

end Body

/-- **A method that was decoded** is decoded alike with a larger pool. -/
theorem Member.decode_of_extends {m : Member} (h : (m.decode pool).failure = none) :
    m.decode larger = m.decode pool := by
  unfold decode at h ⊢
  split
  · rfl
  · rfl
  · next events info hsplit =>
    rw [hsplit] at h
    dsimp only at h
    cases hbody : Body.parse pool info with
    | error fault =>
      rw [hbody] at h
      cases h
    | ok body => rw [Body.parse_of_extends hp hbody]

end ClassFile

end RoundingPatch
