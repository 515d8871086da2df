import RoundingPatch.Bytes.Cursor
import RoundingPatch.Proofs.Failing
/-!
# What faults there are

`FailsAs sort answer` says that if an answer is a fault, then one of a sort. A fault of kind
`internal` says that the library has made a mistake: `Blameless answer` says that an answer is no
such fault, and `BlamelessFrom step s` that a step does not fail with one if it starts in state
`s`. What can be wrong with bytes that are read is narrower (`Fault.IsOfBytes`), and
`Read.Upright r` says that a reader fails for nothing else on any bytes. Sequences keep to a sort
if their parts do (`FailsAs.bind`, `BlamelessFrom.bind`, `Read.Upright.bind`), where a later part
only has to do so for what the earlier ones yield.
-/

namespace RoundingPatch

variable {σ α β : Type}

/-! ### Answers -/

/-- If an answer is a fault, then one of a sort. -/
def FailsAs (sort : Fault → Prop) (answer : Except Fault α) : Prop :=
  ∀ fault, answer = .error fault → sort fault

/-- An answer is not a fault of kind `internal`. -/
abbrev Blameless (answer : Except Fault α) : Prop :=
  FailsAs (fun fault => fault.kind ≠ .internal) answer

section Answers

variable {sort : Fault → Prop}

theorem failsAs_ok (a : α) : FailsAs sort (.ok a) := by
  intro _ h
  cases h

theorem failsAs_pure (a : α) : FailsAs sort (pure a) :=
  failsAs_ok a

theorem failsAs_error {fault : Fault} (h : sort fault) :
    FailsAs sort (.error fault : Except Fault α) := by
  rintro _ ⟨⟩
  exact h

/-- A larger sort of faults allows what a smaller one allows. -/
theorem FailsAs.weaken {other : Fault → Prop} {answer : Except Fault α} (h : FailsAs sort answer)
    (hsort : ∀ fault, sort fault → other fault) : FailsAs other answer :=
  fun fault hfault => hsort fault (h fault hfault)

/-- A sequence fails as its parts do; the second one is only asked about what the first one
answers. -/
theorem FailsAs.bind {x : Except Fault α} {f : α → Except Fault β} (hx : FailsAs sort x)
    (hf : ∀ a, x = .ok a → FailsAs sort (f a)) : FailsAs sort (x >>= f) := by
  cases x with
  | ok a => exact hf a rfl
  | error fault =>
    rintro _ ⟨⟩
    exact hx fault rfl

theorem FailsAs.map {x : Except Fault α} (h : FailsAs sort x) (g : α → β) :
    FailsAs sort (g <$> x) := by
  cases x with
  | ok a => exact failsAs_ok _
  | error fault => exact failsAs_error (h fault rfl)

/-- Faults that were given another wording. -/
theorem failsAs_mapError {ε : Type} {x : Except ε α} {g : ε → Fault}
    (h : ∀ e, x = .error e → sort (g e)) : FailsAs sort (x.mapError g) := by
  cases x with
  | ok a => exact failsAs_ok _
  | error e => exact failsAs_error (h e rfl)

/-- A list is worked through with the faults of its items. -/
theorem failsAs_mapM {f : α → Except Fault β} {as : List α} (h : ∀ a ∈ as, FailsAs sort (f a)) :
    FailsAs sort (as.mapM f) := by
  induction as with
  | nil => exact failsAs_pure _
  | cons a as ih =>
    rw [List.forall_mem_cons] at h
    rw [List.mapM_cons]
    exact h.1.bind fun _ _ => (ih h.2).bind fun _ _ => failsAs_pure _

theorem failsAs_foldlM {f : β → α → Except Fault β} {as : List α}
    (h : ∀ a ∈ as, ∀ b, FailsAs sort (f b a)) (b : β) : FailsAs sort (as.foldlM f b) := by
  induction as generalizing b with
  | nil => exact failsAs_pure _
  | cons a as ih =>
    rw [List.forall_mem_cons] at h
    rw [List.foldlM_cons]
    exact (h.1 b).bind fun _ _ => ih h.2 _

/-- A check in front of an answer. -/
theorem FailsAs.check {fails : Prop} [Decidable fails] {fault : Fault} {rest : Except Fault α}
    (hfault : sort fault) (h : FailsAs sort rest) : FailsAs sort (do
      if fails then throw fault
      rest) := by
  split
  · exact (failsAs_error hfault).bind fun _ h => by cases h
  · exact h

end Answers

/-! ### Steps -/

/-- A step that starts in state `s` does not fail with a fault of kind `internal`. -/
def BlamelessFrom (step : ExceptT Fault (StateM σ) α) (s : σ) : Prop :=
  ∀ fault t, Fails step s fault t → fault.kind ≠ .internal

variable {s : σ}

theorem blamelessFrom_pure (a : α) (s : σ) :
    BlamelessFrom (pure a : ExceptT Fault (StateM σ) α) s :=
  fun _ _ h => absurd h fails_pure

theorem blamelessFrom_throw {fault : Fault} (h : fault.kind ≠ .internal) (s : σ) :
    BlamelessFrom (throw fault : ExceptT Fault (StateM σ) α) s := by
  intro _ _ hfails
  obtain ⟨rfl, -⟩ := fails_throw.mp hfails
  exact h

/-- A step that yields is not to blame for anything. -/
theorem Yields.blamelessFrom {step : ExceptT Fault (StateM σ) α} {a : α} {t : σ}
    (h : Yields step s a t) : BlamelessFrom step s :=
  fun _ _ hfails => absurd hfails h.not_fails

theorem FailsAs.from {answer : Except Fault α} (h : Blameless answer) (s : σ) :
    BlamelessFrom (ExceptT.mk (pure answer)) s := by
  intro fault _ hfails
  exact h fault (fails_of_answer.mp hfails).1

theorem FailsAs.ofExcept {answer : Except Fault α} (h : Blameless answer) (s : σ) :
    BlamelessFrom (ofExcept answer : ExceptT Fault (StateM σ) α) s := by
  rcases answer with fault | a
  · exact blamelessFrom_throw (h fault rfl) s
  · exact blamelessFrom_pure a s

/-- A sequence is blameless if its second part is, in every state and on every answer that the first
part leaves behind. -/
theorem BlamelessFrom.bind {x : ExceptT Fault (StateM σ) α} {f : α → ExceptT Fault (StateM σ) β}
    (hx : BlamelessFrom x s) (hf : ∀ a t, Yields x s a t → BlamelessFrom (f a) t) :
    BlamelessFrom (x >>= f) s := by
  intro fault u hfails
  rcases fails_bind.mp hfails with h | ⟨a, t, hy, h⟩
  · exact hx fault u h
  · exact hf a t hy fault u h

theorem BlamelessFrom.map {x : ExceptT Fault (StateM σ) α} (h : BlamelessFrom x s) (g : α → β) :
    BlamelessFrom (g <$> x) s := by
  rw [map_eq_pure_bind]
  exact h.bind fun _ _ _ => blamelessFrom_pure _ _

theorem blamelessFrom_get_bind {f : σ → ExceptT Fault (StateM σ) β} (h : BlamelessFrom (f s) s) :
    BlamelessFrom (get >>= f) s :=
  fun fault u hfails => h fault u (fails_get_bind.mp hfails)

theorem blamelessFrom_set (s s' : σ) :
    BlamelessFrom (set s' : ExceptT Fault (StateM σ) PUnit) s :=
  fun _ _ h => absurd h fails_set

theorem blamelessFrom_modify (g : σ → σ) (s : σ) :
    BlamelessFrom (modify g : ExceptT Fault (StateM σ) PUnit) s :=
  fun _ _ h => absurd h (Yields.not_fails (a := ⟨⟩) (yields_modify.mpr rfl))

/-- Steps for the elements of a list, each of them blameless in any state. -/
theorem blamelessFrom_mapM {f : α → ExceptT Fault (StateM σ) β} {as : List α}
    (h : ∀ a ∈ as, ∀ s, BlamelessFrom (f a) s) (s : σ) : BlamelessFrom (as.mapM f) s := by
  induction as generalizing s with
  | nil =>
    rw [List.mapM_nil]
    exact blamelessFrom_pure _ _
  | cons a as ih =>
    rw [List.forall_mem_cons] at h
    rw [List.mapM_cons]
    exact (h.1 s).bind fun _ t _ => (ih h.2 t).bind fun _ _ _ => blamelessFrom_pure _ _

/-! ### Readers -/

/-- What can be wrong with bytes that are read: they break the rules of the format, other than by a
branch of a program that leads nowhere, or they have something in them that is not handled. -/
def Fault.IsOfBytes : Fault → Prop
  | .malformed (.unboundBranch _ _ _) | .malformed .missingSwitchTarget => False
  | .malformed _ | .unsupported _ => True
  | _ => False

/-- What is wrong with some bytes is no internal fault. -/
theorem Fault.IsOfBytes.kind {fault : Fault} (h : fault.IsOfBytes) : fault.kind ≠ .internal := by
  intro hkind
  cases fault with
  | internal cause => exact h
  | _ => cases hkind

/-- An answer that is not there for what is wrong with some bytes. -/
abbrev Legible (answer : Except Fault α) : Prop :=
  FailsAs Fault.IsOfBytes answer

/-- Bytes that are read may be at fault, but not the one who reads them. -/
theorem FailsAs.blameless {answer : Except Fault α} (h : Legible answer) : Blameless answer :=
  h.weaken fun _ => Fault.IsOfBytes.kind

namespace Read

/-- A reader only fails for what is wrong with the bytes. -/
def Upright (r : Read α) : Prop :=
  ∀ c, Legible (r c)

theorem upright_pure (a : α) : Upright (pure a) :=
  fun _ => failsAs_ok _

/-- Reading one thing after another only blames the bytes if reading each of them does. -/
theorem Upright.bind {x : Read α} {f : α → Read β} (hx : Upright x)
    (hf : ∀ a, Upright (f a)) : Upright (x >>= f) :=
  fun c => (hx c).bind fun p _ => hf p.1 p.2

theorem upright_throw {fault : Fault} (h : fault.IsOfBytes) :
    Upright (throw fault : Read α) :=
  fun _ => failsAs_error h

/-- A refusal that has to do with the bytes blames nothing else. -/
theorem upright_malformed {cause : Malformation} (h : (Fault.malformed cause).IsOfBytes) :
    Upright (malformed cause : Read α) :=
  upright_throw h

theorem upright_lift {answer : Except Fault α} (h : Legible answer) :
    Upright (lift answer) :=
  fun _ => h.bind fun _ _ => failsAs_ok _

theorem upright_cursor : Upright cursor :=
  fun _ => failsAs_ok _

/-- Too few bytes are a fault of the bytes. -/
theorem upright_take (n : Nat) (field : String) : Upright (take n field) := by
  intro c
  unfold take
  dsimp only
  split
  · exact failsAs_ok _
  · exact failsAs_error trivial

theorem upright_skip (n : Nat) (field : String) : Upright (skip n field) :=
  (upright_take n field).bind fun _ => upright_pure _

theorem upright_u1 (field : String) : Upright (u1 field) :=
  (upright_take 1 field).bind fun _ => upright_pure _

theorem upright_u2 (field : String) : Upright (u2 field) :=
  (upright_take 2 field).bind fun _ => upright_pure _

theorem upright_u4 (field : String) : Upright (u4 field) :=
  (upright_take 4 field).bind fun _ => upright_pure _

theorem upright_u8 (field : String) : Upright (u8 field) :=
  (upright_take 8 field).bind fun _ => upright_pure _

theorem upright_i1 (field : String) : Upright (i1 field) :=
  (upright_u1 field).bind fun _ => upright_pure _

theorem upright_i2 (field : String) : Upright (i2 field) :=
  (upright_u2 field).bind fun _ => upright_pure _

theorem upright_i4 (field : String) : Upright (i4 field) :=
  (upright_u4 field).bind fun _ => upright_pure _

/-- Reading many values only blames the bytes if reading one does. -/
theorem upright_many {r : Read α} (h : Upright r) (n : Nat) : Upright (many n r) := by
  induction n with
  | zero => exact upright_pure _
  | succ n ih => exact h.bind fun _ => ih.bind fun _ => upright_pure _

/-- A check in front of a reader. -/
theorem Upright.checkThat {fails : Prop} [Decidable fails] {fault : Fault} {rest : Read α}
    (hfault : fault.IsOfBytes) (h : Upright rest) : Upright (do
      if fails then throw fault
      rest) := by
  split
  · exact (upright_throw hfault).bind fun _ => h
  · exact h

/-- A check in front of a reader, for what breaks the rules of the format. -/
theorem Upright.check {fails : Prop} [Decidable fails] {cause : Malformation} {rest : Read α}
    (hcause : (Fault.malformed cause).IsOfBytes) (h : Upright rest) : Upright (do
      if fails then malformed cause
      rest) :=
  .checkThat hcause h

/-- A whole file is read with the faults of its reader. -/
theorem legible_runOn {r : Read α} (h : Upright r) (bytes : Bytes) :
    Legible (runOn r bytes) :=
  (h _).map _

end Read

/-! ### Counts -/

theorem blameless_countU2 (count : Nat) (what : String) : Blameless (countU2 count what) := by
  unfold countU2
  split
  · exact failsAs_ok _
  · exact failsAs_error nofun

theorem blameless_lengthU4 (length : Nat) (what : String) : Blameless (lengthU4 length what) := by
  unfold lengthU4
  split
  · exact failsAs_ok _
  · exact failsAs_error nofun

end RoundingPatch
