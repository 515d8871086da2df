import RoundingPatch.Proofs.Yields
/-!
# Steps that fail

`Fails step s fault t` says that `step`, started in state `s`, fails with `fault` and leaves state
`t`. Every step either yields something or fails (`yields_or_fails`), and a sequence of steps fails
where its first failing step does (`fails_bind`).
-/

namespace RoundingPatch

variable {σ α β : Type}

/-- `step` fails with `fault` and leaves state `t` if it starts in state `s`. -/
def Fails (step : ExceptT Fault (StateM σ) α) (s : σ) (fault : Fault) (t : σ) : Prop :=
  step.run s = (.error fault, t)

/-- A step ends one way or the other. -/
theorem yields_or_fails (step : ExceptT Fault (StateM σ) α) (s : σ) :
    (∃ a t, Yields step s a t) ∨ ∃ fault t, Fails step s fault t := by
  rcases h : step.run s with ⟨fault | a, t⟩
  · exact .inr ⟨fault, t, h⟩
  · exact .inl ⟨a, t, h⟩

/-- A step that yields does not fail. -/
theorem Yields.not_fails {step : ExceptT Fault (StateM σ) α} {s t t' : σ} {a : α} {fault : Fault}
    (h : Yields step s a t) : ¬ Fails step s fault t' := by
  intro h'
  rw [Fails, show step.run s = _ from h] at h'
  cases h'

theorem fails_pure {a : α} {s t : σ} {fault : Fault} :
    ¬ Fails (pure a : ExceptT Fault (StateM σ) α) s fault t :=
  Yields.not_fails (yields_pure.mpr ⟨rfl, rfl⟩)

/-- An answer that is already there fails if it is a fault, in the state it finds. -/
theorem fails_of_answer {answer : Except Fault α} {s t : σ} {fault : Fault} :
    Fails (ExceptT.mk (pure answer)) s fault t ↔ answer = .error fault ∧ s = t := by
  show (answer, s) = (.error fault, t) ↔ _
  simp

/-- A throw fails with its own fault in the state it finds. -/
theorem fails_throw {f fault : Fault} {s t : σ} :
    Fails (throw f : ExceptT Fault (StateM σ) α) s fault t ↔ f = fault ∧ s = t := by
  show ((Except.error f : Except Fault α), s) = (.error fault, t) ↔ _
  simp

/-- **A sequence fails in its first part, or in its second one** behind an answer of the first. -/
theorem fails_bind {x : ExceptT Fault (StateM σ) α} {f : α → ExceptT Fault (StateM σ) β}
    {s u : σ} {fault : Fault} :
    Fails (x >>= f) s fault u ↔
      Fails x s fault u ∨ ∃ a t, Yields x s a t ∧ Fails (f a) t fault u := by
  unfold Fails Yields
  rw [run_sequence]
  rcases x.run s with ⟨fault' | a, t⟩
  · constructor
    · intro h
      cases h
      exact .inl rfl
    · rintro (h | ⟨_, _, h, _⟩)
      · cases h
        rfl
      · cases h
  · constructor
    · exact fun h => .inr ⟨a, t, rfl, h⟩
    · rintro (h | ⟨_, _, h, hf⟩)
      · cases h
      · cases h
        exact hf

/-- Changing the answer does not change the failure. -/
theorem fails_map {x : ExceptT Fault (StateM σ) α} {g : α → β} {s t : σ} {fault : Fault} :
    Fails (g <$> x) s fault t ↔ Fails x s fault t := by
  rw [← bind_pure_comp, fails_bind]
  constructor
  · rintro (h | ⟨_, _, _, h⟩)
    · exact h
    · exact absurd h fails_pure
  · exact .inl

/-- Looking at the state does not fail. -/
theorem fails_get_bind {f : σ → ExceptT Fault (StateM σ) β} {s t : σ} {fault : Fault} :
    Fails (get >>= f) s fault t ↔ Fails (f s) s fault t := by
  rw [fails_bind]
  constructor
  · rintro (h | ⟨a, s', hs, h⟩)
    · exact absurd h (Yields.not_fails (yields_get.mpr ⟨rfl, rfl⟩))
    · obtain ⟨rfl, rfl⟩ := yields_get.mp hs
      exact h
  · exact fun h => .inr ⟨s, s, yields_get.mpr ⟨rfl, rfl⟩, h⟩

theorem fails_set {s s' t : σ} {fault : Fault} :
    ¬ Fails (set s' : ExceptT Fault (StateM σ) PUnit) s fault t :=
  Yields.not_fails (a := ⟨⟩) (yields_set.mpr rfl)

end RoundingPatch
