import RoundingPatch.Fault
/-!
# Steps that end well

A step on a state answers with a value or a fault and leaves a new state either way. `Yields step s
a t` says that `step`, started in state `s`, answers `a` and leaves state `t`. The lemmas here take
a step apart along its binds (`yields_bind`) and along the lists it goes through
(`yields_mapM_cons`, `yields_forM_cons`). `except_bind_eq_ok` does the same for an answer without a
state.
-/

namespace RoundingPatch

variable {σ α β : Type}

/-- A sequence of answers is one exactly if its first part is and the second part of it is. -/
theorem except_bind_eq_ok {x : Except Fault α} {f : α → Except Fault β} {b : β} :
    (x >>= f) = .ok b ↔ ∃ a, x = .ok a ∧ f a = .ok b := by
  rcases x with fault | a
  · constructor
    · intro h
      cases h
    · rintro ⟨_, h, _⟩
      cases h
  · constructor
    · exact fun h => ⟨a, rfl, h⟩
    · rintro ⟨_, h, hf⟩
      cases h
      exact hf

/-- A sequence goes on where its first step has led, unless that fails. -/
theorem run_sequence (x : ExceptT Fault (StateM σ) α) (f : α → ExceptT Fault (StateM σ) β) (s : σ) :
    (x >>= f).run s = match x.run s with
      | (.ok a, t) => (f a).run t
      | (.error fault, t) => (.error fault, t) := by
  show (ExceptT.bindCont f (x.run s).1) (x.run s).2 = _
  rcases x.run s with ⟨_ | _, _⟩ <;> rfl

/-- `step` answers `a` and leaves state `t` if it starts in state `s`. -/
def Yields (step : ExceptT Fault (StateM σ) α) (s : σ) (a : α) (t : σ) : Prop :=
  step.run s = (.ok a, t)

/-- A step yields one answer and leaves one state behind. -/
theorem Yields.unique {step : ExceptT Fault (StateM σ) α} {s t t' : σ} {a a' : α}
    (h : Yields step s a t) (h' : Yields step s a' t') : a = a' ∧ t = t' := by
  unfold Yields at h h'
  rw [h] at h'
  cases h'
  exact ⟨rfl, rfl⟩

theorem yields_pure {a b : α} {s t : σ} :
    Yields (pure a : ExceptT Fault (StateM σ) α) s b t ↔ a = b ∧ s = t := by
  show (Except.ok a, s) = (.ok b, t) ↔ _
  simp

/-- An answer that is already there leaves the state alone. -/
theorem yields_of_answer {answer : Except Fault α} {a : α} {s t : σ} :
    Yields (ExceptT.mk (pure answer)) s a t ↔ answer = .ok a ∧ s = t := by
  show (answer, s) = (.ok a, t) ↔ _
  simp

/-- A step that throws yields nothing. -/
theorem yields_throw {fault : Fault} {a : α} {s t : σ} :
    ¬ Yields (throw fault : ExceptT Fault (StateM σ) α) s a t := by
  intro h
  have h : (Except.error fault, s) = (.ok a, t) := h
  simp at h

theorem yields_ofExcept {answer : Except Fault α} {a : α} {s t : σ} :
    Yields (ofExcept answer : ExceptT Fault (StateM σ) α) s a t ↔ answer = .ok a ∧ s = t := by
  rcases answer with fault | b
  · constructor
    · exact fun h => absurd h yields_throw
    · rintro ⟨h, _⟩
      cases h
  · rw [show (ofExcept (.ok b) : ExceptT Fault (StateM σ) α) = pure b from rfl, yields_pure]
    simp

/-- **A sequence yields what its parts yield**, one after the other. -/
theorem yields_bind {x : ExceptT Fault (StateM σ) α} {f : α → ExceptT Fault (StateM σ) β}
    {s u : σ} {b : β} :
    Yields (x >>= f) s b u ↔ ∃ a t, Yields x s a t ∧ Yields (f a) t b u := by
  unfold Yields
  rw [run_sequence]
  rcases x.run s with ⟨fault | a, t⟩
  · -- A failed first part yields nothing, and neither does the sequence.
    constructor
    · intro h
      cases h
    · rintro ⟨_, _, h, _⟩
      cases h
  · constructor
    · exact fun h => ⟨a, t, rfl, h⟩
    · rintro ⟨_, _, h, hf⟩
      cases h
      exact hf

/-- Two steps that yield, put in sequence. -/
theorem Yields.bind {x : ExceptT Fault (StateM σ) α} {f : α → ExceptT Fault (StateM σ) β}
    {s t u : σ} {a : α} {b : β} (hx : Yields x s a t) (hf : Yields (f a) t b u) :
    Yields (x >>= f) s b u :=
  yields_bind.mpr ⟨a, t, hx, hf⟩

theorem yields_map {x : ExceptT Fault (StateM σ) α} {g : α → β} {s t : σ} {b : β} :
    Yields (g <$> x) s b t ↔ ∃ a, Yields x s a t ∧ g a = b := by
  rw [← bind_pure_comp, yields_bind]
  constructor
  · rintro ⟨a, t', hx, hb⟩
    obtain ⟨rfl, rfl⟩ := yields_pure.mp hb
    exact ⟨a, hx, rfl⟩
  · rintro ⟨a, hx, rfl⟩
    exact ⟨a, t, hx, yields_pure.mpr ⟨rfl, rfl⟩⟩

theorem yields_get {s t a : σ} :
    Yields (get : ExceptT Fault (StateM σ) σ) s a t ↔ a = s ∧ t = s := by
  show (Except.ok s, s) = (.ok a, t) ↔ _
  simp [eq_comm]

theorem yields_set {s s' t : σ} {u : PUnit} :
    Yields (set s' : ExceptT Fault (StateM σ) PUnit) s u t ↔ t = s' := by
  show (Except.ok PUnit.unit, s') = (.ok u, t) ↔ _
  simp [eq_comm]

theorem yields_modify {g : σ → σ} {s t : σ} {u : PUnit} :
    Yields (modify g : ExceptT Fault (StateM σ) PUnit) s u t ↔ t = g s := by
  show (Except.ok PUnit.unit, g s) = (.ok u, t) ↔ _
  simp [eq_comm]

/-- What comes after the state was read sees the state. -/
theorem yields_get_bind {f : σ → ExceptT Fault (StateM σ) β} {s t : σ} {b : β} :
    Yields (get >>= f) s b t ↔ Yields (f s) s b t := by
  rw [yields_bind]
  constructor
  · rintro ⟨a, s', hs, h⟩
    obtain ⟨rfl, rfl⟩ := yields_get.mp hs
    exact h
  · exact fun h => ⟨s, s, yields_get.mpr ⟨rfl, rfl⟩, h⟩

theorem yields_throw_bind {fault : Fault} {f : α → ExceptT Fault (StateM σ) β} {s t : σ} {b : β} :
    ¬ Yields (throw fault >>= f) s b t := by
  rw [yields_bind]
  rintro ⟨_, _, h, _⟩
  exact yields_throw h

/-! ### Lists -/

theorem yields_mapM_nil {f : α → ExceptT Fault (StateM σ) β} {s t : σ} {bs : List β} :
    Yields ([].mapM f) s bs t ↔ bs = [] ∧ t = s := by
  rw [List.mapM_nil, yields_pure]
  simp [eq_comm]

/-- Working through a list begins with its first item and goes on in the state that it leaves. -/
theorem yields_mapM_cons {f : α → ExceptT Fault (StateM σ) β} {a : α} {as : List α} {s u : σ}
    {bs : List β} :
    Yields ((a :: as).mapM f) s bs u ↔
      ∃ b rest t, bs = b :: rest ∧ Yields (f a) s b t ∧ Yields (as.mapM f) t rest u := by
  rw [List.mapM_cons]
  constructor
  · intro h
    obtain ⟨b, t, hb, h⟩ := yields_bind.mp h
    obtain ⟨rest, u', hrest, h⟩ := yields_bind.mp h
    obtain ⟨rfl, rfl⟩ := yields_pure.mp h
    exact ⟨b, rest, t, rfl, hb, hrest⟩
  · rintro ⟨b, rest, t, rfl, hb, hrest⟩
    exact hb.bind (hrest.bind (yields_pure.mpr ⟨rfl, rfl⟩))

/-- A step that ends well for some items ends well for each of them. -/
theorem exists_yields_of_mapM {f : α → ExceptT Fault (StateM σ) β} {as : List α} {s t : σ}
    {bs : List β} (h : Yields (as.mapM f) s bs t) : ∀ a ∈ as, ∃ s b t, Yields (f a) s b t := by
  induction as generalizing s bs with
  | nil => simp
  | cons a as ih =>
    obtain ⟨b, rest, m, rfl, ha, hrest⟩ := yields_mapM_cons.mp h
    rw [List.forall_mem_cons]
    exact ⟨⟨s, b, m, ha⟩, ih hrest⟩

theorem yields_forM_nil {f : α → ExceptT Fault (StateM σ) PUnit} {s t : σ} {u : PUnit} :
    Yields ([].forM f) s u t ↔ t = s := by
  show Yields (pure PUnit.unit) s u t ↔ _
  rw [yields_pure]
  simp [eq_comm]

/-- The same for steps whose answers are not kept. -/
theorem yields_forM_cons {f : α → ExceptT Fault (StateM σ) PUnit} {a : α} {as : List α} {s u : σ}
    {v : PUnit} :
    Yields ((a :: as).forM f) s v u ↔ ∃ t, Yields (f a) s ⟨⟩ t ∧ Yields (as.forM f) t ⟨⟩ u := by
  show Yields (f a >>= fun _ => as.forM f) s v u ↔ _
  rw [yields_bind]
  constructor
  · rintro ⟨_, t, ha, h⟩
    exact ⟨t, ha, h⟩
  · rintro ⟨t, ha, h⟩
    exact ⟨_, t, ha, h⟩

theorem yields_filterMapM_nil {f : α → ExceptT Fault (StateM σ) (Option β)} {s t : σ}
    {bs : List β} : Yields ([].filterMapM f) s bs t ↔ bs = [] ∧ t = s := by
  rw [List.filterMapM_nil, yields_pure]
  simp [eq_comm]

/-- The same for steps that answer some items only. -/
theorem yields_filterMapM_cons {f : α → ExceptT Fault (StateM σ) (Option β)} {a : α}
    {as : List α} {s u : σ} {bs : List β} :
    Yields ((a :: as).filterMapM f) s bs u ↔
      ∃ b rest t, bs = b.toList ++ rest ∧ Yields (f a) s b t ∧
      Yields (as.filterMapM f) t rest u := by
  rw [List.filterMapM_cons, yields_bind]
  constructor
  · rintro ⟨_ | b, t, ha, h⟩
    · exact ⟨none, bs, t, rfl, ha, h⟩
    · obtain ⟨rest, u', hrest, h⟩ := yields_bind.mp h
      obtain ⟨rfl, rfl⟩ := yields_pure.mp h
      exact ⟨some b, rest, t, rfl, ha, hrest⟩
  · rintro ⟨_ | b, rest, t, rfl, ha, hrest⟩
    · exact ⟨none, t, ha, hrest⟩
    · exact ⟨some b, t, ha, hrest.bind (yields_pure.mpr ⟨rfl, rfl⟩)⟩

/-- Two lists in a row are worked through in a row. -/
theorem yields_filterMapM_append {f : α → ExceptT Fault (StateM σ) (Option β)} {as as' : List α}
    {s u : σ} {bs : List β} :
    Yields ((as ++ as').filterMapM f) s bs u ↔ ∃ bs1 bs2 t, bs = bs1 ++ bs2 ∧
      Yields (as.filterMapM f) s bs1 t ∧ Yields (as'.filterMapM f) t bs2 u := by
  induction as generalizing s bs with
  | nil =>
    simp only [yields_filterMapM_nil, List.nil_append]
    constructor
    · exact fun h => ⟨[], bs, s, rfl, ⟨rfl, rfl⟩, h⟩
    · rintro ⟨_, _, _, rfl, ⟨rfl, rfl⟩, h⟩
      exact h
  | cons a as ih =>
    simp only [List.cons_append, yields_filterMapM_cons, ih]
    constructor
    · rintro ⟨b, _, t, rfl, ha, bs1, bs2, m, rfl, h1, h2⟩
      exact ⟨b.toList ++ bs1, bs2, m, by simp, ⟨b, bs1, t, rfl, ha, h1⟩, h2⟩
    · rintro ⟨_, bs2, m, rfl, ⟨b, bs1, t, rfl, ha, h1⟩, h2⟩
      exact ⟨b, bs1 ++ bs2, t, by simp, ha, bs1, bs2, m, rfl, h1, h2⟩

/-- A fold goes on from what its first step comes to. -/
theorem yields_foldlM_cons {f : β → α → ExceptT Fault (StateM σ) β} {a : α} {as : List α}
    {start last : β} {s u : σ} :
    Yields ((a :: as).foldlM f start) s last u ↔
      ∃ next t, Yields (f start a) s next t ∧ Yields (as.foldlM f next) t last u := by
  rw [List.foldlM_cons, yields_bind]

end RoundingPatch
