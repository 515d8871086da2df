import RoundingPatch.Proofs.ClassFile.Drafting
import RoundingPatch.Proofs.ClassFile.Method.Blameless
/-!
# Construction is blameless

A class is put together without a fault of kind `internal` if the methods that are added are
finishable, no name and descriptor is taken twice and members are only copied from the class that
the draft started from.
-/

namespace RoundingPatch.ClassFile.ClassDraft

variable {α : Type} {draft : ClassDraft}

theorem blamelessFrom_pooling {step : Pooling α} (h : BlamelessFrom step draft.pool) :
    BlamelessFrom (pooling step) draft := by
  intro fault final hfails
  have hfails : ((step.run draft.pool).1, { draft with pool := (step.run draft.pool).2 })
    = (.error fault, final) := hfails
  exact h fault _ (Prod.ext (Prod.mk.inj hfails).1 rfl)

/-- A method that can be finished is added under a name and a descriptor that are free. -/
theorem blamelessFrom_commit {m : MethodSource} (hfresh : (m.name, m.descriptor) ∉ draft.methodKeys)
    (hm : m.Finishable) : BlamelessFrom (commit m) draft := by
  have hkey := yields_takeMethodKey (u := ⟨⟩).mpr ⟨hfresh, rfl⟩
  refine hkey.blamelessFrom.bind fun _ next _ => ?_
  refine (blamelessFrom_pooling (hm.blamelessFrom_finish _)).bind fun _ next _ => ?_
  exact (blamelessFrom_modify _ _).bind fun _ _ _ => blamelessFrom_pure _ _

theorem blamelessFrom_headerRefs (header : Header) (b : PoolBuilder) :
    BlamelessFrom (headerRefs header) b := by
  refine (Pooling.blamelessFrom_classRef b _).bind fun _ c _ => BlamelessFrom.bind ?_ fun _ d _ =>
    (blamelessFrom_mapM (fun _ _ s => Pooling.blamelessFrom_classRef s _) d).bind fun _ _ _ =>
      blamelessFrom_pure _ _
  rcases header.superName with _ | name
  · exact blamelessFrom_pure _ _
  · exact Pooling.blamelessFrom_classRef c _

theorem blameless_assemble (draft : ClassDraft) (pool : PoolBuilder) (refs : HeaderRefs)
    (attributes : List Bytes) : Blameless (draft.assemble pool refs attributes) :=
  (blameless_countU2 _ _).bind fun _ _ => (blameless_countU2 _ _).bind fun _ _ =>
    (blameless_countU2 _ _).bind fun _ _ => (blameless_countU2 _ _).bind fun _ _ =>
    failsAs_ok _

/-- Serializing a draft blames the class that is described, not the writer. -/
theorem blamelessFrom_serialize (b : PoolBuilder) : BlamelessFrom draft.serialize b := by
  rw [serialize_eq]
  refine (blamelessFrom_headerRefs _ b).bind fun refs c _ => blamelessFrom_get_bind
    (Pooling.blamelessFrom_check c (fun _ => by nofun) (BlamelessFrom.bind ?_ fun attributes d _ =>
      blamelessFrom_get_bind (Pooling.blamelessFrom_lift d (blameless_assemble draft _ _ _))))
  exact blamelessFrom_mapM (fun attr _ s => Layout.blamelessFrom_namedAttribute s _ _) c

/-- **Writing a class** fails for no fault of the library if its construction does not. -/
theorem blameless_build {steps : Drafting α} (h : BlamelessFrom steps draft) :
    Blameless (draft.build steps) := by
  intro fault hbuild
  unfold build at hbuild
  rcases hrun : steps.run draft with ⟨cause | a, final⟩
  · rw [hrun] at hbuild
    cases hbuild
    exact h fault final hrun
  · rw [hrun] at hbuild
    exact blamelessFrom_serialize final.pool fault _ (Prod.ext hbuild rfl)

end RoundingPatch.ClassFile.ClassDraft
