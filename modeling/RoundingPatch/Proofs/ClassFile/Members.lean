import RoundingPatch.Proofs.ClassFile.Method.Decoded
/-!
# Reading members

A member keeps the bytes it is read from (`spanned`). These bytes read as the same member wherever
they stand and with any larger pool (`gives_reread`), and the pool has the names in the member
(`gives_readMember`).
-/

namespace RoundingPatch

namespace Read

variable {α : Type} {r s : Read α} {bytes : Bytes} {a : α}

/-- Reads a value together with the bytes it stands in. -/
def spanned (r : Read α) : Read (α × Bytes) := do
  let start ← cursor
  let a ← r
  let stop ← cursor
  return (a, start.upTo stop)

/-- A reader that keeps its bytes keeps those between the two cursors. -/
theorem spanned_eq_ok {c c' : Cursor} {p : α × Bytes} :
    spanned r c = .ok (p, c') ↔ r c = .ok (p.1, c') ∧ p.2 = c.upTo c' := by
  unfold spanned
  rw [cursor_bind, bind_eq_ok]
  constructor
  · rintro ⟨a, c1, hr, h⟩
    rw [cursor_bind] at h
    obtain ⟨rfl, rfl⟩ := pure_eq_ok.mp h
    exact ⟨hr, rfl⟩
  · rintro ⟨hr, hp⟩
    refine ⟨p.1, c', hr, ?_⟩
    rw [cursor_bind]
    exact pure_eq_ok.mpr ⟨Prod.ext rfl hp.symm, rfl⟩

/-- The bytes kept are the ones that were read. -/
theorem reads_spanned (h : Reads r bytes a) : Reads (spanned r) bytes (a, bytes) := by
  intro pos tail
  rw [spanned_eq_ok]
  exact ⟨h pos tail, (Cursor.upTo_append pos bytes tail tail 0 0).symm⟩

end Read

namespace ClassFile

open Read

variable {α : Type} {r s : Read α} {bytes : Bytes} {a : α} {f : Fault → Fault}

/-! ### Readers with other faults -/

/-- Telling a failure otherwise changes no answer. -/
theorem relabel_eq_ok {c c' : Cursor} : relabel f r c = .ok (a, c') ↔ r c = .ok (a, c') := by
  unfold relabel
  rcases r c with fault | p <;> simp

theorem reads_relabel (h : Reads r bytes a) : Reads (relabel f r) bytes a :=
  fun pos tail => relabel_eq_ok.mpr (h pos tail)

theorem carries_relabel {f' : Fault → Fault} (h : Carries r s) :
    Carries (relabel f r) (relabel f' s) := by
  intro c a c' hgap hr
  obtain ⟨bytes, hrest, hc, hread⟩ := h c a c' hgap (relabel_eq_ok.mp hr)
  exact ⟨bytes, hrest, hc, reads_relabel hread⟩

theorem gives_relabel {p : α → Prop} (h : Gives r p) : Gives (relabel f r) p :=
  fun c a c' hgap hr => h c a c' hgap (relabel_eq_ok.mp hr)

/-! ### Attributes -/

variable {pool larger : ConstantPool} {what : String}

theorem carries_readAttributes (hp : larger.Extends pool) :
    Carries (readAttributes pool) (readAttributes larger) := by
  have hattr : Carries (readAttribute pool) (readAttribute larger) :=
    (carries_u2 _).bind fun _ => (carries_lift fun _ h => hp.utf8 h).bind fun _ =>
      (carries_u4 _).bind fun _ => (carries_take _ _).bind fun _ => carries_pure _
  exact (carries_u2 _).bind fun _ => carries_many hattr _

/-! ### Members -/

/-- What a member is read as, its bytes apart. -/
def readParts (pool : ConstantPool) (what : String) :
    Read (Access × String × String × List RawAttribute) := do
  let access ← Read.u2 "access_flags"
  let name ← Read.lift (pool.utf8 (← Read.u2 "name_index"))
  let descriptor ← Read.lift (pool.utf8 (← Read.u2 "descriptor_index"))
  let attributes ← relabel
    (fun fault => .malformed (.inMember what name descriptor fault.message))
    (readAttributes pool)
  return (access, name, descriptor, attributes)

/-- A member with its bytes. -/
def Member.ofParts (p : (Access × String × String × List RawAttribute) × Bytes) : Member :=
  ⟨p.1.1, p.1.2.1, p.1.2.2.1, p.2, p.1.2.2.2⟩

/-- A member is its parts and the bytes they were read off. -/
theorem readMember_eq :
    readMember pool what = (do let p ← spanned (readParts pool what); pure (Member.ofParts p)) := by
  unfold readMember spanned readParts
  simp only [bind_assoc, pure_bind]
  rfl

theorem carries_readParts (hp : larger.Extends pool) :
    Carries (readParts pool what) (readParts larger what) :=
  (carries_u2 _).bind fun _ => (carries_u2 _).bind fun _ => (carries_lift fun _ h => hp.utf8 h).bind
    fun _ => (carries_u2 _).bind fun _ => (carries_lift fun _ h => hp.utf8 h).bind fun _ =>
      (carries_relabel (carries_readAttributes hp)).bind fun _ => carries_pure _

/-- A member reads back by its parts. -/
theorem reads_readMember {p : Access × String × String × List RawAttribute}
    (h : Reads (readParts pool what) bytes p) :
    Reads (readMember pool what) bytes (Member.ofParts (p, bytes)) := by
  rw [readMember_eq]
  exact (reads_spanned h).map Member.ofParts

/-- A member is read from its bytes. -/
theorem spells_readMember : Spells (readMember pool what) fun m bytes => bytes = m.raw := by
  intro c m c' hgap hr
  rw [readMember_eq] at hr
  obtain ⟨p, c1, hspanned, hpure⟩ := Read.bind_eq_ok.mp hr
  obtain ⟨rfl, rfl⟩ := pure_eq_ok.mp hpure
  obtain ⟨hparts, hraw⟩ := spanned_eq_ok.mp hspanned
  obtain ⟨bytes, hrest, hc, -⟩ :=
    carries_readParts (ConstantPool.Extends.refl pool) c p.1 c1 hgap hparts
  refine ⟨bytes, hrest, hc, ?_⟩
  show bytes = p.2
  rw [hraw, hc]
  rcases c with ⟨pos, rest, gap⟩
  dsimp only at hrest
  rw [hrest]
  exact (Cursor.upTo_append pos bytes c1.rest c1.rest gap 0).symm

/-- **The bytes of a member** read as this member with any larger pool. -/
theorem gives_reread (hp : larger.Extends pool) :
    Gives (readMember pool what) fun m => Reads (readMember larger what) m.raw m := by
  intro c m c' hgap hr
  obtain ⟨bytes, hrest, hc, rfl⟩ := spells_readMember c m c' hgap hr
  refine ⟨?_, m.raw, hrest, hc⟩
  rw [readMember_eq] at hr
  obtain ⟨p, c1, hspanned, hpure⟩ := Read.bind_eq_ok.mp hr
  obtain ⟨rfl, rfl⟩ := pure_eq_ok.mp hpure
  obtain ⟨bytes, hrest', -, hread⟩ :=
    carries_readParts hp c p.1 c1 hgap (spanned_eq_ok.mp hspanned).1
  obtain rfl : bytes = p.2 := List.append_cancel_right (hrest'.symm.trans hrest)
  exact reads_readMember hread

/-- **A member that is read has its names in the pool.** -/
theorem gives_readMember : Gives (readMember pool what) (Member.Named pool) := by
  unfold readMember
  refine gives_cursor_bind fun start => (gives_u2 _).bind fun access _ =>
    (gives_u2 _).bind fun _ _ =>
    (gives_lift fun _ h => h).bind fun name hname => (gives_u2 _).bind fun _ _ =>
    (gives_lift fun _ h => h).bind fun descriptor hdescriptor =>
    (gives_relabel Body.gives_readAttributes).bind fun attributes hattributes =>
    gives_cursor_bind fun stop => gives_pure ?_
  exact ⟨(ConstantPool.supplies_utf8 hname).utf8, (ConstantPool.supplies_utf8 hdescriptor).utf8,
    fun a ha => (hattributes a ha).utf8⟩

end ClassFile

end RoundingPatch
