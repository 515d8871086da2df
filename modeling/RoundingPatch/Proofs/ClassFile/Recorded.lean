import RoundingPatch.Proofs.ClassFile.Construction
import RoundingPatch.Proofs.ClassFile.Reencode
/-!
# Classes that are written are read

Of the calls that build a class, some succeed and some fail. A record (`ClassRecord`) keeps what the
calls that succeed ask for: the header, how the members are declared, and the attributes. Each call
keeps the draft and the record in step (`Recorded.call`), so after any number of calls the members
of the draft read back as recorded (`Recorded.after`). Hence whatever bytes a draft is written as
are those of a class file with exactly what was recorded (`parse_after`).
-/

namespace RoundingPatch.ClassFile

open Read ClassDraft

/-! ### Records -/

/-- What a class consists of, as far as its members are declared. -/
structure ClassRecord where
  header : Header
  /-- The access flags, the names and the descriptors of the fields. -/
  fields : List (Access × String × String) := []
  /-- The access flags, the names and the descriptors of the methods. -/
  methods : List (Access × String × String) := []
  attributes : List RawAttribute := []
  deriving DecidableEq

/-- What a class file consists of. -/
def record (c : ClassFile) : ClassRecord where
  header := c.header
  fields := c.fields.map Member.signature
  methods := c.methods.map Member.signature
  attributes := c.attributes

/-- What a call asks for is entered into the record. -/
def DraftCall.enter (r : ClassRecord) : DraftCall → ClassRecord
  | header h => { r with header := h }
  | addField access name descriptor => { r with fields := r.fields ++ [(access, name, descriptor)] }
  | commit m => { r with methods := r.methods ++ [(m.access, m.name, m.descriptor)] }
  | addAttribute attr => { r with attributes := r.attributes ++ [attr] }
  | request _ => r
  | copyField _ m => { r with fields := r.fields ++ [m.signature] }
  | copyMethod _ m => { r with methods := r.methods ++ [m.signature] }

/-- The record of some calls: those that succeed are entered, one after the other. -/
def ClassDraft.recorded (draft : ClassDraft) (r : ClassRecord) : List DraftCall → ClassRecord
  | [] => r
  | call :: calls =>
    match call.steps.run draft with
    | (.ok _, next) => next.recorded (call.enter r) calls
    | (.error _, next) => next.recorded r calls

/-- A call that copies a member copies one of the class file that the draft started from. -/
def DraftCall.CopiesFrom (source : Option ClassFile) : DraftCall → Prop
  | copyField pool m => ∀ c ∈ source, pool = c.pool ∧ m ∈ c.fields
  | copyMethod pool m => ∀ c ∈ source, pool = c.pool ∧ m ∈ c.methods
  | _ => True

theorem DraftCall.CopiesFrom.native {source : Option ClassFile} {call : DraftCall}
    (hsource : ∀ c ∈ source, c.WellRead) (h : call.CopiesFrom source) :
    call.Native (source.map (·.pool)) := by
  cases call with
  | copyField pool m =>
    intro old hold larger hlarger
    obtain ⟨c, hc, rfl⟩ := Option.mem_map.mp hold
    exact (hsource c hc).fields m (h c hc).2 larger hlarger
  | copyMethod pool m =>
    intro old hold larger hlarger
    obtain ⟨c, hc, rfl⟩ := Option.mem_map.mp hold
    exact (hsource c hc).methods m (h c hc).2 larger hlarger
  | header | addField | commit | addAttribute | request => trivial

/-! ### What calls keep -/

variable {seed : Option ConstantPool} {draft next : ClassDraft} {r : ClassRecord}
  {call : DraftCall} {calls : List DraftCall} {pool : ConstantPool} {b c : PoolBuilder}
  {what : String} {pieces : Array Bytes} {piece : Bytes} {declared : Access × String × String}
  {signatures : List (Access × String × String)}

/-- Members that read back, as they are declared, with every pool that suits `b`. -/
def ReadAs (seed : Option ConstantPool) (b : PoolBuilder) (what : String) (pieces : Array Bytes)
    (signatures : List (Access × String × String)) : Prop :=
  List.Forall₂ (fun bytes signature => ReadsWith seed b what bytes fun m => m.signature = signature)
    pieces.toList signatures

/-- Members that are read with the pools of a builder are read with those of a later one. -/
theorem ReadAs.of_grows (h : ReadAs seed b what pieces signatures)
    (hg : b.Grows (fun _ => True) c) : ReadAs seed c what pieces signatures :=
  h.imp fun _ _ h => h.of_grows hg

/-- One more member is read as it was declared. -/
theorem ReadAs.push (h : ReadAs seed b what pieces signatures)
    (hpiece : ReadsWith seed b what piece fun m => m.signature = declared) :
    ReadAs seed b what (pieces.push piece) (signatures ++ [declared]) := by
  rw [ReadAs, Array.toList_push]
  exact List.rel_append h (.cons hpiece .nil)

/-- The draft and the record are in step. -/
structure Recorded (seed : Option ConstantPool) (draft : ClassDraft) (r : ClassRecord) : Prop where
  framed : Framed seed draft
  header : draft.header = r.header
  fields : ReadAs seed draft.pool "field" draft.fields r.fields
  methods : ReadAs seed draft.pool "method" draft.methods r.methods
  attributes : draft.attributes.toList = r.attributes

theorem recorded_start {header : Header} :
    Recorded seed (.start header seed) { header } where
  framed := framed_start
  header := rfl
  fields := .nil
  methods := .nil
  attributes := rfl

/-- A call that fails changes nothing that is recorded. -/
theorem Recorded.leaves (h : Recorded seed draft r) (hnext : Leaves draft next) :
    Recorded seed next r := by
  have hframed := h.framed.advances hnext.advances
  obtain ⟨pool, keys, hpool, -, rfl⟩ := hnext
  exact ⟨hframed, h.header, h.fields.of_grows hpool, h.methods.of_grows hpool, h.attributes⟩

/-- A call that fails leaves the class as it was, apart from its pool. -/
theorem leaves_of_fails {fault : Fault} (h : Fails call.steps draft fault next) :
    Leaves draft next := by
  cases call with
  | header | addAttribute => exact absurd h fails_modify
  | addField access name descriptor => exact fails_addField h
  | commit m =>
    rcases fails_bind.mp h with h | ⟨_, _, _, h⟩
    · exact fails_commit h
    · exact absurd h fails_pure
  | request req =>
    rcases fails_bind.mp h with h | ⟨_, _, _, h⟩
    · obtain ⟨b, hstep, rfl⟩ := fails_pooling h
      have hgrows := req.grows_step draft.pool
      rw [show req.step.run draft.pool = _ from hstep] at hgrows
      exact leaves_pool hgrows
    · exact absurd h fails_pure
  | copyField pool m => exact fails_copyField h
  | copyMethod pool m => exact fails_copyMethod h

/-- **A call that succeeds** does what is entered into the record. -/
theorem Recorded.enter {u : Unit} (h : Recorded seed draft r) (hcall : call.Native seed)
    (hy : Yields call.steps draft u next) : Recorded seed next (call.enter r) := by
  have hadvances : Advances seed draft (call.steps.run draft).2 := advances_call h.framed.pool hcall
  rw [show call.steps.run draft = _ from hy] at hadvances
  have hframed := h.framed.advances hadvances
  -- Members written earlier were read with a smaller pool, and they still are.
  have hgrows := hadvances.grows
  have hfields := h.fields.of_grows hgrows
  have hmethods := h.methods.of_grows hgrows
  cases call with
  | header header =>
    cases yields_modify.mp hy
    exact ⟨hframed, rfl, hfields, hmethods, h.attributes⟩
  | addAttribute attr =>
    cases yields_modify.mp hy
    refine ⟨hframed, h.header, hfields, hmethods, ?_⟩
    rw [Array.toList_push, h.attributes]
    rfl
  | request req =>
    obtain ⟨_, _, hstep, hu⟩ := yields_bind.mp hy
    obtain ⟨-, rfl⟩ := yields_pure.mp hu
    obtain ⟨b, -, rfl⟩ := yields_pooling.mp hstep
    exact ⟨hframed, h.header, hfields, hmethods, h.attributes⟩
  | addField access name descriptor =>
    obtain ⟨b, bytes, keys, -, hreads, rfl⟩ := @reads_addField seed _ _ _ _ _ _ hy
    exact ⟨hframed, h.header, hfields.push hreads, hmethods, h.attributes⟩
  | commit m =>
    obtain ⟨_, _, hcommit, hu⟩ := yields_bind.mp hy
    obtain ⟨-, rfl⟩ := yields_pure.mp hu
    obtain ⟨-, b, bytes, -, hreads, rfl⟩ := @reads_commit seed _ _ _ _ hcommit
    exact ⟨hframed, h.header, hfields, hmethods.push hreads, h.attributes⟩
  | copyField pool m =>
    -- A member can be copied only from the pool that the draft was seeded with.
    obtain ⟨horigin, rfl⟩ := yields_copyField.mp hy
    obtain ⟨old, rfl⟩ := exists_seed_of_origin h.framed.pool horigin
    have hreads : ReadsWith (some old) draft.pool "field" m.raw fun n =>
      n.signature = m.signature :=
      fun larger hlarger => ⟨m, hcall old rfl larger (hlarger.seeded old rfl), rfl⟩
    exact ⟨hframed, h.header, hfields.push hreads, hmethods, h.attributes⟩
  | copyMethod pool m =>
    obtain ⟨horigin, -, rfl⟩ := yields_copyMethod.mp hy
    obtain ⟨old, rfl⟩ := exists_seed_of_origin h.framed.pool horigin
    have hreads : ReadsWith (some old) draft.pool "method" m.raw fun n =>
      n.signature = m.signature :=
      fun larger hlarger => ⟨m, hcall old rfl larger (hlarger.seeded old rfl), rfl⟩
    exact ⟨hframed, h.header, hfields, hmethods.push hreads, h.attributes⟩

/-- **Any number of calls** keeps the draft and the record in step. -/
theorem Recorded.after (h : Recorded seed draft r) (hcalls : ∀ call ∈ calls, call.Native seed) :
    Recorded seed (draft.after calls) (draft.recorded r calls) := by
  induction calls generalizing draft r with
  | nil => exact h
  | cons call calls ih =>
    rw [List.forall_mem_cons] at hcalls
    rw [ClassDraft.after, List.foldl_cons, ← ClassDraft.after, ClassDraft.recorded]
    rcases yields_or_fails call.steps draft with ⟨u, next, hy⟩ | ⟨fault, next, hf⟩
    · rw [show call.steps.run draft = _ from hy]
      exact ih (h.enter hcalls.1 hy) hcalls.2
    · rw [show call.steps.run draft = _ from hf]
      exact ih (h.leaves (leaves_of_fails hf)) hcalls.2

/-! ### Reading what was recorded -/

/-- Members are declared as recorded. -/
theorem ReadAs.signatures_eq {members : List Member} (h : ReadAs seed b what pieces signatures)
    (hsuits : Suits seed b pool)
    (hreads : List.Forall₂ (fun bytes m => Reads (readMember pool what) bytes m) pieces.toList
      members) : members.map Member.signature = signatures := by
  unfold ReadAs at h
  generalize pieces.toList = pieces at h hreads
  induction h generalizing members with
  | nil =>
    cases hreads
    rfl
  | cons hm _ ih =>
    cases hreads with
    | cons hread hrest =>
      obtain ⟨m, hread', hsignature⟩ := hm pool hsuits
      rw [List.map_cons, ih hrest, reads_unique hread hread', hsignature]

/-- **Every class that is written is read**, with what was recorded: whatever is called on the
draft, and whichever calls fail, the bytes that come out are those of a class file with the last
header, with the members that were added, committed or copied, in order, and with the attributes. -/
theorem parse_after {source : Option ClassFile} {header : Header} {bytes : Bytes}
    (hsource : ∀ c ∈ source, ∃ read, parse read = .ok c)
    (hcalls : ∀ call ∈ calls, call.CopiesFrom source) :
    let start := ClassDraft.start header (source.map (·.pool))
    let expected := start.recorded { header } calls
    45 ≤ expected.header.major → expected.header.major ≤ 69 →
      (start.after calls).toBytes = .ok bytes →
      ∃ c, parse bytes = .ok c ∧ c.record = expected := by
  intro start expected hlow hhigh hbytes
  have hwell : ∀ c ∈ source, c.WellRead := fun c hc =>
    (hsource c hc).elim fun _ h => wellRead_of_parse h
  -- The record follows the draft call by call, failed ones included.
  have hrecorded : Recorded (source.map (·.pool)) (start.after calls) expected :=
    recorded_start.after fun call hcall => (hcalls call hcall).native hwell
  have hversion : isKnownVersion (start.after calls).header.major = true := by
    rw [hrecorded.header]
    simp [isKnownVersion, hlow, hhigh]
  have hseed : ∀ old ∈ source.map (·.pool), PoolBuilder.WasRead old := by
    intro old hold
    obtain ⟨c, hc, rfl⟩ := Option.mem_map.mp hold
    exact (hwell c hc).pool
  obtain ⟨c, hparse, hheader, hattributes, hsuits, -, hfields, hmethods⟩ :=
    hrecorded.framed.parse_toBytes hseed hbytes hversion
  refine ⟨c, hparse, ?_⟩
  rw [record, hheader, hattributes, hrecorded.header, hrecorded.attributes,
    hrecorded.fields.signatures_eq hsuits hfields, hrecorded.methods.signatures_eq hsuits hmethods]

/-- A method that does nothing. -/
def nothing : MethodSource where
  access := 9
  name := "g"
  descriptor := "()V"
  events := [.code 0 0, .insn (.simple Opcode.vreturn)]

/-- Calls that copy every method of a class file twice, and add a field twice. The second time
fails. -/
def doubled (c : ClassFile) : List DraftCall :=
  .header { c.header with access := 0x31 } ::
    (c.methods ++ c.methods).map (.copyMethod c.pool) ++
    [.addField 2 "n" "I", .addField 2 "n" "I", .addAttribute ⟨"Deprecated", []⟩, .commit nothing,
      .commit nothing]

/-- What they leave. -/
def onceEach : ClassRecord where
  header := ⟨0, 52, 0x31, "T", none, []⟩
  fields := [(2, "n", "I")]
  methods := [(8, "f", "()V"), (9, "g", "()V")]
  attributes := [⟨"Deprecated", []⟩]

set_option maxRecDepth 20000 in
/-- Doubled calls leave every member once. -/
theorem parse_after_doubled : ∃ c bytes c', parse shortLoop = .ok c ∧
    ((ClassDraft.start c.header (some c.pool)).after (doubled c)).toBytes = .ok bytes ∧
    parse bytes = .ok c' ∧ c'.record = onceEach := by
  have hrun : (do
      let c ← parse shortLoop
      let _ ← ((ClassDraft.start c.header (some c.pool)).after (doubled c)).toBytes
      pure ((ClassDraft.start c.header (some c.pool)).recorded { header := c.header } (doubled c)))
      = .ok onceEach := by
    decide +kernel
  obtain ⟨c, hparse, h⟩ := except_bind_eq_ok.mp hrun
  obtain ⟨bytes, hbytes, h⟩ := except_bind_eq_ok.mp h
  have hrecorded := Except.ok.inj h
  -- Every copy is one of a member of the class itself.
  have hcalls : ∀ call ∈ doubled c, call.CopiesFrom (some c) := by
    have hcopies : ∀ m ∈ c.methods, (DraftCall.copyMethod c.pool m).CopiesFrom (some c) := by
      rintro m hm _ ⟨⟩
      exact ⟨rfl, hm⟩
    simp only [doubled, List.cons_append, List.forall_mem_cons, List.forall_mem_append,
      List.forall_mem_map, List.not_mem_nil, false_imp_iff, implies_true, and_true]
    exact ⟨trivial, ⟨hcopies, hcopies⟩, trivial, trivial, trivial, trivial, trivial⟩
  obtain ⟨c', hparse', hrecord⟩ := @parse_after (doubled c) (some c) c.header bytes
    (by rintro _ ⟨⟩; exact ⟨_, hparse⟩) hcalls (by rw [Option.map_some, hrecorded]; decide)
    (by rw [Option.map_some, hrecorded]; decide) hbytes
  exact ⟨c, bytes, c', hparse, hbytes, hparse', hrecord.trans hrecorded⟩

end RoundingPatch.ClassFile
