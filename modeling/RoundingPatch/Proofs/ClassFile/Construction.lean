import RoundingPatch.Proofs.ClassFile.Assembled
import RoundingPatch.Proofs.ClassFile.Copy
import RoundingPatch.Proofs.ClassFile.Pool.Requests
/-!
# Classes built call by call

A class is built by calls in any order, of which some may fail and leave traces. What a call can do
to the draft is said once (`Advances`, `advances_call`): the pool grows, and either no member is
added, or a field is, or a method whose name and descriptor are not taken. So the members always
read back with the pool that is written in the end (`Framed`, `Framed.advances`), and if the draft
can be written, then the bytes are those of a class file that has them (`Framed.parse_toBytes`).

In particular the bytes of a method that was committed are found in the class file, whatever calls
came before and after it (`exists_found`).
-/

namespace RoundingPatch.ClassFile

open Read ClassDraft

/-! ### Calls -/

/-- A call on a class under construction. -/
inductive DraftCall
  | header (header : Header)
  | addField (access : Access) (name descriptor : String)
  | commit (m : MethodSource)
  | addAttribute (attr : RawAttribute)
  /-- Asks the pool for an index. -/
  | request (r : PoolRequest)
  | copyField (pool : ConstantPool) (m : Member)
  | copyMethod (pool : ConstantPool) (m : Member)

namespace DraftCall

/-- What a call does. -/
def steps : DraftCall → Drafting Unit
  | header h => modify fun draft => { draft with header := h }
  | addField access name descriptor => ClassDraft.addField access name descriptor
  | commit m => do let _ ← ClassDraft.commit m; pure ()
  | addAttribute attr => ClassDraft.addAttribute attr
  | request r => do let _ ← pooling r.step; pure ()
  | copyField pool m => ClassDraft.copyField pool m
  | copyMethod pool m => ClassDraft.copyMethod pool m

/-- A call that copies a member copies one that was read with the pool the draft started from. -/
def Native (seed : Option ConstantPool) : DraftCall → Prop
  | copyField _ m => ∀ old ∈ seed, ∀ larger : ConstantPool, larger.Extends old →
    Reads (readMember larger "field") m.raw m
  | copyMethod _ m => ∀ old ∈ seed, ∀ larger : ConstantPool, larger.Extends old →
    Reads (readMember larger "method") m.raw m
  | _ => True

end DraftCall

/-- A draft without members whose pool starts from `seed`, or from nothing. -/
def ClassDraft.start (header : Header) (seed : Option ConstantPool) : ClassDraft where
  header
  pool := .start seed

/-- The draft after some calls. -/
def ClassDraft.after (draft : ClassDraft) (calls : List DraftCall) : ClassDraft :=
  calls.foldl (fun draft call => (call.steps.run draft).2) draft

/-! ### What a call can do -/

variable {seed : Option ConstantPool} {draft final next : ClassDraft} {pool : ConstantPool}
  {m : MethodSource} {e : Emitted} {bytes : Bytes} {fault : Fault}

/-- A pool that has what builder `b` knows, and all of the pool that `b` started from. -/
structure Suits (seed : Option ConstantPool) (b : PoolBuilder) (pool : ConstantPool) : Prop where
  means : b.Means pool
  seeded : ∀ old ∈ seed, pool.Extends old

/-- A pool that suits a builder suits every earlier one. -/
theorem Suits.of_grows {R : Symbol → Prop} {b c : PoolBuilder} (h : Suits seed c pool)
    (hg : b.Grows R c) : Suits seed b pool :=
  ⟨h.means.of_grows hg, h.seeded⟩

/-- The bytes of a member that are read with every pool that suits `b`. -/
def ReadsWith (seed : Option ConstantPool) (b : PoolBuilder) (what : String) (bytes : Bytes)
    (p : Member → Prop) : Prop :=
  ∀ pool, Suits seed b pool → ∃ m, Reads (readMember pool what) bytes m ∧ p m

/-- Bytes that are read with the pools of one builder are read with those of every later one. -/
theorem ReadsWith.of_grows {R : Symbol → Prop} {b c : PoolBuilder} {what : String}
    {p : Member → Prop} (h : ReadsWith seed b what bytes p) (hg : b.Grows R c) :
    ReadsWith seed c what bytes p :=
  fun pool hpool => h pool (hpool.of_grows hg)

theorem ReadsWith.weaken {b : PoolBuilder} {what : String} {p q : Member → Prop}
    (h : ReadsWith seed b what bytes p) (hpq : ∀ m, p m → q m) : ReadsWith seed b what bytes q :=
  fun pool hpool => (h pool hpool).imp fun m hm => ⟨hm.1, hpq m hm.2⟩

/-- What a member is declared as: its access flags, its name and its descriptor. -/
def Member.signature (m : Member) : Access × String × String :=
  (m.access, m.name, m.descriptor)

theorem key_of_signature {m : Member} {access : Access} {name descriptor : String}
    (h : m.signature = (access, name, descriptor)) : (m.name, m.descriptor) = (name, descriptor) :=
  congrArg Prod.snd h

/-- **What a call can do** to a draft, whether it fails or not. -/
inductive Advances (seed : Option ConstantPool) (draft : ClassDraft) : ClassDraft → Prop
  /-- The members stay. -/
  | keep (header attributes) {pool keys} (hpool : draft.pool.Grows (fun _ => True) pool)
    (hkeys : draft.methodKeys ⊆ keys) :
    Advances seed draft { draft with header, pool, methodKeys := keys, attributes }
  | field {pool bytes keys} (hpool : draft.pool.Grows (fun _ => True) pool)
    (hreads : ReadsWith seed pool "field" bytes fun _ => True) :
    Advances seed draft
      { draft with pool, fields := draft.fields.push bytes, fieldKeys := keys }
  | method {pool bytes key} (hpool : draft.pool.Grows (fun _ => True) pool)
    (hfresh : key ∉ draft.methodKeys)
    (hreads : ReadsWith seed pool "method" bytes fun m => (m.name, m.descriptor) = key) :
    Advances seed draft { draft with
      pool, methods := draft.methods.push bytes, methodKeys := key :: draft.methodKeys }

/-- The pool may grow. -/
theorem advances_pool {b : PoolBuilder} (h : draft.pool.Grows (fun _ => True) b) :
    Advances seed draft { draft with pool := b } :=
  .keep draft.header draft.attributes h (List.Subset.refl _)

/-- A failed request leaves the draft as it was, apart from the pool. -/
theorem fails_pooling {α : Type} {step : Pooling α} (h : Fails (pooling step) draft fault final) :
    ∃ b, Fails step draft.pool fault b ∧ final = { draft with pool := b } := by
  have h : ((step.run draft.pool).1, ({ draft with pool := (step.run draft.pool).2 } : ClassDraft))
      = (.error fault, final) := h
  rw [Prod.mk.injEq] at h
  exact ⟨_, Prod.ext h.1 rfl, h.2.symm⟩

theorem fails_modify {g : ClassDraft → ClassDraft} :
    ¬ Fails (modify g : Drafting Unit) draft fault final :=
  Yields.not_fails (a := ⟨⟩) (yields_modify.mpr rfl)

/-- What a call that fails leaves behind: entries in the pool, and names that methods have taken. -/
def Leaves (draft final : ClassDraft) : Prop :=
  ∃ pool keys, draft.pool.Grows (fun _ => True) pool ∧ draft.methodKeys ⊆ keys ∧
    final = { draft with pool, methodKeys := keys }

theorem Leaves.refl : Leaves draft draft :=
  ⟨draft.pool, draft.methodKeys, .refl, List.Subset.refl _, rfl⟩

theorem leaves_pool {b : PoolBuilder} (h : draft.pool.Grows (fun _ => True) b) :
    Leaves draft { draft with pool := b } :=
  ⟨b, draft.methodKeys, h, List.Subset.refl _, rfl⟩

theorem Leaves.advances (h : Leaves draft final) : Advances seed draft final := by
  obtain ⟨pool, keys, hpool, hkeys, rfl⟩ := h
  exact .keep draft.header draft.attributes hpool hkeys

/-- What a failed request leaves of a pool has only grown. -/
theorem leaves_of_fails_pooling {α : Type} {step : Pooling α}
    (huses : Pooling.Uses (fun _ => True) step) (h : Fails (pooling step) draft fault final) :
    Leaves draft final := by
  obtain ⟨b, hstep, rfl⟩ := fails_pooling h
  exact leaves_pool (huses.leaves hstep)

/-- A field that cannot be added changes nothing but the pool. -/
theorem fails_addField {access : Access} {name descriptor : String}
    (h : Fails (addField access name descriptor) draft fault final) : Leaves draft final := by
  have huses (text : String) : Pooling.Uses (fun _ => True) (Pooling.utf8 text) := uses_utf8 trivial
  have h := fails_get_bind.mp h
  split at h
  · rcases fails_bind.mp h with h | ⟨_, _, h, _⟩
    · rw [← (fails_throw.mp h).2]
      exact .refl
    · exact absurd h yields_throw
  · rcases fails_bind.mp h with h | ⟨i, d, hi, h⟩
    · exact leaves_of_fails_pooling (huses name) h
    · obtain ⟨b, hname, rfl⟩ := yields_pooling.mp hi
      rcases fails_bind.mp h with h | ⟨_, _, _, h⟩
      · obtain ⟨c, hdescriptor, rfl⟩ := fails_pooling h
        exact leaves_pool (((huses name).grows hname).trans ((huses descriptor).leaves hdescriptor))
      · exact absurd h fails_modify

/-- A field that is added reads back. -/
theorem reads_addField {access : Access} {name descriptor : String} {u : Unit}
    (h : Yields (addField access name descriptor) draft u next) :
    ∃ b bytes keys, draft.pool.Grows (fun _ => True) b ∧
      ReadsWith seed b "field" bytes (fun m => m.signature = (access, name, descriptor)) ∧
      next = { draft with pool := b, fields := draft.fields.push bytes, fieldKeys := keys } := by
  have huses (text : String) : Pooling.Uses (fun _ => True) (Pooling.utf8 text) := uses_utf8 trivial
  obtain ⟨i, b, j, c, hname, hdescriptor, rfl⟩ := yields_addField h
  have hgrows := (huses descriptor).grows hdescriptor
  refine ⟨c, _, _, ((huses name).grows hname).trans hgrows, fun pool hpool => ?_, rfl⟩
  have hname := ConstantPool.denotes_utf8.mp
    (denotes_of_index (s := .utf8 name) hname (hpool.means.of_grows hgrows))
  have hdescriptor := ConstantPool.denotes_utf8.mp
    (denotes_of_index (s := .utf8 descriptor) hdescriptor hpool.means)
  obtain ⟨m, hm, hsource⟩ := reads_fieldSource access hname hdescriptor
  obtain ⟨haccess, hname, hdescriptor⟩ := FieldSource.mk.inj hsource
  exact ⟨m, hm, Prod.ext haccess (Prod.ext hname hdescriptor)⟩

/-- **Adding a field advances the draft**, whether it succeeds or fails. -/
theorem advances_addField {access : Access} {name descriptor : String} :
    Advances seed draft ((addField access name descriptor).run draft).2 := by
  rcases yields_or_fails (addField access name descriptor) draft with ⟨_, t, h⟩ | ⟨fault, t, h⟩
  · rw [show _ = _ from h]
    obtain ⟨b, bytes, keys, hpool, hreads, rfl⟩ := reads_addField h
    exact .field hpool (hreads.weaken fun _ _ => trivial)
  · rw [show _ = _ from h]
    exact (fails_addField h).advances

/-- A key that is taken changes nothing. -/
theorem fails_takeMethodKey {name descriptor : String}
    (h : Fails (takeMethodKey name descriptor) draft fault final) : final = draft := by
  have h := fails_get_bind.mp h
  split at h
  · rcases fails_bind.mp h with h | ⟨_, _, h, _⟩
    · exact (fails_throw.mp h).2.symm
    · exact absurd h yields_throw
  · exact absurd h fails_set

/-- A method that cannot be committed changes nothing but the pool. -/
theorem fails_commit (h : Fails (commit m) draft fault final) : Leaves draft final := by
  rcases fails_bind.mp h with h | ⟨_, d, hkey, h⟩
  · rw [fails_takeMethodKey h]
    exact .refl
  · obtain ⟨hfresh, rfl⟩ := yields_takeMethodKey.mp hkey
    rcases fails_bind.mp h with h | ⟨_, _, _, h⟩
    · obtain ⟨b, hfinish, rfl⟩ := fails_pooling h
      exact ⟨b, _, MethodSource.grows_of_fails_finish m.within_true hfinish,
        List.subset_cons_self _ _, rfl⟩
    · rcases fails_bind.mp h with h | ⟨_, _, _, h⟩
      · exact absurd h fails_modify
      · exact absurd h fails_pure

/-- A method that is committed reads back. -/
theorem reads_commit (h : Yields (commit m) draft e next) :
    (m.name, m.descriptor) ∉ draft.methodKeys ∧
    ∃ b bytes, draft.pool.Grows (fun _ => True) b ∧
      ReadsWith seed b "method" bytes
        (fun found => found.signature = (m.access, m.name, m.descriptor)) ∧
      next = { draft with
        pool := b, methods := draft.methods.push bytes
        methodKeys := (m.name, m.descriptor) :: draft.methodKeys } := by
  obtain ⟨hfresh, bytes, b, hfinish, rfl⟩ := yields_commit.mp h
  refine ⟨hfresh, b, bytes, MethodSource.grows_finish m.within_true hfinish,
    fun pool hpool => ?_, rfl⟩
  obtain ⟨attrs, hread⟩ := MethodSource.exists_reads_finish "method" hfinish hpool.means
  exact ⟨_, hread, rfl⟩

/-- A method that is committed becomes a member with its name and descriptor. One that fails leaves
its name and descriptor behind. -/
theorem advances_commit : Advances seed draft ((commit m).run draft).2 := by
  rcases yields_or_fails (commit m) draft with ⟨_, t, h⟩ | ⟨fault, t, h⟩
  · rw [show _ = _ from h]
    obtain ⟨hfresh, b, bytes, hpool, hreads, rfl⟩ := reads_commit h
    exact .method hpool hfresh (hreads.weaken fun _ => key_of_signature)
  · rw [show _ = _ from h]
    exact (fails_commit h).advances

theorem fails_checkOrigin {member : Member}
    (h : Fails (checkOrigin pool member) draft fault final) :
    final = draft := by
  have h := fails_get_bind.mp h
  split at h
  · exact (fails_throw.mp h).2.symm
  · exact absurd h fails_pure

/-- A field that cannot be copied changes nothing but the pool. -/
theorem fails_copyField {member : Member} (h : Fails (copyField pool member) draft fault final) :
    Leaves draft final := by
  rcases fails_bind.mp h with h | ⟨_, _, _, h⟩
  · rw [fails_checkOrigin h]
    exact .refl
  · exact absurd h fails_modify

/-- Copying a field advances the draft, if the field can be read with the pools to come. -/
theorem advances_copyField {member : Member} (hreads : draft.pool.origin = some pool.fingerprint →
      ReadsWith seed draft.pool "field" member.raw fun _ => True) :
    Advances seed draft ((copyField pool member).run draft).2 := by
  rcases yields_or_fails (copyField pool member) draft with ⟨_, t, h⟩ | ⟨fault, t, h⟩
  · rw [show _ = _ from h]
    obtain ⟨horigin, rfl⟩ := yields_copyField.mp h
    exact .field .refl (hreads horigin)
  · rw [show _ = _ from h]
    exact (fails_copyField h).advances

/-- A method that cannot be copied changes nothing but the pool. -/
theorem fails_copyMethod {member : Member} (h : Fails (copyMethod pool member) draft fault final) :
    Leaves draft final := by
  rcases fails_bind.mp h with hcheck | ⟨_, d, hcheck, hrest⟩
  · rw [fails_checkOrigin hcheck]
    exact .refl
  · obtain ⟨-, rfl⟩ := yields_checkOrigin.mp hcheck
    rcases fails_bind.mp hrest with hkey | ⟨_, _, _, hmodify⟩
    · rw [fails_takeMethodKey hkey]
      exact .refl
    · exact absurd hmodify fails_modify

/-- Copying a method advances the draft under the same condition. -/
theorem advances_copyMethod {member : Member} (hreads : draft.pool.origin = some pool.fingerprint →
      ReadsWith seed draft.pool "method" member.raw fun m =>
        (m.name, m.descriptor) = (member.name, member.descriptor)) :
    Advances seed draft ((copyMethod pool member).run draft).2 := by
  rcases yields_or_fails (copyMethod pool member) draft with ⟨_, t, h⟩ | ⟨fault, t, h⟩
  · rw [show _ = _ from h]
    obtain ⟨horigin, hfresh, rfl⟩ := yields_copyMethod.mp h
    exact .method .refl hfresh (hreads horigin)
  · rw [show _ = _ from h]
    exact (fails_copyMethod h).advances

/-- A builder that has an origin started from a pool. -/
theorem exists_seed_of_origin {b : PoolBuilder}
    (h : (PoolBuilder.start seed).Grows (fun _ => True) b)
    {print : UInt64} (horigin : b.origin = some print) : ∃ old, seed = some old := by
  rcases seed with _ | old
  · rw [h.origin] at horigin
    cases horigin
  · exact ⟨old, rfl⟩

/-- The draft does not depend on whether an answer is used. -/
theorem run_unanswered {α : Type} (step : Drafting α) :
    ((do let _ ← step; pure () : Drafting Unit).run draft).2 = (step.run draft).2 := by
  rcases yields_or_fails step draft with ⟨a, t, h⟩ | ⟨fault, t, h⟩
  · rw [show step.run draft = _ from h]
    exact congrArg Prod.snd
      (h.bind (f := fun _ => pure ()) (b := ()) (yields_pure.mpr ⟨rfl, rfl⟩))
  · rw [show step.run draft = _ from h]
    exact congrArg Prod.snd (fails_bind.mpr (.inl h))

/-- **Any call** does what a call can do. -/
theorem advances_call {call : DraftCall}
    (hpool : (PoolBuilder.start seed).Grows (fun _ => True) draft.pool)
    (hcall : call.Native seed) : Advances seed draft (call.steps.run draft).2 := by
  cases call with
  | header h => exact .keep h draft.attributes .refl (List.Subset.refl _)
  | addField access name descriptor => exact advances_addField
  | commit m =>
    rw [DraftCall.steps, run_unanswered]
    exact advances_commit
  | addAttribute attr => exact .keep draft.header _ .refl (List.Subset.refl _)
  | request r =>
    rw [DraftCall.steps, run_unanswered]
    exact advances_pool (r.grows_step draft.pool)
  | copyField pool m =>
    refine advances_copyField fun horigin larger hlarger => ?_
    obtain ⟨old, rfl⟩ := exists_seed_of_origin hpool horigin
    exact ⟨m, hcall old rfl larger (hlarger.seeded old rfl), trivial⟩
  | copyMethod pool m =>
    refine advances_copyMethod fun horigin larger hlarger => ?_
    obtain ⟨old, rfl⟩ := exists_seed_of_origin hpool horigin
    exact ⟨m, hcall old rfl larger (hlarger.seeded old rfl), rfl⟩

/-! ### What calls keep -/

theorem Advances.grows (h : Advances seed draft next) :
    draft.pool.Grows (fun _ => True) next.pool := by
  cases h <;> assumption

/-- No step takes a method back. -/
theorem Advances.methods (h : Advances seed draft next) :
    draft.methods.toList ⊆ next.methods.toList := by
  cases h with
  | keep | field => exact List.Subset.refl _
  | method =>
    rw [Array.toList_push]
    exact List.subset_append_left _ _

/-- The members of a draft read back with every pool that suits the draft, and its methods have
different names or descriptors. -/
structure Framed (seed : Option ConstantPool) (draft : ClassDraft) : Prop where
  pool : (PoolBuilder.start seed).Grows (fun _ => True) draft.pool
  fields : ∀ bytes ∈ draft.fields.toList, ReadsWith seed draft.pool "field" bytes fun _ => True
  methods : ∃ keys : List (String × String), keys.Nodup ∧ keys ⊆ draft.methodKeys ∧
    List.Forall₂ (fun bytes key =>
      ReadsWith seed draft.pool "method" bytes fun m => (m.name, m.descriptor) = key)
      draft.methods.toList keys

theorem framed_start {header : Header} : Framed seed (.start header seed) where
  pool := .refl
  fields _ h := by cases h
  methods := ⟨[], .nil, List.nil_subset _, .nil⟩

/-- **One call** keeps a draft framed. -/
theorem Framed.advances (h : Framed seed draft) (hnext : Advances seed draft next) :
    Framed seed next := by
  have hgrows := hnext.grows
  obtain ⟨keys, hdistinct, htaken, hmethods⟩ := h.methods
  have hfields : ∀ bytes ∈ draft.fields.toList,
      ReadsWith seed next.pool "field" bytes fun _ => True :=
    fun bytes hbytes => (h.fields bytes hbytes).of_grows hgrows
  have hmethods := hmethods.imp fun bytes key h => h.of_grows hgrows
  refine ⟨h.pool.trans hgrows, ?_, ?_⟩
  · -- A call adds a field, or it adds nothing to the fields.
    cases hnext with
    | keep | method => exact hfields
    | field _ hreads =>
      simp only [Array.toList_push, List.mem_append, List.mem_singleton]
      rintro bytes (hbytes | rfl)
      · exact hfields bytes hbytes
      · exact hreads
  · cases hnext with
    | keep _ _ _ hkeys => exact ⟨keys, hdistinct, List.Subset.trans htaken hkeys, hmethods⟩
    | field => exact ⟨keys, hdistinct, htaken, hmethods⟩
    | @method _ _ key _ hfresh hreads =>
      refine ⟨keys ++ [key], ?_, ?_, ?_⟩
      · rw [List.nodup_append]
        refine ⟨hdistinct, List.nodup_singleton key, fun a ha b hb => ?_⟩
        rintro rfl
        rw [List.mem_singleton.mp hb] at ha
        exact hfresh (htaken ha)
      · exact List.append_subset.mpr ⟨List.subset_cons_of_subset _ htaken, by simp⟩
      · rw [Array.toList_push]
        exact List.rel_append hmethods (.cons hreads .nil)

/-- **Any number of calls** keeps a draft framed. The methods that are there stay, and the pool
grows. -/
theorem Framed.after (h : Framed seed draft) {calls : List DraftCall}
    (hcalls : ∀ call ∈ calls, call.Native seed) :
    Framed seed (draft.after calls) ∧
      draft.methods.toList ⊆ (draft.after calls).methods.toList ∧
      draft.pool.Grows (fun _ => True) (draft.after calls).pool := by
  induction calls generalizing draft with
  | nil => exact ⟨h, List.Subset.refl _, .refl⟩
  | cons call calls ih =>
    rw [List.forall_mem_cons] at hcalls
    have hnext := advances_call h.pool hcalls.1
    obtain ⟨hframed, hmethods, hpool⟩ := ih (h.advances hnext) hcalls.2
    exact ⟨hframed, List.Subset.trans hnext.methods hmethods, hnext.grows.trans hpool⟩

/-! ### Reading what was built -/

theorem reads_unique {α : Type} {r : Read α} {a a' : α} (h : Reads r bytes a)
    (h' : Reads r bytes a') : a = a' :=
  congrArg Prod.fst (Except.ok.inj ((h 0 []).symm.trans (h' 0 [])))

/-- A relation that holds for each item of a list holds for a list of answers. -/
theorem exists_forall₂ {α β : Type} {R : α → β → Prop} {as : List α} (h : ∀ a ∈ as, ∃ b, R a b) :
    ∃ bs, List.Forall₂ R as bs := by
  induction as with
  | nil => exact ⟨[], .nil⟩
  | cons a as ih =>
    rw [List.forall_mem_cons] at h
    obtain ⟨b, hb⟩ := h.1
    obtain ⟨bs, hbs⟩ := ih h.2
    exact ⟨b :: bs, .cons hb hbs⟩

/-- Members whose names and descriptors are known read back. -/
theorem exists_members {b : PoolBuilder} {what : String} {pieces : List Bytes}
    {keys : List (String × String)} (hpool : Suits seed b pool)
    (h : List.Forall₂ (fun bytes key =>
      ReadsWith seed b what bytes fun m => (m.name, m.descriptor) = key) pieces keys) :
    ∃ members, List.Forall₂ (fun bytes m => Reads (readMember pool what) bytes m) pieces members ∧
      (members.map fun m => (m.name, m.descriptor)) = keys := by
  induction h with
  | nil => exact ⟨[], .nil, rfl⟩
  | cons hm _ ih =>
    obtain ⟨m, hread, hkey⟩ := hm pool hpool
    obtain ⟨members, hreads, hkeys⟩ := ih
    exact ⟨m :: members, .cons hread hreads, by rw [List.map_cons, hkey, hkeys]⟩

/-- Methods of different keys repeat none. -/
theorem firstRepeated_of_nodup {seen : List (String × String)} {methods : List Member}
    (h : (methods.map fun m => (m.name, m.descriptor)).Nodup)
    (hseen : ∀ m ∈ methods, (m.name, m.descriptor) ∉ seen) : firstRepeated seen methods = none := by
  induction methods generalizing seen with
  | nil => rfl
  | cons m methods ih =>
    rw [List.map_cons, List.nodup_cons] at h
    rw [List.forall_mem_cons] at hseen
    unfold firstRepeated
    rw [if_neg (by simpa using hseen.1)]
    refine ih h.2 fun n hn => ?_
    rw [List.mem_cons, not_or]
    exact ⟨fun heq => h.1 (heq ▸ List.mem_map_of_mem hn), hseen.2 n hn⟩

/-- The method with its name and descriptor is the only one. -/
theorem method?_of_mem {c : ClassFile} (hdistinct : firstRepeated [] c.methods = none)
    {found : Member} (h : found ∈ c.methods) :
    c.method? found.name found.descriptor = some found := by
  have hnamed : found.isNamed found.name found.descriptor = true := isNamed_iff.mpr ⟨rfl, rfl⟩
  obtain ⟨m, hm⟩ := Option.isSome_iff_exists.mp
    (List.find?_isSome.mpr ⟨found, h, hnamed⟩ :
      (c.methods.find? (·.isNamed found.name found.descriptor)).isSome)
  obtain ⟨before, after, hsplit, -, hothers⟩ := exists_split_of_method? hdistinct hm
  rw [hsplit] at h
  -- The method that is found is the only one of its key, so it is the one at hand.
  rcases List.mem_append.mp h with h | h
  · have hother := hothers found (List.mem_append_left _ h)
    rw [hnamed] at hother
    cases hother
  · rcases List.mem_cons.mp h with rfl | h
    · exact hm
    · have hother := hothers found (List.mem_append_right _ h)
      rw [hnamed] at hother
      cases hother

/-- **The bytes of a framed draft** are those of a class file with the header and the attributes of
the draft, whose members are read from the bytes of the members of the draft. -/
theorem Framed.parse_toBytes (h : Framed seed draft)
    (hseed : ∀ old ∈ seed, PoolBuilder.WasRead old) (hbytes : draft.toBytes = .ok bytes)
    (hversion : isKnownVersion draft.header.major = true) :
    ∃ c, parse bytes = .ok c ∧ c.header = draft.header ∧ c.attributes = draft.attributes.toList ∧
      Suits seed draft.pool c.pool ∧ (∀ e, c.pool.get 0 ≠ .ok e) ∧
      List.Forall₂ (fun bytes m => Reads (readMember c.pool "field") bytes m) draft.fields.toList
        c.fields ∧
      List.Forall₂ (fun bytes m => Reads (readMember c.pool "method") bytes m) draft.methods.toList
        c.methods := by
  obtain ⟨last, hserialize⟩ : ∃ last, Yields draft.serialize draft.pool bytes last :=
    ⟨_, Prod.ext hbytes rfl⟩
  have hwritten : draft.pool.Grows (fun _ => True) last := grows_serialize (fun _ _ => trivial)
    (fun _ _ _ _ => trivial) (fun _ _ _ _ => trivial) (fun _ _ => trivial) hserialize
  -- The pool is sound from the start, with the entries of the seed if there is one.
  obtain ⟨slots, hsound, hslots⟩ : ∃ slots, (PoolBuilder.start seed).Sound slots ∧
      ∀ old ∈ seed, slots = old.slots := by
    rcases seed with _ | old
    · exact ⟨_, PoolBuilder.sound_empty, nofun⟩
    · exact ⟨_, PoolBuilder.sound_ofPool (hseed old rfl), by rintro _ ⟨⟩; rfl⟩
  obtain ⟨more, hfinal⟩ := hsound.grows (h.pool.trans hwritten)
  have hsuits : Suits seed draft.pool (last.poolOf (slots ++ more)) := by
    refine ⟨hfinal.means.of_grows hwritten, fun old hold => ?_⟩
    have happend : (last.poolOf (slots ++ more)).slots = old.slots ++ more := by
      rw [← hslots old hold]
      rfl
    exact ConstantPool.extends_of_append happend
  -- The members were read with every pool that suits the draft, and the last one does.
  obtain ⟨fields, hfields⟩ := exists_forall₂ fun bytes hmem =>
    (h.fields bytes hmem _ hsuits).imp fun _ h => h.1
  obtain ⟨keys, hdistinct, -, hmethods⟩ := h.methods
  obtain ⟨methods, hreads, rfl⟩ := exists_members hsuits hmethods
  have hparse := parse_of_serialize hserialize hfinal hversion hfields hreads
    (firstRepeated_of_nodup hdistinct fun _ _ => List.not_mem_nil)
  exact ⟨_, hparse, rfl, rfl, hsuits, hfinal.get_zero, hfields, hreads⟩

theorem ofU2_inj {i j : UInt16} (h : Bytes.ofU2 i = Bytes.ofU2 j) : i = j :=
  reads_unique (reads_u2 i "") (h ▸ reads_u2 j "")

/-- Only a draft of a known version is written as bytes that are read. -/
theorem isKnownVersion_of_parse {c : ClassFile} (hbytes : draft.toBytes = .ok bytes)
    (hparse : parse bytes = .ok c) : isKnownVersion draft.header.major = true := by
  obtain ⟨last, hserialize⟩ : ∃ last, Yields draft.serialize draft.pool bytes last :=
    ⟨_, Prod.ext hbytes rfl⟩
  obtain ⟨refs, s, attributes, -, -, -, hassemble⟩ := yields_serialize.mp hserialize
  obtain ⟨_, _, hassemble⟩ := except_bind_eq_ok.mp hassemble
  obtain ⟨_, _, hassemble⟩ := except_bind_eq_ok.mp hassemble
  obtain ⟨_, _, hassemble⟩ := except_bind_eq_ok.mp hassemble
  obtain ⟨_, _, hassemble⟩ := except_bind_eq_ok.mp hassemble
  obtain ⟨-, refs', -, hspelled⟩ := exists_spelled_of_parse hparse
  rw [← Except.ok.inj hassemble] at hspelled
  simp only [spelled, List.append_assoc] at hspelled
  have hminor := List.append_inj (List.append_cancel_left hspelled) rfl
  have hmajor := ofU2_inj (List.append_inj hminor.2 rfl).1
  rw [hmajor]
  exact (wellRead_of_parse hparse).version

/-- **A method that is committed** is found in the class file that is written in the end: its bytes
stand there as the only method with its name and descriptor. -/
theorem exists_found (h : Framed seed draft) (hcommit : Yields (commit m) draft e next)
    {calls : List DraftCall} (hcalls : ∀ call ∈ calls, call.Native seed)
    (hseed : ∀ old ∈ seed, PoolBuilder.WasRead old)
    (hbytes : (next.after calls).toBytes = .ok bytes)
    (hversion : isKnownVersion (next.after calls).header.major = true) :
    ∃ c piece b, parse bytes = .ok c ∧ Yields m.finish draft.pool (piece, e) b ∧ b.Means c.pool ∧
      (∀ e, c.pool.get 0 ≠ .ok e) ∧ ∀ found, Reads (readMember c.pool "method") piece found →
        c.method? found.name found.descriptor = some found := by
  have hnext : Advances seed draft next := by
    have hadvances : Advances seed draft ((commit m).run draft).2 := advances_commit
    rwa [show (commit m).run draft = _ from hcommit] at hadvances
  obtain ⟨-, piece, b, hfinish, hpushed⟩ := yields_commit.mp hcommit
  have hmem : piece ∈ next.methods.toList := by
    rw [hpushed, Array.toList_push]
    exact List.mem_append_right _ (List.mem_singleton_self piece)
  have hpool : next.pool = b := by rw [hpushed]
  obtain ⟨hframed, hkept, hgrown⟩ := (h.advances hnext).after hcalls
  obtain ⟨c, hparse, -, -, hsuits, hzero, -, hmethods⟩ :=
    hframed.parse_toBytes hseed hbytes hversion
  refine ⟨c, piece, b, hparse, hfinish, hpool ▸ (hsuits.of_grows hgrown).means, hzero,
    fun found hfound => ?_⟩
  refine method?_of_mem (wellRead_of_parse hparse).distinct ?_
  -- The bytes of the method still stand in the list, and only one method is read off them.
  obtain ⟨n, hn, hpiece⟩ := List.getElem_of_mem (hkept hmem)
  have hread := hmethods.get hn (hmethods.length_eq ▸ hn)
  rw [List.get_eq_getElem, List.get_eq_getElem, hpiece] at hread
  rw [reads_unique hfound hread]
  exact List.getElem_mem _

end RoundingPatch.ClassFile
