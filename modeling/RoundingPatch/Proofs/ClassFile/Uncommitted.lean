import RoundingPatch.Proofs.ClassFile.Blameless
import RoundingPatch.Proofs.ClassFile.Recorded
/-!
# Methods that are not committed

A commit that fails leaves two traces in a draft: the pool may have more entries, and the name and
the descriptor of the method stay taken. Entries that nothing refers to do not change what a class
file declares. They only take up room: the draft is written as it would have been written before,
unless the pool is full (`Pooling.Tracks`, `tracks_serialize`). A name that stays taken cannot be
used again (`name_lost`). Otherwise a draft is as usable as before (`usable_after_failed_commit`).
-/

namespace RoundingPatch.ClassFile

open ClassDraft

/-! ### Pools with less in them -/

namespace PoolBuilder

variable {b c : PoolBuilder} {s : Symbol} {e e' : PoolEntry} {missing : List Symbol}
  {R : Symbol → Prop}

/-- Builder `b` knows what builder `c` knows, except for some symbols, and has at least as much more
room as it takes to add them. -/
structure Lags (missing : List Symbol) (b c : PoolBuilder) : Prop where
  known : ∀ s : Symbol, c.known[s]?.isSome ↔ b.known[s]?.isSome ∨ s ∈ missing
  /-- The missing texts can be added. -/
  texts : ∀ text, .utf8 text ∈ missing → (ModifiedUtf8.encode text).length ≤ 65535
  /-- The names of the missing classes are known, or missing too. -/
  names : ∀ name, .classRef name ∈ missing → c.known[Symbol.utf8 name]?.isSome
  next : b.next + missing.length ≤ c.next
  room : missing ≠ [] → c.next ≤ 65535
  origin : c.origin = b.origin

theorem isSome_known_pushed (b : PoolBuilder) (s t : Symbol) (e : PoolEntry) :
    (b.pushed s e).known[t]?.isSome ↔ s = t ∨ b.known[t]?.isSome := by
  rw [known_pushed]
  by_cases h : s = t
  · simp [h]
  · simp [h]

theorem slots_pos (e : PoolEntry) : 1 ≤ e.slots := by
  cases e <;> exact Nat.le_of_ble_eq_true rfl

/-- **A builder that grows** gets ahead by what is added. -/
theorem Grows.exists_lags (h : Grows R b c) : ∃ missing, Lags missing b c := by
  induction h with
  | refl => exact ⟨[], by simp, nofun, nofun, Nat.le_refl _, nofun, rfl⟩
  | @push c s e _ _ _ he hroom ih =>
    obtain ⟨missing, ih⟩ := ih
    refine ⟨s :: missing, fun t => ?_, fun text htext => ?_, fun name hname => ?_, ?_,
      fun _ => hroom, ih.origin⟩
    · rw [isSome_known_pushed, ih.known, List.mem_cons, eq_comm]
      exact or_left_comm
    · rcases List.mem_cons.mp htext with rfl | htext
      · -- A text that was added was short enough.
        cases he with
        | utf8 hlength => exact hlength
      · exact ih.texts text htext
    · refine (isSome_known_pushed c s _ e).mpr (.inr ?_)
      rcases List.mem_cons.mp hname with rfl | hname
      · -- A class is added behind the text of its name.
        cases he with
        | classRef hi => rw [hi, Option.isSome_some]
      · exact ih.names name hname
    · have hnext := ih.next
      have hslots := slots_pos e
      show b.next + (missing.length + 1) ≤ c.next + e.slots
      omega

/-- Both builders add an entry for a symbol. -/
theorem Lags.push_both (h : Lags missing b c) (he : e.slots = 1) (he' : e'.slots = 1)
    (hroom : c.next + 1 ≤ 65535) : Lags missing (b.pushed s e) (c.pushed s e') where
  known t := by rw [isSome_known_pushed, isSome_known_pushed, h.known, or_assoc]
  texts := h.texts
  names name hname := (isSome_known_pushed c s _ e').mpr (.inr (h.names name hname))
  next := by
    have hnext := h.next
    show b.next + e.slots + missing.length ≤ c.next + e'.slots
    omega
  room _ := by
    show c.next + e'.slots ≤ 65535
    omega
  origin := h.origin

/-- The builder that lags adds an entry for a missing symbol. -/
theorem Lags.catch_up (h : Lags missing b c) (hs : s ∈ missing) (he : e.slots = 1) :
    Lags (missing.erase s) (b.pushed s e) c where
  known t := by
    rw [isSome_known_pushed, h.known]
    -- What was added is known to both now; every other symbol is missing if it was before.
    by_cases heq : s = t
    · subst heq
      simp [hs]
    · rw [List.mem_erase_of_ne (Ne.symm heq), or_assoc]
      simp [heq]
  texts text htext := h.texts text (List.mem_of_mem_erase htext)
  names name hname := h.names name (List.mem_of_mem_erase hname)
  next := by
    have hnext := h.next
    have hpos := List.length_pos_of_mem hs
    have hlength := List.length_erase_of_mem hs
    show b.next + e.slots + (missing.erase s).length ≤ c.next
    omega
  room _ := h.room (List.ne_nil_of_mem hs)
  origin := h.origin

end PoolBuilder

/-! ### Steps on two pools -/

namespace Pooling

open PoolBuilder

variable {α β γ δ : Type} {b c : PoolBuilder} {missing : List Symbol} {rel : α → β → Prop}
  {rel' : γ → δ → Prop}

/-- Two steps on two pools, of which the first lags behind the second: either both succeed, or the
second fails. If only the second fails, then because its pool is full. -/
def TracksFrom (b c : PoolBuilder) (x : Pooling α) (y : Pooling β) (rel : α → β → Prop) : Prop :=
  (∃ u b' v c' missing, Yields x b u b' ∧ Yields y c v c' ∧ rel u v ∧ Lags missing b' c') ∨
    ∃ fault c', Fails y c fault c' ∧
      ((∃ cause b', Fails x b cause b') ∨ fault = .unsupported .poolFull)

/-- A step fares no better on a pool than another one on a pool that lags behind. -/
def Tracks (x : Pooling α) (y : Pooling β) (rel : α → β → Prop) : Prop :=
  ∀ b c missing, Lags missing b c → TracksFrom b c x y rel

theorem tracks_pure {u : α} {v : β} (h : rel u v) : Tracks (pure u) (pure v) rel :=
  fun b c missing hlags => .inl ⟨u, b, v, c, missing, yields_pure.mpr ⟨rfl, rfl⟩,
    yields_pure.mpr ⟨rfl, rfl⟩, h, hlags⟩

/-- The same fault on both sides. -/
theorem tracks_fail (fault : Fault) :
    Tracks (fail fault : Pooling α) (fail fault : Pooling β) rel :=
  fun b c _ _ => .inr ⟨fault, c, fails_throw.mpr ⟨rfl, rfl⟩,
    .inl ⟨fault, b, fails_throw.mpr ⟨rfl, rfl⟩⟩⟩

/-- A sequence tracks another if its parts do. -/
theorem Tracks.bind {x : Pooling α} {y : Pooling β} {f : α → Pooling γ} {g : β → Pooling δ}
    (hx : Tracks x y rel) (hf : ∀ u v, rel u v → Tracks (f u) (g v) rel') :
    Tracks (x >>= f) (y >>= g) rel' := by
  intro b c missing hlags
  rcases hx b c missing hlags with ⟨u, b', v, c', missing', hu, hv, hrel, hlags'⟩ |
    ⟨fault, c', hfails, hcause⟩
  · rcases hf u v hrel b' c' missing' hlags' with
      ⟨w, b'', z, c'', missing'', hw, hz, hrel', hlags''⟩ | ⟨fault, c'', hfails, hcause⟩
    · exact .inl ⟨w, b'', z, c'', missing'', hu.bind hw, hv.bind hz, hrel', hlags''⟩
    · refine .inr ⟨fault, c'', fails_bind.mpr (.inr ⟨v, c', hv, hfails⟩), hcause.imp_left ?_⟩
      rintro ⟨cause, b'', h⟩
      exact ⟨cause, b'', fails_bind.mpr (.inr ⟨u, b', hu, h⟩)⟩
  · refine .inr ⟨fault, c', fails_bind.mpr (.inl hfails), hcause.imp_left ?_⟩
    rintro ⟨cause, b', h⟩
    exact ⟨cause, b', fails_bind.mpr (.inl h)⟩

/-- Steps that look at their pools. -/
theorem tracks_get_bind {f : PoolBuilder → Pooling α} {g : PoolBuilder → Pooling β}
    (h : ∀ b c, c.origin = b.origin → Tracks (f b) (g c) rel) :
    Tracks (get >>= f) (get >>= g) rel := by
  intro b c missing hlags
  rcases h b c hlags.origin b c missing hlags with ⟨u, b', v, c', missing', hu, hv, hrel, hlags'⟩ |
    ⟨fault, c', hfails, hcause⟩
  · exact .inl ⟨u, b', v, c', missing', yields_get_bind.mpr hu, yields_get_bind.mpr hv,
      hrel, hlags'⟩
  · refine .inr ⟨fault, c', fails_get_bind.mpr hfails, hcause.imp_left ?_⟩
    rintro ⟨cause, b', h⟩
    exact ⟨cause, b', fails_get_bind.mpr h⟩

theorem Tracks.unless {x : Pooling α} {y : Pooling β} {fails : Prop} [Decidable fails]
    {fault : Fault} (h : Tracks x y rel) : Tracks
      (do
        if fails then fail fault
        x)
      (do
        if fails then fail fault
        y) rel := by
  by_cases hfails : fails
  · simp only [hfails, ↓reduceIte]
    have hfail : Tracks (fail fault : Pooling PUnit) (fail fault : Pooling PUnit) fun _ _ => True :=
      tracks_fail fault
    exact hfail.bind fun _ _ _ => h
  · simp only [hfails, ↓reduceIte]
    exact h

/-- Answers of which both are faults or neither is. -/
theorem tracks_lift {x : Except Fault α} {y : Except Fault β} (h : x.isOk = y.isOk) :
    Tracks (lift x) (lift y) fun _ _ => True := by
  rcases x with cause | u <;> rcases y with fault | v
  · exact fun b c _ _ => .inr ⟨fault, c, fails_throw.mpr ⟨rfl, rfl⟩,
      .inl ⟨cause, b, fails_throw.mpr ⟨rfl, rfl⟩⟩⟩
  · cases h
  · cases h
  · exact tracks_pure trivial

/-- Working through a list tracks working through it with the fuller pool. -/
theorem tracks_mapM {f : α → Pooling β} {as : List α}
    (h : ∀ a, Tracks (f a) (f a) fun _ _ => True) :
    Tracks (as.mapM f) (as.mapM f) fun us vs => us.length = vs.length := by
  induction as with
  | nil => exact tracks_pure rfl
  | cons a as ih =>
    rw [List.mapM_cons]
    refine (h a).bind fun _ _ _ => ih.bind fun _ _ hlength => tracks_pure ?_
    rw [List.length_cons, List.length_cons, hlength]

/-! ### Texts and classes -/

/-- Asking fails for lack of room once the entry is made. -/
theorem fails_intern_of_full {s : Symbol} {make : Pooling PoolEntry} {m : PoolBuilder}
    {e : PoolEntry} (hk : b.known[s]? = none) (hmake : Yields make b e m)
    (hfull : ¬ m.next + e.slots ≤ 65535) :
    Fails (intern s make) b (.unsupported .poolFull) m := by
  refine fails_get_bind.mpr ?_
  rw [hk]
  refine fails_bind.mpr (.inr ⟨e, m, hmake, fails_get_bind.mpr ?_⟩)
  rw [if_neg hfull]
  exact fails_throw.mpr ⟨rfl, rfl⟩

theorem fails_intern_of_make {s : Symbol} {make : Pooling PoolEntry} {m : PoolBuilder}
    {fault : Fault} (hk : b.known[s]? = none) (hmake : Fails make b fault m) :
    Fails (intern s make) b fault m := by
  refine fails_get_bind.mpr ?_
  rw [hk]
  exact fails_bind.mpr (.inl hmake)

/-- A symbol that the builder that lags knows is looked up by both. -/
theorem tracksFrom_of_known {s : Symbol} {make make' : Pooling PoolEntry} {i : UInt16}
    (hlags : Lags missing b c) (hb : b.known[s]? = some i) :
    TracksFrom b c (intern s make) (intern s make') fun _ _ => True := by
  obtain ⟨j, hc⟩ := Option.isSome_iff_exists.mp ((hlags.known s).mpr (.inl (by rw [hb]; rfl)))
  exact .inl ⟨i, b, j, c, missing, yields_intern.mpr (.inl ⟨hb, rfl⟩),
    yields_intern.mpr (.inl ⟨hc, rfl⟩), trivial, hlags⟩

/-- A symbol that only the builder that is ahead knows is missing. -/
theorem mem_missing {s : Symbol} {j : UInt16} (hlags : Lags missing b c) (hb : b.known[s]? = none)
    (hc : c.known[s]? = some j) : s ∈ missing := by
  rcases (hlags.known s).mp (by rw [hc]; rfl) with h | h
  · rw [hb] at h
    cases h
  · exact h

/-- There is room for what is missing. -/
theorem room_of_mem {s : Symbol} (hlags : Lags missing b c) (hs : s ∈ missing) :
    b.next + 1 ≤ 65535 := by
  have hnext := hlags.next
  have hroom := hlags.room (List.ne_nil_of_mem hs)
  have hpos := List.length_pos_of_mem hs
  omega

/-- A text is found or added on both sides, or the fuller pool has no room. -/
theorem tracks_utf8 (text : String) : Tracks (utf8 text) (utf8 text) fun _ _ => True := by
  intro b c missing hlags
  have hmake (d : PoolBuilder) (h : (ModifiedUtf8.encode text).length ≤ 65535) :
      Yields (if (ModifiedUtf8.encode text).length ≤ 65535 then return .utf8 text
        else fail (.unsupported .textTooLong) : Pooling PoolEntry) d (.utf8 text) d := by
    rw [if_pos h]
    exact yields_pure.mpr ⟨rfl, rfl⟩
  cases hb : b.known[Symbol.utf8 text]? with
  | some i => exact tracksFrom_of_known hlags hb
  | none =>
    cases hc : c.known[Symbol.utf8 text]? with
    | some j =>
      -- Only the builder that lags adds the text, and it has the room that the other one has used.
      have hmissing := mem_missing hlags hb hc
      exact .inl ⟨_, _, j, c, _, yields_intern.mpr (.inr ⟨hb, .utf8 text, b,
        hmake b (hlags.texts text hmissing), room_of_mem hlags hmissing, rfl, rfl⟩),
        yields_intern.mpr (.inl ⟨hc, rfl⟩), trivial, hlags.catch_up hmissing rfl⟩
    | none =>
      -- Both add it, or the text is too long for both, or there is no room in the fuller pool.
      by_cases hlength : (ModifiedUtf8.encode text).length ≤ 65535
      · by_cases hroom : c.next + 1 ≤ 65535
        · have hnext := hlags.next
          exact .inl ⟨_, _, _, _, missing,
            yields_intern.mpr (.inr ⟨hb, .utf8 text, b, hmake b hlength,
              show b.next + 1 ≤ 65535 by omega, rfl, rfl⟩),
                yields_intern.mpr (.inr ⟨hc, .utf8 text, c,
            hmake c hlength, hroom, rfl, rfl⟩), trivial, hlags.push_both rfl rfl hroom⟩
        · exact .inr ⟨_, c, fails_intern_of_full hc (hmake c hlength) hroom, .inr rfl⟩
      · have hlong (d : PoolBuilder) :
            Fails (if (ModifiedUtf8.encode text).length ≤ 65535 then return .utf8 text
              else fail (.unsupported .textTooLong) : Pooling PoolEntry) d
              (.unsupported .textTooLong) d := by
          rw [if_neg hlength]
          exact fails_throw.mpr ⟨rfl, rfl⟩
        exact .inr ⟨_, c, fails_intern_of_make hc (hlong c), .inl ⟨_, b,
          fails_intern_of_make hb (hlong b)⟩⟩

theorem tracks_classRef (name : String) :
    Tracks (classRef name) (classRef name) fun _ _ => True := by
  intro b c missing hlags
  have hmake {d d' : PoolBuilder} {i : UInt16} (h : Yields (utf8 name) d i d') :
      Yields (do return .classRef (← utf8 name) : Pooling PoolEntry) d (.classRef i) d' :=
    h.bind (yields_pure.mpr ⟨rfl, rfl⟩)
  have hmakeFails {d d' : PoolBuilder} {fault : Fault} (h : Fails (utf8 name) d fault d') :
      Fails (do return .classRef (← utf8 name) : Pooling PoolEntry) d fault d' :=
    fails_bind.mpr (.inl h)
  -- The text of the name is no class.
  have hunknown {d d' : PoolBuilder} {i : UInt16} (h : Yields (utf8 name) d i d')
      (hd : d.known[Symbol.classRef name]? = none) : d'.known[Symbol.classRef name]? = none :=
    (grows_utf8 h).1.unknown nofun hd
  cases hb : b.known[Symbol.classRef name]? with
  | some i => exact tracksFrom_of_known hlags hb
  | none =>
    rcases tracks_utf8 name b c missing hlags with ⟨i, b', j, c', missing', hi, hj, -, hlags'⟩ |
      ⟨fault, c', hfails, hcause⟩
    · cases hc : c.known[Symbol.classRef name]? with
      | some k =>
        have hmissing := mem_missing hlags' (hunknown hi hb) ((grows_utf8 hj).1.known hc)
        -- The builder that is ahead knows the class, and so the text of its name.
        obtain ⟨j', hknown⟩ :=
          Option.isSome_iff_exists.mp (hlags.names name (mem_missing hlags hb hc))
        obtain ⟨-, rfl⟩ := (index_of_known (s := .utf8 name) hknown).unique hj
        exact .inl ⟨_, _, k, c, _, yields_intern.mpr (.inr ⟨hb, .classRef i, b', hmake hi,
          room_of_mem hlags' hmissing, rfl, rfl⟩), yields_intern.mpr (.inl ⟨hc, rfl⟩), trivial,
          hlags'.catch_up hmissing rfl⟩
      | none =>
        by_cases hroom : c'.next + 1 ≤ 65535
        · have hnext := hlags'.next
          exact .inl ⟨_, _, _, _, missing', yields_intern.mpr (.inr ⟨hb, .classRef i, b', hmake hi,
            show b'.next + 1 ≤ 65535 by omega, rfl, rfl⟩), yields_intern.mpr (.inr ⟨hc, .classRef j,
            c', hmake hj, hroom, rfl, rfl⟩), trivial, hlags'.push_both rfl rfl hroom⟩
        · exact .inr ⟨_, c', fails_intern_of_full hc (hmake hj) hroom, .inr rfl⟩
    · -- The text cannot be added, so the class is not known either.
      have hc : c.known[Symbol.classRef name]? = none := by
        cases hc : c.known[Symbol.classRef name]? with
        | none => rfl
        | some k =>
          obtain ⟨j, hknown⟩ :=
            Option.isSome_iff_exists.mp (hlags.names name (mem_missing hlags hb hc))
          exact absurd hfails (index_of_known (s := .utf8 name) hknown).not_fails
      refine .inr ⟨fault, c', fails_intern_of_make hc (hmakeFails hfails), hcause.imp_left ?_⟩
      rintro ⟨cause, b', h⟩
      exact ⟨cause, b', fails_intern_of_make hb (hmakeFails h)⟩

end Pooling

/-! ### Writing on two pools -/

section Writing

open Pooling

variable {draft next : ClassDraft}

theorem tracks_namedAttribute (name : String) (info : Bytes) :
    Tracks (Layout.namedAttribute name info) (Layout.namedAttribute name info) fun _ _ => True :=
  (tracks_utf8 name).bind fun _ _ _ => (tracks_lift rfl).bind fun _ _ _ => tracks_pure trivial

/-- The header is written on both sides with as many interfaces. -/
theorem tracks_headerRefs (header : Header) : Tracks (headerRefs header) (headerRefs header)
    fun refs refs' => refs.interfaces.length = refs'.interfaces.length := by
  have hsuper :
      Tracks (classRef? header.superName) (classRef? header.superName) fun _ _ => True := by
    unfold classRef?
    cases header.superName with
    | none => exact tracks_pure trivial
    | some name => exact tracks_classRef name
  exact (tracks_classRef _).bind fun _ _ _ => hsuper.bind fun _ _ _ =>
    (tracks_mapM tracks_classRef).bind fun _ _ hlength => tracks_pure hlength

theorem isOk_pure {α : Type} (a : α) : (pure a : Except Fault α).isOk = true := rfl

theorem isOk_bind_congr {α β γ : Type} {x : Except Fault α} {f : α → Except Fault β}
    {g : α → Except Fault γ} (h : ∀ a, (f a).isOk = (g a).isOk) :
    (x >>= f).isOk = (x >>= g).isOk := by
  cases x with
  | error _ => rfl
  | ok a => exact h a

/-- Whether the parts can be counted depends on their numbers alone. -/
theorem isOk_assemble {b c : PoolBuilder} {refs refs' : HeaderRefs}
    {attributes attributes' : List Bytes}
    (hfields : draft.fields.size = next.fields.size)
    (hmethods : draft.methods.size = next.methods.size)
    (hinterfaces : refs.interfaces.length = refs'.interfaces.length)
    (hattributes : attributes.length = attributes'.length) :
    (draft.assemble b refs attributes).isOk = (next.assemble c refs' attributes').isOk := by
  unfold assemble
  rw [hfields, hmethods, hinterfaces, hattributes]
  exact isOk_bind_congr fun _ => isOk_bind_congr fun _ => isOk_bind_congr fun _ =>
    isOk_bind_congr fun _ => (isOk_pure _).trans (isOk_pure _).symm

/-- **Writing** the same header, the same attributes and as many members. -/
theorem tracks_serialize (hheader : next.header = draft.header)
    (hfields : next.fields = draft.fields) (hmethods : next.methods = draft.methods)
    (hattributes : next.attributes = draft.attributes) :
    Tracks draft.serialize next.serialize fun _ _ => True := by
  rw [serialize_eq, serialize_eq, hheader, hattributes]
  refine (tracks_headerRefs _).bind fun refs refs' hinterfaces =>
    tracks_get_bind fun b c horigin => ?_
  rw [horigin]
  refine Tracks.unless ((tracks_mapM fun _ => tracks_namedAttribute _ _).bind
    fun attributes attributes' hlength => tracks_get_bind fun b c _ => tracks_lift ?_)
  exact isOk_assemble (by rw [hfields]) (by rw [hmethods]) hinterfaces hlength

/-- **With more entries in the pool** a draft is written if and only if it was written before,
unless the pool is full. -/
theorem toBytes_of_grows (hpool : draft.pool.Grows (fun _ => True) next.pool)
    (hheader : next.header = draft.header) (hfields : next.fields = draft.fields)
    (hmethods : next.methods = draft.methods) (hattributes : next.attributes = draft.attributes) :
    (∀ bytes', next.toBytes = .ok bytes' → ∃ bytes, draft.toBytes = .ok bytes) ∧
      ∀ bytes fault, draft.toBytes = .ok bytes → next.toBytes = .error fault →
        fault = .unsupported .poolFull := by
  obtain ⟨missing, hlags⟩ := hpool.exists_lags
  have htracks := tracks_serialize hheader hfields hmethods hattributes
  -- Both are written, or the fuller one fails where the other does, or it is full.
  rcases htracks draft.pool next.pool missing hlags with
    ⟨bytes, b, bytes', c, -, hbytes, hbytes', -, -⟩ | ⟨fault, c, hfails, hcause⟩
  · have hbytes : draft.toBytes = .ok bytes := congrArg Prod.fst hbytes
    have hbytes' : next.toBytes = .ok bytes' := congrArg Prod.fst hbytes'
    refine ⟨fun _ _ => ⟨bytes, hbytes⟩, fun _ fault _ herror => ?_⟩
    rw [hbytes'] at herror
    cases herror
  · have hfault : next.toBytes = .error fault := congrArg Prod.fst hfails
    refine ⟨fun bytes' hok => ?_, fun bytes found hok herror => ?_⟩
    · rw [hfault] at hok
      cases hok
    · cases hfault.symm.trans herror
      refine hcause.resolve_left ?_
      rintro ⟨cause, b, hcause⟩
      have hcause : draft.toBytes = .error cause := congrArg Prod.fst hcause
      rw [hcause] at hok
      cases hok

end Writing

/-! ### Names that are taken -/

section Names

variable {draft next : ClassDraft} {name descriptor : String}

/-- A step leaves alone what `view` shows of a draft, whether it fails or not. -/
def Keeps {α β : Type} (view : ClassDraft → β) (step : Drafting α) : Prop :=
  ∀ draft : ClassDraft, view (step.run draft).2 = view draft

section Keeps

variable {α β γ : Type} {view : ClassDraft → β}

/-- A sequence keeps what its parts keep. -/
theorem Keeps.bind {x : Drafting α} {f : α → Drafting γ} (hx : Keeps view x)
    (hf : ∀ a, Keeps view (f a)) : Keeps view (x >>= f) := by
  intro draft
  have hstart := hx draft
  rw [run_sequence]
  rcases hrun : x.run draft with ⟨_ | a, next⟩ <;> rw [hrun] at hstart
  · exact hstart
  · exact (hf a next).trans hstart

theorem keeps_pure (a : α) : Keeps view (pure a) :=
  fun _ => rfl

theorem keeps_throw (fault : Fault) : Keeps view (throw fault : Drafting α) :=
  fun _ => rfl

theorem keeps_modify {g : ClassDraft → ClassDraft} (h : ∀ draft, view (g draft) = view draft) :
    Keeps view (modify g : Drafting Unit) :=
  h

theorem keeps_get_bind {f : ClassDraft → Drafting α} (hf : ∀ draft, Keeps view (f draft)) :
    Keeps view (get >>= f) :=
  fun draft => hf draft draft

theorem keeps_checkOrigin (pool : ConstantPool) (m : Member) : Keeps view (checkOrigin pool m) := by
  refine keeps_get_bind fun draft => ?_
  split
  · exact keeps_throw _
  · exact keeps_pure _

theorem keeps_addField (access : Access) (name descriptor : String)
    (hpooling : ∀ text, Keeps view (pooling (Pooling.utf8 text)))
    (hview : ∀ (draft : ClassDraft) fields keys,
      view { draft with fields := fields, fieldKeys := keys } = view draft) :
    Keeps view (addField access name descriptor) := by
  have hadd : Keeps view (do
      let nameIndex ← pooling (Pooling.utf8 name)
      let descriptorIndex ← pooling (Pooling.utf8 descriptor)
      let bytes := Bytes.ofU2 access ++ Bytes.ofU2 nameIndex ++ Bytes.ofU2 descriptorIndex ++ [0, 0]
      modify fun draft => { draft with
        fields := draft.fields.push bytes
        fieldKeys := (name, descriptor) :: draft.fieldKeys }) :=
    (hpooling name).bind fun _ => (hpooling descriptor).bind fun _ =>
      keeps_modify fun draft => hview draft _ _
  refine keeps_get_bind fun draft => ?_
  split
  · exact (keeps_throw _).bind fun _ => hadd
  · exact hadd

end Keeps

/-- Taking a key fails if it is taken, and adds it otherwise. -/
theorem run_takeMethodKey : (takeMethodKey name descriptor).run draft =
    if draft.hasMethod name descriptor then
      (.error (.internal (.methodTwice name descriptor)), draft)
    else (.ok (), { draft with methodKeys := (name, descriptor) :: draft.methodKeys }) := by
  by_cases h : draft.hasMethod name descriptor
  · rw [if_pos h]
    refine fails_get_bind.mpr ?_
    rw [if_pos h]
    exact fails_bind.mpr (.inl (fails_throw.mpr ⟨rfl, rfl⟩))
  · rw [if_neg h]
    exact yields_takeMethodKey.mpr ⟨by simpa [ClassDraft.hasMethod] using h, rfl⟩

theorem hasMethod_cons {keys : List (String × String)} {key : String × String}
    (h : next.methodKeys = key :: keys) : next.hasMethod name descriptor
      = (keys.contains (name, descriptor) || key == (name, descriptor)) := by
  unfold ClassDraft.hasMethod
  rw [h, List.contains_cons, Bool.or_comm, Bool.beq_comm]

/-- A step that takes a name for a method, taken or not, and then no other. -/
theorem hasMethod_of_take {α : Type} {name' descriptor' : String} {step : Drafting α}
    (hstep : Keeps ClassDraft.methodKeys step) :
    ((takeMethodKey name' descriptor' >>= fun _ => step).run draft).2.hasMethod name descriptor
      = (draft.hasMethod name descriptor || (name', descriptor') == (name, descriptor)) := by
  rw [run_sequence, run_takeMethodKey]
  by_cases h : draft.hasMethod name' descriptor'
  · -- The step is not reached, and the name was taken before.
    rw [if_pos h]
    by_cases hkey : (name', descriptor') = (name, descriptor)
    · cases hkey
      simp [h]
    · simp [hkey]
  · rw [if_neg h]
    exact hasMethod_cons (hstep _)

theorem run_checkOrigin {pool : ConstantPool} {m : Member} : (checkOrigin pool m).run draft =
    if draft.pool.origin = some pool.fingerprint then (.ok (), draft)
    else (.error (.internal (.foreignMember m.name m.descriptor)), draft) := by
  by_cases h : draft.pool.origin = some pool.fingerprint
  · rw [if_pos h]
    exact yields_checkOrigin.mpr ⟨h, rfl⟩
  · rw [if_neg h]
    refine fails_get_bind.mpr ?_
    rw [if_pos h]
    exact fails_throw.mpr ⟨rfl, rfl⟩

/-- Whether a call takes a name and a descriptor for a method, on a draft whose pool has this
origin. -/
def DraftCall.takes (origin : Option UInt64) (key : String × String) : DraftCall → Bool
  | commit m => (m.name, m.descriptor) == key
  | copyMethod pool m => origin == some pool.fingerprint && (m.name, m.descriptor) == key
  | _ => false

/-- **The names that methods have taken** after a call do not depend on whether it fails. -/
theorem hasMethod_call (draft : ClassDraft) (call : DraftCall) (name descriptor : String) :
    (call.steps.run draft).2.hasMethod name descriptor
      = (draft.hasMethod name descriptor || call.takes draft.pool.origin (name, descriptor)) := by
  -- Most calls take no key.
  have hnothing (h : Keeps ClassDraft.methodKeys call.steps) :
      (call.steps.run draft).2.hasMethod name descriptor
        = (draft.hasMethod name descriptor || false) := by
    rw [Bool.or_false]
    exact congrArg (List.contains · (name, descriptor)) (h draft)
  cases call with
  | header | addAttribute => exact hnothing fun _ => rfl
  | addField access name' descriptor' =>
    exact hnothing (keeps_addField _ _ _ (fun _ _ => rfl) fun _ _ _ => rfl)
  | request r => exact hnothing (Keeps.bind (fun _ => rfl) fun _ => keeps_pure _)
  | copyField pool m =>
    exact hnothing ((keeps_checkOrigin pool m).bind fun _ => keeps_modify fun _ => rfl)
  | commit m =>
    rw [DraftCall.steps, run_unanswered]
    exact hasMethod_of_take (Keeps.bind (fun _ => rfl) fun _ _ => rfl)
  | copyMethod pool m =>
    rw [DraftCall.steps, copyMethod, run_sequence, run_checkOrigin, DraftCall.takes]
    by_cases horigin : draft.pool.origin = some pool.fingerprint
    · rw [if_pos horigin, horigin, beq_self_eq_true, Bool.true_and]
      exact hasMethod_of_take fun _ => rfl
    · rw [if_neg horigin, beq_false_of_ne horigin, Bool.false_and, Bool.or_false]

/-- A step on a pool that only adds to it. -/
theorem keeps_origin_pooling {α : Type} {step : Pooling α}
    (h : ∀ b : PoolBuilder, b.Grows (fun _ => True) (step.run b).2) :
    Keeps (·.pool.origin) (pooling step) :=
  fun draft => (h draft.pool).origin

/-- **No call changes where the pool came from.** -/
theorem origin_call (draft : ClassDraft) (call : DraftCall) :
    (call.steps.run draft).2.pool.origin = draft.pool.origin := by
  have hutf8 (text : String) : Keeps (·.pool.origin) (pooling (Pooling.utf8 text)) :=
    keeps_origin_pooling (PoolRequest.symbol (.utf8 text)).grows_step
  have htake (name descriptor : String) :
      Keeps (·.pool.origin) (takeMethodKey name descriptor) := by
    intro draft
    rw [run_takeMethodKey]
    split <;> rfl
  -- A pool grows or stays as it is, and growth keeps the origin.
  have hkeeps : Keeps (·.pool.origin) call.steps := by
    cases call with
    | header | addAttribute => exact fun _ => rfl
    | addField access name descriptor => exact keeps_addField _ _ _ hutf8 fun _ _ _ => rfl
    | request r => exact (keeps_origin_pooling r.grows_step).bind fun _ => keeps_pure _
    | copyField pool m => exact (keeps_checkOrigin pool m).bind fun _ => keeps_modify fun _ => rfl
    | copyMethod pool m =>
      exact (keeps_checkOrigin pool m).bind fun _ => (htake _ _).bind fun _ =>
        keeps_modify fun _ => rfl
    | commit m =>
      have hfinish : Keeps (·.pool.origin) (pooling m.finish) := keeps_origin_pooling fun b => by
        rcases yields_or_fails m.finish b with ⟨_, c, h⟩ | ⟨_, c, h⟩
        · rw [show _ = _ from h]
          exact MethodSource.grows_finish m.within_true h
        · rw [show _ = _ from h]
          exact MethodSource.grows_of_fails_finish m.within_true h
      exact Keeps.bind ((htake _ _).bind fun _ => hfinish.bind fun _ _ => rfl) fun _ => keeps_pure _
  exact hkeeps draft

end Names

/-! ### After a commit that failed -/

section Failed

variable {seed : Option ConstantPool} {draft next : ClassDraft} {m : MethodSource} {fault : Fault}
  {calls later : List DraftCall} {name descriptor : String}

/-- No call changes the pool that the draft was begun with. -/
theorem origin_after : (draft.after calls).pool.origin = draft.pool.origin := by
  induction calls generalizing draft with
  | nil => rfl
  | cons call calls ih =>
    rw [ClassDraft.after, List.foldl_cons, ← ClassDraft.after, ih, origin_call]

/-- The keys that are taken are those taken before and those that the calls take. -/
theorem hasMethod_after : (draft.after calls).hasMethod name descriptor
    = (draft.hasMethod name descriptor ||
      calls.any (·.takes draft.pool.origin (name, descriptor))) := by
  induction calls generalizing draft with
  | nil => exact (Bool.or_false _).symm
  | cons call calls ih =>
    rw [ClassDraft.after, List.foldl_cons, ← ClassDraft.after, ih, hasMethod_call, origin_call,
      List.any_cons, Bool.or_assoc]

/-- A commit that fails takes the name of its method all the same. -/
theorem hasMethod_of_fails_commit (hfails : Fails (commit m) draft fault next) :
    next.hasMethod name descriptor
      = (draft.hasMethod name descriptor || (m.name, m.descriptor) == (name, descriptor)) := by
  have h := hasMethod_call draft (.commit m) name descriptor
  rw [DraftCall.steps, run_unanswered, show (commit m).run draft = _ from hfails] at h
  exact h

theorem origin_of_fails_commit (hfails : Fails (commit m) draft fault next) :
    next.pool.origin = draft.pool.origin := by
  have h := origin_call draft (.commit m)
  rw [DraftCall.steps, run_unanswered, show (commit m).run draft = _ from hfails] at h
  exact h

/-- **The names that are taken later** are those that would have been taken anyway, and that of the
method that was not committed. -/
theorem hasMethod_after_fails (hfails : Fails (commit m) draft fault next) :
    (next.after later).hasMethod name descriptor
      = ((draft.after later).hasMethod name descriptor ||
        (m.name, m.descriptor) == (name, descriptor)) := by
  rw [hasMethod_after, hasMethod_after, hasMethod_of_fails_commit hfails,
    origin_of_fails_commit hfails, Bool.or_right_comm]

/-- A call is refused because its method has been written before. -/
def ClassDraft.RefusesTwice (draft : ClassDraft) (call : DraftCall) : Prop :=
  ∃ name descriptor next, Fails call.steps draft (.internal (.methodTwice name descriptor)) next

/-- A call adds a method with a name and a descriptor. If the method is laid out, it can be. -/
def DraftCall.AddsMethod (key : String × String) : DraftCall → Prop
  | commit m => m.Finishable ∧ (m.name, m.descriptor) = key
  | copyMethod _ m => (m.name, m.descriptor) = key
  | _ => False

theorem refusesTwice_of_taken (h : draft.hasMethod m.name m.descriptor = true) :
    draft.RefusesTwice (.commit m) := by
  have htwice : Fails (takeMethodKey m.name m.descriptor) draft
      (.internal (.methodTwice m.name m.descriptor)) draft := by
    rw [Fails, run_takeMethodKey, if_pos h]
  exact ⟨m.name, m.descriptor, draft, fails_bind.mpr (.inl (fails_bind.mpr (.inl htwice)))⟩

/-- A method that can be laid out is refused as written twice only if its name is taken. -/
theorem refusesTwice_commit (hm : m.Finishable) :
    draft.RefusesTwice (.commit m) ↔ draft.hasMethod m.name m.descriptor = true := by
  refine ⟨?_, refusesTwice_of_taken⟩
  rintro ⟨name, descriptor, next, h⟩
  rcases fails_bind.mp h with h | ⟨_, _, _, h⟩
  · -- Laying the method out is no fault of the library, but writing it twice would be.
    by_contra htaken
    have hfresh : (m.name, m.descriptor) ∉ draft.methodKeys := by
      simpa [ClassDraft.hasMethod] using htaken
    exact blamelessFrom_commit hfresh hm _ _ h rfl
  · exact absurd h fails_pure

/-- A method that could be copied is refused as written twice if its name is taken. -/
theorem refusesTwice_copyMethod {pool : ConstantPool} {m : Member} :
    draft.RefusesTwice (.copyMethod pool m) ↔
      draft.pool.origin = some pool.fingerprint ∧ draft.hasMethod m.name m.descriptor = true := by
  unfold ClassDraft.RefusesTwice DraftCall.steps copyMethod Fails
  rw [run_sequence, run_checkOrigin]
  by_cases horigin : draft.pool.origin = some pool.fingerprint
  · rw [if_pos horigin]
    dsimp only
    rw [run_sequence, run_takeMethodKey]
    by_cases htaken : draft.hasMethod m.name m.descriptor
    · rw [if_pos htaken]
      exact ⟨fun _ => ⟨horigin, htaken⟩, fun _ => ⟨_, _, _, rfl⟩⟩
    · rw [if_neg htaken]
      exact ⟨nofun, fun h => absurd h.2 htaken⟩
  · rw [if_neg horigin]
    exact ⟨nofun, fun h => absurd h.1 horigin⟩

/-- **A later method of another name** is refused as written twice if and only if it would have been
refused anyway. -/
theorem refusesTwice_after_fails {key : String × String} {call : DraftCall}
    (hfails : Fails (commit m) draft fault next) (hkey : key ≠ (m.name, m.descriptor))
    (hcall : call.AddsMethod key) :
    (next.after later).RefusesTwice call ↔ (draft.after later).RefusesTwice call := by
  have htaken : (next.after later).hasMethod key.1 key.2
      = (draft.after later).hasMethod key.1 key.2 := by
    rw [hasMethod_after_fails hfails, beq_false_of_ne (Ne.symm hkey), Bool.or_false]
  cases call with
  | commit m' =>
    obtain ⟨hm', rfl⟩ := hcall
    rw [refusesTwice_commit hm', refusesTwice_commit hm', htaken]
  | copyMethod pool m' =>
    cases hcall
    rw [refusesTwice_copyMethod, refusesTwice_copyMethod, htaken, origin_after, origin_after,
      origin_of_fails_commit hfails]
  | header | addField | addAttribute | request | copyField => exact hcall.elim

/-- The bytes of a draft are those of a class file with what was recorded. -/
theorem Recorded.exists_parse {r : ClassRecord} {bytes : Bytes} (h : Recorded seed draft r)
    (hseed : ∀ old ∈ seed, PoolBuilder.WasRead old)
    (hversion : isKnownVersion draft.header.major = true) (hbytes : draft.toBytes = .ok bytes) :
    ∃ c, parse bytes = .ok c ∧ c.record = r := by
  obtain ⟨c, hparse, hheader, hattributes, hsuits, -, hfields, hmethods⟩ :=
    h.framed.parse_toBytes hseed hbytes hversion
  refine ⟨c, hparse, ?_⟩
  rw [record, hheader, hattributes, h.header, h.attributes, h.fields.signatures_eq hsuits hfields,
    h.methods.signatures_eq hsuits hmethods]

/-- **A commit that fails leaves a draft as usable as before, but for the name of its method**,
whatever was called before and wherever it fails. No name of a field is taken or given back, and the
members that were added are there. If the draft is written, then it would have been written before;
the other way round it is written if it would have been before, unless the pool has no room left. If
the members that were copied are those of the class file that the draft started from, what is
written is a class file with the same header, the same members and the same attributes. At any later
time the names that methods have taken are those that would have been taken anyway and that of the
method that was not committed, and a method of any other name that can be laid out, or is copied, is
refused as written twice only if it would have been refused anyway. -/
theorem usable_after_failed_commit {source : Option ClassFile} {header : Header}
    (hfails : Fails (commit m) ((ClassDraft.start header (source.map (·.pool))).after calls) fault
      next) :
    let draft := (ClassDraft.start header (source.map (·.pool))).after calls
    (∀ name descriptor, next.hasField name descriptor = draft.hasField name descriptor) ∧
    next.fields = draft.fields ∧ next.methods = draft.methods ∧
    (∀ bytes', next.toBytes = .ok bytes' → ∃ bytes, draft.toBytes = .ok bytes ∧
      ((∀ c ∈ source, ∃ read, parse read = .ok c) → (∀ call ∈ calls, call.CopiesFrom source) →
        isKnownVersion draft.header.major = true →
          ∃ c c', parse bytes = .ok c ∧ parse bytes' = .ok c' ∧ c'.record = c.record)) ∧
    (∀ bytes cause, draft.toBytes = .ok bytes → next.toBytes = .error cause →
      cause = .unsupported .poolFull) ∧
    ∀ later : List DraftCall,
      (∀ name descriptor, (next.after later).hasMethod name descriptor
        = ((draft.after later).hasMethod name descriptor ||
          (m.name, m.descriptor) == (name, descriptor))) ∧
      ∀ key call, key ≠ (m.name, m.descriptor) → call.AddsMethod key →
        ((next.after later).RefusesTwice call ↔ (draft.after later).RefusesTwice call) := by
  intro draft
  have hleaves := fails_commit hfails
  obtain ⟨pool, keys, hpool, -, hnext⟩ := id hleaves
  obtain ⟨hwritten, hfull⟩ :
      (∀ bytes', next.toBytes = .ok bytes' → ∃ bytes, draft.toBytes = .ok bytes) ∧
      ∀ bytes fault, draft.toBytes = .ok bytes → next.toBytes = .error fault →
        fault = .unsupported .poolFull := by
    subst hnext
    exact toBytes_of_grows hpool rfl rfl rfl rfl
  refine ⟨fun _ _ => by rw [hnext]; rfl, by rw [hnext], by rw [hnext],
    fun bytes' hbytes' => ?_, hfull,
    fun later => ⟨fun _ _ => hasMethod_after_fails hfails, fun key call hkey hcall =>
      refusesTwice_after_fails hfails hkey hcall⟩⟩
  obtain ⟨bytes, hbytes⟩ := hwritten bytes' hbytes'
  refine ⟨bytes, hbytes, fun hsource hcalls hversion => ?_⟩
  -- The record of the calls is in step with the draft before the commit and behind it.
  have hwell : ∀ c ∈ source, c.WellRead := fun c hc =>
    (hsource c hc).elim fun _ h => wellRead_of_parse h
  have hseed : ∀ old ∈ source.map (·.pool), PoolBuilder.WasRead old := by
    intro old hold
    obtain ⟨c, hc, rfl⟩ := Option.mem_map.mp hold
    exact (hwell c hc).pool
  have hversion' : isKnownVersion next.header.major = true := by
    rw [hnext]
    exact hversion
  have hrecorded : Recorded (source.map (·.pool)) draft _ :=
    recorded_start.after fun call hcall => (hcalls call hcall).native hwell
  obtain ⟨c, hparse, hrecord⟩ := hrecorded.exists_parse hseed hversion hbytes
  obtain ⟨c', hparse', hrecord'⟩ := (hrecorded.leaves hleaves).exists_parse hseed hversion' hbytes'
  exact ⟨c, c', hparse, hparse', hrecord'.trans hrecord.symm⟩

/-- A method `f()V` that has code, but no instruction in it. -/
def unfinished : MethodSource where
  access := 9
  name := "f"
  descriptor := "()V"
  events := [.code 0 0]

/-- A class `T` with a field and a method. -/
def withMembers : ClassDraft :=
  (ClassDraft.start ⟨0, 52, 0x21, "T", none, []⟩ none).after [.addField 1 "x" "I", .commit nothing]

/-- A method `h()V` without code. -/
def abstractMethod : MethodSource where
  access := 0x401
  name := "h"
  descriptor := "()V"

theorem finishable_abstractMethod : abstractMethod.Finishable where
  closed := ⟨nofun, nofun, nofun, fun _ _ h => (by cases h), nofun⟩
  nodup := by decide
  insns := nofun
  ascending := .nil
  inside := nofun
  frames := nofun
  forwards _ _ h := by cases h
  nonempty := nofun

/-- It can still be written after a commit that failed, declares the same, and takes other methods.
-/
theorem usable_after_failed_commit_empty : ∃ fault next bytes bytes' c c',
    Fails (commit unfinished) withMembers fault next ∧ withMembers.toBytes = .ok bytes ∧
      next.toBytes = .ok bytes' ∧ parse bytes = .ok c ∧ parse bytes' = .ok c' ∧
      c'.record = c.record ∧ next.hasField "x" "I" = true ∧
      ¬ next.RefusesTwice (.commit abstractMethod) := by
  have hrun : ((commit unfinished).run withMembers).1.isOk = false ∧
      ((commit unfinished).run withMembers).2.toBytes.isOk = true := by
    decide +kernel
  rcases yields_or_fails (commit unfinished) withMembers with ⟨_, next, hy⟩ | ⟨fault, next, hf⟩
  · rw [show _ = _ from hy] at hrun
    cases hrun.1
  · rw [show _ = _ from hf] at hrun
    obtain ⟨hfield, -, -, hwritten, -, hlater⟩ :=
      @usable_after_failed_commit next unfinished fault [.addField 1 "x" "I", .commit nothing] none
        ⟨0, 52, 0x21, "T", none, []⟩ hf
    cases hbytes' : next.toBytes with
    | error cause =>
      rw [hbytes'] at hrun
      cases hrun.2
    | ok bytes' =>
      obtain ⟨bytes, hbytes, hparse⟩ := hwritten bytes' hbytes'
      obtain ⟨c, c', hc, hc', hrecord⟩ :=
        hparse nofun (by simp [DraftCall.CopiesFrom]) (by decide +kernel)
      -- The key of a method that failed is not taken by the next one.
      have htwice := (hlater []).2 ("h", "()V") (.commit abstractMethod) (by decide)
        ⟨finishable_abstractMethod, rfl⟩
      refine ⟨fault, next, bytes, bytes', c, c', hf, hbytes, hbytes', hc, hc', hrecord,
        (hfield "x" "I").trans (by decide +kernel), fun h => ?_⟩
      have htaken := (refusesTwice_commit finishable_abstractMethod).mp (htwice.mp h)
      revert htaken
      decide +kernel

/-- After a commit of `f()V` that failed, a method with its name and descriptor is refused as
written twice, which would have been added before. -/
theorem name_lost :
    let draft := ClassDraft.start ⟨0, 52, 0x21, "T", none, []⟩ none
    ((commit unfinished).run draft).1.isOk = false ∧ draft.hasMethod "f" "()V" = false ∧
      ((commit unfinished).run draft).2.hasMethod "f" "()V" = true ∧
      ((commit { nothing with name := "f" }).run draft).1.isOk = true ∧
      ((commit unfinished).run draft).2.RefusesTwice (.commit { nothing with name := "f" }) :=
  ⟨by decide +kernel, by decide +kernel, by decide +kernel, by decide +kernel,
    refusesTwice_of_taken (by decide +kernel)⟩

end Failed

end RoundingPatch.ClassFile
