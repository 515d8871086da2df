import RoundingPatch.Proofs.ClassFile.Code.Insns
import RoundingPatch.Proofs.ClassFile.Pool.Seeded
/-!
# Pools that serve requests

A pool builder is asked for the indices of symbols and of constants, one request after the other.
`serve` answers them all: a request that fails, because the pool is full or a text is too long, may
leave entries behind, and the requests after it are served all the same.

Whatever happens, the builder has only grown (`grows_serve`), and what a request was answered is
still known in the end (`known_of_answer`). So the pool that is written in the end reads back, has
every entry of the pool it started from, and denotes every symbol asked for by the index that was
answered (`serve_denotes`).
-/

namespace RoundingPatch.ClassFile

open Read PoolBuilder

/-! ### Serving requests -/

/-- What a pool can be asked for. -/
inductive PoolRequest
  | symbol (s : Symbol)
  /-- A constant to be loaded. One that is an index already stands for no symbol. -/
  | constant (value : Constant)

namespace PoolRequest

/-- The symbol asked for. -/
def symbol? : PoolRequest → Option Symbol
  | symbol s => some s
  | constant value => value.symbol?

/-- Answers a request. -/
def step : PoolRequest → Pooling UInt16
  | symbol s => Pooling.index s
  | constant value => Pooling.constant value

/-- Asking for a constant is asking for its symbol. -/
theorem step_of_symbol? {r : PoolRequest} {s : Symbol} (h : r.symbol? = some s) :
    r.step = Pooling.index s := by
  cases r with
  | symbol _ =>
    cases h
    rfl
  | constant value => cases value <;> cases h <;> rfl

/-- Whether it succeeds or not, a request only makes the pool grow. -/
theorem grows_step (r : PoolRequest) (b : PoolBuilder) :
    b.Grows (fun _ => True) (r.step.run b).2 := by
  rcases hs : r.symbol? with _ | s
  · -- An index is answered as it is or refused; the pool stays.
    rcases r with _ | (_ | _ | _ | _ | _ | _ | index) <;> cases hs
    have hrun : ((constant (.pooled index)).step.run b).2 = b := by
      rcases yields_or_fails ((constant (.pooled index)).step) b with ⟨a, t, h⟩ | ⟨fault, t, h⟩
      · obtain ⟨_, h'⟩ := Pooling.yields_unless.mp (yields_get_bind.mp h)
        rw [show _ = _ from h]
        exact (yields_pure.mp h').2.symm
      · have h' := fails_get_bind.mp h
        rw [show _ = _ from h]
        split at h'
        · rcases fails_bind.mp h' with h' | ⟨_, _, h', _⟩
          · exact (fails_throw.mp h').2.symm
          · exact absurd h' Pooling.yields_fail
        · exact absurd h' fails_pure
    rw [hrun]
    exact .refl
  · rw [step_of_symbol? hs]
    have huses : Pooling.Uses (fun _ => True) (Pooling.index s) :=
      Pooling.uses_index fun _ _ => trivial
    rcases yields_or_fails (Pooling.index s) b with ⟨a, t, h⟩ | ⟨fault, t, h⟩
    · rw [show _ = _ from h]
      exact huses.grows h
    · rw [show _ = _ from h]
      exact huses.leaves h

end PoolRequest

/-- The answers to some requests, one after the other, and the pool they leave behind. -/
def serve (b : PoolBuilder) : List PoolRequest → List (Except Fault UInt16) × PoolBuilder
  | [] => ([], b)
  | r :: rest =>
    let (answer, c) := r.step.run b
    let (answers, final) := serve c rest
    (answer :: answers, final)

variable {b : PoolBuilder} {requests : List PoolRequest} {s t : Symbol} {i j : UInt16}

theorem serve_cons (r : PoolRequest) : serve b (r :: requests)
    = ((r.step.run b).1 :: (serve (r.step.run b).2 requests).1,
      (serve (r.step.run b).2 requests).2) := rfl

/-- Requests only add entries, also where they fail. -/
theorem grows_serve : b.Grows (fun _ => True) (serve b requests).2 := by
  induction requests generalizing b with
  | nil => exact .refl
  | cons r rest ih =>
    rw [serve_cons]
    exact (r.grows_step b).trans ih

/-- **What a request was answered** is known in the end. -/
theorem known_of_answer {n : Nat} {r : PoolRequest} (hr : requests[n]? = some r)
    (hs : r.symbol? = some s) (ha : (serve b requests).1[n]? = some (.ok i)) :
    (serve b requests).2.known[s]? = some i := by
  induction requests generalizing b n with
  | nil => cases hr
  | cons r' rest ih =>
    rw [serve_cons] at ha ⊢
    cases n with
    | zero =>
      cases hr
      have hy : Yields (Pooling.index s) b i (r.step.run b).2 := by
        rw [← PoolRequest.step_of_symbol? hs]
        exact Prod.ext (Option.some.inj ha) rfl
      exact grows_serve.known (Pooling.grows_index hy).2
    | succ n => exact ih hr ha

/-- What is known is answered to whoever asks. -/
theorem answer_of_known {n : Nat} {r : PoolRequest} (hr : requests[n]? = some r)
    (hs : r.symbol? = some s) (hk : b.known[s]? = some i) :
    (serve b requests).1[n]? = some (.ok i) := by
  induction requests generalizing b n with
  | nil => cases hr
  | cons r' rest ih =>
    rw [serve_cons]
    cases n with
    | zero =>
      cases hr
      rw [PoolRequest.step_of_symbol? hs, show _ = _ from Pooling.index_of_known hk]
      rfl
    | succ n => exact ih hr ((r'.grows_step b).known hk)

/-- **Asking again** for a symbol is answered the same. -/
theorem answer_again {m n : Nat} (hmn : m ≤ n) {r r' : PoolRequest} (hr : requests[m]? = some r)
    (hr' : requests[n]? = some r') (hs : r.symbol? = some s) (hs' : r'.symbol? = some s)
    (ha : (serve b requests).1[m]? = some (.ok i)) :
    (serve b requests).1[n]? = some (.ok i) := by
  induction requests generalizing b m n with
  | nil => cases hr
  | cons first rest ih =>
    rw [serve_cons] at ha ⊢
    cases m with
    -- The first request is the earlier one; what it answers is known from then on.
    | zero =>
      cases hr
      cases n with
      | zero => exact ha
      | succ n =>
        have hy : Yields (Pooling.index s) b i (r.step.run b).2 := by
          rw [← PoolRequest.step_of_symbol? hs]
          exact Prod.ext (Option.some.inj ha) rfl
        exact answer_of_known (n := n) hr' hs' (Pooling.grows_index hy).2
    | succ m =>
      cases n with
      | zero => omega
      | succ n => exact ih (Nat.le_of_succ_le_succ hmn) hr hr' ha

/-! ### The pool in the end -/

/-- An index stands for one symbol at most. -/
theorem ConstantPool.Denotes.unique {pool : ConstantPool} (hs : pool.Denotes i s)
    (ht : pool.Denotes i t) : s = t := by
  obtain ⟨e, he, hs⟩ := hs
  obtain ⟨e', he', ht⟩ := ht
  cases he.symm.trans he'
  exact Option.some.inj (hs.symm.trans ht)

/-- A builder that starts from a pool, or from nothing. -/
def PoolBuilder.start : Option ConstantPool → PoolBuilder
  | some pool => ofPool pool
  | none => empty

/-- **A pool that served requests** reads back with as many indices as it counts. It has every entry
of the pool it started from, it denotes every symbol asked for by the index answered, a symbol asked
for again has the same index, and different symbols have different ones. -/
theorem serve_denotes (seed : Option ConstantPool)
    (hseed : ∀ pool ∈ seed, ∃ c c', c.gap = 0 ∧ ConstantPool.read c = .ok (pool, c'))
    (requests : List PoolRequest) :
    let answers := (serve (start seed) requests).1
    let final := (serve (start seed) requests).2
    ∃ pool : ConstantPool,
      Reads ConstantPool.read (Bytes.ofU2 (UInt16.ofNat final.count) ++ final.bytes) pool ∧
      final.count ≤ 65535 ∧ pool.slots.size = final.count ∧
      (∀ old ∈ seed, old.slots.toList <+: pool.slots.toList ∧ old.raw <+: pool.raw) ∧
      (∀ (n : Nat) (r : PoolRequest) (s : Symbol) (i : UInt16),
        requests[n]? = some r → r.symbol? = some s →
        answers[n]? = some (.ok i) → pool.Denotes i s) ∧
      (∀ (m n : Nat) (r r' : PoolRequest) (s : Symbol) (i : UInt16), m ≤ n →
        requests[m]? = some r → requests[n]? = some r' →
        r.symbol? = some s → r'.symbol? = some s →
        answers[m]? = some (.ok i) → answers[n]? = some (.ok i)) ∧
      (∀ (m n : Nat) (r r' : PoolRequest) (s t : Symbol) (i j : UInt16),
        requests[m]? = some r → requests[n]? = some r' →
        r.symbol? = some s → r'.symbol? = some t →
        answers[m]? = some (.ok i) → answers[n]? = some (.ok j) → s ≠ t → i ≠ j) := by
  have hstart : ∃ slots, (start seed).Sound slots ∧
      ∀ old ∈ seed, slots = old.slots ∧ (start seed).seed = old.raw := by
    rcases seed with _ | old
    · exact ⟨_, sound_empty, by simp⟩
    · obtain ⟨c, c', hgap, hread⟩ := hseed old rfl
      have hwas : WasRead old := (ConstantPool.gives_read c old c' hgap hread).1
      refine ⟨_, sound_ofPool hwas, ?_⟩
      rintro _ ⟨⟩
      exact ⟨rfl, rfl⟩
  -- From here on it does not matter what the pool started from.
  obtain ⟨slots, hsound, hold⟩ := hstart
  have hgrows : (start seed).Grows _ (serve (start seed) requests).2 := grows_serve
  obtain ⟨more, hfinal⟩ := hsound.grows hgrows
  have hdenotes : ∀ (n : Nat) (r : PoolRequest) (s : Symbol) (i : UInt16),
      requests[n]? = some r → r.symbol? = some s →
      (serve (start seed) requests).1[n]? = some (.ok i) →
      ((serve (start seed) requests).2.poolOf (slots ++ more)).Denotes i s :=
    fun n r s i hr hs ha => hfinal.means s i (known_of_answer hr hs ha)
  refine ⟨_, hfinal.reads, ?_, hfinal.next_eq.symm, fun old hmem => ?_, hdenotes, ?_, ?_⟩
  · exact Nat.le_trans (Nat.le_of_eq hfinal.next_eq) hfinal.room
  · obtain ⟨rfl, hraw⟩ := hold old hmem
    refine ⟨by simp [poolOf, ConstantPool.ofSlots], ?_⟩
    rw [← hraw, ← hgrows.seed]
    exact List.prefix_append ..
  · exact fun m n r r' s i hmn hr hr' hs hs' ha => answer_again hmn hr hr' hs hs' ha
  · rintro m n r r' s t i _ hr hr' hs ht ha ha' hne rfl
    exact hne ((hdenotes m r s i hr hs ha).unique (hdenotes n r' t i hr' ht ha'))

/-- The bytes of a pool that has the text `a` twice. -/
def twoTexts : Bytes := [0, 3, 1, 0, 1, 97, 1, 0, 1, 97]

/-- Requests for a class, for an index that is not there, for a string and for the class again. -/
def someRequests : List PoolRequest := [
  .symbol (.classRef "a"), .constant (.pooled 9), .constant (.string "b"),
  .constant (.classRef "a")]

/-- A class name finds the first of two equal texts, and finds itself when it is asked for again,
although a request in between is refused. -/
theorem serve_twoTexts : ∃ seed pool : ConstantPool, runOn ConstantPool.read twoTexts = .ok seed ∧
    (serve (start (some seed)) someRequests).1
      = [.ok 3, .error (.unsupported (.pooledConstant 9)), .ok 5, .ok 3] ∧
    seed.slots.toList <+: pool.slots.toList ∧ pool.slots.size = 6 ∧
    pool.Denotes 3 (.classRef "a") ∧ pool.Denotes 5 (.string "b") := by
  -- The run itself is computed, and the general result says what the indices denote.
  have hrun : (runOn ConstantPool.read twoTexts).map (fun seed =>
      ((serve (start (some seed)) someRequests).1,
        (serve (start (some seed)) someRequests).2.count))
      = .ok ([.ok 3, .error (.unsupported (.pooledConstant 9)), .ok 5, .ok 3], 6) := by
    decide +kernel
  rcases hseed : runOn ConstantPool.read twoTexts with fault | seed
  · rw [hseed] at hrun
    cases hrun
  · rw [hseed] at hrun
    obtain ⟨hanswers, hcount⟩ := Prod.mk.injEq .. |>.mp (Except.ok.inj hrun)
    obtain ⟨c', hread⟩ := runOn_eq_ok.mp hseed
    obtain ⟨pool, -, -, hsize, hold, hdenotes, -, -⟩ := serve_denotes (some seed)
      (by rintro _ ⟨⟩; exact ⟨_, c', rfl, hread⟩) someRequests
    rw [hanswers] at hdenotes
    exact ⟨seed, pool, rfl, hanswers, (hold _ rfl).1, hsize.trans hcount,
      hdenotes 0 _ _ _ rfl rfl rfl, hdenotes 2 _ _ _ rfl rfl rfl⟩

end RoundingPatch.ClassFile
