import Mathlib.Data.List.Forall2
import RoundingPatch.Machine.Basic
import RoundingPatch.Proofs.ClassFile.Method.Insertion
import RoundingPatch.Proofs.Machine.Calls
import RoundingPatch.Proofs.Machine.Operations
/-!
# Runs around a detour

A `Detour` is a place in a method where instructions were put in. A class with a detour runs like
the class without it for as long as the place is not reached: the same instructions are executed at
positions that have moved (`Detour.perform_simulates` for one operation, `Detour.run_simulates` for
a run), and the store is the same afterwards. A class with a detour may have one method more,
provided that no call to another class could have been answered in its place.

`Simulates R x y` is what carries the proof: whatever the computation `x` yields, `y` yields from
the same store something related, and leaves the same store.
-/

namespace RoundingPatch.Machine

open ClassFile

variable {α β γ δ ι : Type}

/-! ### Simulated computations -/

/-- Whatever `x` answers, `y` answers something related to it. -/
def Answers (R : α → β → Prop) (x : Except Fault α) (y : Except Fault β) : Prop :=
  ∀ a, x = .ok a → ∃ b, y = .ok b ∧ R a b

/-- Whatever `x` yields, `y` yields something related to it and leaves the same store. -/
def Simulates (R : α → β → Prop) (x : Exec α) (y : Exec β) : Prop :=
  ∀ s a t, Yields x s a t → ∃ b, Yields y s b t ∧ R a b

/-- Pairs with the same first part and related second ones. -/
def Beside (ι : Type) (R : α → β → Prop) (x : ι × α) (y : ι × β) : Prop :=
  x.1 = y.1 ∧ R x.2 y.2

section Closure

variable {R : α → β → Prop} {S : γ → δ → Prop} {a : α} {b : β}

theorem answers_ok (h : R a b) : Answers R (.ok a) (.ok b) := by
  rintro _ ⟨⟩
  exact ⟨b, rfl, h⟩

theorem answers_refl (x : Except Fault α) : Answers Eq x x :=
  fun a h => ⟨a, h, rfl⟩

theorem Answers.bind {x : Except Fault α} {y : Except Fault β} {f : α → Except Fault γ}
    {g : β → Except Fault δ} (h : Answers R x y) (hf : ∀ a b, R a b → Answers S (f a) (g b)) :
    Answers S (x >>= f) (y >>= g) := by
  intro c hc
  obtain ⟨a, ha, hc⟩ := except_bind_eq_ok.mp hc
  obtain ⟨b, hb, hab⟩ := h a ha
  obtain ⟨d, hd, hcd⟩ := hf a b hab c hc
  exact ⟨d, except_bind_eq_ok.mpr ⟨b, hb, hd⟩, hcd⟩

/-- The values in front of what is related are the same. -/
theorem Answers.bind_beside {x : Except Fault (ι × α)} {y : Except Fault (ι × β)}
    {f : ι × α → Except Fault γ} {g : ι × β → Except Fault δ} (h : Answers (Beside ι R) x y)
    (hf : ∀ i a b, R a b → Answers S (f (i, a)) (g (i, b))) : Answers S (x >>= f) (y >>= g) :=
  h.bind fun ⟨i, a⟩ ⟨_, b⟩ ⟨hi, hab⟩ => by
    obtain rfl : i = _ := hi
    exact hf i a b hab

theorem simulates_pure (h : R a b) : Simulates R (pure a) (pure b) := by
  intro s a' t hy
  obtain ⟨rfl, rfl⟩ := yields_pure.mp hy
  exact ⟨b, yields_pure.mpr ⟨rfl, rfl⟩, h⟩

theorem simulates_refl (x : Exec α) : Simulates Eq x x :=
  fun _ a _ h => ⟨a, h, rfl⟩

theorem simulates_lift {x : Except Fault α} {y : Except Fault β} (h : Answers R x y) :
    Simulates R (liftM x) (liftM y) := by
  intro s a t hy
  obtain ⟨ha, rfl⟩ := yields_lift.mp hy
  obtain ⟨b, hb, hab⟩ := h a ha
  exact ⟨b, yields_lift.mpr ⟨hb, rfl⟩, hab⟩

/-- Sequences simulate each other if their parts do. -/
theorem Simulates.bind {x : Exec α} {y : Exec β} {f : α → Exec γ} {g : β → Exec δ}
    (h : Simulates R x y) (hf : ∀ a b, R a b → Simulates S (f a) (g b)) :
    Simulates S (x >>= f) (y >>= g) := by
  intro s c u hc
  obtain ⟨a, t, ha, hc⟩ := yields_bind.mp hc
  obtain ⟨b, hb, hab⟩ := h s a t ha
  obtain ⟨d, hd, hcd⟩ := hf a b hab t c u hc
  exact ⟨d, hb.bind hd, hcd⟩

/-- Both run the same computation first. -/
theorem simulates_bind_same {x : Exec ι} {f : ι → Exec γ} {g : ι → Exec δ}
    (hf : ∀ a, Simulates S (f a) (g a)) : Simulates S (x >>= f) (x >>= g) :=
  (simulates_refl x).bind fun a _ h => h ▸ hf a

/-- Both use the same answer first. -/
theorem simulates_lift_bind_same {x : Except Fault ι} {f : ι → Exec γ} {g : ι → Exec δ}
    (hf : ∀ a, x = .ok a → Simulates S (f a) (g a)) :
    Simulates S (liftM x >>= f) (liftM x >>= g) := by
  intro s c u hc
  obtain ⟨a, t, ha, hc⟩ := yields_bind.mp hc
  obtain ⟨ha', rfl⟩ := yields_lift.mp ha
  obtain ⟨b, hb, hcb⟩ := hf a ha' s c u hc
  exact ⟨b, ha.bind hb, hcb⟩

/-- Both go on with the same value. -/
theorem simulates_lift_bind_eq {x y : Except Fault ι} {f : ι → Exec γ} {g : ι → Exec δ}
    (h : Answers Eq x y) (hf : ∀ a, Simulates S (f a) (g a)) :
    Simulates S (liftM x >>= f) (liftM y >>= g) :=
  (simulates_lift h).bind fun a _ heq => heq ▸ hf a

theorem simulates_lift_bind_beside {x : Except Fault (ι × α)} {y : Except Fault (ι × β)}
    {f : ι × α → Exec γ} {g : ι × β → Exec δ} (h : Answers (Beside ι R) x y)
    (hf : ∀ i a b, R a b → Simulates S (f (i, a)) (g (i, b))) :
    Simulates S (liftM x >>= f) (liftM y >>= g) :=
  (simulates_lift h).bind fun ⟨i, a⟩ ⟨_, b⟩ ⟨hi, hab⟩ => by
    obtain rfl : i = _ := hi
    exact hf i a b hab

/-- Both make the same check first. -/
theorem Simulates.check {fails : Prop} [Decidable fails] {f g : Fault} {x : Exec α} {y : Exec β}
    (h : Simulates R x y) : Simulates R (do
      if fails then throw f
      x) (do
      if fails then throw g
      y) := by
  split
  · intro s a t hy
    exact absurd hy yields_throw_bind
  · exact h

end Closure

/-! ### Operations with other labels -/

/-- Two operations that differ in their labels only, which are related. -/
inductive Operation.Alike (R : Label → Label → Prop) : Operation → Operation → Prop
  | same {op : Operation} (h : op.targets = []) : Alike R op op
  | branch (condition : Condition) {l l' : Label} (h : R l l') :
    Alike R (.branch condition l) (.branch condition l')
  | tableSwitch (low high : Int32) {default default' : Label} {targets targets' : List Label}
    (hdefault : R default default') (htargets : List.Forall₂ R targets targets') :
    Alike R (.tableSwitch low high default targets) (.tableSwitch low high default' targets')
  | lookupSwitch {default default' : Label} {pairs pairs' : List (Int32 × Label)}
    (hdefault : R default default') (hpairs : List.Forall₂ (Beside Int32 R) pairs pairs') :
    Alike R (.lookupSwitch default pairs) (.lookupSwitch default' pairs')

theorem Operation.alike_refl {R : Label → Label → Prop} (hR : ∀ l, R l l) (op : Operation) :
    op.Alike R op := by
  cases op with
  | branch condition target => exact .branch condition (hR target)
  | tableSwitch low high default targets =>
    exact .tableSwitch low high (hR default) (List.forall₂_same.mpr fun l _ => hR l)
  | lookupSwitch default pairs =>
    exact .lookupSwitch (hR default) (List.forall₂_same.mpr fun p _ => ⟨rfl, hR p.2⟩)
  | _ => exact .same rfl

/-- Lists that are mapped to the same list are related. -/
theorem forall₂_of_map_eq {R : α → β → Prop} {f : α → γ} {g : β → γ} {as : List α} {bs : List β}
    (h : as.map f = bs.map g) (hR : ∀ a ∈ as, ∀ b ∈ bs, f a = g b → R a b) :
    List.Forall₂ R as bs := by
  -- Lists with equal images are equally long.
  induction as generalizing bs with
  | nil =>
    obtain rfl : bs = [] := List.map_eq_nil_iff.mp h.symm
    exact .nil
  | cons a as ih =>
    cases bs with
    | nil => cases h
    | cons b bs =>
      rw [List.map_cons, List.map_cons, List.cons.injEq] at h
      exact .cons (hR a List.mem_cons_self b List.mem_cons_self h.1) (ih h.2 fun a ha b hb =>
        hR a (List.mem_cons_of_mem _ ha) b (List.mem_cons_of_mem _ hb))

/-- Operations with the same form under two renamings are alike. -/
theorem Operation.alike_of_mapLabels {R : Label → Label → Prop} {f g : Label → Label}
    {op op' : Operation} (h : op.mapLabels f = op'.mapLabels g)
    (hR : ∀ l ∈ op.targets, ∀ l' ∈ op'.targets, f l = g l' → R l l') : op.Alike R op' := by
  cases op with
  | branch condition target =>
    cases op' with
    | branch condition' target' =>
      obtain ⟨rfl, htarget⟩ := Operation.branch.inj h
      exact .branch condition (hR target List.mem_cons_self target' List.mem_cons_self htarget)
    | _ => cases h
  | tableSwitch low high default targets =>
    cases op' with
    | tableSwitch low' high' default' targets' =>
      obtain ⟨rfl, rfl, hdefault, htargets⟩ := Operation.tableSwitch.inj h
      exact .tableSwitch low high
        (hR default List.mem_cons_self default' List.mem_cons_self hdefault)
        (forall₂_of_map_eq htargets fun l hl l' hl' =>
          hR l (List.mem_cons_of_mem _ hl) l' (List.mem_cons_of_mem _ hl'))
    | _ => cases h
  | lookupSwitch default pairs =>
    cases op' with
    | lookupSwitch default' pairs' =>
      obtain ⟨hdefault, hpairs⟩ := Operation.lookupSwitch.inj h
      refine .lookupSwitch (hR default List.mem_cons_self default' List.mem_cons_self hdefault)
        (forall₂_of_map_eq hpairs fun p hp p' hp' heq => ?_)
      obtain ⟨hkey, hlabel⟩ := Prod.mk.inj heq
      exact ⟨hkey, hR p.2 (List.mem_cons_of_mem _ (List.mem_map_of_mem hp)) p'.2
        (List.mem_cons_of_mem _ (List.mem_map_of_mem hp')) hlabel⟩
    | _ => cases h
  | _ =>
    -- Without targets a renaming changes nothing.
    have hop' : op'.targets = [] := targets_of_mapLabels (f := g) (h ▸ rfl)
    rw [mapLabels_of_targets rfl, mapLabels_of_targets hop'] at h
    exact h ▸ .same rfl

/-! ### Detours -/

/-- A place in a method where instructions were put in. -/
structure Detour where
  /-- The name and the descriptor of the method. -/
  method : String × String
  position : ℕ
  /-- The number of instructions. -/
  width : ℕ

namespace Detour

variable (d : Detour)

/-- Where an instruction of a program lies in the program with the detour. -/
def place (p : Program) (n : ℕ) : ℕ :=
  if (p.name, p.descriptor) = d.method then moved d.position d.width n else n

/-- The instructions were not put in at position `n` of a program. -/
def Passes (p : Program) (n : ℕ) : Prop :=
  ((p.name, p.descriptor), n) ≠ (d.method, d.position)

/-- Two labels stand at the same instruction of a program with and without the detour. -/
def Lands (p p' : Program) (l l' : Label) : Prop :=
  ∀ n, p.target l = .ok n → p'.target l' = .ok (d.place p n)

/-- Program `p'` does what `p` does wherever the detour is not taken. -/
structure Keeps (p p' : Program) : Prop where
  isStatic : p'.isStatic = p.isStatic
  maxLocals : p'.maxLocals = p.maxLocals
  maxStack_le : p.maxStack.toNat ≤ p'.maxStack.toNat
  does : ∀ n i op, p.insns[n]? = some i → Operation.ofInsn i = .ok op → d.Passes p n →
    ∃ i' op', p'.insns[d.place p n]? = some i' ∧ Operation.ofInsn i' = .ok op' ∧
      op.Alike (d.Lands p p') op'

/-- Two activations are at the same point of a program with and without the detour. -/
structure Mirrors (p p' : Program) (a a' : Activation) : Prop where
  keeps : d.Keeps p p'
  program : a.program = p
  program' : a'.program = p'
  locals : a'.locals = a.locals
  stack : a'.stack = a.stack
  next : a'.next = d.place p a.next

/-- No object of the loaded class answers a call of a method that the class lacks: the method has a
result, and it is none of those that constants of enumerations have. -/
def Unanswered (name descriptor : String) : Prop :=
  name ∉ ["ordinal", "name", "toString"] ∧
    ∀ signature, MethodDescriptor.parse descriptor = .ok signature → signature.result.isSome

/-- Class `c'` is class `c` with the detour, and perhaps with another method. -/
structure Widens (c c' : LoadedClass) : Prop where
  name : c'.name = c.name
  cells : c'.cells = c.cells
  program : ∀ name descriptor p, c.program name descriptor = .ok p →
    ∃ p', c'.program name descriptor = .ok p' ∧ d.Keeps p p'
  hasMethod : ∀ name descriptor, c.hasMethod name descriptor = true →
    c'.hasMethod name descriptor = true
  added : ∀ name descriptor, c.hasMethod name descriptor = false →
    c'.hasMethod name descriptor = true → Unanswered name descriptor

/-- What comes after the same operation with and without the detour. -/
inductive Flows : Flow → Flow → Prop
  | next {p p' : Program} {a a' : Activation} (h : d.Mirrors p p' a a') :
    Flows (.next a) (.next a')
  | call {p p' callee callee' : Program} {a a' : Activation} (h : d.Mirrors p p' a a')
    (site : CallSite) (hcallee : d.Keeps callee callee') (args : List Value) :
    Flows (.call a site callee args) (.call a' site callee' args)
  | finished (result : Option Value) : Flows (.finished result) (.finished result)

variable {d}

theorem place_zero (p : Program) : d.place p 0 = 0 := by
  unfold place
  split
  · exact moved_of_le (Nat.zero_le _)
  · rfl

theorem place_succ {p : Program} {n : ℕ} (h : d.Passes p n) :
    d.place p (n + 1) = d.place p n + 1 := by
  unfold place
  split
  · next hmethod =>
    -- The next instruction moves along, unless the code inserted stands between the two.
    have hne : n ≠ d.position := fun heq => h (by rw [hmethod, heq])
    unfold moved
    split <;> split <;> omega
  · rfl

/-- A program without a detour is kept as it is. -/
theorem keeps_refl {p : Program} (h : (p.name, p.descriptor) ≠ d.method) : d.Keeps p p := by
  have hplace (n : ℕ) : d.place p n = n := if_neg h
  refine ⟨rfl, rfl, Nat.le_refl _, fun n i op hi hop _ => ⟨i, op, ?_, hop, ?_⟩⟩
  · rw [hplace, hi]
  · exact Operation.alike_refl (fun l m hm => by rw [hplace, hm]) op

/-! ### Activations -/

section Activations

variable {p p' : Program} {a a' : Activation} (h : d.Mirrors p p' a a')
include h

/-- Pushing a value keeps the frames in step: the widened program has at least the room. -/
theorem answers_push (v : Value) : Answers (d.Mirrors p p') (a.push v) (a'.push v) := by
  intro b hb
  unfold Activation.push at hb ⊢
  dsimp only at hb ⊢
  split at hb
  · cases hb
  · next hroom =>
    cases hb
    have hroom' : ¬ a'.program.maxStack.toNat ≤ a'.stack.length := by
      have := h.keeps.maxStack_le
      rw [h.stack, h.program']
      rw [h.program] at hroom
      omega
    rw [if_neg hroom', h.stack]
    exact ⟨_, rfl, h.keeps, h.program, h.program', h.locals, rfl, h.next⟩

theorem answers_pop : Answers (Beside Value (d.Mirrors p p')) a.pop a'.pop := by
  intro b hb
  unfold Activation.pop at hb ⊢
  rw [h.stack]
  split at hb
  · cases hb
    exact ⟨_, rfl, rfl, h.keeps, h.program, h.program', h.locals, rfl, h.next⟩
  · cases hb

theorem answers_popInt : Answers (Beside Int32 (d.Mirrors p p')) a.popInt a'.popInt :=
  (answers_pop h).bind_beside fun _ _ _ hb => (answers_refl _).bind fun _ _ heq =>
    answers_ok ⟨heq, hb⟩

theorem answers_popRef : Answers (Beside (Option ObjRef) (d.Mirrors p p')) a.popRef a'.popRef :=
  (answers_pop h).bind_beside fun _ _ _ hb => (answers_refl _).bind fun _ _ heq =>
    answers_ok ⟨heq, hb⟩

theorem answers_popObj (what : String) :
    Answers (Beside ObjRef (d.Mirrors p p')) (a.popObj what) (a'.popObj what) :=
  (answers_pop h).bind_beside fun _ _ _ hb => (answers_refl _).bind fun _ _ heq =>
    answers_ok ⟨heq, hb⟩

theorem answers_popMany (n : ℕ) (taken : List Value) :
    Answers (Beside (List Value) (d.Mirrors p p')) (a.popMany n taken) (a'.popMany n taken) := by
  induction n generalizing a a' taken with
  | zero => exact answers_ok ⟨rfl, h⟩
  | succ n ih => exact (answers_pop h).bind_beside fun v _ _ hb => ih hb (v :: taken)

theorem answers_peek : Answers Eq a.peek a'.peek := by
  unfold Activation.peek
  rw [h.stack]
  exact answers_refl _

theorem answers_load (index : UInt16) : Answers Eq (a.load index) (a'.load index) := by
  intro v hv
  unfold Activation.load at hv ⊢
  rw [h.locals]
  split at hv
  · exact ⟨v, hv, rfl⟩
  · cases hv

theorem answers_store (index : UInt16) (v : Value) :
    Answers (d.Mirrors p p') (a.store index v) (a'.store index v) := by
  intro b hb
  unfold Activation.store at hb ⊢
  rw [h.locals]
  split at hb
  · next hlt =>
    cases hb
    rw [if_pos hlt]
    exact ⟨_, rfl, h.keeps, h.program, h.program', rfl, h.stack, h.next⟩
  · cases hb

/-- A jump lands at the place where the target has gone. -/
theorem answers_jump {l l' : Label} (hl : d.Lands p p' l l') :
    Answers (d.Mirrors p p') (a.jump l) (a'.jump l') := by
  intro b hb
  obtain ⟨n, hn, hb⟩ := except_bind_eq_ok.mp hb
  cases hb
  rw [h.program] at hn
  have hjump : a'.jump l' = .ok { a' with next := d.place p n } :=
    except_bind_eq_ok.mpr ⟨_, by rw [h.program', hl n hn], rfl⟩
  exact ⟨_, hjump, h.keeps, h.program, h.program', h.locals, h.stack, rfl⟩

theorem answers_test (condition : Condition) :
    Answers (Beside Bool (d.Mirrors p p')) (a.test condition) (a'.test condition) := by
  cases condition with
  | always => exact answers_ok ⟨rfl, h⟩
  | withZero c => exact (answers_popInt h).bind_beside fun _ _ _ hb => answers_ok ⟨rfl, hb⟩
  | words c =>
    exact (answers_popInt h).bind_beside fun _ _ _ hb =>
      (answers_popInt hb).bind_beside fun _ _ _ hb => answers_ok ⟨rfl, hb⟩
  | sameObject expected =>
    exact (answers_popRef h).bind_beside fun _ _ _ hb =>
      (answers_popRef hb).bind_beside fun _ _ _ hb => answers_ok ⟨rfl, hb⟩
  | isNull expected => exact (answers_popRef h).bind_beside fun _ _ _ hb => answers_ok ⟨rfl, hb⟩

theorem answers_receive (site : CallSite) (result : Option Value) :
    Answers (d.Mirrors p p') (a.receive site result) (a'.receive site result) := by
  unfold Activation.receive
  split
  · exact answers_push h _
  · exact answers_ok h
  · exact fun _ hb => by cases hb

end Activations

/-! ### Operations -/

section Operations

variable {c c' : LoadedClass} {p p' : Program} {a a' : Activation}

/-- An operation ends with an activation. -/
theorem simulates_next {x y : Except Fault Activation} (h : Answers (d.Mirrors p p') x y) :
    Simulates d.Flows (liftM x >>= fun a => pure (.next a)) (liftM y >>= fun a => pure (.next a)) :=
  (simulates_lift h).bind fun _ _ hab => simulates_pure (.next hab)

theorem answers_tableTarget {R : Label → Label → Prop} {low high : Int32} {default default' : Label}
    {targets targets' : List Label} (hdefault : R default default')
    (htargets : List.Forall₂ R targets targets') (index : Int32) :
    Answers R (tableTarget low high default targets index)
      (tableTarget low high default' targets' index) := by
  unfold tableTarget
  split
  · intro l hl
    split at hl
    · next l' hl' =>
      cases hl
      obtain ⟨hlt, rfl⟩ := List.getElem?_eq_some_iff.mp hl'
      have hlt' := htargets.length_eq ▸ hlt
      rw [List.getElem?_eq_getElem hlt']
      exact ⟨_, rfl, htargets.get hlt hlt'⟩
    · cases hl
  · exact answers_ok hdefault

theorem lookupTarget_related {R : Label → Label → Prop} {default default' : Label}
    {pairs pairs' : List (Int32 × Label)} (hdefault : R default default')
    (hpairs : List.Forall₂ (Beside Int32 R) pairs pairs') (key : Int32) :
    R (lookupTarget default pairs key) (lookupTarget default' pairs' key) := by
  unfold lookupTarget
  -- Both lists have the same keys, so the look-up stops at the same pair.
  induction hpairs with
  | nil => exact hdefault
  | @cons p p' pairs pairs' hp hpairs ih =>
    rw [List.lookup_cons, List.lookup_cons, ← hp.1]
    cases key == p.1 with
    | true => exact hp.2
    | false => exact ih

/-- What a call to another class answers: a constructor nothing, and constants of enumerations a few
methods. -/
theorem exists_of_yields_intrinsic {site : CallSite} {receiver : ObjRef} {args : List Value}
    {s t : Store} {result : Option Value} (hy : Yields (intrinsic site receiver args) s result t) :
    result = none ∨ site.name ∈ ["ordinal", "name", "toString"] := by
  obtain ⟨_, _, -, hy⟩ := yields_bind.mp hy
  split at hy
  · -- A constructor of another class.
    left
    split at hy
    · split at hy
      · obtain ⟨_, _, -, hy⟩ := yields_bind.mp hy
        exact (yields_pure.mp hy).1.symm
      · exact (yields_pure.mp hy).1.symm
    · exact (yields_pure.mp hy).1.symm
  · -- A method of a constant.
    right
    obtain ⟨o, _, -, hy⟩ := yields_bind.mp hy
    split at hy
    · split at hy
      · next hname _ => simp [hname]
      · next hname _ => simp [hname]
      · next hname _ => simp [hname]
      · exact absurd hy yields_throw
    · exact absurd hy yields_throw

/-- Where a call on an object goes is the same with and without the detour, unless the method is the
one that was added, to which no call was made that ended well. -/
theorem dispatchesHere_eq_or (hc : d.Widens c c') (kind : CallKind)
    (owner name descriptor : String) (receiver : ObjRef) :
    dispatchesHere c' kind owner name descriptor receiver
        = dispatchesHere c kind owner name descriptor receiver ∨
      dispatchesHere c kind owner name descriptor receiver = pure false ∧
        Unanswered name descriptor := by
  unfold dispatchesHere
  rw [hc.name]
  -- A call that names the class itself goes to it, whatever it declares.
  by_cases howner : owner = c.name
  · left
    rw [if_pos howner, if_pos howner]
  · rw [if_neg howner, if_neg howner]
    -- A call that names another class goes by what the class of the object declares.
    cases hhere : c.hasMethod name descriptor with
    | true => simp [hc.hasMethod name descriptor hhere]
    | false =>
      cases hthere : c'.hasMethod name descriptor with
      | true => simp [hc.added name descriptor hhere hthere]
      | false => simp

/-- A call on an object goes on alike. -/
theorem dispatch_simulates (hc : d.Widens c c') (h : d.Mirrors p p' a a') (kind : CallKind)
    {owner name descriptor : String} {signature : MethodDescriptor}
    (hsignature : MethodDescriptor.parse descriptor = .ok signature) (receiver : ObjRef)
    (args : List Value) :
    let site : CallSite := ⟨owner, name, descriptor, signature.result.isSome⟩
    let dispatch (c : LoadedClass) (a : Activation) : Exec Flow := do
      if ← dispatchesHere c kind owner name descriptor receiver then
        return .call a site (← c.program name descriptor) (.obj receiver :: args)
      else
        let result ← intrinsic site receiver args
        return .next (← a.receive site result)
    Simulates d.Flows (dispatch c a) (dispatch c' a') := by
  intro site dispatch
  obtain heq | ⟨hfalse, hnames, hresult⟩ :=
    dispatchesHere_eq_or hc kind owner name descriptor receiver
  · dsimp only [dispatch]
    rw [heq]
    refine simulates_bind_same fun here => ?_
    cases here with
    | true =>
      exact (simulates_lift (hc.program name descriptor)).bind fun _ _ hcallee =>
        simulates_pure (.call h site hcallee _)
    | false => exact simulates_bind_same fun result =>
      simulates_next (answers_receive h site result)
  · -- Without the detour the call leaves the class, and then it cannot end well.
    dsimp only [dispatch]
    rw [hfalse]
    intro s flow t hy
    obtain ⟨here, _, hhere, hy⟩ := yields_bind.mp hy
    obtain ⟨rfl, -⟩ := yields_pure.mp hhere
    obtain ⟨result, _, hintrinsic, hy⟩ := yields_bind.mp hy
    obtain ⟨b, _, hreceive, -⟩ := yields_bind.mp hy
    obtain rfl := (exists_of_yields_intrinsic hintrinsic).resolve_right hnames
    have hreceive := (yields_lift.mp hreceive).1
    have hreturns : site.returns = true := hresult signature hsignature
    unfold Activation.receive at hreceive
    rw [hreturns] at hreceive
    cases hreceive

/-- **Calls** go to the same methods. -/
theorem invoke_simulates (hc : d.Widens c c') (h : d.Mirrors p p' a a') (kind : CallKind)
    (owner name descriptor : String) :
    Simulates d.Flows (invoke c a kind owner name descriptor)
      (invoke c' a' kind owner name descriptor) := by
  unfold invoke
  refine simulates_lift_bind_same fun signature hsignature => ?_
  cases kind with
  | static =>
    rw [hc.name]
    exact .check <| simulates_lift_bind_beside (answers_popMany h _ _) fun args _ _ hb => .check <|
      (simulates_lift (hc.program name descriptor)).bind fun _ _ hcallee =>
        simulates_pure (.call hb _ hcallee args)
  | virtual | special =>
    exact .check <| simulates_lift_bind_beside (answers_popMany h _ _) fun args _ _ hb =>
      simulates_lift_bind_beside (answers_popObj hb name) fun receiver _ _ hb =>
        dispatch_simulates hc hb _ hsignature receiver args

/-- **Every operation** does the same with and without the detour. -/
theorem perform_simulates (hc : d.Widens c c') (h : d.Mirrors p p' a a') {op op' : Operation}
    (hop : op.Alike (d.Lands p p') op') :
    Simulates d.Flows (perform c a op) (perform c' a' op') := by
  -- Operations with labels go on at related ones; any other is the same operation on both sides,
  -- and takes the same values off equal stacks.
  cases hop with
  | branch condition hl =>
    refine simulates_lift_bind_beside (answers_test h condition) fun taken b b' hb => ?_
    cases taken with
    | true => exact simulates_next (answers_jump hb hl)
    | false => exact simulates_pure (.next hb)
  | tableSwitch low high hdefault htargets =>
    exact simulates_lift_bind_beside (answers_popInt h) fun index _ _ hb =>
      (simulates_lift (answers_tableTarget hdefault htargets index)).bind fun _ _ hl =>
        simulates_next (answers_jump hb hl)
  | lookupSwitch hdefault hpairs =>
    exact simulates_lift_bind_beside (answers_popInt h) fun key _ _ hb =>
      simulates_next (answers_jump hb (lookupTarget_related hdefault hpairs key))
  | same hop =>
  cases op with
  | nothing => exact simulates_pure (.next h)
  | push v => exact simulates_next (answers_push h v)
  | pushText s => exact simulates_bind_same fun r => simulates_next (answers_push h _)
  | loadInt index =>
    exact simulates_lift_bind_eq (answers_load h index) fun v =>
      simulates_bind_same fun v => simulates_next (answers_push h _)
  | loadRef index =>
    exact simulates_lift_bind_eq (answers_load h index) fun v =>
      simulates_bind_same fun v => simulates_next (answers_push h _)
  | storeInt index =>
    exact simulates_lift_bind_beside (answers_popInt h) fun v _ _ hb =>
      simulates_next (answers_store hb index _)
  | storeRef index =>
    exact simulates_lift_bind_beside (answers_popRef h) fun v _ _ hb =>
      simulates_next (answers_store hb index _)
  | increment index delta =>
    exact simulates_lift_bind_eq (answers_load h index) fun v =>
      simulates_bind_same fun v => simulates_next (answers_store h index _)
  | pop =>
    exact simulates_lift_bind_beside (answers_pop h) fun _ _ _ hb => simulates_pure (.next hb)
  | dup =>
    exact simulates_lift_bind_eq (answers_peek h) fun v => simulates_next (answers_push h v)
  | dupUnder =>
    exact simulates_lift_bind_beside (answers_pop h) fun v _ _ hb =>
      simulates_lift_bind_beside (answers_pop hb) fun w _ _ hb =>
        (simulates_lift (answers_push hb v)).bind fun _ _ hb =>
          (simulates_lift (answers_push hb w)).bind fun _ _ hb =>
            simulates_next (answers_push hb v)
  | swap =>
    exact simulates_lift_bind_beside (answers_pop h) fun v _ _ hb =>
      simulates_lift_bind_beside (answers_pop hb) fun w _ _ hb =>
        (simulates_lift (answers_push hb v)).bind fun _ _ hb => simulates_next (answers_push hb w)
  | arith op =>
    exact simulates_lift_bind_beside (answers_popInt h) fun w _ _ hb =>
      simulates_lift_bind_beside (answers_popInt hb) fun v _ _ hb =>
        simulates_bind_same fun r => simulates_next (answers_push hb _)
  | negate | toChar =>
    exact simulates_lift_bind_beside (answers_popInt h) fun v _ _ hb =>
      simulates_next (answers_push hb _)
  | newObject className =>
    dsimp only [perform]
    rw [hc.name, hc.cells]
    exact simulates_bind_same fun r => simulates_next (answers_push h _)
  | newArray element =>
    exact simulates_lift_bind_beside (answers_popInt h) fun length _ _ hb =>
      simulates_bind_same fun o => simulates_bind_same fun r => simulates_next (answers_push hb _)
  | arrayLoad op =>
    exact simulates_lift_bind_beside (answers_popInt h) fun index _ _ hb =>
      simulates_lift_bind_beside (answers_popObj hb _) fun array _ _ hb =>
        simulates_bind_same fun v => simulates_next (answers_push hb _)
  | arrayStore op =>
    exact simulates_lift_bind_beside (answers_popInt h) fun v _ _ hb =>
      simulates_lift_bind_beside (answers_popInt hb) fun index _ _ hb =>
        simulates_lift_bind_beside (answers_popObj hb _) fun array _ _ hb =>
          simulates_bind_same fun _ => simulates_pure (.next hb)
  | arrayLength =>
    exact simulates_lift_bind_beside (answers_popObj h _) fun array _ _ hb =>
      simulates_bind_same fun n => simulates_next (answers_push hb _)
  | checkCast =>
    exact simulates_lift_bind_eq (answers_peek h) fun v => simulates_bind_same fun _ =>
      simulates_pure (.next h)
  | instanceOf className =>
    refine simulates_lift_bind_beside (answers_popRef h) fun r _ _ hb => ?_
    cases r with
    | none => exact simulates_next (answers_push hb _)
    | some r => exact simulates_bind_same fun o => simulates_next (answers_push hb _)
  | getField name descriptor =>
    exact simulates_lift_bind_beside (answers_popObj h _) fun r _ _ hb =>
      simulates_bind_same fun v => simulates_next (answers_push hb _)
  | putField name =>
    exact simulates_lift_bind_beside (answers_pop h) fun v _ _ hb =>
      simulates_lift_bind_beside (answers_popObj hb _) fun r _ _ hb =>
        simulates_bind_same fun _ => simulates_pure (.next hb)
  | getStatic owner name descriptor =>
    exact simulates_bind_same fun r => simulates_next (answers_push h _)
  | call kind owner name descriptor => exact invoke_simulates hc h kind owner name descriptor
  | returnInt =>
    exact simulates_lift_bind_beside (answers_popInt h) fun v _ _ _ => simulates_pure (.finished _)
  | returnRef =>
    exact simulates_lift_bind_beside (answers_popRef h) fun r _ _ _ => simulates_pure (.finished _)
  | returnNothing => exact simulates_pure (.finished none)
  | raise =>
    -- An exception is never caught, so the call does not end well.
    intro s flow t hy
    obtain ⟨_, _, _, hy⟩ := yields_bind.mp hy
    exact absurd (yields_get_bind.mp hy) yields_throw
  | branch _ _ | tableSwitch _ _ _ _ | lookupSwitch _ _ => cases hop

end Operations

/-! ### Runs -/

section Runs

variable {c c' : LoadedClass} {limits : Limits}

/-- Two states are at the same point with and without the detour. -/
structure States (d : Detour) (s s' : CallStack) : Prop where
  active : d.Mirrors s.active.program s'.active.program s.active s'.active
  callers : List.Forall₂ (Beside CallSite fun a a' => d.Mirrors a.program a'.program a a')
    s.callers s'.callers

/-- What comes after the same instruction with and without the detour. -/
inductive Proceeds (d : Detour) : Progress → Progress → Prop
  | going {s s' : CallStack} (h : d.States s s') : Proceeds d (.going s) (.going s')
  | finished (result : Option Value) : Proceeds d (.finished result) (.finished result)

theorem Mirrors.self {p p' : Program} {a a' : Activation} (h : d.Mirrors p p' a a') :
    d.Mirrors a.program a'.program a a' := by
  obtain ⟨hkeeps, rfl, rfl, hlocals, hstack, hnext⟩ := h
  exact ⟨hkeeps, rfl, rfl, hlocals, hstack, hnext⟩

theorem answers_start {p p' : Program} (h : d.Keeps p p') (args : List Value) :
    Answers (d.Mirrors p p') (Activation.start p args) (Activation.start p' args) := by
  intro a ha
  unfold Activation.start at ha ⊢
  dsimp only at ha ⊢
  rw [h.maxLocals]
  split at ha
  · cases ha
  · next hroom =>
    cases ha
    rw [if_neg hroom]
    exact ⟨_, rfl, h, rfl, rfl, rfl, rfl, (place_zero p).symm⟩

theorem enter_simulates {p p' : Program} (h : d.Keeps p p') (depth : ℕ) (args : List Value) :
    Simulates (d.Mirrors p p') (enter limits depth p args) (enter limits depth p' args) := by
  unfold enter
  exact .check <| simulates_bind_same fun _ => simulates_lift (answers_start h args)

/-- What comes after an operation comes after it with the detour. -/
theorem proceeds_simulates {s s' : CallStack} (h : d.States s s') {flow flow' : Flow}
    (hflow : d.Flows flow flow') :
    let proceed (s : CallStack) : Flow → Exec Progress
      | .next a => return .going { s with active := a }
      | .call a site callee args => do
        let entered ← enter limits (s.callers.length + 1) callee args
        return .going ⟨entered, (site, a) :: s.callers⟩
      | .finished result =>
        match s.callers with
        | [] => return .finished result
        | (site, a) :: callers => do return .going ⟨← a.receive site result, callers⟩
    Simulates d.Proceeds (proceed s flow) (proceed s' flow') := by
  intro proceed
  cases hflow with
  | next ha => exact simulates_pure (.going ⟨ha.self, h.callers⟩)
  | call ha site hcallee args =>
    -- The depth that is compared with the limit is the same.
    have hlength : s'.callers.length = s.callers.length := h.callers.length_eq.symm
    dsimp only [proceed]
    rw [hlength]
    exact (enter_simulates hcallee _ args).bind fun _ _ hentered =>
      simulates_pure (.going ⟨hentered.self, .cons ⟨rfl, ha.self⟩ h.callers⟩)
  | finished result =>
    obtain ⟨active, callers⟩ := s
    obtain ⟨active', callers'⟩ := s'
    cases h.callers with
    | nil => exact simulates_pure (.finished result)
    | @cons caller caller' callers callers' hcaller hcallers =>
      obtain ⟨site, a⟩ := caller
      obtain ⟨site', a'⟩ := caller'
      obtain ⟨rfl, ha⟩ : site = site' ∧ _ := hcaller
      exact (simulates_lift (answers_receive ha site result)).bind fun _ _ hb =>
        simulates_pure (.going ⟨hb.self, hcallers⟩)

/-- **Every instruction** that the detour passes does the same. -/
theorem exists_advance (hc : d.Widens c c') {s s' : CallStack} (h : d.States s s') {i : Insn}
    (hi : s.active.program.insns[s.active.next]? = some i)
    (hpasses : d.Passes s.active.program s.active.next) {store t : Store} {next : Progress}
    (hy : Yields (s.advance c limits i) store next t) :
    ∃ i' next', s'.active.program.insns[s'.active.next]? = some i' ∧
      Yields (s'.advance c' limits i') store next' t ∧ d.Proceeds next next' := by
  obtain ⟨op, _, hlift, hy⟩ := yields_bind.mp hy
  obtain ⟨hop, rfl⟩ := yields_lift.mp hlift
  obtain ⟨i', op', hi', hop', halike⟩ := h.active.keeps.does _ i op hi hop hpasses
  -- The position behind an instruction moves with it, since nothing was put in right there.
  have hmirrors : d.Mirrors s.active.program s'.active.program
      { s.active with next := s.active.next + 1 } { s'.active with next := s'.active.next + 1 } :=
    ⟨h.active.keeps, rfl, rfl, h.active.locals, h.active.stack,
      by rw [h.active.next, place_succ hpasses]⟩
  obtain ⟨next', hy', hnext⟩ := (perform_simulates hc hmirrors halike).bind
    (fun _ _ hflow => proceeds_simulates h hflow) _ _ _ hy
  exact ⟨i', next', h.active.next ▸ hi', (yields_lift.mpr ⟨hop', rfl⟩).bind hy', hnext⟩

/-- **A run that stays away from the detour** is the same with it: it returns the same and leaves
the same store. -/
theorem run_simulates (hc : d.Widens c c') {left : ℕ} {s s' : CallStack} (h : d.States s s')
    {store t : Store} {result : Option Value} (hrun : run c limits left s store = (.ok result, t))
    (hpasses : (d.method, d.position) ∉ trace c limits left s store) :
    run c' limits left s' store = (.ok result, t) := by
  -- By induction on the instructions that are left, `States` being what every one of them keeps.
  induction left generalizing s s' store with
  | zero =>
    unfold run at hrun
    split at hrun <;> cases hrun
  | succ left ih =>
    unfold run at hrun ⊢
    unfold trace at hpasses
    cases hi : s.active.program.insns[s.active.next]? with
    | none =>
      rw [hi] at hrun
      cases hrun
    | some i =>
      rw [hi] at hrun hpasses
      dsimp only at hrun hpasses
      rw [List.mem_cons, not_or] at hpasses
      rcases hstep : (s.advance c limits i).run store.tick with ⟨fault | next, store'⟩
      · rw [hstep] at hrun
        cases hrun
      · obtain ⟨i', next', hi', hstep', hnext⟩ := exists_advance hc h hi (Ne.symm hpasses.1) hstep
        have hstep' : (s'.advance c' limits i').run store.tick = (.ok next', store') := hstep'
        rw [hstep] at hrun hpasses
        rw [hi']
        dsimp only
        rw [hstep']
        cases hnext with
        | going hs => exact ih hs hrun hpasses.2
        | finished result => exact hrun

theorem execute_simulates (hc : d.Widens c c') {p p' : Program} (h : d.Keeps p p')
    {args : List Value} {store t : Store} {result : Option Value}
    (hrun : execute c limits p args store = (.ok result, t))
    (hpasses : (d.method, d.position) ∉ executeTrace c limits p args store) :
    execute c' limits p' args store = (.ok result, t) := by
  unfold execute at hrun ⊢
  unfold executeTrace at hpasses
  -- The frames begin in step, and the trace keeps off the one place where they could part.
  rcases henter : (enter limits 0 p args).run store with ⟨fault | a, store'⟩
  · rw [henter] at hrun
    cases hrun
  · obtain ⟨a', henter', hmirrors⟩ := enter_simulates h 0 args store a store' henter
    have henter' : (enter limits 0 p' args).run store = (.ok a', store') := henter'
    rw [henter] at hrun hpasses
    rw [henter']
    exact run_simulates hc ⟨hmirrors.self, .nil⟩ hrun hpasses

/-- A call from outside that returns runs a program. -/
theorem exists_program_of_call {m : Machine} {isStatic : Bool} {name descriptor : String}
    {args : List Value} {result : Option Value}
    (h : (m.call isStatic name descriptor args).1 = .ok result) :
    ∃ p, m.loaded.program name descriptor = .ok p ∧ p.isStatic = isStatic := by
  unfold Machine.call at h
  dsimp only at h
  split at h
  · cases h
  · next p hp =>
    split at h
    · next hstatic => exact ⟨p, hp, hstatic⟩
    · cases h

/-- **A call from outside that stays away from the detour** is the same with it. -/
theorem call_simulates (hc : d.Widens c c') {store : Store} {isStatic : Bool}
    {name descriptor : String} {args : List Value} {result : Option Value}
    (hcall : ((⟨c, limits, store⟩ : Machine).call isStatic name descriptor args).1 = .ok result)
    (hpasses : (d.method, d.position) ∉ callTrace ⟨c, limits, store⟩ isStatic name
      descriptor args) :
    ((⟨c', limits, store⟩ : Machine).call isStatic name descriptor args).1 = .ok result ∧
      ((⟨c', limits, store⟩ : Machine).call isStatic name descriptor args).2.store
        = ((⟨c, limits, store⟩ : Machine).call isStatic name descriptor args).2.store := by
  obtain ⟨p, hp, hstatic⟩ := exists_program_of_call hcall
  obtain ⟨p', hp', hkeeps⟩ := hc.program name descriptor p hp
  unfold callTrace at hpasses
  dsimp only at hp hpasses
  rw [hp] at hpasses
  dsimp only at hpasses
  rw [if_pos hstatic] at hpasses
  rw [call_eq_execute (m := ⟨c, limits, store⟩) hp hstatic] at hcall ⊢
  rw [call_eq_execute (m := ⟨c', limits, store⟩) hp' (hkeeps.isStatic.trans hstatic)]
  have hrun := execute_simulates hc hkeeps (Prod.ext hcall rfl) hpasses
  rw [hrun]
  exact ⟨rfl, rfl⟩

end Runs

end Detour

end RoundingPatch.Machine
