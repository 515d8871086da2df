import RoundingPatch.Proofs.Machine.Steps
/-!
# Straight-line code

What operations without branches and calls make of the local variables and of the stack can be
computed (`straightLine`). A segment of such operations leads to what is computed
(`Program.Segment.leads`), which is how the blocks of a program are executed with variables in place
of values.
-/

namespace RoundingPatch.Machine

open ClassFile

/-- The stack with one more value, if there is room for it. -/
def put (room : ℕ) (v : Value) (stack : List Value) : Option (List Value) :=
  if stack.length < room then some (v :: stack) else none

/-- What an operation makes of the local variables and of the stack, which has room for some values;
none if it fails, or branches or calls. -/
def Operation.straight (h : Heap) (room : ℕ) (locals stack : List Value) :
    Operation → Option (List Value × List Value)
  | .push v => (put room v stack).map (locals, ·)
  | .loadInt index =>
    match locals[index.toNat]? with
    | some (.int v) => (put room (.int v) stack).map (locals, ·)
    | _ => none
  | .loadRef index =>
    match locals[index.toNat]? with
    | some (.ref r) => (put room (.ref r) stack).map (locals, ·)
    | _ => none
  | .storeInt index =>
    match stack with
    | .int v :: rest =>
      if index.toNat < locals.length then some (locals.set index.toNat (.int v), rest) else none
    | _ => none
  | .increment index delta =>
    match locals[index.toNat]? with
    | some (.int v) => some (locals.set index.toNat (.int (v + delta.toInt32)), stack)
    | _ => none
  | .arith op =>
    match stack with
    | .int w :: .int v :: rest =>
      match op.eval v w with
      | .ok u => (put room (.int u) rest).map (locals, ·)
      | .error _ => none
    | _ => none
  | .getField name _ =>
    match stack with
    | .ref (some r) :: rest =>
      match h.field r name with
      | .ok (some v) => (put room v rest).map (locals, ·)
      | _ => none
    | _ => none
  | .getStatic owner name descriptor =>
    match staticField owner name descriptor h with
    | .ok r => (put room (.obj r) stack).map (locals, ·)
    | .error _ => none
  | .arrayLoad _ =>
    match stack with
    | .int v :: .ref (some r) :: rest =>
      match h.element r v with
      | .ok u => (put room (.int u) rest).map (locals, ·)
      | .error _ => none
    | _ => none
  | _ => none

/-- What some operations, one behind the other, make of the local variables and of the stack. -/
def straightLine (h : Heap) (room : ℕ) :
    List Operation → List Value × List Value → Option (List Value × List Value)
  | [], s => some s
  | op :: ops, s => (op.straight h room s.1 s.2).bind (straightLine h room ops)

variable {c : LoadedClass} {limits : Limits} {p : Program} {k room : ℕ}
  {callers : List (CallSite × Activation)} {h : Heap} {op : Operation} {ops : List Operation}
  {locals locals' stack stack' : List Value} {v : Value}

theorem map_put_eq_some : (put room v stack).map (locals, ·) = some (locals', stack') ↔
    stack.length < room ∧ locals' = locals ∧ stack' = v :: stack := by
  unfold put
  split <;> simp_all [eq_comm]

/-- **An operation that goes straight on** does in a run what is computed. -/
theorem leads_straight (hroom : room ≤ p.maxStack.toNat) (hk : p.Does k op)
    (hop : op.straight h room locals stack = some (locals', stack')) :
    Leads c limits 1 ⟨⟨p, locals, stack, k⟩, callers⟩ h
      ⟨⟨p, locals', stack', k + 1⟩, callers⟩ h := by
  -- What is computed consults the machine in the same order, so its cases are those of the step.
  unfold Operation.straight at hop
  cases op with
  | push v =>
    obtain ⟨hput, rfl, rfl⟩ := map_put_eq_some.mp hop
    exact leads_push hk (hput.trans_le hroom)
  | loadInt index =>
    dsimp only at hop
    split at hop
    · next hv =>
      obtain ⟨hput, rfl, rfl⟩ := map_put_eq_some.mp hop
      exact leads_loadInt hk hv (hput.trans_le hroom)
    · cases hop
  | loadRef index =>
    dsimp only at hop
    split at hop
    · next hr =>
      obtain ⟨hput, rfl, rfl⟩ := map_put_eq_some.mp hop
      exact leads_loadRef hk hr (hput.trans_le hroom)
    · cases hop
  | storeInt index =>
    dsimp only at hop
    split at hop
    · split at hop
      · next hindex =>
        cases hop
        exact leads_storeInt hk hindex
      · cases hop
    · cases hop
  | increment index delta =>
    dsimp only at hop
    split at hop
    · next hv =>
      cases hop
      exact leads_increment hk hv
    · cases hop
  | arith operator =>
    dsimp only at hop
    split at hop
    · split at hop
      · next heval =>
        obtain ⟨hput, rfl, rfl⟩ := map_put_eq_some.mp hop
        exact leads_arith hk heval (hput.trans_le hroom)
      · cases hop
    · cases hop
  | getField name descriptor =>
    dsimp only at hop
    split at hop
    · split at hop
      · next hfield =>
        obtain ⟨hput, rfl, rfl⟩ := map_put_eq_some.mp hop
        exact leads_getField hk hfield (hput.trans_le hroom)
      · cases hop
    · cases hop
  | getStatic owner name descriptor =>
    dsimp only at hop
    split at hop
    · next hfield =>
      obtain ⟨hput, rfl, rfl⟩ := map_put_eq_some.mp hop
      exact leads_getStatic hk hfield (hput.trans_le hroom)
    · cases hop
  | arrayLoad opcode =>
    dsimp only at hop
    split at hop
    · split at hop
      · next helement =>
        obtain ⟨hput, rfl, rfl⟩ := map_put_eq_some.mp hop
        exact leads_arrayLoad hk helement (hput.trans_le hroom)
      · cases hop
    · cases hop
  | _ => cases hop

/-- **A straight line** leads to what is computed. -/
theorem Program.Segment.leads (hk : p.Segment k ops) (hroom : room ≤ p.maxStack.toNat)
    (hops : straightLine h room ops (locals, stack) = some (locals', stack')) :
    Leads c limits ops.length ⟨⟨p, locals, stack, k⟩, callers⟩ h
      ⟨⟨p, locals', stack', k + ops.length⟩, callers⟩ h := by
  induction ops generalizing k locals stack with
  | nil =>
    cases hops
    exact Leads.refl
  | cons op ops ih =>
    obtain ⟨⟨locals₁, stack₁⟩, hop, hrest⟩ := Option.bind_eq_some_iff.mp hops
    have hlater := (leads_straight hroom hk.head hop).trans (ih hk.tail hrest)
    rwa [Nat.add_assoc, Nat.add_comm 1] at hlater

end RoundingPatch.Machine
