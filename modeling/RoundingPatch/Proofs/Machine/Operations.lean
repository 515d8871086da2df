import Mathlib.Data.Nat.Notation
import RoundingPatch.Machine.Operation
import RoundingPatch.Proofs.Machine.Programs
/-!
# Single operations

What each operation does in a run. `p.Does k op` says that an operation, with positions for labels,
stands at a position of a program, and `p.Segment k ops` that several do, one behind the other.
-/

namespace RoundingPatch.Machine

open ClassFile

/-! ### Operations in index form -/

namespace Operation

/-- An operation with its labels replaced. -/
def mapLabels (f : Label → Label) : Operation → Operation
  | branch condition target => branch condition (f target)
  | tableSwitch low high default targets => tableSwitch low high (f default) (targets.map f)
  | lookupSwitch default pairs => lookupSwitch (f default) (pairs.map fun p => (p.1, f p.2))
  | op => op

/-- The labels that an operation goes to. -/
def targets : Operation → List Label
  | branch _ target => [target]
  | tableSwitch _ _ default targets => default :: targets
  | lookupSwitch default pairs => default :: pairs.map (·.2)
  | _ => []

variable {f : Label → Label} {op : Operation} {i : Insn}

theorem mapLabels_of_targets (h : op.targets = []) : op.mapLabels f = op := by
  cases op <;> first | rfl | cases h

theorem targets_of_mapLabels (h : (op.mapLabels f).targets = []) : op.targets = [] := by
  cases op <;> first | rfl | cases h

/-- Operations without operands have no labels. -/
theorem targets_of_mem_ofSimple : ∀ entry ∈ ofSimple, entry.2.targets = [] := by
  decide

theorem targets_of_ofVar {opcode : Opcode} {index : UInt16} (h : ofVar opcode index = some op) :
    op.targets = [] := by
  unfold ofVar at h
  repeat' split at h
  all_goals cases h
  all_goals rfl

theorem targets_of_ofType {opcode : Opcode} {name : String} (h : ofType opcode name = some op) :
    op.targets = [] := by
  unfold ofType at h
  repeat' split at h
  all_goals cases h
  all_goals rfl

theorem targets_of_ofField {opcode : Opcode} {owner name descriptor : String}
    (h : ofField opcode owner name descriptor = some op) : op.targets = [] := by
  unfold ofField at h
  repeat' split at h
  all_goals cases h
  all_goals rfl

theorem targets_of_ofConstant {constant : Constant} (h : ofConstant constant = .ok op) :
    op.targets = [] := by
  cases constant <;> cases h <;> rfl

/-- An operation goes where its instruction goes. -/
theorem targets_of_ofInsn? (h : ofInsn? i = some op) : op.targets = i.targets := by
  cases i with
  | simple opcode =>
    unfold ofInsn? at h
    dsimp only at h
    split at h
    · exact targets_of_ofVar h
    · obtain ⟨_, _, hmem⟩ := List.lookup_eq_some_iff.mp h
      exact targets_of_mem_ofSimple (opcode, op) (by simp [hmem.1])
  | int opcode operand =>
    cases h
    split <;> rfl
  | var opcode index => exact targets_of_ofVar h
  | type opcode name => exact targets_of_ofType h
  | field opcode owner name descriptor => exact targets_of_ofField h
  | method opcode owner name descriptor onInterface =>
    obtain ⟨kind, -, rfl⟩ := Option.map_eq_some_iff.mp h
    rfl
  | jump opcode target =>
    obtain ⟨condition, -, rfl⟩ := Option.map_eq_some_iff.mp h
    rfl
  | iinc _ _ | tableSwitch _ _ _ _ | lookupSwitch _ _ =>
    cases h
    rfl
  | ldc _ | callSite _ | multiArray _ _ => cases h

/-- **The labels of an operation** are those of its instruction. -/
theorem targets_of_ofInsn (h : ofInsn i = .ok op) : op.targets = i.targets := by
  unfold ofInsn at h
  split at h
  · exact targets_of_ofConstant h
  · split at h
    · next hop =>
      cases h
      exact targets_of_ofInsn? hop
    · cases h

/-- **An instruction with other labels** does the same with other labels. -/
theorem ofInsn_mapLabels : ofInsn (i.mapLabels f) = (ofInsn i).map (mapLabels f) := by
  -- Without targets nothing changes; what has targets is a jump or a switch.
  by_cases hi : i.targets = []
  · have hsame : i.mapLabels f = i := by
      rw [Insn.mapLabels_congr (g := id) (by simp [hi]), Insn.mapLabels_id]
    rw [hsame]
    cases hop : ofInsn i with
    | error fault => rfl
    | ok op => rw [Except.map, mapLabels_of_targets (by rw [targets_of_ofInsn hop, hi])]
  · cases i with
    | jump opcode target =>
      have hmapped : ofInsn? (.jump opcode (f target))
          = (ofInsn? (.jump opcode target)).map (mapLabels f) := by
        simp only [ofInsn?, Option.map_map]
        rfl
      simp only [Insn.mapLabels, ofInsn]
      rw [hmapped]
      cases ofInsn? (.jump opcode target) <;> rfl
    | tableSwitch _ _ _ _ | lookupSwitch _ _ => rfl
    | _ => exact absurd rfl hi

end Operation

/-! ### Where operations stand -/

namespace Program

variable {p : Program} {k : ℕ} {op : Operation} {ops more : List Operation} {i : Insn}

/-- An operation, with positions for labels, stands at a position of a program. -/
def Does (p : Program) (k : ℕ) (op : Operation) : Prop :=
  ∃ i op' f, p.insns[k]? = some i ∧ Operation.ofInsn i = .ok op' ∧ op'.mapLabels f = op ∧
    ∀ l ∈ op'.targets, ∃ n < 2147483648, p.target l = .ok n ∧ f l = Body.labelAt n

/-- Some operations stand at a position of a program, one behind the other. -/
def Segment (p : Program) (k : ℕ) (ops : List Operation) : Prop :=
  ∀ j op, ops[j]? = some op → p.Does (k + j) op

theorem Has.does (h : p.Has k i) (hop : Operation.ofInsn i = .ok op) : p.Does k op := by
  obtain ⟨j, f, hj, rfl, htargets⟩ := h
  rw [Operation.ofInsn_mapLabels] at hop
  cases hop' : Operation.ofInsn j with
  | error fault =>
    rw [hop'] at hop
    cases hop
  | ok op' =>
    rw [hop'] at hop
    cases hop
    refine ⟨j, op', f, hj, hop', rfl, ?_⟩
    rw [Operation.targets_of_ofInsn hop']
    exact htargets

theorem Does.plain (h : p.Does k op) (hop : op.targets = []) :
    ∃ i, p.insns[k]? = some i ∧ Operation.ofInsn i = .ok op := by
  obtain ⟨i, op', f, hi, hop', rfl, -⟩ := h
  rw [Operation.mapLabels_of_targets (Operation.targets_of_mapLabels hop)]
  exact ⟨i, hi, hop'⟩

/-- A branch that a program does at an offset goes to the offset of its label. -/
theorem Does.branch {condition : Condition} {t : ℕ}
    (h : p.Does k (.branch condition (Body.labelAt t)))
    (ht : t < 2147483648) : ∃ i l, p.insns[k]? = some i ∧
      Operation.ofInsn i = .ok (.branch condition l) ∧ p.target l = .ok t := by
  obtain ⟨i, op, f, hi, hop, hmap, htargets⟩ := h
  cases op with
  | branch condition' l =>
    obtain ⟨n, hn, htarget, hf⟩ := htargets l List.mem_cons_self
    rw [Operation.mapLabels, hf] at hmap
    obtain ⟨rfl, hlabel⟩ := Operation.branch.inj hmap
    obtain rfl := Body.labelAt_inj hn ht hlabel
    exact ⟨i, l, hi, hop, htarget⟩
  | _ => cases hmap

theorem Does.tableSwitch {low high : Int32} {default : Label} {targets : List Label}
    (h : p.Does k (.tableSwitch low high default targets)) : ∃ i default' targets',
      p.insns[k]? = some i ∧ Operation.ofInsn i = .ok (.tableSwitch low high default' targets') ∧
      ∀ (j t : ℕ), targets[j]? = some (Body.labelAt t) → t < 2147483648 →
        ∃ l, targets'[j]? = some l ∧ p.target l = .ok t := by
  obtain ⟨i, op, f, hi, hop, hmap, htargets⟩ := h
  cases op with
  | tableSwitch low' high' default' targets' =>
    obtain ⟨rfl, rfl, -, rfl⟩ := Operation.tableSwitch.inj hmap
    refine ⟨i, default', targets', hi, hop, fun j t hj ht => ?_⟩
    rw [List.getElem?_map, Option.map_eq_some_iff] at hj
    obtain ⟨l, hl, hlabel⟩ := hj
    obtain ⟨n, hn, htarget, hf⟩ := htargets l (List.mem_cons_of_mem _ (List.mem_of_getElem? hl))
    obtain rfl := Body.labelAt_inj hn ht (hf.symm.trans hlabel)
    exact ⟨l, hl, htarget⟩
  | _ => cases hmap

theorem Segment.head (h : p.Segment k (op :: ops)) : p.Does k op :=
  h 0 op rfl

theorem Segment.tail (h : p.Segment k (op :: ops)) : p.Segment (k + 1) ops := fun j op' hj => by
  rw [Nat.add_assoc, Nat.add_comm 1]
  exact h (j + 1) op' hj

theorem Segment.left (h : p.Segment k (ops ++ more)) : p.Segment k ops := fun j op hj =>
  h j op (by rw [List.getElem?_append_left (List.getElem?_eq_some_iff.mp hj).1, hj])

theorem Segment.right (h : p.Segment k (ops ++ more)) : p.Segment (k + ops.length) more :=
  fun j op hj => by
    rw [Nat.add_assoc]
    refine h _ op ?_
    rw [List.getElem?_append_right (Nat.le_add_right ..), Nat.add_sub_cancel_left, hj]

theorem Segment.at {m : ℕ} (h : p.Segment k ops) (hm : k = m) : p.Segment m ops :=
  hm ▸ h

/-- The instructions of an outline stand in its program. -/
theorem Follows.segment {o : Outline} (h : p.Follows o)
    (hops : o.insns.map Operation.ofInsn = ops.map .ok) : p.Segment 0 ops := fun j op hj => by
  have hlookup : (o.insns[j]?).map Operation.ofInsn = some (.ok op) := by
    rw [← List.getElem?_map, hops, List.getElem?_map, hj]
    rfl
  obtain ⟨i, hi, hop⟩ := Option.map_eq_some_iff.mp hlookup
  rw [Nat.zero_add]
  exact (h.has j i hi).does hop

end Program

end RoundingPatch.Machine
