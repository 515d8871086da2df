import Mathlib.Data.List.Nodup
import Mathlib.Data.List.Perm.Lattice
import Std.Data.TreeMap
/-!
# Rows with keys

The rows of a table are listed by their keys, in an order of the keys that need not be that of the
table. No row gets lost (`perm_flatMap_filter`), and rows that come in the order of their keys
stay as they are (`flatMap_filter_of_sorted`). A map has the last row of each key (`lastRows`): a
row is lost in it if a later one has the same key.
-/

namespace RoundingPatch.ClassFile.Body

variable {α : Type} {keys : List Nat} {rows : List (Nat × α)}

/-! ### Rows by their keys -/

/-- Rows of other keys do not matter for a list of keys. -/
theorem flatMap_filter_ne {k : Nat} (hk : k ∉ keys) :
    (keys.flatMap fun j => (rows.filter (·.1 != k)).filter (·.1 == j))
      = keys.flatMap fun j => rows.filter (·.1 == j) := by
  refine List.flatMap_congr fun j hj => ?_
  have hne : j ≠ k := by
    rintro rfl
    exact hk hj
  rw [List.filter_filter]
  refine List.filter_congr fun p _ => ?_
  by_cases hpj : p.1 = j
  · simp [hpj, hne]
  · simp [hpj]

theorem mem_keys_of_filter_ne {k : Nat} (hmem : ∀ p ∈ rows, p.1 ∈ k :: keys) :
    ∀ p ∈ rows.filter (·.1 != k), p.1 ∈ keys := by
  intro p hp
  obtain ⟨hp, hne⟩ := List.mem_filter.mp hp
  exact (List.mem_cons.mp (hmem p hp)).resolve_left (by simpa using hne)

/-- Rows of the least key come first. -/
theorem filter_append_filter_ne {k : Nat} (hrows : rows.Pairwise fun p q => p.1 ≤ q.1)
    (hle : ∀ p ∈ rows, k ≤ p.1) :
    rows.filter (·.1 == k) ++ rows.filter (·.1 != k) = rows := by
  induction rows with
  | nil => rfl
  | cons p rows ih =>
    obtain ⟨hp, hrows⟩ := List.pairwise_cons.mp hrows
    rw [List.forall_mem_cons] at hle
    by_cases heq : p.1 = k
    · simpa [heq] using ih hrows hle.2
    · -- No row of the key is left behind a row of a greater one.
      have hnone : ∀ q ∈ rows, q.1 ≠ k := by
        intro q hq
        have := hp q hq
        have := hle.1
        omega
      have hkey : rows.filter (·.1 == k) = [] :=
        List.filter_eq_nil_iff.mpr fun q hq => by simpa using hnone q hq
      have hothers : rows.filter (·.1 != k) = rows :=
        List.filter_eq_self.mpr fun q hq => by simpa using hnone q hq
      simp [heq, hkey, hothers]

/-- **Rows that come in the order of their keys** are those of the first key, then those of the
second key, and so on. -/
theorem flatMap_filter_of_sorted (hkeys : keys.Pairwise (· < ·))
    (hrows : rows.Pairwise fun p q => p.1 ≤ q.1) (hmem : ∀ p ∈ rows, p.1 ∈ keys) :
    (keys.flatMap fun k => rows.filter (·.1 == k)) = rows := by
  induction keys generalizing rows with
  | nil => exact (List.eq_nil_iff_forall_not_mem.mpr fun p hp => List.not_mem_nil (hmem p hp)).symm
  | cons k keys ih =>
    obtain ⟨hk, hkeys⟩ := List.pairwise_cons.mp hkeys
    have hfirst : k ∉ keys := fun hmem => Nat.lt_irrefl k (hk k hmem)
    have hle : ∀ p ∈ rows, k ≤ p.1 := by
      intro p hp
      rcases List.mem_cons.mp (hmem p hp) with heq | hlater
      · exact Nat.le_of_eq heq.symm
      · exact Nat.le_of_lt (hk _ hlater)
    -- The rows behind those of the first key are those of the other keys, again in order.
    rw [List.flatMap_cons, ← flatMap_filter_ne hfirst,
      ih hkeys (hrows.filter _) (mem_keys_of_filter_ne hmem)]
    exact filter_append_filter_ne hrows hle

/-- **No row is lost**, and none is listed twice. -/
theorem perm_flatMap_filter (hkeys : keys.Nodup) (hmem : ∀ p ∈ rows, p.1 ∈ keys) :
    (keys.flatMap fun k => rows.filter (·.1 == k)).Perm rows := by
  induction keys generalizing rows with
  | nil =>
    rw [List.eq_nil_iff_forall_not_mem.mpr fun p hp => List.not_mem_nil (hmem p hp)]
    rfl
  | cons k keys ih =>
    obtain ⟨hk, hkeys⟩ := List.nodup_cons.mp hkeys
    rw [List.flatMap_cons, ← flatMap_filter_ne hk]
    exact ((ih hkeys (mem_keys_of_filter_ne hmem)).append_left _).trans
      (List.filter_append_perm _ _)

/-- Rows with one key keep their order, whatever the order of the keys is. -/
theorem filter_flatMap_filter {P : Nat × α → Bool} (hkeys : keys.Nodup)
    (hmem : ∀ p ∈ rows, p.1 ∈ keys)
    (hP : ∀ p ∈ rows, ∀ q ∈ rows, P p = true → (P q = true ↔ q.1 = p.1)) :
    (keys.flatMap fun k => rows.filter (·.1 == k)).filter P = rows.filter P := by
  rw [List.filter_flatMap]
  by_cases hrow : ∃ p ∈ rows, P p = true
  · -- All rows that are kept have the key of `p`, so only this key contributes.
    obtain ⟨p, hp, hPp⟩ := hrow
    have hone (k : Nat) (hk : k ≠ p.1) : (rows.filter (·.1 == k)).filter P = [] := by
      rw [List.filter_filter, List.filter_eq_nil_iff]
      intro q hq
      simp only [Bool.and_eq_true, beq_iff_eq, not_and]
      rintro hPq rfl
      exact hk ((hP p hp q hq hPp).mp hPq)
    have hkey : (rows.filter (·.1 == p.1)).filter P = rows.filter P := by
      rw [List.filter_filter]
      refine List.filter_congr fun q hq => ?_
      have := hP p hp q hq hPp
      by_cases hq1 : q.1 = p.1
      · simp [hq1, this.mpr hq1]
      · simpa [hq1] using mt this.mp hq1
    obtain ⟨before, after, hsplit⟩ := List.append_of_mem (hmem p hp)
    rw [hsplit, List.nodup_append, List.nodup_cons] at hkeys
    have hbefore : (before.flatMap fun k => (rows.filter (·.1 == k)).filter P) = [] :=
      List.flatMap_eq_nil_iff.mpr fun k hk => hone k (hkeys.2.2 k hk p.1 List.mem_cons_self)
    have hafter : (after.flatMap fun k => (rows.filter (·.1 == k)).filter P) = [] :=
      List.flatMap_eq_nil_iff.mpr fun k hk => hone k (by rintro rfl; exact hkeys.2.1.1 hk)
    rw [hsplit, List.flatMap_append, List.flatMap_cons, hbefore, hafter, hkey, List.nil_append,
      List.append_nil]
  · have hnone : ∀ p ∈ rows, ¬ P p = true := fun p hp h => hrow ⟨p, hp, h⟩
    rw [List.filter_eq_nil_iff.mpr hnone]
    exact List.flatMap_eq_nil_iff.mpr fun k _ =>
      List.filter_eq_nil_iff.mpr fun p hp => hnone p (List.mem_of_mem_filter hp)

/-! ### Rows that are replaced -/

/-- The rows that no later row with the same key replaces. -/
def lastRows : List (Nat × α) → List (Nat × α)
  | [] => []
  | p :: rows => if p.1 ∈ rows.map (·.1) then lastRows rows else p :: lastRows rows

/-- The last rows are rows. -/
theorem lastRows_subset : lastRows rows ⊆ rows := by
  induction rows with
  | nil => exact List.Subset.refl _
  | cons p rows ih =>
    rw [lastRows]
    split
    · exact List.subset_cons_of_subset p ih
    · exact List.cons_subset_cons p ih

theorem length_lastRows_le : (lastRows rows).length ≤ rows.length := by
  induction rows with
  | nil => exact Nat.le_refl 0
  | cons p rows ih =>
    rw [lastRows]
    split
    · exact Nat.le_succ_of_le ih
    · exact Nat.succ_le_succ ih

/-- No row is replaced if the keys are distinct. -/
theorem lastRows_eq_self (h : (rows.map (·.1)).Nodup) : lastRows rows = rows := by
  induction rows with
  | nil => rfl
  | cons p rows ih =>
    obtain ⟨hp, h⟩ := List.nodup_cons.mp h
    rw [lastRows, if_neg hp, ih h]

/-- If every row is the last of its key, then no key comes twice. -/
theorem nodup_of_length_lastRows (h : (lastRows rows).length = rows.length) :
    (rows.map (·.1)).Nodup := by
  induction rows with
  | nil => exact List.nodup_nil
  | cons p rows ih =>
    have hle := @length_lastRows_le _ rows
    rw [lastRows] at h
    split at h
    · -- A row that is replaced makes the list shorter.
      rw [List.length_cons] at h
      omega
    · next hp => exact List.nodup_cons.mpr ⟨hp, ih (Nat.succ.inj h)⟩

/-- The first row is looked at last. -/
theorem getElem?_ofList_cons {p : Nat × α} (o : Nat) :
    (Std.TreeMap.ofList (p :: rows))[o]?
      = (Std.TreeMap.ofList rows)[o]?.or (if p.1 = o then some p.2 else none) := by
  simp only [Std.TreeMap.ofList_eq_insertMany_empty, Std.TreeMap.getElem?_insertMany_list,
    Std.TreeMap.getElem?_emptyc, Option.or_none, List.findSomeRev?_eq_findSome?_reverse,
    List.reverse_cons, List.findSome?_append]
  simp

/-- **A map of rows** has those that no later one replaces. -/
theorem toList_getElem?_ofList (o : Nat) :
    (Std.TreeMap.ofList rows)[o]?.toList = ((lastRows rows).filter (·.1 == o)).map (·.2) := by
  induction rows with
  | nil => rfl
  | cons p rows ih =>
    have hkey : o ∈ rows.map (·.1) ↔ (Std.TreeMap.ofList rows)[o]?.isSome := by
      rw [Std.TreeMap.isSome_getElem?_eq_contains, Std.TreeMap.contains_ofList,
        List.contains_iff_mem]
    rw [getElem?_ofList_cons, lastRows]
    by_cases hp : p.1 = o
    · subst hp
      by_cases hmem : p.1 ∈ rows.map (·.1)
      · -- A later row stands for the key.
        obtain ⟨a, ha⟩ := Option.isSome_iff_exists.mp (hkey.mp hmem)
        simp only [hmem, ↓reduceIte]
        rw [← ih, ha]
        rfl
      · have hnone : (lastRows rows).filter (·.1 == p.1) = [] := by
          rw [List.filter_eq_nil_iff]
          intro q hq heq
          exact hmem (List.mem_map.mpr ⟨q, lastRows_subset hq, by simpa using heq⟩)
        have hlast : (Std.TreeMap.ofList rows)[p.1]? = none := by
          simpa using mt hkey.mpr hmem
        simp only [hmem, ↓reduceIte]
        rw [hlast, List.filter_cons, hnone]
        simp
    · rw [if_neg hp, Option.or_none, ih]
      split
      · rfl
      · simp [hp]

end RoundingPatch.ClassFile.Body
