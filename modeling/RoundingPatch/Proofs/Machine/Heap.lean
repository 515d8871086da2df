import RoundingPatch.Machine.Heap
/-!
# Heaps that grow

A heap that has the objects of another one in front answers as that one does for what is there
(`Heap.get_of_extended`, `Heap.constant?_of_extended`). Allocation keeps all objects in front
(`Heap.prefix_alloc`), and writing keeps those that are never written to (`Heap.extends_setField`,
`Heap.extends_setElement`).
-/

namespace RoundingPatch.Machine

/-- Whether nothing ever writes to an object. -/
def HeapObject.isLasting : HeapObject → Bool
  | constant .. | text _ => true
  | object .. | chars _ | ints _ => false

namespace Heap

variable {h h' : Heap} {r : ObjRef} {o : HeapObject}

theorem objects_of_extended (hkeeps : h.objects.toList <+: h'.objects.toList) :
    ∃ more, h'.objects = h.objects ++ more := by
  obtain ⟨more, hmore⟩ := hkeeps
  exact ⟨more.toArray, Array.toList_inj.mp (by simp [← hmore])⟩

theorem getElem?_of_get (hget : h.get r = .ok o) : h.objects.toList[r.index]? = some o := by
  unfold get at hget
  rw [Array.getElem?_toList]
  cases hfound : h.objects[r.index]? with
  | none =>
    rw [hfound] at hget
    cases hget
  | some found =>
    rw [hfound] at hget
    cases hget
    rfl

theorem get_of_getElem? (hfound : h.objects.toList[r.index]? = some o) : h.get r = .ok o := by
  rw [Array.getElem?_toList] at hfound
  rw [get, hfound]

/-- A heap that grows keeps its objects. -/
theorem get_of_extended (hkeeps : h.objects.toList <+: h'.objects.toList) (hget : h.get r = .ok o) :
    h'.get r = .ok o := by
  obtain ⟨more, hmore⟩ := hkeeps
  have hfound := getElem?_of_get hget
  refine get_of_getElem? ?_
  rw [← hmore, List.getElem?_append_left (List.getElem?_eq_some_iff.mp hfound).1, hfound]

/-- A constant found is found in a heap that has grown. -/
theorem constant?_of_extended {className name : String}
    (hkeeps : h.objects.toList <+: h'.objects.toList)
    (hfound : h.constant? className name = some r) :
    h'.constant? className name = some r := by
  obtain ⟨more, hmore⟩ := objects_of_extended hkeeps
  unfold constant? at hfound ⊢
  obtain ⟨i, hi, rfl⟩ := Option.map_eq_some_iff.mp hfound
  rw [hmore, Array.findIdx?_append, hi]
  rfl

/-! ### Allocation -/

/-- A new object stands behind the others. -/
theorem prefix_alloc (h : Heap) (o : HeapObject) :
    h.objects.toList <+: (h.alloc o).2.objects.toList := by
  simp [alloc]

theorem get_alloc (h : Heap) (o : HeapObject) : (h.alloc o).2.get ⟨h.size⟩ = .ok o :=
  get_of_getElem? (by simp [alloc, size])

theorem field_alloc (h : Heap) (className name : String) (fields : List (String × Value)) :
    (h.alloc (.object className fields)).2.field ⟨h.size⟩ name = .ok (fields.lookup name) := by
  rw [field, get_alloc]
  rfl

/-! ### Writing -/

variable {base : List HeapObject}

/-- **Writing to an object that may change** keeps the objects in front of it that may not. -/
theorem extends_set {new : HeapObject} (hbase : ∀ o ∈ base, o.isLasting = true)
    (hkeeps : base <+: h.objects.toList) (hget : h.get r = .ok o) (ho : o.isLasting = false) :
    base <+: (h.set r new).objects.toList := by
  obtain ⟨more, hmore⟩ := hkeeps
  have hle : base.length ≤ r.index := by
    -- What is replaced does not last, so it stands behind all that does.
    refine Nat.le_of_not_lt fun hlt => ?_
    have hfound := getElem?_of_get hget
    rw [← hmore, List.getElem?_append_left hlt] at hfound
    have hlasting := hbase o (List.mem_of_getElem? hfound)
    rw [ho] at hlasting
    cases hlasting
  refine ⟨more.set (r.index - base.length) new, ?_⟩
  rw [set, Array.toList_setIfInBounds, ← hmore, List.set_append_right _ _ hle]

/-- Setting a field keeps the objects that last, for an instance is none of them. -/
theorem extends_setField {name : String} {v : Value} (hbase : ∀ o ∈ base, o.isLasting = true)
    (hkeeps : base <+: h.objects.toList) (hset : h.setField r name v = .ok h') :
    base <+: h'.objects.toList := by
  unfold setField at hset
  cases hget : h.get r with
  | error f =>
    rw [hget] at hset
    cases hset
  | ok o =>
    rw [hget] at hset
    cases o with
    | object className fields =>
      cases hset
      exact extends_set hbase hkeeps hget rfl
    | _ => cases hset

/-- Writing an array keeps the objects that last. -/
theorem extends_setElement {index v : Int32} (hbase : ∀ o ∈ base, o.isLasting = true)
    (hkeeps : base <+: h.objects.toList) (hset : h.setElement r index v = .ok h') :
    base <+: h'.objects.toList := by
  unfold setElement at hset
  cases hindex : elementIndex index with
  | error f =>
    rw [hindex] at hset
    cases hset
  | ok i =>
    rw [hindex] at hset
    cases hget : h.get r with
    | error f =>
      simp only [hget, bind, Except.bind] at hset
      cases hset
    | ok o =>
      simp only [hget, bind, Except.bind] at hset
      cases o with
      -- Only arrays have elements, and arrays are not lasting.
      | chars units | ints values =>
        dsimp only at hset
        split at hset
        · cases hset
          exact extends_set hbase hkeeps hget rfl
        · cases hset
      | _ => cases hset

end Heap

end RoundingPatch.Machine
