import Mathlib.Data.List.Infix
import RoundingPatch.Proofs.Patch.Patched
/-!
# References to the template class

A transplanted method refers to classes by operands (`Outline.classOperands`) and inside descriptors
and signatures (`Outline.typeTexts`). Renaming turns the template's name into the target's wherever
it is an operand, and replaces the text `Ltemplate;` in descriptors and signatures. Such a text is
the template as a class type unless a longer name ends in it; but in a signature the template can
also stand with type arguments, as in `Ltemplate<TX;>;`, which is not such a text.

So the replacement does not refer to the template if the template's method never gives it type
arguments and its name does not end in an `L` and the target's name (`modified_names_not`).
Otherwise it may: a local variable whose type is the template with an argument keeps its signature
(`names_template_argued`).
-/

namespace RoundingPatch

open ClassFile

/-! ### Class types -/

/-- Where in a descriptor or a signature a character stands. -/
inductive TypePlace
  /-- Where a type can start. -/
  | start
  /-- In the name of a class, behind some characters. -/
  | name (front : List Char)
  /-- In the name of a type variable or of an inner class. -/
  | other

/-- The names of the classes in the rest of a descriptor or a signature, each with the character
that ends it: a semicolon, or what comes before its type arguments or an inner class. -/
def TypePlace.classTypes : TypePlace → List Char → List (List Char × Char)
  | _, [] => []
  | start, c :: text =>
    classTypes (if c = 'L' then name [] else if c = 'T' ∨ c = '.' then other else start) text
  | name front, c :: text =>
    if c = ';' ∨ c = '<' then (front, c) :: classTypes start text
    else if c = '.' then (front, c) :: classTypes other text
    else classTypes (name (front ++ [c])) text
  | other, c :: text => classTypes (if c = ';' ∨ c = '<' then start else other) text

/-- The names of the classes in a descriptor or a signature. -/
def classTypes (text : String) : List (List Char × Char) :=
  TypePlace.start.classTypes text.toList

/-- A descriptor or a signature names a class. -/
def Mentions (text name : String) : Prop :=
  ∃ stop, (name.toList, stop) ∈ classTypes text

/-- A class operand, which is a class name or an array type, names a class. -/
def Operates (operand name : String) : Prop :=
  operand = name ∨ operand.toList.head? = some '[' ∧ Mentions operand name

/-- Where a class is named, nothing but the end of the name follows: neither type arguments nor an
inner class. -/
def Bare (text name : String) : Prop :=
  ∀ stop, (name.toList, stop) ∈ classTypes text → stop = ';'

/-! ### Renaming in a text -/

namespace TypePlace

variable {place : TypePlace} {word text old new : List Char} {stop c : Char}

@[simp] theorem classTypes_nil : place.classTypes [] = [] := by
  cases place <;> rfl

theorem classTypes_start_cons : start.classTypes (c :: text)
    = classTypes (if c = 'L' then name [] else if c = 'T' ∨ c = '.' then other else start) text :=
      rfl

theorem classTypes_name_cons {front : List Char} : (name front).classTypes (c :: text)
    = if c = ';' ∨ c = '<' then (front, c) :: start.classTypes text
      else if c = '.' then (front, c) :: other.classTypes text
      else (name (front ++ [c])).classTypes text := rfl

theorem classTypes_other_cons : other.classTypes (c :: text)
    = classTypes (if c = ';' ∨ c = '<' then start else other) text := rfl

/-- A word without punctuation is part of a name. -/
theorem classTypes_name {front : List Char} (h : ∀ c ∈ word, c ≠ ';' ∧ c ≠ '<' ∧ c ≠ '.') :
    (name front).classTypes (word ++ ';' :: text)
      = (front ++ word, ';') :: start.classTypes text := by
  induction word generalizing front with
  | nil => simp [classTypes_name_cons]
  | cons c word ih =>
    rw [List.forall_mem_cons] at h
    obtain ⟨⟨hsemicolon, hless, hpoint⟩, hword⟩ := h
    rw [List.cons_append, classTypes_name_cons, if_neg (by simp [hsemicolon, hless]),
      if_neg hpoint, ih hword, List.append_assoc]
    rfl

theorem classTypes_other (h : ∀ c ∈ word, c ≠ ';' ∧ c ≠ '<') :
    other.classTypes (word ++ ';' :: text) = start.classTypes text := by
  induction word with
  | nil => simp [classTypes_other_cons]
  | cons c word ih =>
    rw [List.forall_mem_cons] at h
    rw [List.cons_append, classTypes_other_cons, if_neg (by simp [h.1.1, h.1.2]), ih h.2]

/-- Without punctuation no name ends. -/
theorem classTypes_plain (h : ∀ c ∈ word, c ≠ ';' ∧ c ≠ '<' ∧ c ≠ '.') :
    place.classTypes word = [] := by
  induction word generalizing place with
  | nil => exact classTypes_nil
  | cons c word ih =>
    rw [List.forall_mem_cons] at h
    obtain ⟨⟨hsemicolon, hless, hpoint⟩, hword⟩ := h
    cases place with
    | start => rw [classTypes_start_cons, ih hword]
    | name front =>
      rw [classTypes_name_cons, if_neg (by simp [hsemicolon, hless]), if_neg hpoint, ih hword]
    | other => rw [classTypes_other_cons, ih hword]

/-- **Behind a semicolon a type can start**, wherever the semicolon stands. -/
theorem exists_classTypes_append (place : TypePlace) (word text : List Char) :
    ∃ front, place.classTypes (word ++ ';' :: text) = front ++ start.classTypes text := by
  -- Wherever the word begins, its semicolon leads back to the start of a type.
  induction word generalizing place with
  | nil =>
    cases place with
    | start => exact ⟨[], by simp [classTypes_start_cons]⟩
    | name front => exact ⟨[(front, ';')], by simp [classTypes_name_cons]⟩
    | other => exact ⟨[], by simp [classTypes_other_cons]⟩
  | cons c word ih =>
    rw [List.cons_append]
    cases place with
    | start =>
      rw [classTypes_start_cons]
      exact ih _
    | other =>
      rw [classTypes_other_cons]
      exact ih _
    | name front =>
      rw [classTypes_name_cons]
      split
      · obtain ⟨more, h⟩ := ih start
        exact ⟨(front, c) :: more, by rw [h]; rfl⟩
      · split
        · obtain ⟨more, h⟩ := ih other
          exact ⟨(front, c) :: more, by rw [h]; rfl⟩
        · exact ih _

/-- The new name does not turn up as the old one, wherever it is put. -/
theorem not_mem_classTypes_renamed (hnew : ∀ c ∈ new, c ≠ ';' ∧ c ≠ '<' ∧ c ≠ '.') (hne : new ≠ old)
    (hsuffix : ¬ 'L' :: new <:+ old) (h : (old, stop) ∉ start.classTypes text) :
    (old, stop) ∉ place.classTypes ('L' :: new ++ [';'] ++ text) := by
  rw [List.cons_append, List.cons_append, List.append_assoc, List.singleton_append]
  -- In a name the new text only lengthens it; elsewhere it is a type of its own, or none.
  cases place with
  | start =>
    rw [classTypes_start_cons, if_pos rfl, classTypes_name hnew, List.nil_append, List.mem_cons]
    rintro (heq | hmem)
    · exact hne (Prod.mk.inj heq).1.symm
    · exact h hmem
  | name front =>
    rw [← List.cons_append, classTypes_name (List.forall_mem_cons.mpr ⟨by decide, hnew⟩),
      List.mem_cons]
    rintro (heq | hmem)
    · exact hsuffix ⟨front, (Prod.mk.inj heq).1.symm⟩
    · exact h hmem
  | other =>
    rw [← List.cons_append, classTypes_other (List.forall_mem_cons.mpr
      ⟨by decide, fun c hc => ⟨(hnew c hc).1, (hnew c hc).2.1⟩⟩)]
    exact h

/-- **Renaming leaves no class type of the old name** that is bare. The induction goes along the
text; what carries it is that a name that has been read so far is not about to become the old one
and end. -/
theorem not_mem_classTypes_replaceAll (hnew : ∀ c ∈ new, c ≠ ';' ∧ c ≠ '<' ∧ c ≠ '.')
    (hne : new ≠ old) (hsuffix : ¬ 'L' :: new <:+ old)
    (hfront : ∀ front, place = name front → ¬ old ++ [';'] <+: front ++ text)
    (hbare : ∀ stop, (old, stop) ∈ place.classTypes text → stop = ';') (stop : Char) :
    (old, stop) ∉ place.classTypes
      (replaceAll ('L' :: old ++ [';']) ('L' :: new ++ [';']) text) := by
  fun_induction replaceAll ('L' :: old ++ [';']) ('L' :: new ++ [';']) text generalizing
    place stop with
  | case1 => simp
  | case2 c rest hprefix ih =>
    -- The old name stands here and is replaced: behind its semicolon a type starts.
    obtain ⟨more, hmore⟩ := List.isPrefixOf_iff_prefix.mp hprefix
    rw [List.cons_append, List.cons_append, List.append_assoc, List.singleton_append] at hmore
    obtain ⟨rfl, rfl⟩ := List.cons.inj hmore
    have hdrop : (old ++ ';' :: more).drop (('L' :: old ++ [';']).length - 1) = more := by
      simp
    rw [hdrop] at ih ⊢
    have hrest := @ih start nofun (fun stop hstop => hbare stop (by
      obtain ⟨front, heq⟩ := exists_classTypes_append place ('L' :: old) more
      rw [List.cons_append] at heq
      rw [heq]
      exact List.mem_append_right _ hstop)) stop
    exact not_mem_classTypes_renamed hnew hne hsuffix hrest
  | case3 c rest hother ih =>
    -- One character is copied. Behind an `L` a name starts, and it is not the old one followed by a
    -- semicolon, else it would have been replaced.
    have hother : ¬ 'L' :: old ++ [';'] <+: c :: rest := fun h =>
      hother (List.isPrefixOf_iff_prefix.mpr h)
    cases place with
    | start =>
      rw [classTypes_start_cons] at hbare ⊢
      refine ih (fun front hplace => ?_) hbare stop
      split at hplace
      · next hc =>
        cases hplace
        rw [hc] at hother
        exact fun h => hother (List.cons_prefix_cons.mpr ⟨rfl, h⟩)
      · split at hplace <;> cases hplace
    | name front =>
      have hread := hfront front rfl
      rw [classTypes_name_cons] at hbare ⊢
      split
      · next hc =>
        rw [if_pos hc] at hbare
        rw [List.mem_cons]
        -- A name ends here: if it is the old one, it is bare and ends in a semicolon.
        rintro (heq | hmem)
        · obtain ⟨rfl, rfl⟩ := Prod.mk.inj heq
          obtain rfl := hbare stop (List.mem_cons_self ..)
          exact hread (List.prefix_append_right_inj _ |>.mpr ⟨rest, rfl⟩)
        · exact @ih start nofun
            (fun stop hstop => hbare stop (List.mem_cons_of_mem _ hstop)) stop hmem
      · next hc =>
        rw [if_neg hc] at hbare
        split
        · next hpoint =>
          rw [if_pos hpoint] at hbare
          rw [List.mem_cons]
          rintro (heq | hmem)
          · obtain ⟨rfl, rfl⟩ := Prod.mk.inj heq
            have hstop := hbare stop (List.mem_cons_self ..)
            exact hc (.inl hstop)
          · exact @ih other nofun
              (fun stop hstop => hbare stop (List.mem_cons_of_mem _ hstop)) stop hmem
        · next hpoint =>
          rw [if_neg hpoint] at hbare
          refine ih (fun more hplace => ?_) hbare stop
          cases hplace
          rwa [List.append_assoc, List.singleton_append]
    | other =>
      rw [classTypes_other_cons] at hbare ⊢
      refine ih (fun front hplace => ?_) hbare stop
      split at hplace <;> cases hplace

end TypePlace

/-- A class name that can be turned into another one wherever it is a bare class type. -/
structure Renames (old new : String) : Prop where
  ne : new ≠ old
  /-- The new name has no punctuation. -/
  plain : ∀ c ∈ new.toList, c ≠ ';' ∧ c ≠ '<' ∧ c ≠ '.'
  /-- The old name is not what becomes of a longer name. -/
  suffix : ¬ 'L' :: new.toList <:+ old.toList
  old_plain : ';' ∉ old.toList

variable {text operand old new : String}

/-- **A descriptor or signature does not name the old class** after renaming. -/
theorem Renames.not_mentions (h : Renames old new) (hbare : Bare text old) :
    ¬ Mentions (renameInDescriptor text old new) old := by
  rintro ⟨stop, hstop⟩
  rw [classTypes, renameInDescriptor, String.toList_ofList] at hstop
  exact TypePlace.not_mem_classTypes_replaceAll h.plain
    (fun heq => h.ne (String.toList_inj.mp heq)) h.suffix (by nofun) hbare stop hstop

/-- Renaming changes nothing or leaves a semicolon. -/
theorem replaceAll_eq_self {old new text : List Char}
    (h : ';' ∉ replaceAll old (new ++ [';']) text) : replaceAll old (new ++ [';']) text = text := by
  fun_induction replaceAll old (new ++ [';']) text with
  | case1 => rfl
  | case2 c rest hprefix ih => simp at h
  | case3 c rest hother ih => rw [ih fun hmem => h (List.mem_cons_of_mem _ hmem)]

/-- **A class operand does not name the old class** after renaming. -/
theorem Renames.not_operates (h : Renames old new)
    (hbare : operand.toList.head? = some '[' → Bare operand old) :
    ¬ Operates (renameClass operand old new) old := by
  have hnew : ¬ Mentions new old := by
    rintro ⟨stop, hstop⟩
    rw [classTypes, TypePlace.classTypes_plain h.plain] at hstop
    cases hstop
  unfold renameClass
  split
  · rintro (heq | ⟨-, hmentions⟩)
    · exact h.ne heq
    · exact hnew hmentions
  · next hne =>
    split
    · -- An array operand is a descriptor, and is renamed as one.
      next harray =>
      rintro (heq | ⟨-, hmentions⟩)
      · have hlist := congrArg String.toList heq
        rw [renameInDescriptor, String.toList_ofList] at hlist
        have hsame := replaceAll_eq_self (hlist ▸ h.old_plain)
        exact hne (String.toList_inj.mp (hsame.symm.trans hlist))
      · exact h.not_mentions (hbare harray) hmentions
    · next harray =>
      rintro (heq | ⟨hhead, -⟩)
      · exact hne heq
      · exact harray hhead

/-! ### References in methods -/

/-- The class operands of an instruction. -/
def ClassFile.Insn.classOperands : Insn → List String
  | .field _ owner _ _ | .method _ owner _ _ _ => [owner]
  | .type _ name | .multiArray name _ | .ldc (.classRef name) => [name]
  | _ => []

/-- The descriptors in an instruction. -/
def ClassFile.Insn.memberDescriptors : Insn → List String
  | .field _ _ _ descriptor | .method _ _ _ descriptor _ => [descriptor]
  | _ => []

/-- The class operands of a verification type. -/
def ClassFile.VType.classOperands : VType → List String
  | .object name => [name]
  | _ => []

/-- The verification types in a stack map frame. -/
def ClassFile.Frame.vtypes : Frame → List VType
  | .sameWithOne stack => [stack]
  | .append locals => locals
  | .full locals stack => locals ++ stack
  | _ => []

namespace ClassFile.Outline

/-- The class operands in a method: owners of members, types, class constants, catch types and
verification types. -/
def classOperands (o : Outline) : List String :=
  o.insns.flatMap Insn.classOperands ++ o.handlers.filterMap (·.catchType)
    ++ o.frames.flatMap fun p => p.2.vtypes.flatMap VType.classOperands

/-- The descriptors of members in a method, and the descriptors and signatures of local variables.
-/
def typeTexts (o : Outline) : List String :=
  o.insns.flatMap Insn.memberDescriptors ++ (o.descriptors ++ o.signatures).map (·.descriptor)

/-- A method names a class. -/
def Names (o : Outline) (name : String) : Prop :=
  (∃ operand ∈ o.classOperands, Operates operand name) ∨ ∃ text ∈ o.typeTexts, Mentions text name

/-- Where a method names a class inside a type, it is bare. -/
def NamesBare (o : Outline) (name : String) : Prop :=
  (∀ operand ∈ o.classOperands, operand.toList.head? = some '[' → Bare operand name) ∧
    ∀ text ∈ o.typeTexts, Bare text name

end ClassFile.Outline

namespace Transplant

variable {t : Transplant} {o : Outline}

/-- **The class operands of a copy** are those of the template, each renamed. -/
theorem classOperands_outline :
    (t.outline o).classOperands = o.classOperands.map t.classOperand := by
  have hinsn (i : Insn) : (t.renamed i).classOperands = i.classOperands.map t.classOperand := by
    cases i with
    | ldc constant => cases constant <;> rfl
    | _ => rfl
  have hvtype (v : VType) : (t.vtype v).classOperands = v.classOperands.map t.classOperand := by
    cases v <;> rfl
  have hframe (f : Frame) : (t.frame f).vtypes = f.vtypes.map t.vtype := by
    cases f with
    | full locals stack => exact (List.map_append ..).symm
    | _ => rfl
  unfold outline Outline.classOperands
  simp only [List.flatMap_map, List.map_append, List.map_flatMap, List.filterMap_map,
    List.map_filterMap, hinsn, hframe, hvtype]
  rfl

/-- The descriptors of a copy are those of the template, each renamed. -/
theorem typeTexts_outline : (t.outline o).typeTexts = o.typeTexts.map t.descriptorText := by
  have hinsn (i : Insn) :
      (t.renamed i).memberDescriptors = i.memberDescriptors.map t.descriptorText := by
    cases i with
    | ldc constant => cases constant <;> rfl
    | _ => rfl
  unfold outline Outline.typeTexts
  simp only [List.flatMap_map, List.map_append, List.map_flatMap, List.map_map, hinsn]
  rfl

/-- **The copy of a method does not name the template.** -/
theorem not_names_outline (h : Renames t.templateClass t.targetClass)
    (hbare : o.NamesBare t.templateClass) : ¬ (t.outline o).Names t.templateClass := by
  rintro (⟨operand, hmem, hoperates⟩ | ⟨text, hmem, hmentions⟩)
  · rw [classOperands_outline, List.mem_map] at hmem
    obtain ⟨operand, hmem, rfl⟩ := hmem
    exact h.not_operates (hbare.1 operand hmem) hoperates
  · rw [typeTexts_outline, List.mem_map] at hmem
    obtain ⟨text, hmem, rfl⟩ := hmem
    exact h.not_mentions (hbare.2 text hmem) hmentions

end Transplant

/-! ### References in patched classes -/

namespace PatchSettings

variable {s : PatchSettings}

theorem fault?_of_validate (h : s.validate = .ok ()) : s.fault? = none := by
  unfold validate at h
  split at h
  · cases h
  · assumption

/-- The names in valid settings are internal names. -/
theorem plain_of_validate (h : s.validate = .ok ()) {key name : String}
    (hmem : (key, name) ∈ s.internalNames) : '.' ∉ name.toList ∧ ';' ∉ name.toList := by
  have hnone := fault?_of_validate h
  unfold fault? at hnone
  split at hnone
  · cases hnone
  · next hnames =>
    have hvalid := List.find?_eq_none.mp hnames (key, name) hmem
    simp only [isInternalName, Bool.not_eq_true', Bool.not_eq_false, Bool.and_eq_true] at hvalid
    exact ⟨by simpa using hvalid.1.2, by simpa using hvalid.2⟩

/-- Valid settings name two different classes. -/
theorem targetClass_ne_of_validate (h : s.validate = .ok ()) : s.targetClass ≠ s.templateClass := by
  have hnone := fault?_of_validate h
  unfold fault? at hnone
  -- Only the names that differ pass the last test; every other way out holds a fault.
  repeat' split at hnone
  all_goals first | assumption | cases hnone

/-- Valid settings name two classes, of which the target's name can take the place of the
template's. -/
theorem renames_of_validate (h : s.validate = .ok ()) (hless : '<' ∉ s.targetClass.toList)
    (hsuffix : ¬ 'L' :: s.targetClass.toList <:+ s.templateClass.toList) :
    Renames s.templateClass s.targetClass := by
  have htarget : ("target_class", s.targetClass) ∈ s.internalNames := by simp [internalNames]
  have htemplate : ("template_class", s.templateClass) ∈ s.internalNames := by simp [internalNames]
  obtain ⟨hpoint, hsemicolon⟩ := plain_of_validate h htarget
  exact {
    ne := targetClass_ne_of_validate h
    plain := fun c hc => ⟨fun hstop => hsemicolon (hstop ▸ hc), fun hstop => hless (hstop ▸ hc),
      fun hstop => hpoint (hstop ▸ hc)⟩
    suffix := hsuffix
    old_plain := (plain_of_validate h htemplate).2 }

end PatchSettings

namespace Transformer

variable {t : Transformer} {x y : Bytes}

/-- **The replacement does not name the template**, if the method it was copied from never gives the
template type arguments or an inner class, and if the template's name does not end in an `L` and
that of the target. -/
theorem modified_names_not {name : String} (h : t.outcome name x = .modified y)
    (hvalid : t.settings.validate = .ok ()) (hless : '<' ∉ t.settings.targetClass.toList)
    (hsuffix : ¬ 'L' :: t.settings.targetClass.toList <:+ t.settings.templateClass.toList)
    (hbare : ∀ bytes template copied, t.template.contents = .ok bytes →
      ClassFile.parse bytes = .ok template →
      template.method? t.settings.replacement t.settings.descriptor = some copied →
      (copied.outline template.pool).NamesBare t.settings.templateClass) :
    ∃ c replacement, ClassFile.parse y = .ok c ∧
      c.method? t.settings.replacement t.settings.descriptor = some replacement ∧
      (replacement.decode c.pool).failure = none ∧
      ¬ (replacement.outline c.pool).Names t.settings.templateClass := by
  obtain ⟨_, c, -, hparse, ⟨q⟩⟩ := nonempty_patched h
  obtain ⟨bytes, hcontents, htemplate⟩ := q.parse_template
  refine ⟨c, q.replacement, hparse, ?_, q.decodes_replacement, ?_⟩
  · rw [method?_eq_find?]
    exact q.find?_replacement
  · -- The replacement is the template's method renamed, whatever the patch did around it.
    rw [q.outline_replacement]
    exact Transplant.not_names_outline (PatchSettings.renames_of_validate hvalid hless hsuffix)
      (hbare bytes q.template q.copied hcontents htemplate q.find_copied)

/-- The example with a replacement that asks a method of the template. -/
def sampleAsking : Transformer :=
  { sample with template := { description := "sample", contents := .ok Transplant.asking } }

/-- In the example the template's method names the template as the owner of a method, the
replacement does not. -/
theorem modified_names_not_asking : ∃ y c replacement,
    sampleAsking.outcome "T" sampleClass = .modified y ∧ ClassFile.parse y = .ok c ∧
      c.method? "g" "()I" = some replacement ∧ ¬ (replacement.outline c.pool).Names "U" := by
  have houtcome : (sampleAsking.outcome "T" sampleClass).bytes?.isSome := by decide +kernel
  obtain ⟨y, hy⟩ := Option.isSome_iff_exists.mp houtcome
  have hreferences : (do
      let c ← ClassFile.parse Transplant.asking
      pure ((c.method? "g" "()I").map fun m : Member =>
        ((m.outline c.pool).classOperands, (m.outline c.pool).typeTexts))) =
      .ok (some (["U"], ["()I"])) := by
    decide +kernel
  obtain ⟨c, replacement, hparse, hmethod, -, hnames⟩ := modified_names_not (bytes?_eq_some.mp hy)
    (by decide +kernel) (by decide) (by decide) (by
      rintro _ template copied ⟨⟩ htemplate hcopied
      obtain ⟨_, hread, hreferences⟩ := except_bind_eq_ok.mp hreferences
      obtain rfl := Except.ok.inj (htemplate.symm.trans hread)
      have hcopied : template.method? "g" "()I" = some copied := hcopied
      rw [hcopied] at hreferences
      obtain ⟨hoperands, htexts⟩ := Prod.mk.inj (Option.some.inj (Except.ok.inj hreferences))
      refine ⟨?_, ?_⟩
      · rw [hoperands]
        simp
      · rw [htexts]
        simp [Bare, classTypes, TypePlace.classTypes])
  exact ⟨y, c, replacement, bytes?_eq_some.mp hy, hparse, hmethod, hnames⟩

/-- A class `tpl/T` with one method `g`, where local variable 0 is a `tpl/T` with type argument `X`.
-/
def generic : Bytes := [
  202, 254, 186, 190, 0, 0, 0, 52, 0, 11, 1, 0, 1, 103, 1, 0, 3, 40, 41, 73, 1, 0, 1, 120, 1, 0, 12,
  76, 116, 112, 108, 47, 84, 60, 84, 88, 59, 62, 59, 1, 0, 22, 76, 111, 99, 97, 108, 86, 97, 114,
  105, 97, 98, 108, 101, 84, 121, 112, 101, 84, 97, 98, 108, 101, 1, 0, 4, 67, 111, 100, 101, 1, 0,
  5, 116, 112, 108, 47, 84, 7, 0, 7, 1, 0, 16, 106, 97, 118, 97, 47, 108, 97, 110, 103, 47, 79, 98,
  106, 101, 99, 116, 7, 0, 9, 0, 0, 0, 8, 0, 10, 0, 0, 0, 0, 0, 1, 0, 0, 0, 1, 0, 2, 0, 1, 0, 6, 0,
  0, 0, 32, 0, 1, 0, 1, 0, 0, 0, 2, 4, 172, 0, 0, 0, 1, 0, 5, 0, 0, 0, 12, 0, 1, 0, 0, 0, 2, 0, 3,
  0, 4, 0, 0, 0, 0]

/-- The patch that sends the first case of `f` in class `T` to `g` from class `tpl/T`. -/
def sampleGeneric : Transformer where
  settings := { sample.settings with templateClass := "tpl/T" }
  template := { description := "sample", contents := .ok generic }

/-- **The replacement can name the template**: a type argument keeps the template's name in a
signature. -/
theorem names_template_argued : sampleGeneric.settings.validate = .ok () ∧ ∃ y c replacement,
    sampleGeneric.outcome "T" sampleClass = .modified y ∧ ClassFile.parse y = .ok c ∧
      c.method? "g" "()I" = some replacement ∧ (replacement.outline c.pool).Names "tpl/T" := by
  have houtcome : (sampleGeneric.outcome "T" sampleClass).bytes?.isSome := by decide +kernel
  obtain ⟨y, hy⟩ := Option.isSome_iff_exists.mp houtcome
  have hreferences : ((sampleGeneric.outcome "T" sampleClass).bytes?.map fun y => do
      let c ← ClassFile.parse y
      pure ((c.method? "g" "()I").map fun m : Member => (m.outline c.pool).typeTexts)) =
      some (.ok (some ["Ltpl/T<TX;>;"])) := by
    decide +kernel
  rw [hy, Option.map_some, Option.some.injEq] at hreferences
  obtain ⟨c, hparse, hreferences⟩ := except_bind_eq_ok.mp hreferences
  obtain ⟨replacement, hmethod, htexts⟩ := Option.map_eq_some_iff.mp (Except.ok.inj hreferences)
  refine ⟨by decide +kernel, y, c, replacement, bytes?_eq_some.mp hy, hparse, hmethod,
    .inr ⟨"Ltpl/T<TX;>;", ?_, '<', ?_⟩⟩
  · rw [htexts]
    exact List.mem_singleton_self _
  · simp [classTypes, TypePlace.classTypes]

end Transformer

end RoundingPatch
