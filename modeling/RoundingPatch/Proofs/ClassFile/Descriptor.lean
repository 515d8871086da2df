import Mathlib.Data.List.Infix
import RoundingPatch.ClassFile.Descriptor
import RoundingPatch.Proofs.Yields
/-!
# Descriptors and the types they describe

A descriptor that can be read is the text of what is read from it (`FieldType.text_of_parse`,
`MethodDescriptor.text_of_parse`), and the text of types whose class names can stand there is read
again (`MethodDescriptor.parse_text`). So what can be read are the texts of such types
(`parse_eq_ok_iff`).

Renaming replaces a piece of text, `Lold;` by `Lnew;`, wherever it stands. In a descriptor it can
only stand at the end of a class type (`replaceAll_word`), since a semicolon ends nothing else. But
it need not be the whole type: a class whose name ends in an `L` and the old name is renamed too.
`renamedName` says what becomes of a class name, and with it renaming is a change of the types
(`renameInDescriptor_of_parse`).
-/

namespace RoundingPatch.ClassFile

/-! ### Class names in types -/

/-- A text that can stand as a class name in a descriptor. -/
def IsClassName (name : String) : Prop :=
  name ≠ "" ∧ ';' ∉ name.toList

instance (name : String) : Decidable (IsClassName name) :=
  inferInstanceAs (Decidable (_ ∧ _))

namespace FieldType

/-- The names of the classes in a type. -/
def names : FieldType → List String
  | object name => [name]
  | array element => element.names
  | _ => []

/-- A type with its class names changed. -/
def mapNames (f : String → String) : FieldType → FieldType
  | object name => object (f name)
  | array element => array (element.mapNames f)
  | t => t

end FieldType

/-- A method with the class names in its types changed. -/
def MethodDescriptor.mapNames (f : String → String) (d : MethodDescriptor) : MethodDescriptor where
  params := d.params.map (·.mapNames f)
  result := d.result.map (·.mapNames f)

/-! ### Reading types -/

section Reading

variable {s rest : List Char} {t : FieldType} {params : List FieldType}

/-- A name ends at the first semicolon. -/
theorem splitAtSemicolon_eq_some {name : List Char} :
    splitAtSemicolon s = some (name, rest) ↔ s = name ++ ';' :: rest ∧ ';' ∉ name := by
  induction s generalizing name with
  | nil => simp [splitAtSemicolon]
  | cons c s ih =>
    -- At the semicolon the name is empty; in front of it the name has one character more.
    by_cases hc : c = ';'
    · subst hc
      simp only [splitAtSemicolon, ne_eq, not_true_eq_false, decide_false, Bool.false_eq_true,
        not_false_eq_true, List.dropWhile_cons_of_neg, List.takeWhile_cons_of_neg,
        Option.some.injEq, Prod.mk.injEq]
      constructor
      · rintro ⟨rfl, rfl⟩
        simp
      · rintro ⟨heq, hname⟩
        cases name with
        | nil => exact ⟨rfl, (List.cons.inj heq).2⟩
        | cons d name => exact absurd ((List.cons.inj heq).1 ▸ List.mem_cons_self) hname
    · have hcons : splitAtSemicolon (c :: s)
          = (splitAtSemicolon s).map fun p => (c :: p.1, p.2) := by
        unfold splitAtSemicolon
        rw [List.dropWhile_cons_of_pos (by simpa using hc),
          List.takeWhile_cons_of_pos (by simpa using hc)]
        split <;> rfl
      rw [hcons, Option.map_eq_some_iff]
      constructor
      · rintro ⟨⟨front, back⟩, hsplit, heq⟩
        obtain ⟨rfl, rfl⟩ := Prod.mk.inj heq
        obtain ⟨rfl, hfront⟩ := ih.mp hsplit
        exact ⟨rfl, by simpa [hfront] using Ne.symm hc⟩
      · rintro ⟨heq, hname⟩
        cases name with
        | nil => exact absurd (List.cons.inj heq).1 hc
        | cons d name =>
          obtain ⟨rfl, rfl⟩ := List.cons.inj heq
          exact ⟨(name, rest), ih.mpr ⟨rfl, fun h => hname (List.mem_cons_of_mem _ h)⟩, rfl⟩

/-- **What is read as a type** is the text of the type. -/
theorem eq_of_readFieldType (h : readFieldType s = .ok (t, rest)) :
    s = t.chars ++ rest ∧ ∀ name ∈ t.names, IsClassName name := by
  fun_induction readFieldType s generalizing t rest with
  -- A class name that does not end, or is empty, is refused.
  | case10 s hsplit => cases h
  | case11 s rest' hsplit => cases h
  | case12 s name rest' hne hsplit =>
    obtain ⟨rfl, rfl⟩ := Prod.mk.inj (Except.ok.inj h)
    obtain ⟨rfl, hname⟩ := splitAtSemicolon_eq_some.mp hsplit
    refine ⟨by simp [FieldType.chars], ?_⟩
    intro text htext
    obtain rfl := List.mem_singleton.mp htext
    refine ⟨fun hempty => hne ?_, by simpa using hname⟩
    simpa using congrArg String.toList hempty
  | case13 s ih =>
    obtain ⟨⟨element, after⟩, helement, heq⟩ := except_bind_eq_ok.mp h
    obtain ⟨rfl, rfl⟩ := Prod.mk.inj (Except.ok.inj heq)
    obtain ⟨rfl, hnames⟩ := ih helement
    exact ⟨rfl, hnames⟩
  | case1 | case14 => cases h
  | _ =>
    obtain ⟨rfl, rfl⟩ := Prod.mk.inj (Except.ok.inj h)
    exact ⟨rfl, nofun⟩

/-- **The text of a type** is read as the type. -/
theorem readFieldType_chars (h : ∀ name ∈ t.names, IsClassName name) :
    readFieldType (t.chars ++ rest) = .ok (t, rest) := by
  induction t with
  | object name =>
    obtain ⟨hne, hname⟩ := h name List.mem_cons_self
    have hsplit : splitAtSemicolon (name.toList ++ ';' :: rest) = some (name.toList, rest) :=
      splitAtSemicolon_eq_some.mpr ⟨rfl, hname⟩
    have htext : (FieldType.object name).chars ++ rest = 'L' :: (name.toList ++ ';' :: rest) := by
      simp [FieldType.chars]
    -- The name is what stands before the semicolon, and it is not empty.
    rw [htext, readFieldType, hsplit]
    split
    · next heq => cases heq
    · next heq =>
      obtain ⟨hnil, -⟩ := Prod.mk.inj (Option.some.inj heq)
      exact absurd (String.toList_inj.mp hnil) hne
    · next heq =>
      obtain ⟨rfl, rfl⟩ := Prod.mk.inj (Option.some.inj heq)
      rw [String.ofList_toList]
  | array element ih =>
    rw [FieldType.chars, List.cons_append, readFieldType, ih h]
    rfl
  | _ => rfl

/-- The text of a type is neither empty nor a closing bracket nor void. -/
theorem head?_chars : t.chars ≠ [] ∧ t.chars.head? ≠ some ')' ∧ t.chars ≠ ['V'] := by
  cases t <;> simp [FieldType.chars]

/-- What is read as parameters is the text of their types, and a parenthesis. -/
theorem eq_of_readParams (h : readParams s = .ok (params, rest)) :
    s = params.flatMap FieldType.chars ++ ')' :: rest ∧
      ∀ t ∈ params, ∀ name ∈ t.names, IsClassName name := by
  fun_induction readParams s generalizing params rest with
  | case1 => cases h
  | case2 s =>
    obtain ⟨rfl, rfl⟩ := Prod.mk.inj (Except.ok.inj h)
    exact ⟨rfl, nofun⟩
  | case3 => cases h
  | case4 => cases h
  | case5 c s hc t after hread hlength more s' hmore ih =>
    obtain ⟨rfl, rfl⟩ := Prod.mk.inj (Except.ok.inj h)
    obtain ⟨heq, hnames⟩ := eq_of_readFieldType hread
    obtain ⟨rfl, hrest⟩ := ih hmore
    refine ⟨by rw [heq, List.flatMap_cons, List.append_assoc], ?_⟩
    exact List.forall_mem_cons.mpr ⟨hnames, hrest⟩

/-- The texts of types in a row are read back up to the closing bracket. -/
theorem readParams_chars (h : ∀ t ∈ params, ∀ name ∈ t.names, IsClassName name) :
    readParams (params.flatMap FieldType.chars ++ ')' :: rest) = .ok (params, rest) := by
  induction params with
  | nil => rw [List.flatMap_nil, List.nil_append, readParams]
  | cons t params ih =>
    obtain ⟨ht, hparams⟩ := List.forall_mem_cons.mp h
    obtain ⟨hne, hhead, -⟩ := @head?_chars t
    obtain ⟨c, chars, hchars⟩ := List.exists_cons_of_ne_nil hne
    have hc : c ≠ ')' := fun heq => hhead (by rw [hchars, heq]; rfl)
    have hread := @readFieldType_chars (params.flatMap FieldType.chars ++ ')' :: rest) t ht
    rw [List.flatMap_cons, List.append_assoc]
    rw [hchars, List.cons_append] at hread ⊢
    rw [readParams]
    · split
      · next heq => rw [hread] at heq; cases heq
      · next heq =>
        rw [hread] at heq
        obtain ⟨rfl, rfl⟩ := Prod.mk.inj (Except.ok.inj heq)
        rw [ih hparams]
    · exact hc

end Reading

/-! ### Reading descriptors -/

/-- **A type that is read from a text** has that text. -/
theorem FieldType.text_of_parse {s : String} {t : FieldType} (h : FieldType.parse s = .ok t) :
    t.text = s ∧ ∀ name ∈ t.names, IsClassName name := by
  unfold FieldType.parse at h
  split at h
  · cases h
  · next hread =>
    obtain rfl := Except.ok.inj h
    obtain ⟨heq, hnames⟩ := eq_of_readFieldType hread
    refine ⟨?_, hnames⟩
    rw [FieldType.text, ← String.ofList_toList (s := s), heq, List.append_nil]
  · cases h

theorem FieldType.parse_text {t : FieldType} (h : ∀ name ∈ t.names, IsClassName name) :
    FieldType.parse t.text = .ok t := by
  have hread := @readFieldType_chars [] t h
  rw [List.append_nil] at hread
  rw [FieldType.parse, FieldType.text, String.toList_ofList, hread]

namespace MethodDescriptor

variable {s : String} {d : MethodDescriptor}

/-- The characters of the result. -/
def resultChars (d : MethodDescriptor) : List Char :=
  match d.result with
  | some t => t.chars
  | none => ['V']

/-- A method descriptor is its types in brackets and its result behind them. -/
theorem toList_text :
    d.text.toList = '(' :: (d.params.flatMap FieldType.chars ++ ')' :: d.resultChars) :=
  String.toList_ofList

/-- **A method descriptor that is read from a text** has that text. -/
theorem text_of_parse (h : parse s = .ok d) :
    d.text = s ∧ (∀ t ∈ d.params, ∀ name ∈ t.names, IsClassName name) ∧
      ∀ t ∈ d.result, ∀ name ∈ t.names, IsClassName name := by
  unfold parse at h
  split at h
  · next body hs =>
    rw [← String.ofList_toList (s := s), hs]
    split at h
    · cases h
    · next hread =>
      obtain rfl := Except.ok.inj h
      obtain ⟨rfl, hnames⟩ := eq_of_readParams hread
      exact ⟨rfl, hnames, nofun⟩
    · -- Behind the brackets stands a type, and nothing behind it.
      next params rest hvoid hread =>
      split at h
      · next t ht =>
        obtain rfl := Except.ok.inj h
        obtain ⟨rfl, hnames⟩ := eq_of_readParams hread
        obtain ⟨htext, hresult⟩ := FieldType.text_of_parse ht
        obtain rfl := String.ofList_injective htext
        exact ⟨rfl, hnames, by simpa using hresult⟩
      · cases h
  · cases h

/-- **The text of a method** is read as the method, if class names can stand there. -/
theorem parse_text (hparams : ∀ t ∈ d.params, ∀ name ∈ t.names, IsClassName name)
    (hresult : ∀ t ∈ d.result, ∀ name ∈ t.names, IsClassName name) : parse d.text = .ok d := by
  unfold parse
  split
  · next body hbody =>
    rw [toList_text] at hbody
    obtain ⟨-, rfl⟩ := List.cons.inj hbody
    rw [readParams_chars hparams]
    obtain ⟨params, result⟩ := d
    cases result with
    | none => rfl
    | some t =>
      have hparse : FieldType.parse (String.ofList t.chars) = .ok t :=
        FieldType.parse_text (hresult t rfl)
      split
      · next heq => cases heq
      · next heq => exact absurd (Prod.mk.inj (Except.ok.inj heq)).2 head?_chars.2.2
      · next heq =>
        obtain ⟨rfl, rfl⟩ := Prod.mk.inj (Except.ok.inj heq)
        rw [resultChars, hparse]
  · next hother => exact absurd toList_text (hother _)

end MethodDescriptor

/-- **Reading undoes writing, and nothing else can be read.** A text is read as a type or as a
method exactly if it is its text and class names can stand at all places where it has them. -/
theorem parse_eq_ok_iff :
    (∀ (s : String) (t : FieldType),
      FieldType.parse s = .ok t ↔ t.text = s ∧ ∀ name ∈ t.names, IsClassName name) ∧
    ∀ (s : String) (d : MethodDescriptor),
      MethodDescriptor.parse s = .ok d ↔
        d.text = s ∧ (∀ t ∈ d.params, ∀ name ∈ t.names, IsClassName name) ∧
          ∀ t ∈ d.result, ∀ name ∈ t.names, IsClassName name := by
  refine ⟨fun s t => ⟨FieldType.text_of_parse, ?_⟩, fun s d => ⟨MethodDescriptor.text_of_parse, ?_⟩⟩
  · rintro ⟨rfl, hnames⟩
    exact FieldType.parse_text hnames
  · rintro ⟨rfl, hparams, hresult⟩
    exact MethodDescriptor.parse_text hparams hresult

/-- Parentheses and brackets may stand in class names. -/
theorem parse_eq_ok_iff_brackets :
    MethodDescriptor.parse "([[L(I)V;JLa[b;)[D" =
        .ok ⟨[.array (.array (.object "(I)V")), .long, .object "a[b"], some (.array .double)⟩ ∧
      FieldType.parse "[L(I)V;" = .ok (.array (.object "(I)V")) :=
  ⟨(parse_eq_ok_iff.2 _ _).mpr ⟨rfl, by decide, by decide⟩,
    (parse_eq_ok_iff.1 _ _).mpr ⟨rfl, by decide⟩⟩

/-! ### Renaming -/

/-- What renaming class `old` makes of a class name in a descriptor: the old name becomes the new
one, and so does the end of a longer name that follows an `L`. -/
def renamedName (old new name : String) : String :=
  if name = old then new
  else if 'L' :: old.toList <:+ name.toList then
    String.ofList (name.toList.take (name.toList.length - old.toList.length) ++ new.toList)
  else name

/-- The characters of a descriptor after renaming. -/
def renamedChars (old new text : List Char) : List Char :=
  replaceAll ('L' :: old ++ [';']) ('L' :: new ++ [';']) text

/-- What renaming makes of a word in front of a semicolon: a class type at its end is renamed. -/
def renamedWord (old new word : List Char) : List Char :=
  if 'L' :: old <:+ word then word.take (word.length - old.length) ++ new else word

section Characters

variable {old new word rest : List Char}

/-- A word that is not the old name keeps its first character. -/
theorem renamedWord_cons {c : Char} (h : c :: word ≠ 'L' :: old) :
    renamedWord old new (c :: word) = c :: renamedWord old new word := by
  unfold renamedWord
  by_cases hsuffix : 'L' :: old <:+ word
  · have hlength := hsuffix.length_le
    rw [List.length_cons] at hlength
    rw [if_pos hsuffix, if_pos (hsuffix.trans (List.suffix_cons c word)), List.length_cons,
      Nat.succ_sub (by omega), List.take_succ_cons, List.cons_append]
  · have hcons : ¬ 'L' :: old <:+ c :: word := by
      rw [List.suffix_cons_iff]
      rintro (heq | hin)
      · exact h heq.symm
      · exact hsuffix hin
    rw [if_neg hsuffix, if_neg hcons]

theorem renamedWord_self : renamedWord old new ('L' :: old) = 'L' :: new := by
  simp [renamedWord]

@[simp]
theorem renamedChars_nil : renamedChars old new [] = [] := by
  rw [renamedChars, replaceAll]

/-- What is renamed starts with an `L`. -/
theorem renamedChars_cons {c : Char} (h : c ≠ 'L') :
    renamedChars old new (c :: rest) = c :: renamedChars old new rest := by
  have hstarts : ¬ ('L' :: old ++ [';']).isPrefixOf (c :: rest) = true := by
    rw [List.isPrefixOf_iff_prefix, List.cons_append, List.cons_prefix_cons]
    exact fun hboth => h hboth.1.symm
  rw [renamedChars, replaceAll, if_neg hstarts]
  rfl

/-- **Renaming up to a semicolon** changes the end of the word before it. The induction goes along
the word; no class type ends before the semicolon, because there is none in the word. -/
theorem renamedChars_word (hold : ';' ∉ old) (hword : ';' ∉ word) :
    renamedChars old new (word ++ ';' :: rest)
      = renamedWord old new word ++ ';' :: renamedChars old new rest := by
  induction word with
  | nil =>
    have hnil : renamedWord old new [] = [] := by simp [renamedWord]
    rw [hnil, List.nil_append, List.nil_append, renamedChars_cons (by decide)]
  | cons c word ih =>
    have hrest : ';' ∉ word := fun h => hword (List.mem_cons_of_mem _ h)
    -- The old type starts here exactly if it is the whole word, as both end at the first semicolon.
    have hstarts : ('L' :: old ++ [';']).isPrefixOf (c :: (word ++ ';' :: rest)) = true ↔
        c :: word = 'L' :: old := by
      rw [List.isPrefixOf_iff_prefix]
      constructor
      · rintro ⟨more, hmore⟩
        have hsplit : splitAtSemicolon (c :: word ++ ';' :: rest) = some ('L' :: old, more) :=
          splitAtSemicolon_eq_some.mpr ⟨by rw [List.cons_append, ← hmore]; simp, by simp [hold]⟩
        rw [splitAtSemicolon_eq_some.mpr ⟨rfl, hword⟩] at hsplit
        exact (Prod.mk.inj (Option.some.inj hsplit)).1
      · intro heq
        exact ⟨rest, by rw [← List.cons_append, heq]; simp⟩
    by_cases hself : c :: word = 'L' :: old
    · have hdrop : (word ++ ';' :: rest).drop (('L' :: old ++ [';']).length - 1) = rest := by
        rw [(List.cons.inj hself).2]
        simp
      rw [List.cons_append, renamedChars, replaceAll, if_pos (hstarts.mpr hself), hdrop, hself,
        renamedWord_self, List.append_assoc, List.singleton_append]
      rfl
    · rw [List.cons_append, renamedChars, replaceAll, if_neg (mt hstarts.mp hself),
        renamedWord_cons hself]
      exact congrArg (c :: ·) (ih hrest)

end Characters

section Types

variable {old new : String}

/-- A name that is renamed as a whole is renamed as a word behind its tag. -/
theorem toList_renamedName (name : String) :
    'L' :: (renamedName old new name).toList
      = renamedWord old.toList new.toList ('L' :: name.toList) := by
  unfold renamedName
  by_cases hname : name = old
  · rw [if_pos hname, hname, renamedWord_self]
  · have hne : 'L' :: name.toList ≠ 'L' :: old.toList := fun heq =>
      hname (String.toList_inj.mp (List.cons.inj heq).2)
    rw [if_neg hname, renamedWord_cons hne, renamedWord]
    split
    · rw [String.toList_ofList]
    · rfl

/-- **Renaming in the characters of a type** renames the classes in the type. -/
theorem renamedChars_type (hold : ';' ∉ old.toList) {t : FieldType} (rest : List Char)
    (h : ∀ name ∈ t.names, IsClassName name) :
    renamedChars old.toList new.toList (t.chars ++ rest)
      = (t.mapNames (renamedName old new)).chars ++ renamedChars old.toList new.toList rest := by
  induction t with
  | object name =>
    obtain ⟨-, hname⟩ := h name List.mem_cons_self
    have hword : ';' ∉ 'L' :: name.toList := by simpa using hname
    rw [FieldType.chars, List.append_assoc, List.singleton_append, renamedChars_word hold hword,
      ← toList_renamedName, FieldType.mapNames, FieldType.chars, List.append_assoc,
      List.singleton_append]
  | array element ih =>
    rw [FieldType.chars, List.cons_append, renamedChars_cons (by decide), ih h]
    rfl
  | _ => exact renamedChars_cons (by decide)

/-- In a row of types each name is renamed for itself. -/
theorem renamedChars_params (hold : ';' ∉ old.toList) {params : List FieldType} (rest : List Char)
    (h : ∀ t ∈ params, ∀ name ∈ t.names, IsClassName name) :
    renamedChars old.toList new.toList (params.flatMap FieldType.chars ++ rest)
      = (params.map (·.mapNames (renamedName old new))).flatMap FieldType.chars
        ++ renamedChars old.toList new.toList rest := by
  induction params with
  | nil => rfl
  | cons t params ih =>
    obtain ⟨ht, hparams⟩ := List.forall_mem_cons.mp h
    rw [List.flatMap_cons, List.append_assoc, renamedChars_type hold _ ht, ih hparams,
      List.map_cons, List.flatMap_cons, List.append_assoc]

theorem renamedChars_result (hold : ';' ∉ old.toList) {d : MethodDescriptor}
    (h : ∀ t ∈ d.result, ∀ name ∈ t.names, IsClassName name) :
    renamedChars old.toList new.toList d.resultChars
      = (d.mapNames (renamedName old new)).resultChars := by
  obtain ⟨params, result⟩ := d
  cases result with
  | none =>
    show renamedChars old.toList new.toList ['V'] = ['V']
    rw [renamedChars_cons (by decide), renamedChars_nil]
  | some t =>
    have hchars := @renamedChars_type old new hold t [] (h t rfl)
    rwa [renamedChars_nil, List.append_nil, List.append_nil] at hchars

/-- **Renaming the text of a type renames its class names**, if the old name has no semicolon. -/
theorem renameInDescriptor_typeText (hold : ';' ∉ old.toList) {t : FieldType}
    (h : ∀ name ∈ t.names, IsClassName name) :
    renameInDescriptor t.text old new = (t.mapNames (renamedName old new)).text := by
  have hchars := @renamedChars_type old new hold t [] h
  rw [renamedChars_nil, List.append_nil, List.append_nil] at hchars
  show String.ofList (renamedChars old.toList new.toList t.text.toList) = _
  rw [FieldType.text, String.toList_ofList, hchars, FieldType.text]

/-- **Renaming in the text of a method** renames the classes in its types. -/
theorem renameInDescriptor_methodText (hold : ';' ∉ old.toList) {d : MethodDescriptor}
    (hparams : ∀ t ∈ d.params, ∀ name ∈ t.names, IsClassName name)
    (hresult : ∀ t ∈ d.result, ∀ name ∈ t.names, IsClassName name) :
    renameInDescriptor d.text old new = (d.mapNames (renamedName old new)).text := by
  have hchars : renamedChars old.toList new.toList d.text.toList
      = (d.mapNames (renamedName old new)).text.toList := by
    rw [MethodDescriptor.toList_text, renamedChars_cons (by decide),
      renamedChars_params hold _ hparams, renamedChars_cons (by decide),
      renamedChars_result hold hresult, MethodDescriptor.toList_text]
    rfl
  show String.ofList (renamedChars old.toList new.toList d.text.toList) = _
  rw [hchars, String.ofList_toList]

end Types

variable {old new : String}

/-- **Renaming in a descriptor renames the classes in its types**, at any depth and any place, and
changes nothing else. A class of another name keeps it, unless its name ends in an `L` and the old
name. -/
theorem renameInDescriptor_of_parse (hold : ';' ∉ old.toList) :
    (∀ (s : String) (t : FieldType), FieldType.parse s = .ok t →
      renameInDescriptor s old new = (t.mapNames (renamedName old new)).text) ∧
    ∀ (s : String) (d : MethodDescriptor), MethodDescriptor.parse s = .ok d →
      renameInDescriptor s old new = (d.mapNames (renamedName old new)).text := by
  constructor
  · intro s t h
    obtain ⟨rfl, hnames⟩ := FieldType.text_of_parse h
    exact renameInDescriptor_typeText hold hnames
  · intro s d h
    obtain ⟨rfl, hparams, hresult⟩ := MethodDescriptor.text_of_parse h
    exact renameInDescriptor_methodText hold hparams hresult

/-- A method with the old name in an array, in its result and at the end of a longer name. -/
theorem renameInDescriptor_of_parse_longerNames :
    ';' ∉ "a/T".toList ∧
      MethodDescriptor.parse "([[La/T;JLa/Tx;LxLa/T;)La/T;" = .ok
        ⟨[.array (.array (.object "a/T")), .long, .object "a/Tx", .object "xLa/T"],
          some (.object "a/T")⟩ ∧
      renameInDescriptor "([[La/T;JLa/Tx;LxLa/T;)La/T;" "a/T" "b/U"
        = "([[Lb/U;JLa/Tx;LxLb/U;)Lb/U;" := by
  have hparse : MethodDescriptor.parse "([[La/T;JLa/Tx;LxLa/T;)La/T;" = .ok
      ⟨[.array (.array (.object "a/T")), .long, .object "a/Tx", .object "xLa/T"],
        some (.object "a/T")⟩ :=
    MethodDescriptor.parse_text
      (d := ⟨[.array (.array (.object "a/T")), .long, .object "a/Tx", .object "xLa/T"],
        some (.object "a/T")⟩) (by decide) (by decide)
  refine ⟨by decide, hparse, ?_⟩
  rw [(renameInDescriptor_of_parse (by decide)).2 _ _ hparse]
  rfl

/-- A class whose name ends in an `L` and the old name does not keep its name. -/
theorem renameInDescriptor_longerName :
    FieldType.parse "LaLT;" = .ok (.object "aLT") ∧
      renameInDescriptor "LaLT;" "T" "U" = "LaLU;" ∧
      ((FieldType.object "aLT").mapNames fun name => if name = "T" then "U" else name).text
        = "LaLT;" := by
  refine ⟨FieldType.parse_text (t := .object "aLT") (by decide), ?_, rfl⟩
  exact renameInDescriptor_typeText (t := .object "aLT") (by decide) (by decide)

end RoundingPatch.ClassFile
