import RoundingPatch.Fault
/-!
# Descriptors

The text that describes the type of a field, or the parameters and the result of a method. The
readers accept exactly what the printers write: `FieldType.parse` and `FieldType.text` for types,
`MethodDescriptor.parse` and `MethodDescriptor.text` for methods. Renaming a class works on the
text itself, so that it serves generic signatures too.
-/

namespace RoundingPatch.ClassFile

/-- The type of a field, a parameter or a result. -/
inductive FieldType
  | byte
  | char
  | double
  | float
  | int
  | long
  | short
  | boolean
  /-- A class, by its internal name such as `java/lang/String`. -/
  | object (name : String)
  | array (element : FieldType)
  deriving DecidableEq

namespace FieldType

/-- The places a value takes among the local variables and on the operand stack. -/
def slots : FieldType → UInt16
  | double | long => 2
  | _ => 1

/-- The long form of the instruction that loads a local variable. -/
def loadOpcode : FieldType → Opcode
  | byte | char | int | short | boolean => Opcode.iload
  | long => Opcode.lload
  | float => Opcode.fload
  | double => Opcode.dload
  | object _ | array _ => Opcode.aload

/-- The instruction that returns a value. -/
def returnOpcode : FieldType → Opcode
  | byte | char | int | short | boolean => Opcode.ireturn
  | long => Opcode.lreturn
  | float => Opcode.freturn
  | double => Opcode.dreturn
  | object _ | array _ => Opcode.areturn

/-- Whether a value is an integer of at most 32 bits or a reference. -/
def isNarrow : FieldType → Bool
  | long | double | float => false
  | _ => true

/-- The characters of a type in a descriptor. -/
def chars : FieldType → List Char
  | byte => ['B']
  | char => ['C']
  | double => ['D']
  | float => ['F']
  | int => ['I']
  | long => ['J']
  | short => ['S']
  | boolean => ['Z']
  | object name => 'L' :: name.toList ++ [';']
  | array element => '[' :: chars element

/-- A type as a descriptor shows it. -/
def text (t : FieldType) : String :=
  String.ofList t.chars

end FieldType

/-- The parameters and the result of a method. -/
structure MethodDescriptor where
  params : List FieldType
  /-- Absent for a method without a result. -/
  result : Option FieldType
  deriving DecidableEq

/-! ### Reading -/

/-- The fault of descriptor text `s`. -/
def badDescriptor (s : List Char) (reason : String) : Fault :=
  .malformed (.badDescriptor (String.ofList s) reason)

/-- Splits `s` around its first semicolon. -/
def splitAtSemicolon (s : List Char) : Option (List Char × List Char) :=
  match s.dropWhile (· ≠ ';') with
  | [] => none
  | _ :: rest => some (s.takeWhile (· ≠ ';'), rest)

/-- Reads one type off the front of `s`. -/
def readFieldType : List Char → Except Fault (FieldType × List Char)
  | [] => .error (badDescriptor [] "empty type")
  | 'B' :: rest => .ok (.byte, rest)
  | 'C' :: rest => .ok (.char, rest)
  | 'D' :: rest => .ok (.double, rest)
  | 'F' :: rest => .ok (.float, rest)
  | 'I' :: rest => .ok (.int, rest)
  | 'J' :: rest => .ok (.long, rest)
  | 'S' :: rest => .ok (.short, rest)
  | 'Z' :: rest => .ok (.boolean, rest)
  -- The name goes up to the first semicolon, whatever it holds.
  | 'L' :: rest =>
    match splitAtSemicolon rest with
    | none => .error (badDescriptor ('L' :: rest) "unterminated class type")
    | some ([], _) => .error (badDescriptor ('L' :: rest) "empty class name")
    | some (name, rest) => .ok (.object (String.ofList name), rest)
  | '[' :: rest => do
    let (element, rest) ← readFieldType rest
    return (.array element, rest)
  | c :: rest => .error (badDescriptor (c :: rest) ("unknown type tag " ++ Text.quotedChar c))

/-- What follows the first semicolon is shorter than the whole. -/
theorem length_of_splitAtSemicolon {s name rest : List Char}
    (h : splitAtSemicolon s = some (name, rest)) : rest.length < s.length := by
  unfold splitAtSemicolon at h
  split at h
  · simp at h
  · next c tail hd =>
    obtain ⟨-, rfl⟩ := by simpa using h
    have := (List.dropWhile_suffix (l := s) (· ≠ ';')).length_le
    rw [hd, List.length_cons] at this
    omega

/-- Reading a type consumes at least one character. -/
theorem length_of_readFieldType {s rest : List Char} {t : FieldType}
    (h : readFieldType s = .ok (t, rest)) : rest.length < s.length := by
  induction s generalizing t rest with
  | nil => simp [readFieldType] at h
  | cons c s ih =>
    unfold readFieldType at h
    split at h <;> try (simp_all; done)
    · next hs =>
      obtain ⟨rfl, rfl⟩ := by simpa using hs
      split at h
      · simp at h
      · simp at h
      · next hsplit =>
        obtain ⟨-, rfl⟩ := by simpa using h
        have := length_of_splitAtSemicolon hsplit
        simp; omega
    · next hs =>
      obtain ⟨rfl, rfl⟩ := by simpa using hs
      rcases hr : readFieldType s with e | ⟨element, after⟩
      · simp [hr, bind, Except.bind] at h
      · simp [hr, bind, Except.bind, pure, Except.pure] at h
        obtain ⟨-, rfl⟩ := h
        have := ih hr
        simp; omega

namespace FieldType

/-- The type that `s` describes. -/
def parse (s : String) : Except Fault FieldType :=
  match readFieldType s.toList with
  | .error fault => .error fault
  | .ok (t, []) => .ok t
  | .ok (_, _ :: _) => .error (badDescriptor s.toList "trailing characters")

end FieldType

/-- Reads types up to the closing parenthesis; on failure says why. -/
def readParams (s : List Char) : Except String (List FieldType × List Char) :=
  match s with
  | [] => .error "missing ')'"
  | ')' :: rest => .ok ([], rest)
  | c :: rest =>
    match h : readFieldType (c :: rest) with
    | .error _ => .error "bad parameter"
    | .ok (t, after) =>
      have : after.length ≤ rest.length := Nat.lt_succ_iff.mp (length_of_readFieldType h)
      match readParams after with
      | .error reason => .error reason
      | .ok (params, rest) => .ok (t :: params, rest)
termination_by s.length

namespace MethodDescriptor

/-- The method that `s` describes. -/
def parse (s : String) : Except Fault MethodDescriptor :=
  match s.toList with
  | '(' :: body =>
    match readParams body with
    | .error reason => .error (badDescriptor s.toList reason)
    | .ok (params, ['V']) => .ok ⟨params, none⟩
    | .ok (params, rest) =>
      match FieldType.parse (String.ofList rest) with
      | .ok t => .ok ⟨params, some t⟩
      | .error _ => .error (badDescriptor s.toList "bad return type")
  | _ => .error (badDescriptor s.toList "missing '('")

/-- A method descriptor as class files show it. -/
def text (d : MethodDescriptor) : String :=
  String.ofList ('(' :: d.params.flatMap FieldType.chars ++ ')' ::
    (match d.result with
    | some t => t.chars
    | none => ['V']))

/-- The places the parameters take, the receiver not counted. -/
def paramSlots (d : MethodDescriptor) : UInt16 :=
  d.params.foldl (fun n t => n + t.slots) 0

/-- The instruction that returns the result. -/
def returnOpcode (d : MethodDescriptor) : Opcode :=
  match d.result with
  | some t => t.returnOpcode
  | none => Opcode.vreturn

end MethodDescriptor

/-! ### Renaming classes -/

/-- `s` with every occurrence of `old` replaced by `new`, from left to right; `old` is not
empty. -/
def replaceAll (old new : List Char) (s : List Char) : List Char :=
  match s with
  | [] => []
  | c :: rest =>
    if old.isPrefixOf (c :: rest) then new ++ replaceAll old new (rest.drop (old.length - 1))
    else c :: replaceAll old new rest
termination_by s.length
decreasing_by all_goals simp; try omega

/-- A descriptor or signature with the class type of `old` turned into that of `new`. -/
def renameInDescriptor (descriptor old new : String) : String :=
  String.ofList (replaceAll ('L' :: old.toList ++ [';']) ('L' :: new.toList ++ [';'])
    descriptor.toList)

/-- A class operand, which is a class name or an array type, with `old` renamed to `new`. -/
def renameClass (operand old new : String) : String :=
  if operand = old then new
  else if operand.toList.head? = some '[' then renameInDescriptor operand old new
  else operand

end RoundingPatch.ClassFile
