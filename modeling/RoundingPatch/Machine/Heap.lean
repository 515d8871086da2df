import RoundingPatch.Machine.Value
/-!
# The heap

Objects are kept in the order in which they were made and are never collected. `Heap.truncate`
drops the youngest ones; references to them dangle from then on. A constant of an enumeration
exists at most once.
-/

namespace RoundingPatch.Machine

/-- What is on the heap. -/
inductive HeapObject
  /-- An instance of a class. Its fields are told apart by name alone. -/
  | object (className : String) (fields : List (String × Value))
  | chars (units : Array UInt16)
  | ints (values : Array Int32)
  /-- A constant of an enumeration. -/
  | constant (className name : String) (ordinal : Nat)
  | text (s : String)
  deriving DecidableEq

/-- The internal name of the class of texts. -/
def textClass : String := "java/lang/String"

namespace HeapObject

/-- The internal name of the class of an object. -/
def className : HeapObject → String
  | object c _ => c
  | chars _ => "[C"
  | ints _ => "[I"
  | constant c _ _ => c
  | text _ => textClass

/-- Whether an object is a given constant of an enumeration. -/
def isConstant (className name : String) : HeapObject → Bool
  | constant c n _ => c == className && n == name
  | _ => false

end HeapObject

/-- The fields of an object with one of them set. -/
def setCell (name : String) (v : Value) : List (String × Value) → List (String × Value)
  | [] => [(name, v)]
  | (n, w) :: rest => if n = name then (n, v) :: rest else (n, w) :: setCell name v rest

/-- The objects, oldest first. -/
structure Heap where
  objects : Array HeapObject := #[]
  deriving DecidableEq

namespace Heap

/-- The number of objects. -/
def size (h : Heap) : Nat :=
  h.objects.size

/-- Adds an object. -/
def alloc (h : Heap) (o : HeapObject) : ObjRef × Heap :=
  (⟨h.size⟩, ⟨h.objects.push o⟩)

/-- Drops all but the oldest objects. -/
def truncate (h : Heap) (size : Nat) : Heap :=
  ⟨h.objects.take size⟩

/-- The object at a place. -/
def get (h : Heap) (r : ObjRef) : Except Fault HeapObject :=
  match h.objects[r.index]? with
  | some o => .ok o
  | none => .error (.internal (.danglingReference r.index))

/-- Replaces the object at a place. -/
def set (h : Heap) (r : ObjRef) (o : HeapObject) : Heap :=
  ⟨h.objects.setIfInBounds r.index o⟩

/-! ### Enumerations -/

/-- Where a constant of an enumeration is. -/
def constant? (h : Heap) (className name : String) : Option ObjRef :=
  (h.objects.findIdx? (·.isConstant className name)).map ObjRef.mk

/-- Adds those constants of an enumeration that are not there yet. The position of a name among all
names is its ordinal. -/
def defineFrom (h : Heap) (className : String) (ordinal : Nat) : List String → List ObjRef × Heap
  | [] => ([], h)
  | name :: rest =>
    let (r, h) := match h.constant? className name with
      | some r => (r, h)
      | none => h.alloc (.constant className name ordinal)
    let (refs, h) := h.defineFrom className (ordinal + 1) rest
    (r :: refs, h)

/-- Adds the constants of an enumeration and says where each one is. -/
def define (h : Heap) (className : String) (names : List String) : List ObjRef × Heap :=
  h.defineFrom className 0 names

/-! ### Fields and texts -/

/-- A field of an instance, if it was ever set. -/
def field (h : Heap) (r : ObjRef) (name : String) : Except Fault (Option Value) := do
  match ← h.get r with
  | .object _ fields => return fields.lookup name
  | other => throw (.execution (.fieldRead name other.className))

/-- Sets a field of an instance. -/
def setField (h : Heap) (r : ObjRef) (name : String) (v : Value) : Except Fault Heap := do
  match ← h.get r with
  | .object c fields => return h.set r (.object c (setCell name v fields))
  | other => throw (.execution (.fieldWritten name other.className))

/-- The text at a place. -/
def string (h : Heap) (r : ObjRef) : Except Fault String := do
  match ← h.get r with
  | .text s => return s
  | other => throw (.execution (.expectedString other.className))

/-! ### Arrays -/

/-- Indices that are negative or past the end end in this. -/
def outOfBounds (index : Int32) : Fault :=
  .execution (.uncaught "java.lang.ArrayIndexOutOfBoundsException" (some (toString index.toInt)))

/-- The index of an element, which is not negative. -/
def elementIndex (index : Int32) : Except Fault Nat :=
  if index < 0 then .error (outOfBounds index) else .ok index.toInt.toNat

/-- An element of an array. -/
def element (h : Heap) (r : ObjRef) (index : Int32) : Except Fault Int32 := do
  let i ← elementIndex index
  match ← h.get r with
  | .chars units =>
    match units[i]? with
    | some u => return u.toUInt32.toInt32
    | none => throw (outOfBounds index)
  | .ints values =>
    match values[i]? with
    | some v => return v
    | none => throw (outOfBounds index)
  | other => throw (.execution (.arrayLoad other.className))

/-- Sets an element of an array. An array of characters keeps the low half of the word. -/
def setElement (h : Heap) (r : ObjRef) (index v : Int32) : Except Fault Heap := do
  let i ← elementIndex index
  match ← h.get r with
  | .chars units =>
    if i < units.size then return h.set r (.chars (units.setIfInBounds i v.toUInt32.toUInt16))
    else throw (outOfBounds index)
  | .ints values =>
    if i < values.size then return h.set r (.ints (values.setIfInBounds i v))
    else throw (outOfBounds index)
  | other => throw (.execution (.arrayStore other.className))

/-- The length of an array. -/
def length (h : Heap) (r : ObjRef) : Except Fault Nat := do
  match ← h.get r with
  | .chars units => return units.size
  | .ints values => return values.size
  | other => throw (.execution (.lengthOf other.className))

end Heap

end RoundingPatch.Machine
