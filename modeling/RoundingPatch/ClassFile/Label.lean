import Std.Data.TreeMap
/-!
# Labels

A label is the identity of a position in a method body. Labels that come from a class file are
the byte offset of the position; labels made for new code are numbered separately. One bit tells
the two apart, so no label of one kind equals a label of the other.
-/

namespace RoundingPatch.ClassFile

/-- The identity of a position in a method body. -/
structure Label where
  id : UInt32
  deriving DecidableEq, Inhabited

namespace Label

/-- Labels are ordered by their identity, so those from a class file come in the order of their
offsets. -/
instance : Ord Label where
  compare := compareOn Label.id

instance : Std.TransOrd Label :=
  inferInstanceAs (Std.TransCmp (compareOn Label.id))

instance : Std.LawfulEqOrd Label where
  eq_of_compare {a b} h := by
    cases a
    cases b
    exact congrArg Label.mk (Std.LawfulEqOrd.eq_of_compare h)

/-- The bit that marks a label made for new code. -/
def madeBit : UInt32 := 0x80000000

/-- The label of a byte offset. -/
def atOffset (offset : UInt32) : Label :=
  ⟨offset &&& ~~~madeBit⟩

/-- The label with a given number for new code. -/
def synthetic (number : UInt32) : Label :=
  ⟨number ||| madeBit⟩

/-- Whether a label was made for new code. -/
def isSynthetic (l : Label) : Bool :=
  l.id &&& madeBit != 0

/-- A label in diagnostics: `L@` and the offset, or `L#` and the number. -/
def text (l : Label) : String :=
  if l.isSynthetic then "L#" ++ toString (l.id &&& ~~~madeBit).toNat
  else "L@" ++ toString l.id.toNat

end Label

end RoundingPatch.ClassFile
