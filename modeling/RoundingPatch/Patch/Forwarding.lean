import RoundingPatch.ClassFile.Access
import RoundingPatch.ClassFile.Descriptor
import RoundingPatch.ClassFile.Insn
/-!
# The forwarding call

At the patched case the target method passes its own receiver and arguments to the replacement
and returns what that returns. The instructions of the case stay behind the call.
-/

namespace RoundingPatch

open ClassFile

/-- A call that hands a method's arguments on to another method of the same descriptor. -/
structure Forwarding where
  owner : String
  name : String
  descriptor : String
  signature : MethodDescriptor
  deriving DecidableEq

namespace Forwarding

/-- The call from a method with the given access and descriptor to method `name` of `owner`. The
method needs a receiver to pass on and a result to return. -/
def plan (owner name : String) (access : Access) (descriptor : String) :
    Except Fault Forwarding := do
  if access.static then throw (.violation (.staticTarget descriptor))
  let signature ← MethodDescriptor.parse descriptor
  if signature.result.isNone then throw (.violation (.voidTarget descriptor))
  return { owner, name, descriptor, signature }

/-- The depth of the operand stack at the call. -/
def requiredStack (f : Forwarding) : UInt16 :=
  1 + f.signature.paramSlots

/-- Loads the parameters, the first of them from local variable `slot`. -/
def loads (slot : UInt16) : List FieldType → List Insn
  | [] => []
  | t :: rest => .var t.loadOpcode slot :: loads (slot + t.slots) rest

/-- The instructions of the call. -/
def insns (f : Forwarding) : List Insn :=
  .var Opcode.aload 0 :: loads 1 f.signature.params
    ++ [.call Opcode.invokevirtual f.owner f.name f.descriptor,
      .simple f.signature.returnOpcode]

end Forwarding

end RoundingPatch
