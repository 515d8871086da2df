import RoundingPatch.ClassFile.Code.Body
/-!
# Programs

A method body ready to run: its instructions, and for each label the instruction it stands at.
Bodies with exception handlers are refused, since nothing here catches an exception.
-/

namespace RoundingPatch.Machine

open ClassFile

/-- A method body with its labels resolved. -/
structure Program where
  name : String
  descriptor : String
  isStatic : Bool
  maxStack : UInt16
  maxLocals : UInt16
  insns : Array Insn
  /-- The number of instructions in front of each label. -/
  positions : Std.TreeMap Label Nat

namespace Program

/-- The position of a label. -/
def target (p : Program) (l : Label) : Except Fault Nat :=
  match p.positions[l]? with
  | some i => .ok i
  | none => .error (.malformed (.unboundBranch p.name p.descriptor l))

/-- Takes in one event after the other, with the number of instructions so far. Of two limits or
two positions of a label the later one counts. -/
def collect (p : Program) (limits : Option (UInt16 × UInt16)) :
    List MethodEvent → Except Fault (Program × Option (UInt16 × UInt16))
  | [] => .ok (p, limits)
  | .code maxStack maxLocals :: rest => p.collect (some (maxStack, maxLocals)) rest
  | .label l :: rest =>
    { p with positions := p.positions.insert l p.insns.size }.collect limits rest
  | .insn i :: rest => { p with insns := p.insns.push i }.collect limits rest
  -- Nothing catches here, so a method with a handler is refused and not run wrongly.
  | .tryCatch _ :: _ => .error (.unsupported (.handlers p.name p.descriptor))
  | _ :: rest => p.collect limits rest

/-- Checks that every branch goes to a label with a position. -/
def checkTargets (p : Program) : Except Fault Unit :=
  p.insns.toList.forM fun i => i.targets.forM fun l => do
    let _ ← p.target l

/-- The program of a method given by its events. -/
def ofEvents (name descriptor : String) (isStatic : Bool) (events : List MethodEvent) :
    Except Fault Program := do
  let empty : Program := ⟨name, descriptor, isStatic, 0, 0, #[], {}⟩
  let (p, limits) ← empty.collect none events
  match limits with
  | none => throw (.unsupported (.noCode name descriptor))
  | some (maxStack, maxLocals) =>
    let p := { p with maxStack, maxLocals }
    p.checkTargets
    return p

/-- The program of a method of a class. -/
def ofMember (pool : ConstantPool) (m : Member) : Except Fault Program :=
  let t := m.decode pool
  match t.failure with
  | some f => .error f
  | none => ofEvents m.name m.descriptor (Access.static m.access) t.events

/-- The program of the method with a name and a descriptor. -/
def load (c : ClassFile) (name descriptor : String) : Except Fault Program :=
  match c.method? name descriptor with
  | some m => ofMember c.pool m
  | none => .error (.execution (.noMethod c.name name descriptor))

end Program

end RoundingPatch.Machine
