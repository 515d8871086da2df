import RoundingPatch.Json.Value
import RoundingPatch.Listing.Insn
import RoundingPatch.Machine.Basic
/-!
# Machines as JSON

Words are numbers and references are `null` or texts such as `@3`; a truth value may stand for the
word that it is. A call without a result, and a field that was never set, are `void`.
-/

namespace RoundingPatch

open ClassFile Machine

namespace Machine

/-! ### Values -/

/-- A reference as JSON. -/
def ObjRef.toJson (r : ObjRef) : Json :=
  .str r.text

/-- Reads a reference. -/
def ObjRef.ofJson? (j : Json) : Option ObjRef := do
  match (← j.str?).toList with
  | '@' :: digits => return ⟨← (String.ofList digits).toNat?⟩
  | _ => none

/-- A value as JSON. -/
def Value.toJson : Value → Json
  | int v => .int v.toInt
  | ref r => .opt ObjRef.toJson r

/-- Reads a value. -/
def Value.ofJson? : Json → Option Value
  | .null => some null
  | .bool b => some (ofBool b)
  | .int n => some (int (Int32.ofInt n))
  | j => obj <$> ObjRef.ofJson? j

/-- A value that may be absent. -/
def Value.resultJson : Option Value → Json
  | some v => v.toJson
  | none => .str "void"

/-! ### Objects -/

/-- An object as JSON. -/
def HeapObject.toJson : HeapObject → Json
  | object c fields =>
    .row "instance" [.str c, .obj (fields.map fun (name, v) => (name, v.toJson))]
  | chars units => .row "chars" [.list (fun u => .nat u.toNat) units.toList]
  | ints values => .row "ints" [.list (fun v => .int v.toInt) values.toList]
  | constant c name ordinal => .row "enum" [.str c, .str name, .nat ordinal]
  | text s => .row "str" [.str s]

/-! ### Limits and counts -/

/-- Limits as JSON. -/
def Limits.toJson (l : Limits) : Json :=
  .obj [("step_budget", .nat l.stepBudget), ("max_depth", .nat l.maxDepth)]

/-- Reads limits. -/
def Limits.ofJson? (j : Json) : Option Limits := do
  let d : Limits := {}
  return {
    stepBudget := ← j.fieldD "step_budget" Json.nat? d.stepBudget
    maxDepth := ← j.fieldD "max_depth" Json.nat? d.maxDepth }

/-- Counts as JSON. -/
def Metrics.toJson (m : Metrics) : Json :=
  .obj [("invocations", .nat m.invocations), ("executed_insns", .nat m.executedInsns),
    ("intrinsic_calls", .nat m.intrinsicCalls)]

/-! ### Programs -/

/-- A program as JSON, with the positions of some labels. The instructions end with a `null`. -/
def Program.toJson (p : Program) (position : Label → Json) (labels : List Label) : Json :=
  .obj [("name", .str p.name), ("desc", .str p.descriptor), ("static", .bool p.isStatic),
    ("stack", .nat p.maxStack.toNat), ("locals", .nat p.maxLocals.toNat),
    ("empty", .bool p.insns.isEmpty),
    ("insns", .arr (p.insns.toList.map Insn.toJson ++ [.null])),
    ("targets", .list position labels)]

end Machine

end RoundingPatch
