import RoundingPatch.ClassFile.Insn
import RoundingPatch.Json.Value
/-!
# Listings of method bodies

A listing shows what is in a class file as JSON. Instructions, stack map frames and the other
events of a method body are rows that start with a word for their kind. What is written here can
be read back; reading also accepts two short forms of instructions.
-/

namespace RoundingPatch.ClassFile

/-! ### Labels -/

/-- A label in a listing. -/
def Label.toJson (l : Label) : Json :=
  .str l.text

/-- Reads a label. -/
def Label.ofJson? (j : Json) : Option Label := do
  match (← j.str?).toList with
  | 'L' :: kind :: digits =>
    let number := UInt32.ofNat (← (String.ofList digits).toNat?)
    if kind = '@' then some (atOffset number)
    else if kind = '#' then some (synthetic number)
    else none
  | _ => none

/-! ### Constants -/

/-- A constant in a listing. -/
def Constant.toJson : Constant → Json
  | integer value => .row "int" [.int value.toInt]
  | float bits => .row "float" [.bits32 bits]
  | long value => .row "long" [.decimal value.toInt]
  | double bits => .row "double" [.bits64 bits]
  | string text => .row "string" [.str text]
  | classRef name => .row "class" [.str name]
  | pooled index => .row "pooled" [.nat index.toNat]

/-- Reads a constant. -/
def Constant.ofJson? : Json → Option Constant
  | .arr [.str kind, value] =>
    match kind with
    | "int" => integer <$> value.i4?
    | "float" => (fun n => float (UInt32.ofNat n)) <$> value.hex?
    | "long" => (fun n => long (Int64.ofInt n)) <$> value.decimal?
    | "double" => (fun n => double (UInt64.ofNat n)) <$> value.hex?
    | "string" => string <$> value.str?
    | "class" => classRef <$> value.str?
    | "pooled" => pooled <$> value.u2?
    | _ => none
  | _ => none

/-! ### Instructions -/

/-- An opcode in a listing. -/
def opcodeJson (op : Opcode) : Json :=
  .nat op.toNat

/-- An instruction in a listing. -/
def Insn.toJson : Insn → Json
  | simple op => .row "simple" [opcodeJson op]
  | int op operand => .row "int" [opcodeJson op, .int operand.toInt]
  | var op index => .row "var" [opcodeJson op, .nat index.toNat]
  | iinc index delta => .row "iinc" [.nat index.toNat, .int delta.toInt]
  | type op name => .row "type" [opcodeJson op, .str name]
  | field op owner name descriptor =>
    .row "field" [opcodeJson op, .str owner, .str name, .str descriptor]
  | method op owner name descriptor onInterface =>
    .row "method" [opcodeJson op, .str owner, .str name, .str descriptor, .bool onInterface]
  | callSite index => .row "indy" [.nat index.toNat]
  | ldc constant => .row "ldc" [constant.toJson]
  | jump op target => .row "jump" [opcodeJson op, target.toJson]
  | tableSwitch low high default targets =>
    .row "tableswitch" [.int low.toInt, .int high.toInt, default.toJson,
      .list Label.toJson targets]
  | lookupSwitch default pairs =>
    .row "lookupswitch" [default.toJson,
      .list (fun (key, target) => .arr [.int key.toInt, target.toJson]) pairs]
  | multiArray name dimensions => .row "multianewarray" [.str name, .nat dimensions.toNat]

/-- Reads a pair of a key and a target. -/
def switchPair? : Json → Option (Int32 × Label)
  | .arr [key, target] => do return (← key.i4?, ← Label.ofJson? target)
  | _ => none

/-- Reads an instruction. A row `push` stands for the shortest instruction that pushes a number,
and a call need not say whether it goes to an interface. -/
def Insn.ofJson? : Json → Option Insn
  | .arr (.str kind :: parts) =>
    match kind, parts with
    | "simple", [op] => simple <$> op.u1?
    | "int", [op, operand] => do return int (← op.u1?) (← operand.i4?)
    | "var", [op, index] => do return var (← op.u1?) (← index.u2?)
    | "iinc", [index, delta] => do return iinc (← index.u2?) (← delta.i2?)
    | "type", [op, name] => do return type (← op.u1?) (← name.str?)
    | "field", [op, owner, name, descriptor] => do
      return field (← op.u1?) (← owner.str?) (← name.str?) (← descriptor.str?)
    | "method", [op, owner, name, descriptor] => do
      return call (← op.u1?) (← owner.str?) (← name.str?) (← descriptor.str?)
    | "method", [op, owner, name, descriptor, onInterface] => do
      return method (← op.u1?) (← owner.str?) (← name.str?) (← descriptor.str?)
        (← onInterface.bool?)
    | "indy", [index] => callSite <$> index.u2?
    | "ldc", [constant] => ldc <$> Constant.ofJson? constant
    | "jump", [op, target] => do return jump (← op.u1?) (← Label.ofJson? target)
    | "tableswitch", [low, high, default, targets] => do
      return tableSwitch (← low.i4?) (← high.i4?) (← Label.ofJson? default)
        (← targets.list? Label.ofJson?)
    | "lookupswitch", [default, pairs] => do
      return lookupSwitch (← Label.ofJson? default) (← pairs.list? switchPair?)
    | "multianewarray", [name, dimensions] => do
      return multiArray (← name.str?) (← dimensions.u1?)
    | "push", [value] => pushInt <$> value.i4?
    | _, _ => none
  | _ => none

/-! ### Stack map frames -/

/-- A verification type in a listing. -/
def VType.toJson : VType → Json
  | top => .str "top"
  | integer => .str "integer"
  | float => .str "float"
  | double => .str "double"
  | long => .str "long"
  | null => .str "null"
  | uninitializedThis => .str "uninit_this"
  | object name => .row "object" [.str name]
  | uninitialized label => .row "uninit" [label.toJson]

/-- Reads a verification type. -/
def VType.ofJson? : Json → Option VType
  | .str "top" => some top
  | .str "integer" => some integer
  | .str "float" => some float
  | .str "double" => some double
  | .str "long" => some long
  | .str "null" => some null
  | .str "uninit_this" => some uninitializedThis
  | .arr [.str "object", name] => object <$> name.str?
  | .arr [.str "uninit", label] => uninitialized <$> Label.ofJson? label
  | _ => none

/-- A stack map frame in a listing. -/
def Frame.toJson : Frame → Json
  | same => .row "same" []
  | sameWithOne stack => .row "same1" [stack.toJson]
  | chop count => .row "chop" [.nat count.toNat]
  | append locals => .row "append" [.list VType.toJson locals]
  | full locals stack => .row "full" [.list VType.toJson locals, .list VType.toJson stack]

/-- Reads a stack map frame. -/
def Frame.ofJson? : Json → Option Frame
  | .arr [.str "same"] => some same
  | .arr [.str "same1", stack] => sameWithOne <$> VType.ofJson? stack
  | .arr [.str "chop", count] => chop <$> count.u1?
  | .arr [.str "append", locals] => append <$> locals.list? VType.ofJson?
  | .arr [.str "full", locals, stack] => do
    return full (← locals.list? VType.ofJson?) (← stack.list? VType.ofJson?)
  | _ => none

/-! ### Events -/

/-- The word for local variables of one table. -/
def LocalTable.word : LocalTable → String
  | descriptors => "local"
  | signatures => "localtype"

/-- An event in a listing. -/
def MethodEvent.toJson : MethodEvent → Json
  | code maxStack maxLocals => .row "code" [.nat maxStack.toNat, .nat maxLocals.toNat]
  | .attribute attr => .row "attr" [.str attr.name, .hexBytes attr.info]
  | tryCatch handler =>
    .row "try" [handler.start.toJson, handler.stop.toJson, handler.handler.toJson,
      .opt .str handler.catchType]
  | label l => .row "label" [l.toJson]
  | frame f => .row "frame" [f.toJson]
  | line number start => .row "line" [.nat number.toNat, start.toJson]
  | insn i => i.toJson
  | localVariable v =>
    .row v.table.word [.str v.name, .str v.descriptor, v.start.toJson, v.stop.toJson,
      .nat v.index.toNat]
  | done => .row "end" []

/-- Events in a listing. -/
def eventsJson (events : List MethodEvent) : Json :=
  .list MethodEvent.toJson events

/-- Reads a local variable of one table. -/
def LocalVariable.ofParts? (table : LocalTable) : List Json → Option MethodEvent
  | [name, descriptor, start, stop, index] => do
    return .localVariable {
      table
      name := ← name.str?
      descriptor := ← descriptor.str?
      start := ← Label.ofJson? start
      stop := ← Label.ofJson? stop
      index := ← index.u2? }
  | _ => none

/-- Reads an event. -/
def MethodEvent.ofJson? : Json → Option MethodEvent
  | .arr [.str "code", maxStack, maxLocals] => do return code (← maxStack.u2?) (← maxLocals.u2?)
  | .arr [.str "attr", name, info] => do
    return .attribute { name := ← name.str?, info := ← info.hexBytes? }
  | .arr [.str "try", start, stop, handler, catchType] => do
    return tryCatch {
      start := ← Label.ofJson? start
      stop := ← Label.ofJson? stop
      handler := ← Label.ofJson? handler
      catchType := ← catchType.opt? Json.str? }
  | .arr [.str "label", l] => label <$> Label.ofJson? l
  | .arr [.str "frame", f] => frame <$> Frame.ofJson? f
  | .arr [.str "line", number, start] => do return line (← number.u2?) (← Label.ofJson? start)
  | .arr (.str "local" :: parts) => LocalVariable.ofParts? .descriptors parts
  | .arr (.str "localtype" :: parts) => LocalVariable.ofParts? .signatures parts
  | .arr [.str "end"] => some done
  | j => insn <$> Insn.ofJson? j

/-- Reads events. A row `rep` stands for several copies of one event. -/
def events? (j : Json) : Option (List MethodEvent) := do
  let groups ← j.list? fun
    | .arr [.str "rep", count, event] => do
      return List.replicate (← count.nat?) (← MethodEvent.ofJson? event)
    | event => List.singleton <$> MethodEvent.ofJson? event
  return groups.flatten

end RoundingPatch.ClassFile
