import RoundingPatch.Text.Quoted
import RoundingPatch.ClassFile.Label
import RoundingPatch.ClassFile.Opcode
/-!
# Faults

Everything that can go wrong, as causes. A fault belongs to one of nine kinds; `Fault.message` is
the one place that words a fault for a reader, and `Kind.category` groups the kinds by who has to
act on them.

An absent switch and a class that needs no patch are answers, not faults, and do not occur here.
-/

namespace RoundingPatch

open ClassFile

/-! ### Kinds -/

/-- The kinds of fault. -/
inductive Fault.Kind
  | malformedClass
  | structuralViolation
  | templateUnavailable
  | templateMismatch
  | unsupported
  | execution
  | config
  | io
  | internal
  deriving DecidableEq

/-- Who has to act on a fault. -/
inductive Fault.Category
  /-- The class is not what was expected; its bytes stay untouched. -/
  | structural
  /-- The replacement method cannot be produced. -/
  | template
  /-- A run of bytecode failed. -/
  | execution
  /-- A setting or a file is at fault. -/
  | environment
  /-- This library is at fault. -/
  | internal
  deriving DecidableEq

namespace Fault.Kind

/-- The category a kind belongs to. -/
def category : Kind → Category
  | malformedClass | structuralViolation | unsupported => .structural
  | templateUnavailable | templateMismatch => .template
  | execution => .execution
  | config | io => .environment
  | internal => .internal

/-- The words that open the message of a fault of a kind. -/
def heading : Kind → String
  | malformedClass => "malformed class file"
  | structuralViolation => "structural violation"
  | templateUnavailable => "template unavailable"
  | templateMismatch => "template does not fit target"
  | unsupported => "unsupported"
  | execution => "execution failed"
  | config => "invalid configuration"
  | io => "I/O error"
  | internal => "internal error"

/-- A message: the heading, a colon and the detail. -/
def describe (k : Kind) (detail : String) : String :=
  k.heading ++ ": " ++ detail

end Fault.Kind

/-! ### Causes, kind by kind -/

/-- Why bytes are not text in the encoding of class files. -/
inductive TextFault
  | nulByte
  | truncatedSequence
  | badLeadByte (byte : UInt8)
  | unpairedSurrogate
  deriving DecidableEq

/-- The wording of a text fault. -/
def TextFault.detail : TextFault → String
  | nulByte => "NUL byte in modified UTF-8"
  | truncatedSequence => "truncated modified UTF-8 sequence"
  | badLeadByte b => "invalid modified UTF-8 lead byte " ++ Text.hexLiteral 2 b.toNat
  | unpairedSurrogate => "unpaired surrogate in modified UTF-8"

/-- Bytes that break the rules of the class file format. -/
inductive Malformation
  | truncated (field : String) (need offset available : Nat)
  | badText (cause : TextFault)
  | constantText (index : Nat) (cause : TextFault)
  | emptyPoolCount
  | unknownTag (tag index : Nat)
  | wideConstantOverruns (index : Nat)
  | badPoolIndex (index : Nat)
  | wrongConstant (index : Nat) (expected found : String)
  | badMagic (magic : Nat)
  | trailingBytes (count : Nat)
  | duplicateMethod (name descriptor : String)
  | inMember (what name descriptor reason : String)
  | twoCodeAttributes (method : String)
  | codeLength (length : Nat)
  | notABoundary (offset : Nat)
  | framePastEnd (offset : Nat)
  | branchOutside (offset : Nat) (target : Int)
  | switchRange (offset : Nat) (high low : Int)
  | switchTargets (offset count : Nat)
  | switchPairs (offset : Nat) (count : Int)
  | fieldInsnOnMethod (offset : Nat)
  | invokeOnField (offset : Nat)
  | badWide (opcode : Opcode) (offset : Nat)
  | unknownOpcode (opcode : Opcode) (offset : Nat)
  | reservedFrame (frameType : Nat)
  | unknownTypeTag (tag : Nat)
  | badDescriptor (text reason : String)
  | unboundBranch (name descriptor : String) (label : Label)
  | missingSwitchTarget
  deriving DecidableEq

/-- The wording of a malformation. -/
def Malformation.detail : Malformation → String
  | truncated field need offset available =>
    s!"truncated {field}: need {need} bytes at offset {offset}, have {available}"
  | badText cause => cause.detail
  | constantText index cause =>
    s!"constant #{index}: " ++ Fault.Kind.malformedClass.describe cause.detail
  | emptyPoolCount => "constant_pool_count is zero"
  | unknownTag tag index => s!"unknown constant tag {tag} at #{index}"
  | wideConstantOverruns index => s!"8-byte constant #{index} overruns the pool"
  | badPoolIndex index => s!"invalid constant pool index #{index}"
  | wrongConstant index expected found => s!"constant #{index}: expected {expected}, found {found}"
  | badMagic magic => "bad magic " ++ Text.hexLiteral 8 magic
  | trailingBytes count => s!"{count} trailing bytes after class file"
  | duplicateMethod name descriptor => s!"duplicate method {name}{descriptor}"
  | inMember what name descriptor reason => s!"{what} {name}{descriptor}: {reason}"
  | twoCodeAttributes method => s!"method {method} has two Code attributes"
  | codeLength length => s!"code_length {length} out of range"
  | notABoundary offset => s!"code reference to offset {offset} is not an instruction boundary"
  | framePastEnd offset => s!"stack map frame at {offset} past end of code"
  | branchOutside offset target => s!"branch at {offset} targets {target}, outside code"
  | switchRange offset high low => s!"tableswitch at {offset}: high {high} < low {low}"
  | switchTargets offset count => s!"tableswitch at {offset}: {count} targets exceed code"
  | switchPairs offset count => s!"lookupswitch at {offset}: bad npairs {count}"
  | fieldInsnOnMethod offset => s!"field instruction at {offset} references a method"
  | invokeOnField offset => s!"invoke at {offset} references a field"
  | badWide opcode offset =>
    "wide prefix on opcode " ++ Text.hexLiteral 2 opcode.toNat ++ s!" at {offset}"
  | unknownOpcode opcode offset =>
    "unknown opcode " ++ Text.hexLiteral 2 opcode.toNat ++ s!" at {offset}"
  | reservedFrame frameType => s!"reserved stack map frame type {frameType}"
  | unknownTypeTag tag => s!"unknown verification type tag {tag}"
  | badDescriptor text reason => "invalid descriptor " ++ Text.quoted text ++ ": " ++ reason
  | unboundBranch name descriptor label =>
    s!"{name}{descriptor} branches to unbound " ++ label.text
  | missingSwitchTarget => "tableswitch target count"

/-- A class whose switch breaks an assumption of the patch. -/
inductive Violation
  | lookupSwitch
  | secondSwitch
  | tooManyCases (count : Nat)
  | caseNeverBound (label : Label) (method : String)
  | staticTarget (descriptor : String)
  | voidTarget (descriptor : String)
  | otherClass (offered declared : String)
  | caseWithoutCode
  | caseWithoutFrame
  deriving DecidableEq

/-- The wording of a violation. -/
def Violation.detail : Violation → String
  | lookupSwitch => "expected switch() case as a TABLESWITCH; was LOOKUPSWITCH"
  | secondSwitch => "expected exactly one tableswitch; found another"
  | tooManyCases count =>
    s!"switch has {count} cases but java/math/RoundingMode declares only 8"
  | caseNeverBound label method => "case label " ++ label.text ++ s!" never bound in {method}"
  | staticTarget descriptor => s!"target method {descriptor} is static; no receiver to forward"
  | voidTarget descriptor => s!"target method {descriptor} returns void"
  | otherClass offered declared => s!"offered as {offered} but declares {declared}"
  | caseWithoutCode => "patched case label is not followed by code"
  | caseWithoutFrame => "patched case has no stack map frame"

/-- A template that yields no replacement method. -/
inductive TemplateGap
  | unusable (source reason : String)
  | otherClass (source found expected : String)
  | otherDescriptor (owner method found expected : String)
  | noMethod (source method descriptor : String)
  | notConcrete (owner method : String) (flags : UInt16)
  | onlyBuiltIn (descriptor : String)
  deriving DecidableEq

/-- The wording of a template gap. -/
def TemplateGap.detail : TemplateGap → String
  | unusable source reason => s!"{source}: {reason}"
  | otherClass source found expected => s!"{source} declares {found}, expected {expected}"
  | otherDescriptor owner method found expected =>
    s!"{owner}.{method} has descriptor {found}, expected {expected}"
  | noMethod source method descriptor => s!"{source} has no method {method}{descriptor}"
  | notConcrete owner method flags =>
    s!"{owner}.{method} must be a concrete instance method (flags "
      ++ Text.hexLiteral 4 flags.toNat ++ ")"
  | onlyBuiltIn descriptor => s!"built-in template only provides (IZZ)Z, not {descriptor}"

/-- A replacement method that refers to what the target class does not have. -/
inductive Mismatch
  | alreadyDeclared (owner name descriptor : String)
  | noField (owner name descriptor : String)
  | noMethod (owner name descriptor : String)
  | pooledConstant (index : Nat)
  | callSite (index : Nat)
  deriving DecidableEq

/-- The wording of a mismatch. -/
def Mismatch.detail : Mismatch → String
  | alreadyDeclared owner name descriptor => s!"{owner} already declares {name}{descriptor}"
  | noField owner name descriptor => s!"{owner} has no field {name} {descriptor}"
  | noMethod owner name descriptor => s!"{owner} has no method {name}{descriptor}"
  | pooledConstant index => s!"constant #{index} only resolves in the template pool"
  | callSite index => s!"invokedynamic #{index} only resolves in the template pool"

/-- Something well-formed that this library does not handle. -/
inductive Unsupported
  | tooMany (what : String) (count : Nat)
  | tooLong (what : String) (length : Nat)
  | majorVersion (version : Nat)
  | codeAttribute (name : String)
  | poolFull
  | textTooLong
  | pooledConstant (index : Nat)
  | callSite
  | codeTooLong
  | branchSpan (offset : Nat) (distance : Int)
  | frameDelta
  | rawAttributes (method : String)
  | rawClassAttributes
  | handlers (name descriptor : String)
  | noCode (name descriptor : String)
  | staticField (owner name : String)
  | constantLoad (constant : String)
  | wideCall (owner name descriptor : String)
  | staticCall (owner name descriptor : String)
  | callOn (owner name descriptor receiver : String)
  | enumMethod (owner name descriptor : String)
  | arrayElement (code : Int)
  | opcode (opcode : Opcode)
  deriving DecidableEq

/-- The wording of an unsupported construct. -/
def Unsupported.detail : Unsupported → String
  | tooMany what count => s!"too many {what}: {count}"
  | tooLong what length => s!"{what} too long: {length}"
  | majorVersion version => s!"class file major version {version}"
  | codeAttribute name => s!"Code attribute {name} in a rewritten method"
  | poolFull => "constant pool exceeds 65535 entries"
  | textTooLong => "utf8 constant longer than 65535 bytes"
  | pooledConstant index => s!"pool-relative constant #{index} used outside its class"
  | callSite => "invokedynamic call site outside its class"
  | codeTooLong => "method code exceeds 65535 bytes"
  | branchSpan offset distance => s!"branch at {offset} spans {distance} bytes"
  | frameDelta => "stack map delta exceeds u2"
  | rawAttributes method => s!"raw attributes on {method} have no source pool"
  | rawClassAttributes => "raw class attributes have no source pool"
  | handlers name descriptor => s!"exception handlers in {name}{descriptor}"
  | noCode name descriptor => s!"{name}{descriptor} has no code"
  | staticField owner name => s!"static field {owner}.{name}"
  | constantLoad constant => s!"ldc of {constant}"
  | wideCall owner name descriptor => s!"wide or floating-point call {owner}.{name}{descriptor}"
  | staticCall owner name descriptor => s!"static call {owner}.{name}{descriptor}"
  | callOn owner name descriptor receiver => s!"call to {owner}.{name}{descriptor} on {receiver}"
  | enumMethod owner name descriptor => s!"enum method {owner}.{name}{descriptor}"
  | arrayElement code => s!"newarray element type {code}"
  | opcode op => s!"opcode {op.mnemonic} (" ++ Text.hexLiteral 2 op.toNat ++ ")"

/-- A run of bytecode that came to a bad end. -/
inductive ExecutionFault
  | expectedInt
  | expectedReference
  | nullReference (what : String)
  | fieldRead (name holder : String)
  | fieldWritten (name holder : String)
  | expectedString (found : String)
  | noMethod (owner name descriptor : String)
  | tooManyArguments (name descriptor : String) (count limit : Nat)
  | stackOverflow (name descriptor : String) (limit : Nat)
  | stackUnderflow (name descriptor : String)
  | emptyStack
  | badLocal (index : Nat) (name descriptor : String) (limit : Nat)
  | noField (owner name : String)
  | isStatic (owner name descriptor : String)
  | notStatic (owner name descriptor : String)
  | callDepth (depth limit : Nat) (name descriptor : String)
  | fellOffEnd (name descriptor : String)
  | budgetExhausted (budget : Nat)
  | resultShape (owner name descriptor : String)
  | arrayLength (length : Int)
  | lengthOf (holder : String)
  | arrayLoad (holder : String)
  | arrayStore (holder : String)
  /-- An exception that nothing caught, with its message if it has one. -/
  | uncaught (exception : String) (message : Option String)
  | returnedVoid (name descriptor : String)
  deriving DecidableEq

/-- The wording of an execution fault. -/
def ExecutionFault.detail : ExecutionFault → String
  | expectedInt => "expected int, found reference"
  | expectedReference => "expected reference, found int"
  | nullReference what => s!"null reference in {what}"
  | fieldRead name holder => s!"field {name} read on {holder}"
  | fieldWritten name holder => s!"field {name} written on {holder}"
  | expectedString found => s!"expected java/lang/String, found {found}"
  | noMethod owner name descriptor => s!"no method {owner}.{name}{descriptor}"
  | tooManyArguments name descriptor count limit =>
    s!"{name}{descriptor} takes {count} argument slots but max_locals is {limit}"
  | stackOverflow name descriptor limit =>
    s!"operand stack overflow in {name}{descriptor} (max_stack {limit})"
  | stackUnderflow name descriptor => s!"operand stack underflow in {name}{descriptor}"
  | emptyStack => "operand stack underflow"
  | badLocal index name descriptor limit =>
    s!"local {index} out of range in {name}{descriptor} (max_locals {limit})"
  | noField owner name => s!"{owner} declares no field {name}"
  | isStatic owner name descriptor => s!"{owner}.{name}{descriptor} is static"
  | notStatic owner name descriptor => s!"{owner}.{name}{descriptor} is not static"
  | callDepth depth limit name descriptor =>
    s!"call depth {depth} exceeds {limit} at {name}{descriptor}"
  | fellOffEnd name descriptor => s!"execution fell off the end of {name}{descriptor}"
  | budgetExhausted budget => s!"step budget of {budget} instructions exhausted"
  | resultShape owner name descriptor =>
    s!"{owner}.{name}{descriptor} returned a value of the wrong shape"
  | arrayLength length => s!"array length {length} out of range"
  | lengthOf holder => s!"arraylength on {holder}"
  | arrayLoad holder => s!"array load on {holder}"
  | arrayStore holder => s!"array store on {holder}"
  | uncaught exception none => s!"uncaught {exception}"
  | uncaught exception (some message) => s!"uncaught {exception}: {message}"
  | returnedVoid name descriptor => s!"{name}{descriptor} returned void"

/-- A setting that cannot be used. -/
inductive ConfigFault
  | unknownRoundingMode (text : String)
  | unknownSpecimen (text : String)
  | badName (key value : String)
  | badDescriptor (reason : String)
  | voidDescriptor
  | sameMethod
  | sameModes (mode : String)
  | sameClass
  | notKeyValue (pair : String)
  | unknownArgument (key : String)
  /-- A table of settings that cannot be read; `table` names it. -/
  | unreadable (table : String)
  deriving DecidableEq

/-- The wording of a config fault. -/
def ConfigFault.detail : ConfigFault → String
  | unknownRoundingMode text => "unknown rounding mode " ++ Text.quoted text
  | unknownSpecimen text =>
    "unknown specimen " ++ Text.quoted text ++ "; expected affected or fixed"
  | badName key value => s!"{key} must be a non-empty internal name, got " ++ Text.quoted value
  | badDescriptor reason => s!"method_descriptor: {reason}"
  | voidDescriptor => "method_descriptor must not return void"
  | sameMethod => "replacement_method must differ from method_name"
  | sameModes mode => s!"buggy_mode and sibling_mode are both {mode}"
  | sameClass => "template_class must differ from target_class"
  | notKeyValue pair => "agent argument " ++ Text.quoted pair ++ " is not key=value"
  | unknownArgument key => "unknown agent argument " ++ Text.quoted key
  | unreadable table => s!"{table}: not a document with these settings"

/-- A broken invariant. -/
inductive InternalFault
  | emptyCode (method : String)
  | boundTwice (label : Label) (method : String)
  | twoFrames (offset : Nat) (method : String)
  | unboundLabel (label : Label)
  | localBackwards (name : String)
  | notIntOperand (opcode : Opcode)
  | notLocalAccess (opcode : Opcode)
  | operandRange (what : String) (value : Int)
  | switchTargets (low high : Int) (count : Nat)
  | frameOrder (offset previous : Nat)
  | chopFrame (count : Nat)
  | appendFrame (count : Nat)
  | foreignMember (name descriptor : String)
  | methodTwice (name descriptor : String)
  | fieldTwice (name : String)
  | noOffset (label : Label)
  | decidedTwice
  | doesNotParse (reason : String)
  | danglingReference (index : Nat)
  | thrownDangling (index : Nat)
  deriving DecidableEq

/-- The wording of an internal fault. -/
def InternalFault.detail : InternalFault → String
  | emptyCode method => s!"method {method} has empty code"
  | boundTwice label method => "label " ++ label.text ++ s!" bound twice in {method}"
  | twoFrames offset method => s!"two stack map frames at offset {offset} in {method}"
  | unboundLabel label => "unbound label " ++ label.text
  | localBackwards name => s!"local {name} ends before it starts"
  | notIntOperand opcode =>
    "opcode " ++ Text.hexLiteral 2 opcode.toNat ++ " is not an int-operand instruction"
  | notLocalAccess opcode =>
    "opcode " ++ Text.hexLiteral 2 opcode.toNat ++ " is not a local-variable instruction"
  | operandRange what value => s!"{what} operand {value} out of range"
  | switchTargets low high count => s!"tableswitch {low}..={high} with {count} targets"
  | frameOrder offset previous =>
    s!"stack map frame at {offset} does not follow frame at {previous}"
  | chopFrame count => s!"chop frame of {count} locals"
  | appendFrame count => s!"append frame of {count} locals"
  | foreignMember name descriptor =>
    s!"cannot copy {name}{descriptor} from a different constant pool"
  | methodTwice name descriptor => s!"method {name}{descriptor} written twice"
  | fieldTwice name => s!"field {name} written twice"
  | noOffset label => "label " ++ label.text ++ " has no offset"
  | decidedTwice => "decision finalized twice"
  | doesNotParse reason => s!"rewritten class does not parse: {reason}"
  | danglingReference index => s!"dangling reference @{index}"
  | thrownDangling index => s!"thrown dangling reference @{index}"

/-! ### Faults -/

/-- Everything that can go wrong. -/
inductive Fault
  | malformed (cause : Malformation)
  | violation (cause : Violation)
  | templateGap (cause : TemplateGap)
  | mismatch (cause : Mismatch)
  | unsupported (cause : Unsupported)
  | execution (cause : ExecutionFault)
  | config (cause : ConfigFault)
  /-- A file that cannot be read, with the reason the system gives. -/
  | io (reason : String)
  | internal (cause : InternalFault)
  deriving DecidableEq

namespace Fault

/-- The kind of a fault. -/
def kind : Fault → Kind
  | malformed _ => .malformedClass
  | violation _ => .structuralViolation
  | templateGap _ => .templateUnavailable
  | mismatch _ => .templateMismatch
  | unsupported _ => .unsupported
  | execution _ => .execution
  | config _ => .config
  | io _ => .io
  | internal _ => .internal

/-- The part of the message after the heading. -/
def detail : Fault → String
  | malformed cause => cause.detail
  | violation cause => cause.detail
  | templateGap cause => cause.detail
  | mismatch cause => cause.detail
  | unsupported cause => cause.detail
  | execution cause => cause.detail
  | config cause => cause.detail
  | io reason => reason
  | internal cause => cause.detail

/-- The full wording of a fault. -/
def message (f : Fault) : String :=
  f.kind.describe f.detail

end Fault

end RoundingPatch
