import RoundingPatch.Proofs.ClassFile.Code.Attribute
/-!
# Methods in index form

The outline of a method says everything about it but its byte offsets: every label is replaced by
the number of instructions in front of it. Line numbers and local variables keep the order of their
tables.

A method that is decoded gives its line numbers in the order of their positions, and those of one
position in the order of the table. A line number at the end of the code belongs to no instruction,
and decoding leaves it out.
-/

namespace RoundingPatch.ClassFile

open MethodEvent

/-- The position of a label, as a label. One that is not bound keeps apart from all positions. -/
def MethodEvent.indexLabel (events : List MethodEvent) (label : Label) : Label :=
  match position label events with
  | some n => Body.labelAt n
  | none => .synthetic label.id

/-- A method in index form. -/
structure Outline where
  access : Access
  name : String
  descriptor : String
  /-- The greatest depth of the operand stack and the number of local variables, if there is code.
  -/
  limits : Option (UInt16 × UInt16)
  insns : List Insn
  handlers : List TryCatch
  /-- The stack map frames, each with the instruction it stands at. -/
  frames : List (Nat × Frame)
  lines : List (UInt16 × Label)
  /-- The local variables with their descriptors. -/
  descriptors : List LocalVariable
  /-- The local variables with their signatures. -/
  signatures : List LocalVariable
  /-- The attributes besides the code. -/
  attributes : List RawAttribute
  deriving DecidableEq

/-- The index form of a method that is given by its events. -/
def MethodSource.outline (m : MethodSource) : Outline where
  access := m.access
  name := m.name
  descriptor := m.descriptor
  limits := m.limits
  insns := (MethodEvent.insns m.events).map (·.mapLabels (indexLabel m.events))
  handlers := m.handlers.map (·.mapLabels (indexLabel m.events))
  frames := (framesFrom 0 m.events).map fun p => (p.1, p.2.mapLabels (indexLabel m.events))
  lines := m.lines.map fun l => (l.1, indexLabel m.events l.2)
  descriptors := (m.localsIn .descriptors).map (·.mapLabels (indexLabel m.events))
  signatures := (m.localsIn .signatures).map (·.mapLabels (indexLabel m.events))
  attributes := m.attributes

/-- A method as decoding lists it. -/
def Member.source (pool : ConstantPool) (m : Member) : MethodSource where
  access := m.access
  name := m.name
  descriptor := m.descriptor
  events := (m.decode pool).events

@[simp]
theorem Member.source_name (pool : ConstantPool) (m : Member) : (m.source pool).name = m.name := rfl

@[simp]
theorem Member.source_descriptor (pool : ConstantPool) (m : Member) :
    (m.source pool).descriptor = m.descriptor := rfl

/-- The index form of a method of a class. -/
def Member.outline (pool : ConstantPool) (m : Member) : Outline :=
  (m.source pool).outline

/-- Every branch of a method goes to an instruction, and every frame and every line number stands in
front of one. -/
structure MethodSource.Anchored (m : MethodSource) : Prop where
  targets : ∀ i ∈ MethodEvent.insns m.events, ∀ l ∈ i.targets,
    ∃ n < (MethodEvent.insns m.events).length, position l m.events = some n
  frames : ∀ p ∈ framesFrom 0 m.events, p.1 < (MethodEvent.insns m.events).length
  lines : ∀ l ∈ m.lines,
    ∃ n < (MethodEvent.insns m.events).length, position l.2 m.events = some n

/-- A method in the form in which methods are decoded. -/
structure MethodSource.Readable (pool : ConstantPool) (m : MethodSource) : Prop
    extends m.Anchored where
  bodied : m.limits = none → ∀ e ∈ m.events, (∃ a, e = .attribute a) ∨ e = .done
  insns : ∀ i ∈ MethodEvent.insns m.events, i.Readable pool
  linesSorted : m.lines.Pairwise fun a b =>
    ∀ s t, position a.2 m.events = some s → position b.2 m.events = some t → s ≤ t
  attributes : ∀ a ∈ m.attributes, a.name ≠ "Code"

/-- A method that can be read back with one pool can be with every larger one. -/
theorem MethodSource.Readable.mono {pool larger : ConstantPool} {m : MethodSource}
    (h : m.Readable pool) (hp : larger.Extends pool) : m.Readable larger :=
  { h with insns := fun i hi => (h.insns i hi).mono hp }

/-- A label stands in the code. -/
def MethodEvent.Binds (events : List MethodEvent) (l : Label) : Prop :=
  ∃ n, position l events = some n

/-- Every label that a method mentions stands in its code. -/
structure MethodSource.Closed (m : MethodSource) : Prop where
  insns : ∀ i ∈ MethodEvent.insns m.events, ∀ l ∈ i.targets, Binds m.events l
  handlers : ∀ h ∈ m.handlers, ∀ l ∈ h.labels, Binds m.events l
  lines : ∀ line ∈ m.lines, Binds m.events line.2
  locals : ∀ table, ∀ v ∈ m.localsIn table, ∀ l ∈ v.labels, Binds m.events l
  frames : ∀ p ∈ framesFrom 0 m.events, ∀ l ∈ p.2.labels, Binds m.events l

/-- Every symbol a method needs in the pool is in `R`, with its parts. -/
structure MethodSource.Within (R : Symbol → Prop) (m : MethodSource) : Prop where
  name : R (.utf8 m.name)
  descriptor : R (.utf8 m.descriptor)
  attributes : ∀ a ∈ m.attributes, R (.utf8 a.name)
  code : m.limits.isSome → R (.utf8 "Code")
  insns : ∀ i ∈ MethodEvent.insns m.events, ∀ s ∈ i.symbol?, ∀ t ∈ s.parts, R t
  handlers : ∀ h ∈ m.handlers, ∀ name ∈ h.catchType, ∀ t ∈ (Symbol.classRef name).parts, R t
  lines : m.lines ≠ [] → R (.utf8 "LineNumberTable")
  locals : ∀ table, ∀ v ∈ m.localsIn table,
    R (.utf8 v.name) ∧ R (.utf8 v.descriptor) ∧ R (.utf8 (Layout.localsName table))
  frames : ∀ p ∈ framesFrom 0 m.events, ∀ v ∈ p.2.types, ∀ name, v = .object name →
    ∀ t ∈ (Symbol.classRef name).parts, R t
  stackMap : framesFrom 0 m.events ≠ [] → R (.utf8 "StackMapTable")

end RoundingPatch.ClassFile
