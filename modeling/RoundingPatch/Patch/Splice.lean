import RoundingPatch.ClassFile.Draft
import RoundingPatch.Patch.Forwarding
import RoundingPatch.Patch.Switch
/-!
# Splicing the call into the target method

The target method is written anew event by event. All events stay; at the patched case the
forwarding call goes in front of the instruction of the case, behind its label, its stack map frame
and its line numbers, so that whatever led to the case now leads to the call. If the case has a
frame, the instruction behind the call needs one too: it is the same.
-/

namespace RoundingPatch

open ClassFile

/-- How far the target method has been written. -/
structure Splice where
  forwarding : Forwarding
  decision : Decision
  written : Array MethodEvent := #[]
  /-- The label of the patched case has gone by and the call has not been written. -/
  pending : Bool := false
  /-- The patched case has a stack map frame. -/
  caseHadFrame : Bool := false
  /-- The instruction behind the call needs a frame. -/
  frameOwed : Bool := false
  injected : Bool := false
  /-- The method has a stack map frame. -/
  sawFrame : Bool := false

namespace Splice

/-- Writes an event. -/
def write (s : Splice) (event : MethodEvent) : Splice :=
  { s with written := s.written.push event }

/-- Writes the call if it is its turn. -/
def inject (s : Splice) : Splice :=
  if s.pending then
    -- A frame behind the call is owed only if the case had one: otherwise there are none at all.
    { s with
      written := s.forwarding.insns.foldl (fun written i => written.push (.insn i)) s.written
      pending := false
      injected := true
      frameOwed := s.caseHadFrame }
  else s

/-- Writes the frame behind the call if it is needed. -/
def payFrame (s : Splice) : Splice :=
  if s.frameOwed then { s.write (.frame .same) with frameOwed := false } else s

/-- Writes a label, which may be that of the patched case. -/
def onLabel (s : Splice) (label : Label) : Splice :=
  -- A call still due is written before the next label.
  let s := s.inject.write (.label label)
  let (taken, decision) := s.decision.takeInjection label
  if taken then { s with decision, pending := true, caseHadFrame := false }
  else { s with decision }

/-- Writes a stack map frame. -/
def onFrame (s : Splice) (frame : Frame) : Splice :=
  -- A frame that stands there anyway pays for the one that is owed.
  { s.write (.frame frame) with
    sawFrame := true
    caseHadFrame := s.caseHadFrame || s.pending
    frameOwed := false }

/-- Writes an instruction, behind the call if it is its turn. -/
def onInsn (s : Splice) (insn : Insn) : Except Fault Splice :=
  let s := s.inject.payFrame
  match s.decision.onInsn insn with
  | (.error fault, _) => .error fault
  | (.ok (), decision) => .ok ({ s with decision }.write (.insn insn))

/-- Checks that the call was written where it belongs. -/
def check (s : Splice) : Except Fault Unit :=
  if s.pending then .error (.violation .caseWithoutCode)
  else if s.injected ∧ s.sawFrame ∧ !s.caseHadFrame then .error (.violation .caseWithoutFrame)
  else .ok ()

/-- Writes the next event of the target method. -/
def step (s : Splice) : MethodEvent → Except Fault Splice
  | .code maxStack maxLocals =>
    .ok (s.write (.code (max maxStack s.forwarding.requiredStack) maxLocals))
  | .label label => .ok (s.onLabel label)
  | .frame frame => .ok (s.onFrame frame)
  | .insn insn => s.onInsn insn
  | .done => do
    s.check
    return s.write .done
  | other => .ok (s.write other)

/-- Writes the target method `m` with the events `t` into a draft of its class. -/
def writeMethod (forwarding : Forwarding) (decision : Decision) (m : Member) (t : Transcript) :
    Drafting Verdict := do
  let s ← ofExcept (t.replay step { forwarding, decision })
  let emitted ← ClassDraft.commit {
    access := m.access, name := m.name, descriptor := m.descriptor, events := s.written.toList }
  ofExcept (s.decision.finish emitted).1

end Splice

end RoundingPatch
