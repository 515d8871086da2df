import RoundingPatch.Listing.Class
import RoundingPatch.Listing.Patch
import RoundingPatch.Listing.Machine
import RoundingPatch.Listing.SelfTest
import RoundingPatch.Main
import RoundingPatch.Proofs.Bytes.Reading
import RoundingPatch.Proofs.Text.ModifiedUtf8
import RoundingPatch.Proofs.ClassFile.Pool.Seeded
import RoundingPatch.Proofs.ClassFile.Code.Attribute
import RoundingPatch.Proofs.Yields
import RoundingPatch.Proofs.ClassFile.Code.Bodies
import RoundingPatch.Proofs.ClassFile.Code.Events
import RoundingPatch.Proofs.ClassFile.Code.Renaming
import RoundingPatch.Proofs.ClassFile.Draft
import RoundingPatch.Proofs.ClassFile.Drafting
import RoundingPatch.Proofs.ClassFile.Method.Alike
import RoundingPatch.Proofs.ClassFile.Method.Insertion
import RoundingPatch.Proofs.ClassFile.Method.ReadBack
import RoundingPatch.Proofs.ClassFile.Method.Delivery
import RoundingPatch.Proofs.ClassFile.Reencode
import RoundingPatch.Proofs.ClassFile.Pool.Requests
import RoundingPatch.Proofs.Patch.Rejection
import RoundingPatch.Proofs.Patch.Offers
import RoundingPatch.Proofs.Patch.Verdict
import RoundingPatch.Proofs.Patch.DecisionRuns
import RoundingPatch.Proofs.DigitList.Nearest
import RoundingPatch.Proofs.ClassFile.Committed
import RoundingPatch.Proofs.ClassFile.Assembled
import RoundingPatch.Proofs.Patch.Transplanted
import RoundingPatch.Proofs.DigitList.Decision
import RoundingPatch.Proofs.DigitList.Half
import RoundingPatch.Proofs.DigitList.Oracle
import RoundingPatch.Proofs.DigitList.History
import RoundingPatch.Proofs.DigitList.Agreement
import RoundingPatch.Proofs.Patch.Undisturbed
import RoundingPatch.Proofs.DigitList.PatchedBuild
import RoundingPatch.Proofs.ClassFile.Recorded
import RoundingPatch.Proofs.DigitList.Formatting
import RoundingPatch.Proofs.Decimal.ExactText
import RoundingPatch.Proofs.Decimal.Calculations
import RoundingPatch.Proofs.Patch.Renaming
import RoundingPatch.Proofs.DigitList.Repaired
import RoundingPatch.Proofs.ClassFile.Descriptor
import RoundingPatch.Proofs.Machine.Limits
import RoundingPatch.Proofs.Machine.FieldRuns
import RoundingPatch.Proofs.Machine.Receivers
import RoundingPatch.Proofs.Machine.Targets
import RoundingPatch.Proofs.DigitList.Monotone
import RoundingPatch.Proofs.Patch.StackMap
import RoundingPatch.Proofs.Text.Canonical
import RoundingPatch.Proofs.Patch.Slots
import RoundingPatch.Proofs.ClassFile.Delimited
import RoundingPatch.Proofs.ClassFile.Uncommitted
