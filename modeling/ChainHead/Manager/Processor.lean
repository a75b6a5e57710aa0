/-
Processors: what decides about a submission.

A processor looks at a submission and answers with a verdict; while it
does so it may record facts about the submission and change its own
state. Beside that it applies attestations that were checked before and
follows the clock. The manager works with any processor.
-/
import ChainHead.Log
import ChainHead.Verification.Error

namespace ChainHead

/-- Why a submission is rejected. -/
inductive Rejection where
  | epochMismatch (target : Epoch) (slot : Slot)
  | noBitsSet
  | tooFarAhead (slot current : Slot)
  | tooOld (target previous : Epoch)
  | blockPruned (root : Root)
  | headTooLate (slot headSlot : Slot)
  | targetNotAncestor (target : Checkpoint) (head : Root)
  | check (error : Verification.Error)
  /-- A reason that a source of states or a processor gives in its own words. -/
  | stated (reason : String)
  deriving DecidableEq, Repr

/-- The wording of a rejection. -/
def Rejection.message : Rejection → String
  | epochMismatch target slot =>
    s!"attestation target epoch {target.toNat} does not match slot {slot.toNat}"
  | noBitsSet => "attestation has no aggregation bits set"
  | tooFarAhead slot current =>
    s!"attestation from slot {slot.toNat} is too far ahead of current slot {current.toNat}"
  | tooOld target previous =>
    s!"attestation target epoch {target.toNat} is older than previous epoch {previous.toNat}"
  | blockPruned root => s!"block {Bytes.hex root} was pruned"
  | headTooLate slot headSlot =>
    s!"attestation from slot {slot.toNat} votes for block from later slot {headSlot.toNat}"
  | targetNotAncestor target head =>
    s!"attestation target {target.text} is not an ancestor of block {Bytes.hex head}"
  | check error => error.message
  | stated reason => reason

/-- What a processor decides about a submission. -/
inductive Verdict where
  /-- It was applied. -/
  | successful
  /-- It depends on a block that has not arrived. -/
  | unknownBlock (root : Root)
  /-- It is valid and may be applied in a later slot. -/
  | savedForFuture
  | invalid (reason : Rejection)
  deriving DecidableEq, Repr

namespace Verdict

/-- The name of a verdict. -/
def label : Verdict → String
  | successful => "successful"
  | unknownBlock _ => "unknown_block"
  | savedForFuture => "saved_for_future"
  | invalid _ => "invalid"

/-- Whether a submission was applied. -/
def isSuccessful (v : Verdict) : Bool := v = successful

end Verdict

/-- What decides about submissions, with a state of type `σ`. -/
structure Processor (σ : Type) where
  /-- Decides about a submission, of which some facts may be known, and records further ones. -/
  process : Features → σ → Submission → Facts → Logged (σ × Facts × Verdict)
  /-- Applies an attestation that was checked before. -/
  apply : σ → IndexedAttestation → Logged σ
  /-- Follows the clock to a slot. -/
  onSlot : σ → Slot → σ

end ChainHead
