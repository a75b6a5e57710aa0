/-
Rehearsals: a processor that answers from a list of cues, to try out
what surrounds a processor.

The cue of a submission is the one at its committee index. It says which
facts to record and how to answer. Attestations to be applied are only
written down, and the clock is ignored.
-/
import ChainHead.Manager.Processor

namespace ChainHead

/-- How to treat the submissions of one committee index. -/
structure Cue where
  seed : Option Root := none
  /-- The voters to record, if any are to be. -/
  voters : Option (List ValidatorIndex) := none
  verdict : Verdict := .invalid (.stated "")
  deriving DecidableEq, Repr, Inhabited

/-- The cues and the voters of the attestations that were to be applied, oldest first. -/
structure Rehearsal where
  cues : List Cue := []
  applied : List (List ValidatorIndex) := []
  deriving DecidableEq, Repr, Inhabited

namespace Rehearsal

/-- The facts after a cue. -/
def recordFacts (cue : Cue) (s : Submission) (facts : Facts) : Facts :=
  let facts := match cue.seed with
    | some seed => facts.recordSeed seed
    | none => facts
  match cue.voters with
  | some voters =>
    { facts with indexed := facts.indexed <|> some ⟨voters, s.data, s.attestation.signature⟩ }
  | none => facts

/-- The processor that follows the cues. -/
def processor : Processor Rehearsal where
  process _ r s facts :=
    let cue := r.cues.getD s.data.index.toNat {}
    pure (r, recordFacts cue s facts, cue.verdict)
  apply r a := pure { r with applied := r.applied ++ [a.indices] }
  onSlot r _ := r

end Rehearsal

end ChainHead
