/-
Submissions: attestations as they are handed in, and what is learned
about them on the way.

One submission can be handed in several times and is then the same
submission each time, while two submissions of equal attestations are
two. `Submission.id` tells them apart. What is learned of a submission,
its `Facts`, is kept apart from it in a `Ledger`, which whoever handles
submissions carries along: that it was passed on to the network, who
voted, and the shuffling seed of the committee. Voters and seed are
recorded once and never change.
-/
import ChainHead.Attestation
import Std.Data.ExtTreeMap

namespace ChainHead

/-- Where a submission came from. -/
inductive Origin where
  | network
  | aggregator
  | ownValidator
  deriving DecidableEq, Repr, Inhabited

/-- An attestation as it was handed in. -/
structure Submission where
  id : Nat
  attestation : Attestation
  origin : Origin := .network
  deriving DecidableEq, Repr, Inhabited

/-- What has been learned about a submission. -/
structure Facts where
  gossiped : Bool := false
  indexed : Option IndexedAttestation := none
  seed : Option Root := none
  deriving DecidableEq, Repr, Inhabited

-- ======================================================= submissions

namespace Submission

/-- What the attestation votes for. -/
def data (s : Submission) : AttestationData := s.attestation.data

/-- Who of the committee voted. -/
def bits (s : Submission) : Bitfield := s.attestation.bits

/-- The root of the data. -/
def dataRoot (s : Submission) : Root := s.data.hashTreeRoot

/-- Whether the attestation was handed in as an aggregate. -/
def isAggregate (s : Submission) : Bool := s.origin == .aggregator

/-- Whether the attestation was made by a validator of this node. -/
def isOwn (s : Submission) : Bool := s.origin == .ownValidator

end Submission

-- ============================================================= facts

namespace Facts

/-- The facts with a seed recorded, unless there is one. -/
def recordSeed (f : Facts) (seed : Root) : Facts :=
  { f with seed := f.seed <|> some seed }

/-- The facts with voters recorded, unless there are some; `expand` is asked only when needed. -/
def recordIndexed {ε : Type} (f : Facts) (expand : Unit → Except ε IndexedAttestation) :
    Except ε (IndexedAttestation × Facts) :=
  match f.indexed with
  | some indexed => .ok (indexed, f)
  | none => (expand ()).map fun indexed => (indexed, { f with indexed := some indexed })

/-- A fact that may be missing, in messages. -/
def cellText (value : Option String) : String :=
  match value with
  | some text => s!"OnceCell({text})"
  | none => "OnceCell(Uninit)"

end Facts

/-- A submission and its facts in messages. -/
def Submission.text (s : Submission) (f : Facts) : String :=
  s!"ValidateableAttestation \x7b attestation: {s.attestation.text}, " ++
  s!"data_root: {Bytes.hex s.dataRoot}, is_aggregate: {s.isAggregate}, " ++
  s!"produced_locally: {s.isOwn}, gossiped: {f.gossiped}, " ++
  s!"indexed_attestation: {Facts.cellText (f.indexed.map IndexedAttestation.text)}, " ++
  s!"committee_shuffling_seed: {Facts.cellText (f.seed.map Bytes.hex)} \x7d"

-- ============================================================ ledger

/-- The facts about every submission; one that is not listed has none. -/
structure Ledger where
  entries : Std.ExtTreeMap Nat Facts := ∅

namespace Ledger

/-- The facts about a submission. -/
def get (l : Ledger) (s : Submission) : Facts :=
  l.entries.getD s.id {}

/-- The ledger with the facts about a submission replaced. -/
def put (l : Ledger) (s : Submission) (f : Facts) : Ledger :=
  ⟨l.entries.insert s.id f⟩

/-- Marks a submission as passed on to the network; tells whether it had not been. -/
def markGossiped (l : Ledger) (s : Submission) : Ledger × Bool :=
  let f := l.get s
  (l.put s { f with gossiped := true }, !f.gossiped)

end Ledger

end ChainHead
