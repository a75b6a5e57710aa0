/-
The judge: the processor that checks submissions for the choice of a
head and records their votes in the store.

`examine` checks in a fixed order: the epoch of the target, that anybody
voted, the slot against the clock, the age, the blocks, how the blocks
are related, who voted, and the signature. A block that is missing is no
fault of the submission. What passes is applied at once if its slot is
over, and saved otherwise.
-/
import ChainHead.Manager.Processor
import ChainHead.Store
import ChainHead.Verification.Indexed

namespace ChainHead

/-- What a judge is set up with. -/
structure JudgeConfig where
  preset : Preset
  scheme : SignatureScheme
  /-- How many slots ahead of the clock an attestation may be. -/
  maxFutureSlots : UInt64
  /-- The state at the start of a target epoch, where committees and keys are looked up. -/
  stateAt : Checkpoint → Except String BeaconState

/-- The store and the clock that a judge goes by. -/
structure Judge where
  store : Store
  currentSlot : Slot := 0

namespace Judge

/-- The number of slots that an attestation may usually be ahead. -/
def defaultMaxFutureSlots : UInt64 := 2

/-- Why a submission is not accepted: a block is missing, or it is rejected. -/
inductive Obstacle where
  | missing (root : Root)
  | rejection (reason : Rejection)
  deriving DecidableEq, Repr

-- ============================================================ checks

/-- The checks of an attestation against the clock. -/
def checkTime (c : JudgeConfig) (current : Slot) (a : Attestation) : Except Rejection Unit := do
  let d := a.data
  if d.target.epoch ≠ Epoch.ofSlot c.preset d.slot then
    throw (.epochMismatch d.target.epoch d.slot)
  if a.bits.count = 0 then throw .noBitsSet
  if Word.addSat current c.maxFutureSlots < d.slot then throw (.tooFarAhead d.slot current)
  let previous := Word.subSat (Epoch.ofSlot c.preset current) 1
  if d.target.epoch < previous then throw (.tooOld d.target.epoch previous)

/-- The first of the target and the head of data that is not in the store. -/
def missingBlock? (store : Store) (d : AttestationData) : Option Root :=
  [d.target.root, d.beaconBlockRoot].find? fun root => !store.tree.contains root

/-- The checks of how head and target are related. -/
def checkBlocks (c : JudgeConfig) (store : Store) (d : AttestationData) :
    Except Rejection Unit := do
  let some headSlot := store.tree.slot? d.beaconBlockRoot
    | throw (.blockPruned d.beaconBlockRoot)
  if d.slot < headSlot then throw (.headTooLate d.slot headSlot)
  let start := Epoch.startSlot c.preset d.target.epoch
  if store.tree.ancestorAtSlot? d.beaconBlockRoot start ≠ some d.target.root then
    throw (.targetNotAncestor d.target d.beaconBlockRoot)

/-- Whether the signature of a submission is verified. -/
def signatureCheck (features : Features) (s : Submission) : Verification.SignatureCheck :=
  if s.isOwn && features.has .trustOwnAttestationSignatures then .waived else .required

/-- The checks of voters and signature; what is learned stays learned even if a later check
fails. -/
def checkVoters (c : JudgeConfig) (features : Features) (s : Submission) (facts : Facts) :
    Facts × Except Rejection Unit :=
  match c.stateAt s.data.target with
  | .error reason => (facts, .error (.stated reason))
  | .ok state =>
    match facts.recordIndexed fun _ => state.indexed s.attestation with
    | .error e => (facts, .error (.check e))
    | .ok (indexed, facts) =>
      match Verification.checkIndexed c.scheme state (signatureCheck features s) true indexed with
      | .error e => (facts, .error (.check e))
      | .ok () => (facts.recordSeed (state.shufflingSeed s.data.target.epoch), .ok ())

/-- All checks, in order. -/
def examine (c : JudgeConfig) (features : Features) (j : Judge) (s : Submission) (facts : Facts) :
    Facts × Except Obstacle Unit :=
  match checkTime c j.currentSlot s.attestation with
  | .error reason => (facts, .error (.rejection reason))
  | .ok () =>
    match missingBlock? j.store s.data with
    | some root => (facts, .error (.missing root))
    | none =>
      match checkBlocks c j.store s.data with
      | .error reason => (facts, .error (.rejection reason))
      | .ok () =>
        let (facts, result) := checkVoters c features s facts
        (facts, result.mapError .rejection)

-- ========================================================= processor

/-- Decides about a submission and records its votes if its slot is over. -/
def process (c : JudgeConfig) (features : Features) (j : Judge) (s : Submission) (facts : Facts) :
    Logged (Judge × Facts × Verdict) :=
  match examine c features j s facts with
  | (facts, .error (.missing root)) => pure (j, facts, .unknownBlock root)
  | (facts, .error (.rejection reason)) => pure (j, facts, .invalid reason)
  | (facts, .ok ()) =>
    if j.currentSlot ≤ s.data.slot then pure (j, facts, .savedForFuture)
    else
      match facts.indexed with
      | none => pure (j, facts, .successful)
      | some indexed => do
        let store ← j.store.onAttestation indexed
        return ({ j with store }, facts, .successful)

/-- Records the votes of an attestation that was checked before. -/
def apply (j : Judge) (a : IndexedAttestation) : Logged Judge := do
  Logged.note (.applying a)
  let store ← j.store.onAttestation a
  return { j with store }

/-- Follows the clock, which never goes back. -/
def onSlot (j : Judge) (slot : Slot) : Judge :=
  { j with currentSlot := max j.currentSlot slot }

/-- The judge as a processor. -/
def processor (c : JudgeConfig) : Processor Judge where
  process := process c
  apply := apply
  onSlot := onSlot

end Judge

end ChainHead
