/-
Sample states: states with known secret keys and regular committees, to
make signed attestations for trials.

Committees are the same in every epoch. The committee at a slot with an
index has the place `slot in the epoch * committees per slot + index`,
and its members are the validators whose index leaves that remainder
when divided by the number of places in an epoch. Keys are derived from
validator indices, shuffling seeds from epochs and a salt.
-/
import ChainHead.Bls.Signature
import ChainHead.State.Basic

namespace ChainHead

/-- A state with known secret keys. -/
structure SampleState where
  preset : Preset
  keys : Array Bls.SecretKey
  publicKeys : Array PublicKeyBytes
  slot : Slot := 0
  currentJustified : Checkpoint := {}
  previousJustified : Checkpoint := {}
  finalized : Checkpoint := {}
  committeesPerSlot : UInt64 := 1
  /-- Sets the seeds of this state apart from those of another fork. -/
  salt : UInt64 := 0

namespace SampleState

/-- Why an attestation cannot be made. -/
inductive Error where
  | noSigners
  | noCommittee (slot : Slot) (index : CommitteeIndex)
  | bits (error : Bitfield.Error)
  deriving DecidableEq, Repr

/-- The wording of a failure. -/
def Error.message : Error → String
  | noSigners => "attestation must have at least one signer"
  | noCommittee slot index => s!"no committee at slot {slot.toNat} with index {index.toNat}"
  | bits error => error.message

-- ============================================================= making

/-- The secret key of a validator. -/
def keyOf (validator : ValidatorIndex) : Except KeyError Bls.SecretKey :=
  Bls.SecretKey.derive (Bytes.toList (Sha256.pair (Merkle.uint64Chunk validator) 0))

/-- A state with the given number of validators. -/
def make (preset : Preset) (validators : Nat) : Except KeyError SampleState := do
  let keys ← (Array.range validators).mapM fun v => keyOf (UInt64.ofNat v)
  return { preset, keys, publicKeys := keys.map fun k => Bls.G1.compress k.publicKey }

/-- The state with another number of committees per slot, of which there is at least one. -/
def withCommitteesPerSlot (s : SampleState) (count : UInt64) : SampleState :=
  { s with committeesPerSlot := max count 1 }

-- ============================================================ the view

/-- The genesis validators root of all sample states. -/
def genesisValidatorsRoot : Root :=
  Bytes.ofList 256 (List.replicate 32 0x42)

/-- The members of a committee. -/
def committee? (s : SampleState) (slot : Slot) (index : CommitteeIndex) :
    Option (List ValidatorIndex) :=
  if s.committeesPerSlot ≤ index then none
  else
    let places := s.preset.slotsPerEpoch.toNat * s.committeesPerSlot.toNat
    let place :=
      (slot % s.preset.slotsPerEpoch).toNat * s.committeesPerSlot.toNat + index.toNat
    some (((List.range s.keys.size).filter fun v => v % places == place).map UInt64.ofNat)

/-- The seed of an epoch. -/
def shufflingSeed (s : SampleState) (epoch : Epoch) : Root :=
  Sha256.pair (Merkle.uint64Chunk epoch) (Merkle.uint64Chunk s.salt)

/-- A sample state as any other state. -/
def view (s : SampleState) : BeaconState where
  slot := s.slot
  fork := {}
  genesisValidatorsRoot := genesisValidatorsRoot
  currentJustified := s.currentJustified
  previousJustified := s.previousJustified
  finalized := s.finalized
  committeeCount _ := s.committeesPerSlot
  committee := s.committee?
  publicKey v := s.publicKeys[v.toNat]?
  shufflingSeed := s.shufflingSeed

-- ======================================================= attestations

/-- The members of a committee that has to exist. -/
def committee (s : SampleState) (slot : Slot) (index : CommitteeIndex) :
    Except Error (List ValidatorIndex) :=
  match s.committee? slot index with
  | some members => .ok members
  | none => .error (.noCommittee slot index)

/-- The bits at the given positions set, one after the other. -/
def setAll (bits : Bitfield) : List Nat → Except Error Bitfield
  | [] => .ok bits
  | position :: rest =>
    match bits.set position true with
    | .ok bits => setAll bits rest
    | .error e => .error (.bits e)

/-- The sum of the signatures of validators, as multiples of the point signed. -/
def signAll (s : SampleState) (point : Bls.G2) (signers : List ValidatorIndex) : Bls.G2 :=
  let signatures := signers.filterMap fun v => s.keys[v.toNat]?.map fun k => point.multiple k.scalar
  signatures.foldl Bls.Point.add .infinity

/-- The attestation of the committee members at the given positions. -/
def attest (s : SampleState) (data : AttestationData) (positions : List Nat) :
    Except Error Attestation := do
  if positions.isEmpty then throw .noSigners
  let members ← s.committee data.slot data.index
  let empty ← (Bitfield.withLength s.preset.maxValidatorsPerCommittee members.length).mapError .bits
  let bits ← setAll empty positions
  let point := Bls.HashToCurve.hash (Bytes.toList (s.view.signingRoot data))
  let signers := positions.eraseDups.filterMap fun position => members[position]?
  return ⟨bits, data, Bls.G2.compress (s.signAll point signers)⟩

/-- The attestation of a whole committee. -/
def attestFully (s : SampleState) (data : AttestationData) : Except Error Attestation := do
  let members ← s.committee data.slot data.index
  s.attest data (List.range members.length)

end SampleState

end ChainHead
