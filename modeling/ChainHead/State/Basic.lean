/-
Beacon states, as far as attestations are checked against them.

A state is given by what can be asked of it. Committees and shuffling
seeds are asked for by slot and epoch; how a state comes by them is not
said here.
-/
import ChainHead.Attestation
import ChainHead.Domain

namespace ChainHead

/-- What attestations need to know of a state of the chain. -/
structure BeaconState where
  slot : Slot
  fork : Fork
  genesisValidatorsRoot : Root
  currentJustified : Checkpoint
  previousJustified : Checkpoint
  finalized : Checkpoint
  /-- The number of committees in a slot. -/
  committeeCount : Slot → UInt64
  /-- The members of a committee, if there is one. -/
  committee : Slot → CommitteeIndex → Option (List ValidatorIndex)
  /-- The public key of a validator, if there is one. -/
  publicKey : ValidatorIndex → Option PublicKeyBytes
  /-- The seed that committees of an epoch were shuffled with. -/
  shufflingSeed : Epoch → Root

namespace BeaconState

/-- The epoch of a state. -/
def currentEpoch (p : Preset) (state : BeaconState) : Epoch :=
  Epoch.ofSlot p state.slot

/-- The epoch before that of a state. -/
def previousEpoch (p : Preset) (state : BeaconState) : Epoch :=
  (state.currentEpoch p).previous

/-- The domain of a kind of message in an epoch, under the fork version of that epoch. -/
def domain (state : BeaconState) (kind : DomainType) (epoch : Epoch) : Domain :=
  let version :=
    if epoch < state.fork.epoch then state.fork.previousVersion else state.fork.currentVersion
  Domain.compute kind version state.genesisValidatorsRoot

/-- What validators sign when they vote for data. -/
def signingRoot (state : BeaconState) (data : AttestationData) : Root :=
  Domain.signingRoot data.hashTreeRoot (state.domain Domain.beaconAttester data.target.epoch)

end BeaconState

end ChainHead
