/-
Which attestations may be included in a block that is built on a state.

`check` looks at the data alone, in the order in which a block's
attestations are processed: the committee, the target epoch, the slot
within it, the age, and the source. `sameShuffling` compares the seed an
attestation's committee was shuffled with: attestations of another fork
can have the same data and different committees.
-/
import ChainHead.State.Basic

namespace ChainHead.Inclusion

/-- Why data may not be included. -/
inductive Refusal where
  | committeeIndexTooHigh (index : CommitteeIndex) (count : UInt64)
  | notFromCurrentOrPreviousEpoch (target : Epoch)
  | slotNotInEpoch (slot : Slot) (target : Epoch)
  | tooQuick (slot stateSlot : Slot)
  | tooLate (slot stateSlot : Slot)
  | wrongCurrentSource (source expected : Checkpoint)
  | wrongPreviousSource (source expected : Checkpoint)
  deriving DecidableEq, Repr

/-- The wording of a refusal. -/
def Refusal.message : Refusal → String
  | committeeIndexTooHigh index count =>
    s!"committee index too high (index: {index.toNat}, committee count: {count.toNat})"
  | notFromCurrentOrPreviousEpoch target =>
    s!"attestation not from current or previous epoch (target epoch: {target.toNat})"
  | slotNotInEpoch slot target =>
    s!"attestation slot {slot.toNat} not in target epoch {target.toNat}"
  | tooQuick slot stateSlot =>
    s!"attestation from slot {slot.toNat} submitted too quickly (state slot: {stateSlot.toNat})"
  | tooLate slot stateSlot =>
    s!"attestation from slot {slot.toNat} submitted too late (state slot: {stateSlot.toNat})"
  | wrongCurrentSource source expected =>
    s!"attestation source does not match current justified checkpoint " ++
    s!"(source: {source.text}, expected: {expected.text})"
  | wrongPreviousSource source expected =>
    s!"attestation source does not match previous justified checkpoint " ++
    s!"(source: {source.text}, expected: {expected.text})"

/-- The number of slots that have to pass before an attestation can be included. -/
def minimumDelay : UInt64 := 1

/-- A rule that accepts or refuses data for a block built on a state. -/
abbrev Rule := BeaconState → AttestationData → Except Refusal Unit

/-- The rule of the chain. -/
def check (p : Preset) : Rule := fun state d => do
  let count := state.committeeCount d.slot
  if count ≤ d.index then throw (.committeeIndexTooHigh d.index count)
  let current := state.currentEpoch p
  if d.target.epoch ≠ state.previousEpoch p ∧ d.target.epoch ≠ current then
    throw (.notFromCurrentOrPreviousEpoch d.target.epoch)
  if d.target.epoch ≠ Epoch.ofSlot p d.slot then
    throw (.slotNotInEpoch d.slot d.target.epoch)
  if state.slot < Word.addSat d.slot minimumDelay then throw (.tooQuick d.slot state.slot)
  if Word.addSat d.slot p.slotsPerEpoch < state.slot then throw (.tooLate d.slot state.slot)
  if d.target.epoch = current then
    if d.source ≠ state.currentJustified then
      throw (.wrongCurrentSource d.source state.currentJustified)
  else
    if d.source ≠ state.previousJustified then
      throw (.wrongPreviousSource d.source state.previousJustified)

/-- The rule that accepts everything. -/
def acceptAll : Rule := fun _ _ => .ok ()

/-- Whether a committee was shuffled with the seed that a state has for an epoch. -/
def sameShuffling (state : BeaconState) (seed : Root) (d : AttestationData) : Bool :=
  seed == state.shufflingSeed d.target.epoch

end ChainHead.Inclusion
