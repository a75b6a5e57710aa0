/-
Why an attestation does not stand up to a check against a state.
-/
import ChainHead.Bls.Scheme
import ChainHead.Epoch

namespace ChainHead.Verification

/-- What kind of signature is checked. -/
inductive SignatureKind where
  | aggregateAttestation
  | attestation
  deriving DecidableEq, Repr

/-- The name of a kind of signature. -/
def SignatureKind.text : SignatureKind → String
  | aggregateAttestation => "aggregate attestation signature"
  | attestation => "attestation signature"

/-- Why an attestation does not stand up to a check. -/
inductive Error where
  | noVoters
  | votersNotSorted
  | noCommittee (slot : Slot) (index : UInt64)
  | committeeLength (bits members : Nat)
  | noPublicKey (validator : UInt64)
  | signatureInvalid (kind : SignatureKind)
  | key (error : KeyError)
  deriving DecidableEq, Repr

/-- The wording of a refusal. -/
def Error.message : Error → String
  | noVoters => "attestation has no attesting indices"
  | votersNotSorted => "attesting indices are not sorted and unique"
  | noCommittee slot index => s!"committee {index.toNat} at slot {slot.toNat} does not exist"
  | committeeLength bits members =>
    s!"aggregation bitlist length {bits} does not match committee length {members}"
  | noPublicKey validator => s!"no public key for validator {validator.toNat}"
  | signatureInvalid kind => s!"{kind.text} is invalid"
  | key error => error.message

end ChainHead.Verification
