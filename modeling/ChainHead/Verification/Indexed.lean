/-
Checks of an attestation whose voters are known.

There have to be voters; of an attestation that came from elsewhere they
also have to be in strictly increasing order. Then the signature is
verified with the keys of all voters, unless that is waived.
-/
import ChainHead.State.Voters

namespace ChainHead.Verification

/-- Whether a signature has to be verified. -/
inductive SignatureCheck where
  | required
  | waived
  deriving DecidableEq, Repr

/-- Whether every element is less than the next. -/
def isIncreasing : List ValidatorIndex → Bool
  | a :: b :: rest => a < b && isIncreasing (b :: rest)
  | _ => true

/-- Accepts the sum of signatures of a message by all keys. -/
def checkSignature (scheme : SignatureScheme) (message : Root) (signature : SignatureBytes)
    (keys : List scheme.PublicKey) (kind : SignatureKind) : Except Error Unit := do
  let decoded ← (scheme.decode signature).mapError .key
  if scheme.verify decoded message keys then return ()
  throw (.signatureInvalid kind)

/-- The key of a validator, ready for use. -/
def keyOf (scheme : SignatureScheme) (state : BeaconState) (validator : ValidatorIndex) :
    Except Error scheme.PublicKey :=
  match state.publicKey validator with
  | none => .error (.noPublicKey validator)
  | some bytes => (scheme.decodeKey bytes).mapError .key

/-- Accepts an attestation with voters who signed it; `received` asks for their order too. -/
def checkIndexed (scheme : SignatureScheme) (state : BeaconState)
    (signatures : SignatureCheck) (received : Bool) (a : IndexedAttestation) : Except Error Unit := do
  if a.indices.isEmpty then throw .noVoters
  if received && !isIncreasing a.indices then throw .votersNotSorted
  match signatures with
  | .waived => return ()
  | .required =>
    let keys ← a.indices.mapM (keyOf scheme state)
    checkSignature scheme (state.signingRoot a.data) a.signature keys .attestation

end ChainHead.Verification
