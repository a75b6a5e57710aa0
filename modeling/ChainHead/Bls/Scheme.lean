/-
Signature schemes whose signatures can be summed.

`SignatureScheme` lists what the rest of the library asks of one: keys
and signatures are decoded from bytes, signatures are summed and encoded
again, and a sum is verified against all the keys behind it at once.
Everything that merges or checks attestations takes a scheme as a
parameter; `Bls.scheme` is the one in use.
-/
import ChainHead.Bytes

namespace ChainHead

/-- Why keys or signatures cannot be used. -/
inductive KeyError where
  | invalidPublicKey
  | invalidSecretKey
  | invalidSignature
  deriving DecidableEq, Repr

/-- The wording of a refusal. -/
def KeyError.message : KeyError → String
  | invalidPublicKey => "invalid public key"
  | invalidSecretKey => "invalid secret key"
  | invalidSignature => "invalid signature"

/-- Keys and signatures with the operations that attestations need. -/
structure SignatureScheme where
  PublicKey : Type
  Signature : Type
  /-- Decodes a key that may be used for verification. -/
  decodeKey : PublicKeyBytes → Except KeyError PublicKey
  /-- Decodes a signature, which need not have been made by anybody. -/
  decode : SignatureBytes → Except KeyError Signature
  encode : Signature → SignatureBytes
  /-- The sum of two signatures. -/
  add : Signature → Signature → Signature
  /-- Whether a signature of a message is the sum of one signature for each key. -/
  verify : (signature : Signature) → (message : Root) → List PublicKey → Bool

end ChainHead
