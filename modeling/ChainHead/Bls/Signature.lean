/-
BLS signatures with public keys in `G1` and signatures in `G2`.

A secret key is a number below the order of the groups; its public key
is that multiple of the generator, and its signature of a message is
that multiple of the point the message hashes to. Keys and signatures
for one message can be summed, and one verification of the sums stands
for all of them.
-/
import ChainHead.Bls.Compressed
import ChainHead.Bls.HashToCurve
import ChainHead.Bls.Pairing
import ChainHead.Bls.Scheme
import ChainHead.Hmac

namespace ChainHead.Bls

-- ======================================================= secret keys

/-- A number from one up to the group order, exclusive. -/
structure SecretKey where
  scalar : Nat
  deriving DecidableEq, Repr

namespace SecretKey

/-- The key that 32 bytes spell, unless it is out of range. -/
def ofBytes (bytes : Root) : Except KeyError SecretKey :=
  if bytes.toNat = 0 ∨ groupOrder ≤ bytes.toNat then .error .invalidSecretKey
  else .ok ⟨bytes.toNat⟩

/-- A candidate for the key of some keying material under a salt. -/
def candidate (salt material : List UInt8) : Nat :=
  let key := Hmac.extract salt (material ++ [0])
  Bytes.toNat (Hmac.expand key (Bytes.ofNat 2 48) 48) % groupOrder

/-- The first candidate that is not zero, with a fresh salt for each of at most `tries`. -/
def search (material : List UInt8) : (tries : Nat) → (salt : List UInt8) → Except KeyError SecretKey
  | 0, _ => .error .invalidSecretKey
  | tries + 1, salt =>
    let fresh := Hmac.hash salt
    let scalar := candidate fresh material
    if scalar = 0 then search material tries fresh else .ok ⟨scalar⟩

/-- The key derived from at least 32 bytes of keying material. -/
def derive (material : List UInt8) : Except KeyError SecretKey :=
  if material.length < 32 then .error .invalidSecretKey
  else search material 256 "BLS-SIG-KEYGEN-SALT-".toUTF8.toList

/-- The public key of a secret key. -/
def publicKey (k : SecretKey) : G1 :=
  G1.generator.multiple k.scalar

/-- The signature of a message. -/
def sign (k : SecretKey) (message : List UInt8) : G2 :=
  (HashToCurve.hash message).multiple k.scalar

end SecretKey

-- ========================================================== decoding

/-- The public key with a compressed form: in the group and not infinity. -/
def decodePublicKey (bytes : PublicKeyBytes) : Except KeyError G1 :=
  match G1.decompress? bytes with
  | some p => if p == .infinity || !G1.inGroup p then .error .invalidPublicKey else .ok p
  | none => .error .invalidPublicKey

/-- The signature with a compressed form; whether it is in the group is left to verification. -/
def decodeSignature (bytes : SignatureBytes) : Except KeyError G2 :=
  match G2.decompress? bytes with
  | some p => .ok p
  | none => .error .invalidSignature

/-- The compressed form of the sum of no signatures. -/
def emptySignature : SignatureBytes :=
  G2.compress .infinity

-- ====================================================== verification

/-- Whether a signature of a message was made with the secret key of a public key. -/
def verify (signature : G2) (message : List UInt8) (key : G1) : Bool :=
  key != .infinity && G2.inGroup signature &&
    Pairing.productIsOne [(key, HashToCurve.hash message), (G1.generator.neg, signature)]

/-- Whether a signature is the sum of signatures of one message, one for each key. -/
def verifySum (signature : G2) (message : List UInt8) : List G1 → Bool
  | [] => false
  | key :: keys =>
    let sum := keys.foldl (fun acc k => acc.add (.ofPoint k)) (Jacobian.ofPoint key)
    verify signature message sum.toPoint

/-- The scheme in use. -/
def scheme : SignatureScheme where
  PublicKey := G1
  Signature := G2
  decodeKey := decodePublicKey
  decode := decodeSignature
  encode := G2.compress
  add := Point.add
  verify signature message keys := verifySum signature (Bytes.toList message) keys

end ChainHead.Bls
