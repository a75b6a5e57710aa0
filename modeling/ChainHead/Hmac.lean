/-
HMAC and HKDF over SHA-256, for the derivation of secret keys.
-/
import ChainHead.Sha256

namespace ChainHead.Hmac

/-- The hash of a list of bytes, as bytes. -/
def hash (message : List UInt8) : List UInt8 :=
  Bytes.toList (Sha256.digest message)

/-- A key filled up with zeros to a block, after hashing if it is longer than one. -/
def blockKey (key : List UInt8) : List UInt8 :=
  let short := if 64 < key.length then hash key else key
  short ++ List.replicate (64 - short.length) 0

/-- The authentication code of a message under a key. -/
def code (key message : List UInt8) : List UInt8 :=
  let k := blockKey key
  let inner := hash (k.map (· ^^^ 0x36) ++ message)
  hash (k.map (· ^^^ 0x5c) ++ inner)

/-- The uniform key behind some keying material. -/
def extract (salt material : List UInt8) : List UInt8 :=
  code salt material

/-- Further blocks of output, numbered from `number` on, each made from the one before. -/
def expandBlocks (key info : List UInt8) : (blocks number : Nat) → List UInt8 → List UInt8
  | 0, _, _ => []
  | blocks + 1, number, last =>
    let next := code key (last ++ info ++ [UInt8.ofNat number])
    next ++ expandBlocks key info blocks (number + 1) next

/-- As many bytes of output as asked for. -/
def expand (key info : List UInt8) (length : Nat) : List UInt8 :=
  (expandBlocks key info ((length + 31) / 32) 1 []).take length

end ChainHead.Hmac
