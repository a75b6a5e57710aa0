/-
Byte strings of a fixed length: block roots, shuffling seeds, domains,
fork versions, compressed public keys and compressed signatures.

# One number per string

A string of `n` bytes is the number of `8 * n` bits that its bytes
spell, most significant byte first. Comparing two strings byte by byte
from the left is then comparing two numbers, which is how ties between
equally heavy blocks are decided; joining two strings is joining two
bit vectors; and equality, order and zero come with the numbers.

`Bytes.toList` and `Bytes.ofList` go between a string and its bytes,
`Bytes.hex` is its printed form.
-/

namespace ChainHead

-- ================================================ the strings in use

/-- A 32-byte hash: of a block, of attestation data, of a seed. -/
abbrev Root := BitVec 256

/-- Roots are compared as any strings are, and can be keys of ordered maps. -/
instance : Std.TransOrd Root := inferInstance

/-- A 32-byte signature domain. -/
abbrev Domain := BitVec 256

/-- The first 4 bytes of a domain, which name the kind of message. -/
abbrev DomainType := BitVec 32

/-- A 4-byte fork version. -/
abbrev Version := BitVec 32

/-- A compressed public key of 48 bytes. -/
abbrev PublicKeyBytes := BitVec 384

/-- A compressed signature of 96 bytes. -/
abbrev SignatureBytes := BitVec 768

namespace Bytes

-- ==================================================== lists of bytes

/-- The `count` low bytes of a number, most significant first. -/
def ofNat : (count : Nat) → Nat → List UInt8
  | 0, _ => []
  | count + 1, n => UInt8.ofNat (n >>> (8 * count)) :: ofNat count n

/-- The number that bytes spell, most significant first. -/
def toNat (bytes : List UInt8) : Nat :=
  bytes.foldl (fun n b => n * 256 + b.toNat) 0

/-- The bytes of a string, first byte first. -/
def toList {w : Nat} (b : BitVec w) : List UInt8 :=
  ofNat (w / 8) b.toNat

/-- The string that holds the given bytes. -/
def ofList (w : Nat) (bytes : List UInt8) : BitVec w :=
  BitVec.ofNat w (toNat bytes)

-- ====================================================== printed form

/-- The lowercase hexadecimal digit of a number below sixteen. -/
def hexDigit (n : Nat) : Char :=
  if n < 10 then Char.ofNat (48 + n) else Char.ofNat (87 + n)

/-- Two hexadecimal digits for each byte. -/
def hexDigits (bytes : List UInt8) : List Char :=
  bytes.flatMap fun b => [hexDigit (b.toNat / 16), hexDigit (b.toNat % 16)]

/-- Bytes of any number as `0x` and hexadecimal digits. -/
def hexOf (bytes : List UInt8) : String :=
  "0x" ++ String.ofList (hexDigits bytes)

/-- A string as `0x` and hexadecimal digits. -/
def hex {w : Nat} (b : BitVec w) : String :=
  hexOf (toList b)

end Bytes

end ChainHead
